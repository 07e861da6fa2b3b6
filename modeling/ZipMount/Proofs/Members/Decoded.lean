import ZipMount.Proofs.Members.Shows

namespace ZipMount.Members

open MemberKey

variable {ms : Members} {t : Tree}

/-- The recursion stops at the first directory that is there; what is above that is there too. -/
theorem Shows.ensureParents {k : MemberKey} (h : ms.Shows t) (hw : t.WellFormed)
    (hk : Canonical k) (time : Instant) :
    (ms.ensureParents k.text time).Shows (t.ensureParents k time) := by
  have hp : Canonical (parent k) := canonical_parent hk
  rw [Members.ensureParents, beforeLastSlash_text hk, h.entries _ hp]
  by_cases hn : parent k = []
  · have hnil : (parent k).text = "" := congrArg text hn
    rw [dif_pos (Or.inl hnil), hw.ensureParents_eq (Or.inl hn) time]
    exact h
  by_cases hthere : (t.find? (parent k)).isSome
  · have hmem := (Tree.mem_order_iff hn).mpr hthere
    rw [dif_pos (Or.inr hthere), hw.ensureParents_eq (Or.inr hmem) time]
    exact h
  have hstop : ¬ ((parent k).text = "" ∨ (t.find? (parent k)).isSome = true) := by
    rintro (he | hsome)
    · exact hn (eq_nil_of_text hp he)
    · exact hthere hsome
  rw [dif_neg hstop]
  have hsplit := List.dropLast_concat_getLast hn
  have hstarts : starts (parent k) = starts (parent (parent k)) ++ [parent k] := by
    conv_lhs => rw [← hsplit, starts_concat, hsplit]
    rfl
  -- the directories above the parent do not bring the parent itself
  have hmissing : ((t.ensureParents (parent k) time).find? (parent k)).isSome = false := by
    have hnot : parent k ∉ starts (parent (parent k)) := by
      intro hmem
      have hle := (mem_starts hmem).2.length_le
      have hlt := parent_length_lt hn
      omega
    rw [Tree.find?_ensureParents, if_neg hnot, Option.or_none]
    exact Bool.eq_false_iff.mpr hthere
  have hlast : t.ensureParents k time =
      (t.ensureParents (parent k) time).insert (parent k) (.directory time) := by
    rw [Tree.ensureParents, hstarts, List.foldl_append, List.foldl_cons, List.foldl_nil]
    exact if_neg (Bool.eq_false_iff.mp hmissing)
  rw [hlast]
  have hlt : (parent k).length < k.length := by
    apply parent_length_lt
    rintro rfl
    exact hn rfl
  exact (h.ensureParents hw hp time).insert hp hn _
termination_by k.length

/-- Members and a tree read alike: with the same failure, or both so that they hold the same. -/
inductive Alike : Except Error Members → Except Error Tree → Prop where
  | failed (e : Error) : Alike (.error e) (.error e)
  | done {ms : Members} {t : Tree} (h : ms.Shows t) : Alike (.ok ms) (.ok t)

theorem keyOf_eq_empty {path : String} : keyOf path = "" ↔ ofText path = [] :=
  ⟨eq_nil_of_text (canonical_ofText path), congrArg text⟩

theorem addEntry_eq (ms : Members) (e : Zip.Entry) :
    ms.addEntry (.ok e) =
      if keyOf e.name = "" then .ok ms
      else match Tree.entryMember e with
        | .error f => .error (.io f)
        | .ok m => .ok ((ms.ensureParents (keyOf e.name) m.times.modified).insert
            (keyOf e.name) m) := by
  change (if keyOf e.name = "" then pure ms else _) = _
  split
  · rfl
  · cases Tree.entryMember e <;> rfl

theorem Shows.addEntry (h : ms.Shows t) (hw : t.WellFormed)
    (found : Except ZipFault Zip.Entry) : Alike (ms.addEntry found) (t.addEntry found) := by
  cases found with
  | error f => exact .failed _
  | ok e =>
    rw [addEntry_eq, Tree.addEntry_eq]
    by_cases hn : ofText e.name = []
    · rw [if_pos hn, if_pos (keyOf_eq_empty.mpr hn)]
      exact .done h
    rw [if_neg hn, if_neg (mt keyOf_eq_empty.mp hn)]
    cases Tree.entryMember e with
    | error f => exact .failed _
    | ok m =>
      have hc := canonical_ofText e.name
      exact .done ((h.ensureParents hw hc m.times.modified).insert hc hn m)

theorem Shows.foldlM_addEntry (h : ms.Shows t) (hw : t.WellFormed)
    (found : List (Except ZipFault Zip.Entry)) :
    Alike (found.foldlM Members.addEntry ms) (found.foldlM Tree.addEntry t) := by
  induction found generalizing ms t with
  | nil => exact .done h
  | cons e es ih =>
    rw [List.foldlM_cons, List.foldlM_cons]
    have hstep := h.addEntry hw e
    generalize hx : ms.addEntry e = x at hstep ⊢
    generalize hr : t.addEntry e = r at hstep ⊢
    cases hstep with
    | failed e => exact .failed e
    | done h' => exact ih h' (hw.addEntry hr)

/-- An archive is read alike into members and into a tree. -/
theorem alike_ofEntries (now : Instant) (found : List (Except ZipFault Zip.Entry)) :
    Alike (ofEntries now found) (Tree.ofEntries now found) := by
  have hfold := (shows_empty now).foldlM_addEntry (Tree.wellFormed_empty now) found
  change Alike (found.foldlM Members.addEntry (empty now) >>= _) (found.foldlM Tree.addEntry _)
  generalize found.foldlM Members.addEntry (empty now) = x at hfold ⊢
  generalize found.foldlM Tree.addEntry (.empty now) = r at hfold ⊢
  cases hfold with
  | failed e => exact .failed e
  | done h => exact .done ⟨h.order, h.entries, h.keys⟩

theorem dirty_ofEntries {now : Instant} {found : List (Except ZipFault Zip.Entry)}
    (h : ofEntries now found = .ok ms) : ms.dirty = false := by
  obtain ⟨read, -, h⟩ := bind_eq_ok h
  cases h
  rfl

end ZipMount.Members
