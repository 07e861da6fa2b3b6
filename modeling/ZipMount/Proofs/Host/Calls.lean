import ZipMount.Proofs.Host.Changes

namespace ZipMount.Host

variable {h h' : Host} {loc : Location} {p : Pathname} {now : Instant}

/-- The shape is kept by what adds no entry and takes none out, if directories remain directories. -/
theorem WellFormed.of_keys_eq (hw : h.WellFormed) (hkeys : h'.entries.keys = h.entries.keys)
    (hcwd : h'.workingDirectory = h.workingDirectory)
    (hsame : ∀ l, h.kind? l = some .directory → h'.kind? l = some .directory) : h'.WellFormed := by
  refine ⟨?_, ?_, ?_, ?_, ?_⟩
  · rw [hkeys]
    exact hw.nodup
  · rw [hkeys]
    exact hw.ne_nil
  · rw [hkeys]
    exact hw.names
  · rw [hkeys]
    intro l hl
    exact hsame _ (hw.closed l hl)
  · rw [hcwd]
    exact hsame _ hw.working

/-- An entry altered to one of its own kind. -/
theorem WellFormed.alter (hw : h.WellFormed) {old node : HostNode} (hold : h.node? loc = some old)
    (hkind : old.kind = .directory → node.kind = .directory) : (h.alter loc node).WellFormed := by
  have hk : h.kind? loc = some old.kind := by
    rw [kind?, hold]
    rfl
  unfold Host.alter
  split
  · cases node with
    | directory modified =>
      apply hw.of_keys_eq
      · rfl
      · rfl
      · intro l hl
        by_cases hroot : l = []
        · rw [hroot, kind?_nil]
        · rw [kind?_of_ne_nil hroot] at hl ⊢
          exact hl
    | file data modified => exact hw
    | link target => exact hw
  · next hn =>
    have hmem := mem_keys_of_kind? hn hk
    apply hw.of_keys_eq
    · change (h.entries.put loc node).keys = h.entries.keys
      rw [Table.keys_put, if_pos hmem]
    · rfl
    · intro l hl
      rw [kind?_put h hn]
      split
      · next hsame =>
        subst hsame
        rw [hk, Option.some.injEq] at hl
        rw [hkind hl]
      · exact hl

theorem kind?_drop (h : Host) (now : Instant) {l : Location} (hne : l ≠ loc) :
    (h.drop now loc).kind? l = h.kind? l := by
  rw [drop, kind?_touch]
  by_cases hl : l = []
  · subst hl
    rfl
  · rw [kind?_of_ne_nil hl, kind?_of_ne_nil hl, Table.get?_erase, if_neg hne]

/-- An entry taken out that nothing is in. -/
theorem WellFormed.drop (hw : h.WellFormed) (now : Instant) (hempty : h.namesIn loc = [])
    (hcwd : (h.drop now loc).kind? h.workingDirectory = some .directory) :
    (h.drop now loc).WellFormed := by
  have hkeys : (h.drop now loc).entries.keys = h.entries.keys.filter (· ≠ loc) := by
    rw [Host.drop, keys_touch, Table.keys_erase]
  have hmem : ∀ l ∈ (h.drop now loc).entries.keys, l ∈ h.entries.keys := by
    intro l hl
    rw [hkeys] at hl
    exact (List.mem_filter.mp hl).1
  refine ⟨?_, fun l hl => hw.ne_nil l (hmem l hl), fun l hl => hw.names l (hmem l hl), ?_, ?_⟩
  · rw [hkeys]
    exact hw.nodup.filter _
  · intro l hl
    have hthere := hmem l hl
    have hne : l.dropLast ≠ loc := by
      intro hsame
      have hin : l.getLast (hw.ne_nil l hthere) ∈ h.namesIn loc := by
        rw [mem_namesIn, ← hsame, List.dropLast_concat_getLast]
        exact hthere
      rw [hempty] at hin
      cases hin
    rw [kind?_drop h now hne]
    exact hw.closed l hthere
  · rw [Host.drop, workingDirectory_touch]
    exact hcwd

theorem WellFormed.namesIn_eq_nil (hw : h.WellFormed) {k : HostKind} (hk : h.kind? loc = some k)
    (hkind : k ≠ .directory) : h.namesIn loc = [] := by
  apply List.eq_nil_iff_forall_not_mem.mpr
  intro n hn
  have hdirectory := hw.closed _ (mem_namesIn.mp hn)
  rw [List.dropLast_concat, hk, Option.some.injEq] at hdirectory
  exact hkind hdirectory

theorem setTimes_wellFormed (hw : h.WellFormed) {change : TimeChange}
    (hm : h.setTimes p change = .ok h') : h'.WellFormed := by
  obtain ⟨-, hr⟩ := onPath_ok hm
  obtain ⟨⟨loc, node⟩, hf, hr⟩ := bind_eq_ok hr
  obtain ⟨-, hnode⟩ := find_ok.mp hf
  cases hc : change.modified with
  | none =>
    simp only [hc] at hr
    cases hr
    exact hw
  | some t =>
    simp only [hc] at hr
    cases node with
    | directory modified =>
      cases hr
      exact hw.alter hnode fun _ => rfl
    | file data modified =>
      cases hr
      exact hw.alter hnode fun hk => nomatch hk
    | link target =>
      cases hr
      exact hw

theorem write_wellFormed (hw : h.WellFormed) {data : ByteArray} {mode : WriteMode}
    (hm : h.write now p data mode = .ok h') : h'.WellFormed := by
  obtain ⟨-, hr⟩ := onPath_ok hm
  have hnew : ∀ {m : Manner} {dir : Location} {n : Filename},
      h.lookup m p p.steps = .ok (.vacant dir n) →
        (h.add now (dir ++ [n]) (.file data now)).WellFormed := by
    intro m dir n hl
    obtain ⟨-, -, ha⟩ := lookup_ok.mp hl
    obtain ⟨hd, hfree, hn⟩ := vacant_of_advances (advances_of_advance ha)
      fun s hs => Pathname.isSegment_of_mem_steps hs
    exact hw.add now hd hn hfree _
  cases mode with
  | createNew =>
    obtain ⟨spot, hl, hr⟩ := bind_eq_ok hr
    cases spot with
    | entry l => cases hr
    | vacant dir n =>
      cases hr
      exact hnew hl
  | replace =>
    obtain ⟨spot, hl, hr⟩ := bind_eq_ok hr
    cases spot with
    | vacant dir n =>
      cases hr
      exact hnew hl
    | entry l =>
      cases hn : h.node? l with
      | none =>
        simp only [hn] at hr
        cases hr
      | some node =>
        simp only [hn] at hr
        cases node with
        | directory modified => cases hr
        | link target => cases hr
        | file old modified =>
          cases hr
          exact hw.alter hn fun hk => nomatch hk

/-- What is taken out has nothing in it. -/
theorem removeDirectory_ok (hr : h.removeDirectory now p = .ok h') :
    ∃ loc, h.namesIn loc = [] ∧ h' = h.drop now loc := by
  unfold removeDirectory at hr
  split at hr
  · cases hr
  · cases hr
  · cases hr
  · obtain ⟨spot, -, hr⟩ := bind_eq_ok hr
    cases spot with
    | vacant dir n => cases hr
    | entry l =>
      simp only at hr
      split at hr
      · split at hr
        · cases hr
        · next hempty =>
          cases hr
          refine ⟨l, ?_, rfl⟩
          rw [isOccupied, bne_iff_ne, ne_eq, Decidable.not_not] at hempty
          exact hempty
      · cases hr

theorem remove_ok (hw : h.WellFormed) (hm : h.remove now p = .ok h') :
    ∃ loc, h.namesIn loc = [] ∧ h' = h.drop now loc := by
  obtain ⟨-, hr⟩ := onPath_ok hm
  obtain ⟨⟨loc, node⟩, hf, hr⟩ := bind_eq_ok hr
  obtain ⟨-, hnode⟩ := find_ok.mp hf
  have hk : h.kind? loc = some node.kind := by
    rw [kind?, hnode]
    rfl
  cases node with
  | directory modified => exact removeDirectory_ok hr
  | file data modified =>
    cases hr
    exact ⟨loc, hw.namesIn_eq_nil hk HostKind.noConfusion, rfl⟩
  | link target =>
    cases hr
    exact ⟨loc, hw.namesIn_eq_nil hk HostKind.noConfusion, rfl⟩

/-- The working directory may be taken out too, and then there is none. -/
theorem remove_wellFormed (hw : h.WellFormed) (hm : h.remove now p = .ok h')
    (hcwd : h'.kind? h'.workingDirectory = some .directory) : h'.WellFormed := by
  obtain ⟨loc, hempty, rfl⟩ := remove_ok hw hm
  apply hw.drop now hempty
  rw [drop, workingDirectory_touch] at hcwd
  exact hcwd

end ZipMount.Host
