import ZipMount.Path
import ZipMount.Proofs.MemberKey
import ZipMount.Proofs.Pathname

namespace ZipMount

namespace MemberKey

/-- The names of a key as the host would have them. -/
def filenames (k : MemberKey) : List Filename := k.map Text.bytes

theorem filenames_append (j k : MemberKey) : (j ++ k).filenames = j.filenames ++ k.filenames :=
  List.map_append

theorem filenames_inj {j k : MemberKey} (h : j.filenames = k.filenames) : j = k :=
  List.map_inj_right (fun _ _ => Text.bytes_inj) |>.mp h

theorem filenames_mono {j k : MemberKey} (h : j <+: k) : j.filenames <+: k.filenames := h.map Text.bytes

theorem filenames_eq_concat {k : MemberKey} (hk : k ≠ []) :
    ∃ n, k.filenames = (parent k).filenames ++ [n] := by
  refine ⟨Text.bytes (k.getLast hk), ?_⟩
  conv => lhs; rw [← List.dropLast_concat_getLast hk]
  exact filenames_append _ _

theorem isSegment_iff {s : String} : IsSegment (Text.bytes s) ↔ IsName s := by
  have hne : ∀ t : String, Text.bytes s ≠ Text.bytes t ↔ s ≠ t := by
    intro t
    constructor
    · rintro h rfl
      exact h rfl
    · intro h hb
      exact h (Text.bytes_inj hb)
  have hempty : Text.bytes s ≠ [] ↔ s ≠ "" := hne ""
  have hdot : Text.bytes s ≠ [46] ↔ s ≠ "." := hne "."
  have hdots : Text.bytes s ≠ [46, 46] ↔ s ≠ ".." := hne ".."
  rw [IsSegment, IsName, hempty, hdot, hdots, Text.slash_mem_bytes]

theorem isSegment_of_mem {k : MemberKey} (hk : Canonical k) : ∀ n ∈ k.filenames, IsSegment n := by
  intro n hn
  obtain ⟨s, hs, rfl⟩ := List.mem_map.mp hn
  exact isSegment_iff.mpr (hk s hs)

theorem canonical_of_isSegment {k : MemberKey} (hk : ∀ n ∈ k.filenames, IsSegment n) :
    Canonical k := by
  intro s hs
  exact isSegment_iff.mp (hk _ (List.mem_map_of_mem hs))

theorem ofPathname_pathname {k : MemberKey} (hk : Canonical k) : ofPathname k.pathname = k := by
  rw [ofPathname, pathname, Pathname.display_ofString, ofText_slash_append, ofText_text hk]

theorem filterMap_filenames {k : MemberKey} (hk : Canonical k) :
    k.filenames.filterMap Component.ofSegment? = k.filenames.map .name := by
  induction k with
  | nil => rfl
  | cons s k ih =>
    have hs := isSegment_of_mem hk (Text.bytes s) List.mem_cons_self
    have hrest : Canonical k := fun t ht => hk t (List.mem_cons_of_mem s ht)
    change (Text.bytes s :: filenames k).filterMap Component.ofSegment? = _
    rw [List.filterMap_cons_some (Component.ofSegment?_name hs), ih hrest]
    rfl

theorem bytes_pathname (k : MemberKey) : k.pathname.bytes = 47 :: Text.bytes k.text := by
  have hslash : Text.bytes "/" = [47] := by decide
  change Text.bytes ("/" ++ k.text) = _
  rw [Text.bytes_append, hslash]
  rfl

theorem pathname_ne_nil (k : MemberKey) : k.pathname.bytes ≠ [] := by
  rw [bytes_pathname]
  exact List.cons_ne_nil _ _

theorem bytes_text (k : MemberKey) : Text.bytes k.text = Text.joined 47 k.filenames := by
  rw [text, Text.bytes_joined, List.map_map]
  apply congrArg
  apply List.map_congr_left
  intro s _
  rw [Function.comp_apply, String.ofList_toList]

theorem segments_pathname {k : MemberKey} (hk : Canonical k) (hne : k ≠ []) :
    k.pathname.segments = [] :: k.filenames := by
  have hfilenames : k.filenames ≠ [] := by simpa [filenames] using hne
  have hslash : ∀ n ∈ k.filenames, (47 : UInt8) ∉ n := fun n hn => (isSegment_of_mem hk n hn).2.2.2
  have hsplit : k.pathname.bytes = [] ++ 47 :: Text.bytes k.text := bytes_pathname k
  rw [Pathname.segments, hsplit, Text.pieces_append_sep, bytes_text,
    Text.pieces_joined hfilenames hslash]
  rfl

theorem components_pathname {k : MemberKey} (hk : Canonical k) :
    k.pathname.components = .root :: k.filenames.map .name := by
  have hroot : k.pathname.firstComponent [] = [.root] := by
    rw [Pathname.firstComponent, Pathname.isAbsolute, bytes_pathname]
    rfl
  by_cases hne : k = []
  · subst hne
    decide
  · rw [Pathname.components, segments_pathname hk hne]
    change k.pathname.firstComponent [] ++ _ = _
    rw [hroot, filterMap_filenames hk]
    rfl

/-- The path of a key lies in the path of the key above. -/
theorem parent_pathname {k : MemberKey} (hk : Canonical k) (hne : k ≠ []) :
    k.pathname.parent = some (parent k).pathname := by
  have hnames := isSegment_of_mem hk
  have hfilenames : k.filenames ≠ [] := by simpa [filenames] using hne
  have hbefore : k.filenames.dropLast = (parent k).filenames := List.map_dropLast.symm
  have hkept : Pathname.trimmed k.filenames = k.filenames := Pathname.trimmed_eq hnames
  have hrest : Pathname.trimmed k.filenames.dropLast = (parent k).filenames := by
    rw [Pathname.trimmed_eq fun n hn => hnames n (List.dropLast_subset _ hn), hbefore]
  rw [Pathname.parent, segments_pathname hk hne]
  simp only [hkept, hrest, if_neg hfilenames]
  by_cases hparent : (parent k).filenames = []
  · have hnil : parent k = [] := filenames_inj hparent
    have habsolute : k.pathname.isAbsolute = true := by
      rw [Pathname.isAbsolute, bytes_pathname]
      rfl
    rw [if_pos ⟨habsolute, hparent⟩, hnil]
    decide
  · rw [if_neg fun h => hparent h.2, Text.joined_cons hparent, ← bytes_text]
    exact congrArg (fun b => some (Pathname.mk b)) (bytes_pathname (parent k)).symm

/-- Segments with the steps of a key are texts, and fold into the key. -/
theorem exists_texts {k : MemberKey} (hk : Canonical k) {segments : List Filename}
    (h : segments.filterMap Component.ofSegment? = k.filenames.map .name) :
    ∃ ss : List String, segments = ss.map Text.bytes ∧ (∀ s ∈ ss, '/' ∉ s.toList) ∧
      ∀ names, ss.foldl push names = names ++ k := by
  induction segments generalizing k with
  | nil =>
    have hnil : k = [] := by
      cases k with
      | nil => rfl
      | cons s k => cases h
    subst hnil
    exact ⟨[], rfl, fun s hs => (List.not_mem_nil hs).elim, fun names => (List.append_nil names).symm⟩
  | cons segment rest ih =>
    by_cases hskip : segment = [] ∨ segment = [46]
    · have hnone : Component.ofSegment? segment = none := if_pos hskip
      rw [List.filterMap_cons_none hnone] at h
      obtain ⟨ss, hss, hslash, hfold⟩ := ih hk h
      have htext : ∃ s : String, segment = Text.bytes s ∧ (s = "" ∨ s = ".") := by
        rcases hskip with rfl | rfl
        · exact ⟨"", by decide, Or.inl rfl⟩
        · exact ⟨".", by decide, Or.inr rfl⟩
      obtain ⟨s, rfl, hs⟩ := htext
      refine ⟨s :: ss, by rw [hss]; rfl, ?_, ?_⟩
      · intro t ht
        rcases List.mem_cons.mp ht with rfl | ht
        · rcases hs with rfl | rfl
          · decide
          · decide
        · exact hslash t ht
      · intro names
        rw [List.foldl_cons, push, if_pos hs, hfold]
    · have hkeep : Component.ofSegment? segment =
          some (if segment = [46, 46] then .up else .name segment) := by
        rw [Component.ofSegment?, if_neg hskip]
        split <;> rfl
      rw [List.filterMap_cons_some hkeep] at h
      cases k with
      | nil => cases h
      | cons s k =>
        have hcons : (if segment = [46, 46] then Component.up else .name segment) ::
            rest.filterMap Component.ofSegment? =
              .name (Text.bytes s) :: (filenames k).map .name := h
        rw [List.cons.injEq] at hcons
        obtain ⟨hfirst, hrest⟩ := hcons
        have hsegment : segment = Text.bytes s := by
          split at hfirst
          · cases hfirst
          · cases hfirst
            rfl
        obtain ⟨ss, hss, hslash, hfold⟩ := ih (fun t ht => hk t (List.mem_cons_of_mem s ht)) hrest
        obtain ⟨hne, hdot, hdots, hs⟩ := hk s List.mem_cons_self
        refine ⟨s :: ss, by rw [hss, hsegment]; rfl, ?_, ?_⟩
        · intro t ht
          rcases List.mem_cons.mp ht with rfl | ht
          · exact hs
          · exact hslash t ht
        · intro names
          have hpush : push names s = names ++ [s] := by simp [push, hne, hdot, hdots]
          rw [List.foldl_cons, hpush, hfold]
          simp

/-- A path with the steps of a key names the key. -/
theorem ofPathname_of_components {q : Pathname} {k : MemberKey} (hk : Canonical k)
    (h : q.components = .root :: k.filenames.map .name) : ofPathname q = k := by
  obtain ⟨first, rest, hsegments⟩ := List.exists_cons_of_ne_nil (Text.pieces_ne_nil 47 q.bytes)
  rw [Pathname.components, Pathname.segments, hsegments] at h
  have hnoRoot : ∀ {n : Filename} {c : Component}, Component.ofSegment? n = some c → c ≠ .root := by
    intro n c hc
    unfold Component.ofSegment? at hc
    split at hc
    · cases hc
    · split at hc
      · cases hc
        exact Component.noConfusion
      · cases hc
        exact Component.noConfusion
  have hnoRootIn : ∀ l : List Filename, Component.root ∉ l.filterMap Component.ofSegment? := by
    intro l hmem
    obtain ⟨n, -, hn⟩ := List.mem_filterMap.mp hmem
    exact hnoRoot hn rfl
  have hfirst : first = [] ∧ rest.filterMap Component.ofSegment? = k.filenames.map .name := by
    change q.firstComponent first ++ _ = _ at h
    unfold Pathname.firstComponent at h
    split at h
    · next hempty =>
      split at h
      · exact ⟨hempty, (List.cons.inj h).2⟩
      · rw [List.nil_append] at h
        exact absurd (h ▸ List.mem_cons_self) (hnoRootIn rest)
    · split at h
      · cases h
      · cases hs : Component.ofSegment? first with
        | none =>
          rw [hs] at h
          change rest.filterMap Component.ofSegment? = _ at h
          exact absurd (h ▸ List.mem_cons_self) (hnoRootIn rest)
        | some c =>
          rw [hs] at h
          exact absurd (List.cons.inj h).1 (hnoRoot hs)
  obtain ⟨rfl, hrest⟩ := hfirst
  obtain ⟨ss, rfl, hslash, hfold⟩ := exists_texts hk hrest
  -- the path is the bytes of the texts with slashes between them
  have htexts : ([] : Filename) :: ss.map Text.bytes =
      (("" :: ss).map String.toList).map fun p => Text.bytes (String.ofList p) := by
    rw [List.map_map]
    change [] :: ss.map Text.bytes = [] :: ss.map _
    apply congrArg
    apply List.map_congr_left
    intro s _
    rw [Function.comp_apply, String.ofList_toList]
  have hbytes : q.bytes =
      Text.bytes (String.ofList (Text.joined '/' (("" :: ss).map String.toList))) := by
    rw [Text.bytes_joined, ← htexts, ← hsegments, Text.joined_pieces]
  have hsegs : segments (String.ofList (Text.joined '/' (("" :: ss).map String.toList))) =
      "" :: ss := by
    have hnone : ∀ p ∈ ("" :: ss).map String.toList, '/' ∉ p := by
      intro p hp
      obtain ⟨s, hs, rfl⟩ := List.mem_map.mp hp
      rcases List.mem_cons.mp hs with rfl | hs
      · decide
      · exact hslash s hs
    rw [segments, String.toList_ofList, Text.pieces_joined (by simp) hnone, List.map_map]
    simp [Function.comp_def]
  rw [ofPathname, Pathname.display, hbytes, Text.lossy_bytes, ofText, hsegs, List.foldl_cons]
  exact hfold []

theorem ofText_stepsText_root (cs : List Component) :
    ofText (Pathname.stepsText (.root :: cs)) = ofText (Pathname.stepsText cs) := by
  have hslash : Text.lossy Component.root.bytes = "/" := by decide
  cases cs with
  | nil =>
    have htext : Pathname.stepsText [.root] = "/" ++ Pathname.stepsText [] := by
      rw [Pathname.stepsText, List.map_singleton, hslash]
      rfl
    rw [htext, ofText_slash_append]
  | cons c cs =>
    have htext : Pathname.stepsText (.root :: c :: cs) =
        "/" ++ ("/" ++ Pathname.stepsText (c :: cs)) := by
      rw [Pathname.stepsText, List.map_cons, hslash, List.map_cons, String.intercalate_cons_cons,
        String.append_assoc]
      rfl
    rw [htext, ofText_slash_append, ofText_slash_append]

/-- The key that some names come to: the texts of the names, one after the other. -/
def ofNames (names : List Filename) : MemberKey :=
  ofText (Pathname.stepsText (names.map .name))

/-- What is left of the path of a key names what is left of the key. -/
theorem ofText_relative {q : Pathname} {r : MemberKey} (hr : Canonical r) {steps : List Component}
    (h : (ofPathname q ++ r).pathname.relativeTo? q = some steps) :
    ofText (Pathname.stepsText steps) = ofNames r.filenames := by
  have hk : Canonical (ofPathname q) := canonical_ofText _
  rw [Pathname.relativeTo?, components_pathname (canonical_append hk hr)] at h
  split at h
  · next hpre =>
    cases h
    obtain ⟨rest, hrest⟩ := List.isPrefixOf_iff_prefix.mp hpre
    cases hq : q.components with
    | nil =>
      have hbytes : q.bytes = [] := Decidable.byContradiction fun hne => Pathname.components_ne_nil hne hq
      have hnil : ofPathname q = [] := by
        rw [ofPathname, Pathname.display, hbytes]
        rfl
      rw [hnil]
      exact ofText_stepsText_root _
    | cons c cs =>
      rw [hq, List.cons_append, List.cons.injEq] at hrest
      obtain ⟨rfl, hrest⟩ := hrest
      have hlength := congrArg List.length hrest
      have htake : cs = (filenames ((ofPathname q ++ r).take cs.length)).map .name := by
        have ht := congrArg (List.take cs.length) hrest
        rw [List.take_left] at ht
        refine ht.trans ?_
        rw [filenames, filenames, List.map_take, List.map_take]
      have hcanonical : Canonical ((ofPathname q ++ r).take cs.length) :=
        fun s hs => canonical_append hk hr s (List.mem_of_mem_take hs)
      have hkey : ofPathname q = (ofPathname q ++ r).take cs.length := by
        apply ofPathname_of_components hcanonical
        rw [hq, ← htake]
      have hlen : (ofPathname q).length = cs.length := by
        have hl := congrArg List.length hkey
        have hl' := congrArg List.length htake
        rw [filenames, List.length_map, List.length_map] at hl'
        rw [hl, ← hl']
      have hdrop : ((ofPathname q).filenames.map Component.name ++
          r.filenames.map Component.name).drop (ofPathname q).length = r.filenames.map .name := by
        apply List.drop_left'
        rw [filenames, List.length_map, List.length_map]
      rw [ofNames, List.length_cons, List.drop_succ_cons, filenames_append, List.map_append, ← hlen,
        hdrop]
  · cases h

end MemberKey

theorem Path.parent?_ofKey {k : MemberKey} (hk : k.Canonical) (hn : k ≠ []) (id : MountId) :
    (ofKey id k).parent? = some (ofKey id k.parent) :=
  congrArg (Option.map (member id)) (MemberKey.parent_pathname hk hn)

end ZipMount
