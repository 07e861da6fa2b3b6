import ZipMount.Host.Basic
import ZipMount.Proofs.Pathname

namespace ZipMount

/-- An entry less its times. -/
inductive HostKind where
  | directory
  | file (data : ByteArray)
  | link (target : Pathname)

/-- What is left of an entry without its times. -/
def HostNode.kind : HostNode → HostKind
  | .directory _ => .directory
  | .file data _ => .file data
  | .link target => .link target

namespace Host

/-- What is at a location, its times apart. -/
def kind? (h : Host) (loc : Location) : Option HostKind := (h.node? loc).map HostNode.kind

/-- The shape of the host's files. -/
structure WellFormed (h : Host) : Prop where
  nodup : h.entries.keys.Nodup
  ne_nil : ∀ loc ∈ h.entries.keys, loc ≠ []
  names : ∀ loc ∈ h.entries.keys, ∀ n ∈ loc, IsSegment n
  closed : ∀ loc ∈ h.entries.keys, h.kind? loc.dropLast = some .directory
  working : h.kind? h.workingDirectory = some .directory

variable {h : Host}

theorem kind?_nil (h : Host) : h.kind? [] = some .directory := rfl

theorem kind?_of_ne_nil {loc : Location} (hn : loc ≠ []) :
    h.kind? loc = (h.entries.get? loc).map HostNode.kind := by
  rw [kind?, node?, if_neg hn]

theorem mem_keys_of_kind? {loc : Location} (hn : loc ≠ []) {k : HostKind}
    (hk : h.kind? loc = some k) : loc ∈ h.entries.keys := by
  rw [kind?_of_ne_nil hn, Option.map_eq_some_iff] at hk
  obtain ⟨node, hnode, -⟩ := hk
  exact Table.mem_keys_iff.mpr ⟨node, hnode⟩

theorem exists_kind?_of_mem {loc : Location} (hn : loc ≠ []) (hk : loc ∈ h.entries.keys) :
    ∃ k, h.kind? loc = some k := by
  obtain ⟨node, hnode⟩ := Table.mem_keys_iff.mp hk
  exact ⟨node.kind, by rw [kind?_of_ne_nil hn, hnode]; rfl⟩

theorem wellFormed_empty (now : Instant) : (empty now).WellFormed :=
  ⟨List.nodup_nil, fun _ h => (List.not_mem_nil h).elim, fun _ h => (List.not_mem_nil h).elim,
    fun _ h => (List.not_mem_nil h).elim, rfl⟩

/-- The location of an entry, and the directory it is in. -/
theorem WellFormed.parent (hw : h.WellFormed) {loc : Location} {k : HostKind}
    (hk : h.kind? loc = some k) : h.kind? loc.dropLast = some .directory := by
  by_cases hn : loc = []
  · subst hn
    exact kind?_nil h
  · exact hw.closed loc (mem_keys_of_kind? hn hk)

/-- Everything on the way to an entry is a directory. -/
theorem WellFormed.kind?_prefix (hw : h.WellFormed) {loc rest : Location} {k : HostKind}
    (hk : h.kind? (loc ++ rest) = some k) (hr : rest ≠ []) : h.kind? loc = some .directory := by
  have hp := hw.parent hk
  rw [List.dropLast_append_of_ne_nil hr] at hp
  by_cases hd : rest.dropLast = []
  · rw [hd, List.append_nil] at hp
    exact hp
  · have hlt : rest.dropLast.length < rest.length := by
      have hlength := List.length_pos_iff.mpr hr
      rw [List.length_dropLast]
      omega
    exact hw.kind?_prefix hp hd
termination_by rest.length

theorem WellFormed.isSegment (hw : h.WellFormed) {loc : Location} {k : HostKind}
    (hk : h.kind? loc = some k) : ∀ n ∈ loc, IsSegment n := by
  by_cases hn : loc = []
  · subst hn
    intro n hmem
    cases hmem
  · exact hw.names loc (mem_keys_of_kind? hn hk)

theorem mem_namesIn {loc : Location} {n : Filename} :
    n ∈ h.namesIn loc ↔ loc ++ [n] ∈ h.entries.keys := by
  rw [namesIn, List.mem_filterMap]
  constructor
  · rintro ⟨l, hl, hn⟩
    split at hn
    · next hd =>
      obtain ⟨ys, rfl⟩ := List.getLast?_eq_some_iff.mp hn
      rw [List.dropLast_concat] at hd
      rw [← hd]
      exact hl
    · cases hn
  · intro hl
    refine ⟨_, hl, ?_⟩
    rw [List.dropLast_concat, if_pos rfl, List.getLast?_concat]

theorem WellFormed.nodup_namesIn (hw : h.WellFormed) (loc : Location) : (h.namesIn loc).Nodup := by
  apply List.pairwise_filterMap.mpr
  apply hw.nodup.imp
  intro l m hlm n hn n' hn' hsame
  subst hsame
  split at hn
  · next hl =>
    split at hn'
    · next hm =>
      obtain ⟨ys, rfl⟩ := List.getLast?_eq_some_iff.mp hn
      obtain ⟨zs, rfl⟩ := List.getLast?_eq_some_iff.mp hn'
      rw [List.dropLast_concat] at hl hm
      exact hlm (by rw [hl, hm])
    · cases hn'
  · cases hn

/-- A location is no longer than there are entries. -/
theorem WellFormed.length_le (hw : h.WellFormed) {loc : Location} {k : HostKind}
    (hk : h.kind? loc = some k) : loc.length ≤ h.entries.length := by
  -- the starts of a location are as many entries as it has names
  have hmem : ∀ i, 0 < i → i ≤ loc.length → loc.take i ∈ h.entries.keys := by
    intro i hi hle
    have hne : loc.take i ≠ [] := by
      intro hnil
      rw [List.take_eq_nil_iff] at hnil
      rcases hnil with hnil | hnil
      · omega
      · rw [hnil] at hle
        exact absurd hle (by simp; omega)
    have hsplit := List.take_append_drop i loc
    by_cases hd : loc.drop i = []
    · rw [hd, List.append_nil] at hsplit
      rw [hsplit] at hne ⊢
      exact mem_keys_of_kind? hne hk
    · rw [← hsplit] at hk
      exact mem_keys_of_kind? hne (hw.kind?_prefix hk hd)
  let starts := (List.range loc.length).map fun i => loc.take (i + 1)
  have hnodup : starts.Nodup := by
    apply List.pairwise_map.mpr
    apply (List.pairwise_lt_range (n := loc.length)).imp_of_mem
    intro i j hi hj hij hsame
    have hi := List.mem_range.mp hi
    have hj := List.mem_range.mp hj
    have hlength := congrArg List.length hsame
    rw [List.length_take, List.length_take] at hlength
    omega
  have hsubset : starts ⊆ h.entries.keys := by
    intro l hl
    obtain ⟨i, hi, rfl⟩ := List.mem_map.mp hl
    have hi := List.mem_range.mp hi
    exact hmem (i + 1) (by omega) (by omega)
  have hlength := hnodup.length_le_of_subset hsubset
  rw [List.length_map, List.length_range, Table.keys, List.length_map] at hlength
  exact hlength

theorem kind?_touch (h : Host) (now : Instant) (dir loc : Location) :
    (h.touch now dir).kind? loc = h.kind? loc := by
  unfold touch
  split
  · by_cases hl : loc = []
    · subst hl
      rfl
    · rw [kind?_of_ne_nil hl, kind?_of_ne_nil hl]
  · next hd =>
    split
    · next modified hm =>
      by_cases hl : loc = []
      · subst hl
        rfl
      · rw [kind?_of_ne_nil hl, kind?_of_ne_nil hl, Table.get?_put]
        by_cases hsame : loc = dir
        · rw [if_pos hsame, hsame, hm]
          rfl
        · rw [if_neg hsame]
    · rfl

theorem workingDirectory_touch (h : Host) (now : Instant) (dir : Location) :
    (h.touch now dir).workingDirectory = h.workingDirectory := by
  unfold touch
  split
  · rfl
  · split <;> rfl

theorem keys_touch (h : Host) (now : Instant) (dir : Location) :
    (h.touch now dir).entries.keys = h.entries.keys := by
  unfold touch
  split
  · rfl
  · split
    · next modified hm =>
      rw [Table.keys_put, if_pos (Table.mem_keys_iff.mpr ⟨_, hm⟩)]
    · rfl

theorem kind?_put (h : Host) {loc : Location} (hn : loc ≠ []) (node : HostNode) (l : Location) :
    ({ h with entries := h.entries.put loc node } : Host).kind? l =
      if l = loc then some node.kind else h.kind? l := by
  by_cases hl : l = []
  · subst hl
    rw [if_neg (Ne.symm hn)]
    rfl
  · rw [kind?_of_ne_nil hl, kind?_of_ne_nil hl, Table.get?_put]
    by_cases hsame : l = loc
    · rw [if_pos hsame, if_pos hsame]
      rfl
    · rw [if_neg hsame, if_neg hsame]

theorem kind?_add (h : Host) (now : Instant) {loc : Location} (hn : loc ≠ []) (node : HostNode)
    (l : Location) : (h.add now loc node).kind? l = if l = loc then some node.kind else h.kind? l := by
  rw [add, kind?_touch, kind?_put h hn]

theorem WellFormed.add (hw : h.WellFormed) (now : Instant) {dir : Location} {n : Filename}
    (hdir : h.kind? dir = some .directory) (hn : IsSegment n)
    (hfree : h.kind? (dir ++ [n]) = none) (node : HostNode) :
    (h.add now (dir ++ [n]) node).WellFormed := by
  have hne : dir ++ [n] ≠ [] := by simp
  have hkeys : (h.add now (dir ++ [n]) node).entries.keys = h.entries.keys ++ [dir ++ [n]] := by
    have hnew : dir ++ [n] ∉ h.entries.keys := by
      intro hmem
      obtain ⟨k, hk⟩ := exists_kind?_of_mem hne hmem
      rw [hfree] at hk
      cases hk
    rw [Host.add, keys_touch, Table.keys_put, if_neg hnew]
  have hold : ∀ {l : Location}, h.kind? l = some .directory →
      (h.add now (dir ++ [n]) node).kind? l = some .directory := by
    intro l hl
    have hsame : l ≠ dir ++ [n] := by
      rintro rfl
      rw [hfree] at hl
      cases hl
    rw [kind?_add h now hne, if_neg hsame, hl]
  have hmem : ∀ l ∈ (h.add now (dir ++ [n]) node).entries.keys,
      l ∈ h.entries.keys ∨ l = dir ++ [n] := by
    intro l hl
    rw [hkeys, List.mem_append, List.mem_singleton] at hl
    exact hl
  refine ⟨?_, ?_, ?_, ?_, ?_⟩
  · rw [Host.add, keys_touch]
    exact Table.nodup_keys_put hw.nodup _ _
  · intro l hl
    rcases hmem l hl with hl | rfl
    · exact hw.ne_nil l hl
    · exact hne
  · intro l hl m hm
    rcases hmem l hl with hl | rfl
    · exact hw.names l hl m hm
    · rcases List.mem_append.mp hm with hm | hm
      · exact hw.isSegment hdir m hm
      · rw [List.mem_singleton] at hm
        rw [hm]
        exact hn
  · intro l hl
    rcases hmem l hl with hl | rfl
    · exact hold (hw.closed l hl)
    · rw [List.dropLast_concat]
      exact hold hdir
  · have hcwd : (h.add now (dir ++ [n]) node).workingDirectory = h.workingDirectory :=
      workingDirectory_touch _ _ _
    rw [hcwd]
    exact hold hw.working

end Host

end ZipMount
