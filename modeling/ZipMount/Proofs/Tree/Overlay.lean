import ZipMount.Proofs.Tree.Outline

namespace ZipMount

open MemberKey

namespace Tree

/-- Where some members beneath a key go when the key itself goes to another, and what they hold. -/
def image (source : Tree) (s t : MemberKey) (ks : List MemberKey) : Outline :=
  ks.filterMap fun k => (source.find? k).map fun m => (t ++ k.drop s.length, m.content)

/-- Why something cannot be copied to a key: a directory does not go onto a file, nor a file onto a
directory. -/
def refusal? (target : Tree) (k : MemberKey) (c : Content) : Option Refusal :=
  match c, target.find? k with
  | .directory, some ⟨.file _, _⟩ => some .present
  | .file _, some ⟨.directory, _⟩ => some .isADirectory
  | _, _ => none

/-- Why a member cannot be copied to where it goes. -/
def conflict? (source target : Tree) (s t k : MemberKey) : Option Refusal :=
  (source.find? k).bind fun m => target.refusal? (t ++ k.drop s.length) m.content

/-- A tree with an image over it: directories that were there are as they were, what is new comes
last and in the order of the image. -/
structure Overlaid (old : Tree) (o : Outline) (new : Tree) : Prop where
  order : new.order = old.order ++ o.keys.filter fun k => (old.find? k).isNone
  others : ∀ k, k ∉ o.keys → new.find? k = old.find? k
  directory : ∀ k, (k, Content.directory) ∈ o → ∃ m, new.find? k = some m ∧
    m.content = .directory ∧ ∀ m', old.find? k = some m' → m = m'
  file : ∀ k data, (k, Content.file data) ∈ o → ∃ m, new.find? k = some m ∧ m.content = .file data

variable {old new source : Tree} {o : Outline} {s t k : MemberKey} {m : Member}

theorem overlaid_nil (old : Tree) : old.Overlaid [] old where
  order := (List.append_nil _).symm
  others := fun _ _ => rfl
  directory := fun _ h => (List.not_mem_nil h).elim
  file := fun _ _ h => (List.not_mem_nil h).elim

/-- A directory is put where one is. -/
theorem Overlaid.concat_present (h : old.Overlaid o new) (hk : k ∉ o.keys)
    (hf : old.find? k = some m) (hm : m.content = .directory) :
    old.Overlaid (o ++ [(k, .directory)]) new where
  order := by
    rw [Table.keys_concat, List.filter_append, h.order]
    simp [hf]
  others := by
    intro j hj
    rw [Table.keys_concat, List.mem_append, not_or] at hj
    exact h.others j hj.1
  directory := by
    intro j hj
    rcases List.mem_append.mp hj with hj | hj
    · exact h.directory j hj
    · cases List.mem_singleton.mp hj
      refine ⟨m, (h.others k hk).trans hf, hm, ?_⟩
      intro m' hm'
      exact Option.some.inj (hf.symm.trans hm')
  file := by
    intro j data hj
    rcases List.mem_append.mp hj with hj | hj
    · exact h.file j data hj
    · cases List.mem_singleton.mp hj

/-- Something else is put, a directory only where nothing is. -/
theorem Overlaid.concat_insert (h : old.Overlaid o new) (hk : k ∉ o.keys) (hne : k ≠ [])
    {c : Content} (hm : m.content = c) (hd : c = .directory → old.find? k = none) :
    old.Overlaid (o ++ [(k, c)]) (new.insert k m) := by
  have hold : new.find? k = old.find? k := h.others k hk
  have hkept : ∀ j ∈ o.keys, (new.insert k m).find? j = new.find? j := by
    intro j hj
    rw [find?_insert new hne, if_neg]
    rintro rfl
    exact hk hj
  have hput : (new.insert k m).find? k = some m := by rw [find?_insert new hne, if_pos rfl]
  refine ⟨?_, ?_, ?_, ?_⟩
  · rw [Table.keys_concat, List.filter_append, ← List.append_assoc, ← h.order, order_insert]
    have hmem := mem_order_iff (t := new) hne
    rw [hold] at hmem
    cases hf : old.find? k with
    | none =>
      rw [hf] at hmem
      rw [if_neg fun h => Bool.false_ne_true (hmem.mp h)]
      simp [hf]
    | some m' =>
      rw [hf] at hmem
      rw [if_pos (hmem.mpr rfl)]
      simp [hf]
  · intro j hj
    rw [Table.keys_concat, List.mem_append, not_or, List.mem_singleton] at hj
    rw [find?_insert new hne, if_neg hj.2]
    exact h.others j hj.1
  · intro j hj
    rcases List.mem_append.mp hj with hj | hj
    · rw [hkept j (List.mem_map_of_mem hj)]
      exact h.directory j hj
    · rw [List.mem_singleton, Prod.mk.injEq] at hj
      obtain ⟨rfl, hc⟩ := hj
      refine ⟨m, hput, hm.trans hc.symm, ?_⟩
      intro m' hm'
      rw [hd hc.symm] at hm'
      cases hm'
  · intro j data hj
    rcases List.mem_append.mp hj with hj | hj
    · rw [hkept j (List.mem_map_of_mem hj)]
      exact h.file j data hj
    · rw [List.mem_singleton, Prod.mk.injEq] at hj
      obtain ⟨rfl, hc⟩ := hj
      exact ⟨m, hput, hm.trans hc.symm⟩

theorem image_append (source : Tree) (s t : MemberKey) (js ks : List MemberKey) :
    source.image s t (js ++ ks) = source.image s t js ++ source.image s t ks :=
  List.filterMap_append

theorem image_singleton {r : MemberKey} (hm : source.find? (s ++ r) = some m) :
    source.image s t [s ++ r] = [(t ++ r, m.content)] := by
  rw [image, List.filterMap_cons, hm, List.drop_left]
  rfl

theorem mem_image {r : MemberKey} {ks : List MemberKey} (hr : s ++ r ∈ ks)
    (hm : source.find? (s ++ r) = some m) : (t ++ r, m.content) ∈ source.image s t ks := by
  rw [image, List.mem_filterMap]
  refine ⟨s ++ r, hr, ?_⟩
  rw [hm, List.drop_left]
  rfl

/-- What goes to a key beneath the target is the one member that goes there. -/
theorem mem_of_mem_keys_image {r : MemberKey} {ks : List MemberKey} (hks : ∀ k ∈ ks, s <+: k)
    (h : t ++ r ∈ (source.image s t ks).keys) : s ++ r ∈ ks := by
  obtain ⟨⟨k, c⟩, hmem, hkey⟩ := List.mem_map.mp h
  obtain ⟨k', hk', heq⟩ := List.mem_filterMap.mp hmem
  obtain ⟨m, -, hpair⟩ := Option.map_eq_some_iff.mp heq
  obtain ⟨r', rfl⟩ := hks k' hk'
  rw [List.drop_left] at hpair
  cases hpair
  rw [← List.append_cancel_left hkey]
  exact hk'

theorem prefix_of_mem_keys_image {ks : List MemberKey} (h : k ∈ (source.image s t ks).keys) :
    t <+: k := by
  obtain ⟨⟨k', c⟩, hmem, rfl⟩ := List.mem_map.mp h
  obtain ⟨k'', -, heq⟩ := List.mem_filterMap.mp hmem
  obtain ⟨m, -, hpair⟩ := Option.map_eq_some_iff.mp heq
  cases hpair
  exact List.prefix_append _ _

theorem checkParent_of_directory (h : new.find? (parent k) = some m)
    (hm : m.content = .directory) : new.checkParent k = .ok () := by
  refine checkParent_ok_iff.mpr ⟨m, h, ?_⟩
  simp only [Member.isDirectory, hm]

end Tree

end ZipMount
