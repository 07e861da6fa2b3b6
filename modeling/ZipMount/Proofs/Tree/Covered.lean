import ZipMount.Proofs.Tree.Outline

namespace ZipMount

open MemberKey

/-- What is held once some entries are put one after the other. -/
def Outline.placeAll (o es : Outline) : Outline := es.foldl (fun o kc => o.place kc.1 kc.2) o

theorem Outline.placeAll_concat (o es : Outline) (k : MemberKey) (c : Content) :
    o.placeAll (es ++ [(k, c)]) = (o.placeAll es).place k c := by
  unfold placeAll
  rw [List.foldl_append]
  rfl

namespace Tree

/-- A tree with some entries put over it. What has another key is as it was, and so are directories.
-/
structure Covered (old : Tree) (es : Outline) (new : Tree) : Prop where
  wellFormed : new.WellFormed
  outline : new.outline = old.outline.placeAll es
  others : ∀ k, k ∉ es.keys → new.find? k = old.find? k
  directories : ∀ k m, old.find? k = some m → m.content = .directory → new.find? k = some m

variable {old new t : Tree} {es : Outline} {k : MemberKey} {m : Member} {now : Instant}

theorem covered_nil (h : old.WellFormed) : old.Covered [] old :=
  ⟨h, rfl, fun _ _ => rfl, fun _ _ hm _ => hm⟩

namespace Covered

/-- A directory is put where one is. -/
theorem present (h : old.Covered es new) (hf : new.find? k = some m)
    (hm : m.content = .directory) : old.Covered (es ++ [(k, .directory)]) new where
  wellFormed := h.wellFormed
  outline := by
    rw [Outline.placeAll_concat, ← h.outline, ← hm, outline_place_present hf]
  others := by
    intro j hj
    rw [Table.keys_concat, List.mem_append, not_or] at hj
    exact h.others j hj.1
  directories := h.directories

/-- A member is put under a key where there was no directory. -/
theorem insert (h : old.Covered es new) (hw : (new.insert k m).WellFormed) (hk : k ≠ [])
    (hnot : ∀ m', new.find? k = some m' → m'.content ≠ .directory) :
    old.Covered (es ++ [(k, m.content)]) (new.insert k m) where
  wellFormed := hw
  outline := by
    rw [Outline.placeAll_concat, ← h.outline, outline_insert, Outline.place, if_neg hk]
  others := by
    intro j hj
    rw [Table.keys_concat, List.mem_append, not_or, List.mem_singleton] at hj
    rw [find?_insert new hk, if_neg hj.2]
    exact h.others j hj.1
  directories := by
    intro j m' hm' hd
    have hnew := h.directories j m' hm' hd
    rw [find?_insert new hk, if_neg]
    · exact hnew
    · rintro rfl
      exact hnot m' hnew hd

theorem makeDirectory (h : old.Covered es new) (hk : Canonical k)
    (ht : new.makeDirectory now k = .ok t) : old.Covered (es ++ [(k, .directory)]) t := by
  have hw := h.wellFormed.makeDirectory hk ht
  obtain ⟨hf, -, rfl⟩ := makeDirectory_ok ht
  have hne : k ≠ [] := by
    rintro rfl
    cases hf
  refine h.insert hw hne fun m' hm' => ?_
  rw [hf] at hm'
  cases hm'

theorem writeFile (h : old.Covered es new) (hk : Canonical k) {data : ByteArray} {mode : WriteMode}
    (ht : new.writeFile now k data mode = .ok t) : old.Covered (es ++ [(k, .file data)]) t := by
  have hw := h.wellFormed.writeFile hk ht
  obtain ⟨m, rfl, hm, hne, -⟩ := writeFile_ok ht
  rw [← hm]
  refine h.insert hw hne ?_
  rintro ⟨content, times⟩ hm' rfl
  rw [writeFile_eq, hm'] at ht
  cases ht

end Covered

end Tree

end ZipMount
