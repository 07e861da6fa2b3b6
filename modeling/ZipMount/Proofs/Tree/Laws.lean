import ZipMount.Archive.Tree
import ZipMount.Proofs.Except
import ZipMount.Proofs.MemberKey

namespace ZipMount.Tree

open MemberKey

theorem find_eq (t : Tree) (k : MemberKey) :
    t.find k = (t.find? k).elim (.error .missing) .ok := by
  unfold find
  cases t.find? k <;> rfl

theorem checkParent_eq (t : Tree) (k : MemberKey) :
    t.checkParent k = match t.find? (parent k) with
      | none => .error .missing
      | some p => if p.isDirectory then .ok () else .error .notADirectory := by
  unfold checkParent
  cases t.find? (parent k) <;> rfl

theorem checkParent_ok_iff {t : Tree} {k : MemberKey} :
    t.checkParent k = .ok () ↔ ∃ p, t.find? (parent k) = some p ∧ p.isDirectory = true := by
  rw [checkParent_eq]
  cases t.find? (parent k) with
  | none => simp
  | some p => simp

theorem makeDirectory_eq (t : Tree) (now : Instant) (k : MemberKey) :
    t.makeDirectory now k = match t.find? k with
      | some _ => .error .present
      | none => (t.checkParent k).map fun _ => t.insert k (.directory now) := by
  unfold makeDirectory
  cases t.find? k with
  | some m => rfl
  | none => cases t.checkParent k <;> rfl

theorem writeFile_eq (t : Tree) (now : Instant) (k : MemberKey) (data : ByteArray)
    (mode : WriteMode) :
    t.writeFile now k data mode = match t.find? k, mode with
      | some ⟨.directory, _⟩, _ => .error .isADirectory
      | some ⟨.file _, _⟩, .createNew => .error .present
      | some ⟨.file _, times⟩, .replace =>
        .ok (t.insert k ⟨.file data, { times with modified := now, accessed := now }⟩)
      | none, _ => (t.checkParent k).map fun _ => t.insert k (.file data now) := by
  unfold writeFile
  cases t.find? k with
  | some m => cases m with
    | mk content times => cases content <;> cases mode <;> rfl
  | none => cases t.checkParent k <;> cases mode <;> rfl

theorem remove_eq (t : Tree) (k : MemberKey) :
    t.remove k =
      if k = [] then .error .root
      else match t.find? k with
        | none => .error .missing
        | some _ =>
          if t.hasBeneath k then .error .notEmpty
          else .ok { t with members := t.members.erase k } := by
  unfold remove
  split
  · rfl
  · rw [find_eq]
    cases t.find? k with
    | none => rfl
    | some m => cases hb : t.hasBeneath k <;> rfl

theorem retime_eq (t : Tree) (k : MemberKey) (change : TimeChange) :
    t.retime k change = match t.find? k with
      | none => .error .missing
      | some m => .ok (if k = [] then { t with root := m.times.changed change }
          else t.insert k { m with times := m.times.changed change }) := by
  unfold retime
  rw [find_eq]
  cases t.find? k <;> rfl

theorem read_eq (t : Tree) (k : MemberKey) :
    t.read k = match t.find? k with
      | none => .error .missing
      | some ⟨.file data, _⟩ => .ok data
      | some ⟨.directory, _⟩ => .error .isADirectory := by
  unfold read
  rw [find_eq]
  cases t.find? k with
  | none => rfl
  | some m => cases m with
    | mk content times => cases content <;> rfl

theorem list_eq (t : Tree) (k : MemberKey) :
    t.list k = match t.find? k with
      | none => .error .missing
      | some m => if m.isDirectory then .ok (t.below k) else .error .notADirectory := by
  unfold list
  rw [find_eq]
  cases t.find? k with
  | none => rfl
  | some m => cases h : m.isDirectory <;> simp [h, bind, Except.bind] <;> rfl

theorem walk_eq (t : Tree) (order : WalkOrder) (k : MemberKey) :
    t.walk order k = match t.find? k with
      | none => .error .missing
      | some _ => .ok (t.preorder order (t.height - k.length) k) := by
  unfold walk
  rw [find_eq]
  cases t.find? k <;> rfl

theorem makeDirectory_ok {t t' : Tree} {now : Instant} {k : MemberKey}
    (h : t.makeDirectory now k = .ok t') :
    t.find? k = none ∧ t.checkParent k = .ok () ∧ t' = t.insert k (.directory now) := by
  rw [makeDirectory_eq] at h
  cases hf : t.find? k with
  | some m => rw [hf] at h; cases h
  | none =>
    rw [hf] at h
    obtain ⟨u, hp, h⟩ := bind_eq_ok h
    cases h
    exact ⟨rfl, hp, rfl⟩

theorem writeFile_ok {t t' : Tree} {now : Instant} {k : MemberKey} {data : ByteArray}
    {mode : WriteMode} (h : t.writeFile now k data mode = .ok t') :
    ∃ m, t' = t.insert k m ∧ m.content = .file data ∧ k ≠ [] ∧
      (k ∈ t.order ∨ t.checkParent k = .ok ()) := by
  have hroot : k ≠ [] := by
    rintro rfl
    rw [writeFile_eq] at h
    cases h
  rw [writeFile_eq] at h
  split at h
  · cases h
  · cases h
  · next old times hf =>
    cases h
    exact ⟨_, rfl, rfl, hroot, Or.inl ((mem_order_iff hroot).mpr (by rw [hf]; rfl))⟩
  · next hf =>
    obtain ⟨u, hp, h⟩ := bind_eq_ok h
    cases h
    exact ⟨_, rfl, rfl, hroot, Or.inr hp⟩

theorem remove_ok {t t' : Tree} {k : MemberKey} (h : t.remove k = .ok t') :
    k ≠ [] ∧ t' = { t with members := t.members.erase k } := by
  rw [remove_eq] at h
  split at h
  · cases h
  · next hroot =>
    split at h
    · cases h
    · split at h
      · cases h
      · cases h
        exact ⟨hroot, rfl⟩

theorem retime_ok {t t' : Tree} {k : MemberKey} {change : TimeChange}
    (h : t.retime k change = .ok t') :
    ∃ m, t.find? k = some m ∧
      t' = if k = [] then { t with root := m.times.changed change }
        else t.insert k { m with times := m.times.changed change } := by
  rw [retime_eq] at h
  cases hf : t.find? k with
  | none => rw [hf] at h; cases h
  | some m =>
    rw [hf] at h
    cases h
    exact ⟨m, rfl, rfl⟩

theorem notMem_order {t : Tree} {k : MemberKey} (hk : t.find? k = none) : k ∉ t.order := by
  intro h
  by_cases hn : k = []
  · subst hn
    cases hk
  · have hs := (mem_order_iff hn).mp h
    rw [hk] at hs
    cases hs

theorem mem_order_of_find {t : Tree} {k : MemberKey} {m : Member} (hn : k ≠ [])
    (hk : t.find? k = some m) : k ∈ t.order := by
  rw [mem_order_iff hn, hk]
  rfl

theorem exists_find_of_mem {t : Tree} {k : MemberKey} (hn : k ≠ []) (hk : k ∈ t.order) :
    ∃ m, t.find? k = some m :=
  Option.isSome_iff_exists.mp ((mem_order_iff hn).mp hk)

theorem insert_new {t : Tree} {k : MemberKey} (hk : k ∉ t.order) (m : Member) :
    t.insert k m = { t with members := t.members ++ [(k, m)] } := by
  have hput : ∀ ms : Table MemberKey Member, k ∉ ms.keys → ms.put k m = ms ++ [(k, m)] := by
    intro ms hms
    induction ms with
    | nil => rfl
    | cons lw rest ih =>
      obtain ⟨l, w⟩ := lw
      simp only [Table.keys, List.map_cons, List.mem_cons, not_or] at hms
      rw [Table.put, if_neg (Ne.symm hms.1), ih hms.2, List.cons_append]
  rw [insert, hput _ hk]

theorem find?_erase (t : Tree) {k : MemberKey} (hk : k ≠ []) (j : MemberKey) :
    ({ t with members := t.members.erase k } : Tree).find? j =
      if j = k then none else t.find? j := by
  by_cases hj : j = []
  · subst hj
    rw [if_neg (Ne.symm hk)]
    rfl
  · rw [find?_of_ne_nil _ hj, find?_of_ne_nil _ hj]
    exact Table.get?_erase _ _ _

/-- A key whose parent holds members: the parent is the root or a member. -/
theorem parent_mem_of_checkParent {t : Tree} {k : MemberKey} (h : t.checkParent k = .ok ()) :
    parent k = [] ∨ parent k ∈ t.order := by
  by_cases hp : parent k = []
  · exact Or.inl hp
  · right
    obtain ⟨p, hf, -⟩ := checkParent_ok_iff.mp h
    exact mem_order_of_find hp hf

theorem order_empty (now : Instant) : (empty now).order = [] := rfl

theorem order_insert_mem {t : Tree} {k : MemberKey} (hk : k ∈ t.order) (m : Member) :
    (t.insert k m).order = t.order := by
  rw [order_insert, if_pos hk]

theorem order_insert_new {t : Tree} {k : MemberKey} (hk : k ∉ t.order) (m : Member) :
    (t.insert k m).order = t.order ++ [k] := by
  rw [order_insert, if_neg hk]

theorem mem_order_insert {t : Tree} {j k : MemberKey} {m : Member} :
    j ∈ (t.insert k m).order ↔ j ∈ t.order ∨ j = k := by
  by_cases hk : k ∈ t.order
  · rw [order_insert_mem hk]
    constructor
    · exact Or.inl
    · rintro (h | rfl)
      · exact h
      · exact hk
  · simp [order_insert_new hk]

theorem order_erase (t : Tree) (k : MemberKey) :
    ({ t with members := t.members.erase k } : Tree).order = t.order.filter (· ≠ k) :=
  Table.keys_erase _ _

theorem order_remove {t t' : Tree} {k : MemberKey} (h : t.remove k = .ok t') :
    t'.order = t.order.filter (· ≠ k) := by
  obtain ⟨-, rfl⟩ := remove_ok h
  exact order_erase t k

/-- What is taken out has nothing beneath it. -/
theorem notMem_beneath_of_remove {t t' : Tree} {k : MemberKey} (h : t.remove k = .ok t') :
    ∀ j ∈ t.order, k <+: j → j = k := by
  intro j hj hkj
  by_cases hne : j = k
  · exact hne
  have hb : t.hasBeneath k = true := by
    rw [hasBeneath, List.any_eq_true]
    refine ⟨j, hj, ?_⟩
    simp [List.isPrefixOf_iff_prefix.mpr hkj, hne]
  rw [remove_eq] at h
  split at h
  · cases h
  · split at h
    · cases h
    · cases h

theorem order_retime {t t' : Tree} {k : MemberKey} {change : TimeChange}
    (h : t.retime k change = .ok t') : t'.order = t.order := by
  obtain ⟨m, hf, rfl⟩ := retime_ok h
  by_cases hk : k = []
  · rw [if_pos hk]
    rfl
  · rw [if_neg hk]
    exact order_insert_mem (mem_order_of_find hk hf) _

theorem length_le_height {t : Tree} {k : MemberKey} (hk : k ∈ t.order) : k.length ≤ t.height := by
  have hmax : ∀ ns : List Nat, k.length ∈ ns → k.length ≤ ns.foldr max 0 := by
    intro ns
    induction ns with
    | nil => intro h; cases h
    | cons n ns ih =>
      intro h
      rw [List.foldr_cons]
      rcases List.mem_cons.mp h with h | h
      · omega
      · have hle := ih h
        omega
  exact hmax _ (List.mem_map_of_mem hk)

/-- Nothing is one step beneath a key as long as the longest. -/
theorem below_eq_nil_of_height_le {t : Tree} {k : MemberKey} (h : t.height ≤ k.length) :
    t.below k = [] := by
  rw [List.eq_nil_iff_forall_not_mem]
  intro j hj
  obtain ⟨hmem, hn, rfl⟩ := mem_below.mp hj
  have hlt := parent_length_lt hn
  have hle := length_le_height hmem
  omega

end ZipMount.Tree
