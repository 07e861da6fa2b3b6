import ZipMount.Archive.Image
import ZipMount.Proofs.Tree.WellFormed

namespace ZipMount

namespace Table

variable {α β γ : Type} [DecidableEq α]

theorem put_map (f : β → γ) (t : Table α β) (k : α) (v : β) :
    (t.put k v).map (fun kv => (kv.1, f kv.2)) =
      put (t.map fun kv => (kv.1, f kv.2)) k (f v) := by
  induction t with
  | nil => rfl
  | cons lw rest ih =>
    obtain ⟨l, w⟩ := lw
    simp only [put, List.map_cons]
    split
    · rfl
    · rw [List.map_cons, ih]

theorem put_same {t : Table α β} {k : α} {v : β} (h : t.get? k = some v) : t.put k v = t := by
  induction t with
  | nil => cases h
  | cons lw rest ih =>
    obtain ⟨l, w⟩ := lw
    rw [get?_cons] at h
    rw [put]
    by_cases hl : l = k
    · rw [if_pos hl.symm] at h
      cases h
      rw [if_pos hl, hl]
    · rw [if_neg (Ne.symm hl)] at h
      rw [if_neg hl, ih h]

theorem get?_map (f : β → γ) (t : Table α β) (k : α) :
    get? (t.map fun kv => (kv.1, f kv.2)) k = (t.get? k).map f := by
  induction t with
  | nil => rfl
  | cons lw rest ih =>
    obtain ⟨l, w⟩ := lw
    rw [List.map_cons, get?_cons, get?_cons, ih]
    split <;> rfl

end Table

/-- What members hold, by their keys. -/
abbrev Outline := Table MemberKey Content

/-- Puts what a key is to hold; the root is no member. -/
def Outline.place (o : Outline) (k : MemberKey) (c : Content) : Outline :=
  if k = [] then o else o.put k c

namespace Tree

/-- What the members hold, in their order. -/
def outline (t : Tree) : Outline := t.members.map fun km => (km.1, km.2.content)

theorem keys_outline (t : Tree) : t.outline.keys = t.order := by
  rw [Table.keys, outline, List.map_map]
  rfl

theorem outline_insert (t : Tree) (k : MemberKey) (m : Member) :
    (t.insert k m).outline = t.outline.put k m.content :=
  Table.put_map Member.content t.members k m

theorem outline_place_present {t : Tree} {k : MemberKey} {m : Member} (h : t.find? k = some m) :
    t.outline.place k m.content = t.outline := by
  unfold Outline.place
  split
  · rfl
  · next hn =>
    rw [find?_of_ne_nil t hn] at h
    apply Table.put_same
    rw [outline, Table.get?_map, h]
    rfl

theorem outline_makeDirectory {t t' : Tree} {now : Instant} {k : MemberKey}
    (h : t.makeDirectory now k = .ok t') : t'.outline = t.outline.place k .directory := by
  obtain ⟨hf, -, rfl⟩ := makeDirectory_ok h
  have hn : k ≠ [] := by
    rintro rfl
    cases hf
  rw [outline_insert, Outline.place, if_neg hn]
  rfl

theorem outline_writeFile {t t' : Tree} {now : Instant} {k : MemberKey} {data : ByteArray}
    {mode : WriteMode} (h : t.writeFile now k data mode = .ok t') :
    t'.outline = t.outline.place k (.file data) := by
  obtain ⟨m, rfl, hm, hn, -⟩ := writeFile_ok h
  rw [outline_insert, Outline.place, if_neg hn, hm]

/-- The member under a key, if there is one, has one time three times. -/
def Stamped (t : Tree) (time : Instant) (k : MemberKey) : Prop :=
  ∀ m, t.find? k = some m → m.times = .all time

theorem outline_retime {t t' : Tree} {k : MemberKey} {change : TimeChange}
    (h : t.retime k change = .ok t') : t'.outline = t.outline := by
  rw [retime_eq] at h
  cases hf : t.find? k with
  | none => rw [hf] at h; cases h
  | some m =>
    rw [hf, Except.ok.injEq] at h
    subst h
    split
    · rfl
    · next hn =>
      have hplace := outline_place_present hf
      rw [Outline.place, if_neg hn] at hplace
      rw [outline_insert]
      exact hplace

theorem find?_retime {t t' : Tree} {k : MemberKey} {change : TimeChange}
    (h : t.retime k change = .ok t') (j : MemberKey) :
    t'.find? j = (t.find? j).map fun m =>
      if j = k then { m with times := m.times.changed change } else m := by
  rw [retime_eq] at h
  cases hf : t.find? k with
  | none => rw [hf] at h; cases h
  | some m =>
    rw [hf, Except.ok.injEq] at h
    subst h
    by_cases hn : k = []
    · subst hn
      rw [if_pos rfl]
      by_cases hj : j = []
      · subst hj
        cases hf
        rfl
      · rw [find?_of_ne_nil _ hj, find?_of_ne_nil _ hj]
        simp only [hj, if_false, Option.map_id']
    · rw [if_neg hn, find?_insert t hn]
      by_cases hj : j = k
      · subst hj
        rw [if_pos rfl, hf]
        simp only [if_true, Option.map_some]
      · simp only [hj, if_false, Option.map_id']

theorem stamped_retime {t t' : Tree} {time : Instant} {k : MemberKey}
    (h : t.retime k (.all time) = .ok t') : t'.Stamped time k := by
  intro m hm
  rw [find?_retime h, Option.map_eq_some_iff] at hm
  obtain ⟨m', -, rfl⟩ := hm
  rw [if_pos rfl]
  exact Times.changed_all m'.times time

theorem Stamped.retime {t t' : Tree} {time : Instant} {j k : MemberKey} (hj : t.Stamped time j)
    (h : t.retime k (.all time) = .ok t') : t'.Stamped time j := by
  by_cases hsame : j = k
  · rw [hsame]
    exact stamped_retime h
  · intro m hm
    rw [find?_retime h, Option.map_eq_some_iff] at hm
    obtain ⟨m', hm', rfl⟩ := hm
    rw [if_neg hsame]
    exact hj m' hm'

/-- The members of a tree that all have one time. -/
theorem members_of_stamped {t : Tree} (h : t.WellFormed) {time : Instant}
    (hs : ∀ k ∈ t.order, t.Stamped time k) :
    t.members = t.outline.map fun kc => (kc.1, ⟨kc.2, .all time⟩) := by
  have hself : ∀ km ∈ t.members, km = (km.1, (⟨km.2.content, .all time⟩ : Member)) := by
    intro km hkm
    have htimes := hs km.1 (List.mem_map_of_mem hkm) km.2 (h.get?_of_mem hkm)
    rw [← htimes]
  rw [outline, List.map_map]
  conv => lhs; rw [← List.map_id t.members]
  exact List.map_congr_left hself

end Tree

end ZipMount
