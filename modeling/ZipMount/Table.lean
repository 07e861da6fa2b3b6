namespace ZipMount

/-- Pairs of a key and a value in the order of first appearance. -/
abbrev Table (α β : Type) := List (α × β)

namespace Table

variable {α β : Type} [DecidableEq α]

def get? (t : Table α β) (k : α) : Option β := t.lookup k

def keys (t : Table α β) : List α := t.map Prod.fst

/-- Puts a value in the place of an earlier one under the same key, or last. -/
def put : Table α β → α → β → Table α β
  | [], k, v => [(k, v)]
  | (l, w) :: rest, k, v => if l = k then (k, v) :: rest else (l, w) :: put rest k v

def erase (t : Table α β) (k : α) : Table α β := t.filter fun kv => kv.1 ≠ k

@[simp] theorem get?_nil (k : α) : get? ([] : Table α β) k = none := rfl

theorem get?_cons (l : α) (w : β) (t : Table α β) (k : α) :
    get? ((l, w) :: t) k = if k = l then some w else get? t k := by
  by_cases h : k = l
  · simp [get?, h]
  · simp [get?, List.lookup_cons, h, beq_eq_false_iff_ne.2 h]

theorem get?_put (t : Table α β) (k : α) (v : β) (j : α) :
    (t.put k v).get? j = if j = k then some v else t.get? j := by
  induction t with
  | nil => simp [put, get?_cons]
  | cons lw rest ih =>
    obtain ⟨l, w⟩ := lw
    by_cases hl : l = k
    · subst hl
      by_cases hj : j = l <;> simp [put, get?_cons, hj]
    · by_cases hj : j = k
      · subst hj
        simp [put, hl, get?_cons, ih, Ne.symm hl]
      · simp [put, hl, get?_cons, ih, hj]

theorem get?_erase (t : Table α β) (k j : α) :
    (t.erase k).get? j = if j = k then none else t.get? j := by
  induction t with
  | nil => simp [erase]
  | cons lw rest ih =>
    obtain ⟨l, w⟩ := lw
    rw [erase] at ih ⊢
    by_cases hl : l = k
    · subst hl
      by_cases hj : j = l <;> simp_all [get?_cons]
    · by_cases hj : j = l
      · subst hj; simp [hl, get?_cons]
      · simpa [hl, get?_cons, hj] using ih

theorem mem_keys_iff {t : Table α β} {k : α} : k ∈ t.keys ↔ ∃ v, t.get? k = some v := by
  induction t with
  | nil => simp [keys]
  | cons lw rest ih =>
    obtain ⟨l, w⟩ := lw
    simp only [keys, List.map_cons, List.mem_cons, get?_cons] at ih ⊢
    by_cases h : k = l
    · simp [h]
    · simp [h, ih]

omit [DecidableEq α] in
theorem keys_concat (t : Table α β) (k : α) (v : β) : keys (t ++ [(k, v)]) = t.keys ++ [k] :=
  List.map_append

theorem keys_put (t : Table α β) (k : α) (v : β) :
    (t.put k v).keys = if k ∈ t.keys then t.keys else t.keys ++ [k] := by
  induction t with
  | nil => simp [put, keys]
  | cons lw rest ih =>
    obtain ⟨l, w⟩ := lw
    simp only [keys] at ih
    by_cases hl : l = k
    · simp [put, keys, hl]
    · by_cases hk : k ∈ rest.map Prod.fst
      · simp [put, keys, hl, ih, hk]
      · simp [put, keys, hl, ih, hk, Ne.symm hl]

theorem keys_erase (t : Table α β) (k : α) : (t.erase k).keys = t.keys.filter (· ≠ k) := by
  simp [erase, keys, List.filter_map, Function.comp_def]

theorem nodup_keys_put {t : Table α β} (h : t.keys.Nodup) (k : α) (v : β) :
    (t.put k v).keys.Nodup := by
  rw [keys_put]
  split
  · exact h
  · next hk =>
    refine List.nodup_append.2 ⟨h, by simp, ?_⟩
    intro a ha b hb e
    simp only [List.mem_singleton] at hb
    exact hk (by rwa [← hb, ← e])

/-- What is in a table in which something was put: that, or what was there. -/
theorem mem_put {t : Table α β} {k : α} {v : β} {kv : α × β} (h : kv ∈ t.put k v) :
    kv = (k, v) ∨ kv ∈ t := by
  induction t with
  | nil => exact Or.inl (List.mem_singleton.mp h)
  | cons lw rest ih =>
    unfold put at h
    split at h
    · rcases List.mem_cons.mp h with h | h
      · exact Or.inl h
      · exact Or.inr (List.mem_cons_of_mem _ h)
    · rcases List.mem_cons.mp h with h | h
      · exact Or.inr (h ▸ List.mem_cons_self)
      · rcases ih h with h | h
        · exact Or.inl h
        · exact Or.inr (List.mem_cons_of_mem _ h)

theorem mem_of_get? {t : Table α β} {k : α} {v : β} (h : t.get? k = some v) : (k, v) ∈ t := by
  induction t with
  | nil => cases h
  | cons lw rest ih =>
    rw [get?_cons] at h
    split at h
    · next hk =>
      cases h
      rw [hk]
      exact List.mem_cons_self
    · exact List.mem_cons_of_mem _ (ih h)

theorem get?_of_mem {t : Table α β} (h : t.keys.Nodup) {kv : α × β} (hkv : kv ∈ t) :
    t.get? kv.1 = some kv.2 := by
  induction t with
  | nil => cases hkv
  | cons lw rest ih =>
    rw [keys, List.map_cons, List.nodup_cons] at h
    rw [get?_cons]
    rcases List.mem_cons.mp hkv with rfl | hkv
    · exact if_pos rfl
    · have hne : kv.1 ≠ lw.1 := by
        intro he
        exact h.1 (he ▸ List.mem_map_of_mem hkv)
      rw [if_neg hne]
      exact ih h.2 hkv

end Table

end ZipMount
