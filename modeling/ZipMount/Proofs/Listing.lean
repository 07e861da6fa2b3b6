import ZipMount.Host.Walk
import ZipMount.Proofs.Except

namespace ZipMount

theorem WalkOrder.arrange_nil {α : Type} (order : WalkOrder) (le : α → α → Bool) :
    order.arrange le [] = [] := by
  cases order with
  | natural => rfl
  | sorted => exact List.mergeSort_nil

/-- What is put in order by what becomes of it can be put in order first. -/
theorem WalkOrder.map_arrange {α β : Type} (order : WalkOrder) {le : α → α → Bool}
    {le' : β → β → Bool} {f : α → β} {xs : List α}
    (h : ∀ a ∈ xs, ∀ b ∈ xs, le a b = le' (f a) (f b)) :
    (order.arrange le xs).map f = order.arrange le' (xs.map f) := by
  cases order with
  | natural => rfl
  | sorted => exact List.map_mergeSort h

theorem WalkOrder.arrange_map {α β : Type} (order : WalkOrder) (le : β → β → Bool) (f : α → β)
    (xs : List α) :
    order.arrange le (xs.map f) = (order.arrange (fun a b => le (f a) (f b)) xs).map f := by
  symm
  exact order.map_arrange fun _ _ _ _ => rfl

/-- The names that lead to each of some entries. -/
abbrev Listing := List (List Filename)

namespace Listing

/-- Each entry comes before the next, names being compared one after the other. -/
def Sorted (l : Listing) : Prop := l.Pairwise fun r s => r < s

/-- The listing of a directory: the directory itself, and under the name of everything in it what is
there. -/
def ofNames {α : Type} (name : α → Filename) (below : α → Listing) (xs : List α) : Listing :=
  [] :: xs.flatMap fun x => (below x).map (name x :: ·)

/-- No entry comes after one that is in it, and none twice. -/
def Forward (l : Listing) : Prop := l.Pairwise fun r s => ¬ s <+: r

theorem Sorted.nodup {l : Listing} (h : l.Sorted) : l.Nodup := by
  apply h.imp
  rintro r s hrs rfl
  exact List.lt_irrefl r hrs

theorem eq_of_mem_iff {l l' : Listing} (h : l.Sorted) (h' : l'.Sorted) (hm : ∀ r, r ∈ l ↔ r ∈ l') :
    l = l' := by
  apply List.Perm.eq_of_pairwise _ h h'
  · exact (List.perm_ext_iff_of_nodup h.nodup h'.nodup).mpr hm
  · intro r s _ _ hrs hsr
    exact absurd hsr (List.lt_asymm hrs)

variable {α : Type} {name : α → Filename} {below : α → Listing} {xs : List α}

theorem mem_ofNames {r : List Filename} :
    r ∈ ofNames name below xs ↔ r = [] ∨ ∃ x ∈ xs, ∃ s ∈ below x, r = name x :: s := by
  rw [ofNames, List.mem_cons, List.mem_flatMap]
  simp only [List.mem_map, eq_comm]

theorem sorted_ofNames (hn : xs.Pairwise fun a b => name a < name b)
    (hb : ∀ x ∈ xs, (below x).Sorted) : (ofNames name below xs).Sorted := by
  refine List.pairwise_cons.mpr ⟨?_, ?_⟩
  · intro r hr
    obtain ⟨x, -, hr⟩ := List.mem_flatMap.mp hr
    obtain ⟨s, -, rfl⟩ := List.mem_map.mp hr
    exact List.nil_lt_cons (name x) s
  · induction xs with
    | nil => exact List.Pairwise.nil
    | cons x xs ih =>
      obtain ⟨hfirst, hrest⟩ := List.pairwise_cons.mp hn
      rw [List.flatMap_cons, List.pairwise_append]
      refine ⟨?_, ih hrest fun y hy => hb y (List.mem_cons_of_mem x hy), ?_⟩
      · rw [List.pairwise_map]
        apply (hb x List.mem_cons_self).imp
        intro r s hrs
        exact List.cons_lt_cons_iff.mpr (Or.inr ⟨rfl, hrs⟩)
      · intro r hr s hs
        obtain ⟨r', -, rfl⟩ := List.mem_map.mp hr
        obtain ⟨y, hy, hs⟩ := List.mem_flatMap.mp hs
        obtain ⟨s', -, rfl⟩ := List.mem_map.mp hs
        exact List.cons_lt_cons_iff.mpr (Or.inl (hfirst y hy))

theorem forward_ofNames (hn : xs.Pairwise fun a b => name a ≠ name b)
    (hb : ∀ x ∈ xs, (below x).Forward) : (ofNames name below xs).Forward := by
  refine List.pairwise_cons.mpr ⟨?_, ?_⟩
  · intro r hr hpre
    obtain ⟨x, -, hr⟩ := List.mem_flatMap.mp hr
    obtain ⟨s, -, rfl⟩ := List.mem_map.mp hr
    exact List.cons_ne_nil _ _ (List.prefix_nil.mp hpre)
  · induction xs with
    | nil => exact List.Pairwise.nil
    | cons x xs ih =>
      obtain ⟨hfirst, hrest⟩ := List.pairwise_cons.mp hn
      rw [List.flatMap_cons, List.pairwise_append]
      refine ⟨?_, ih hrest fun y hy => hb y (List.mem_cons_of_mem x hy), ?_⟩
      · rw [List.pairwise_map]
        apply (hb x List.mem_cons_self).imp
        intro r s hnot hpre
        exact hnot (List.cons_prefix_cons.mp hpre).2
      · intro r hr s hs hpre
        obtain ⟨r', -, rfl⟩ := List.mem_map.mp hr
        obtain ⟨y, hy, hs⟩ := List.mem_flatMap.mp hs
        obtain ⟨s', -, rfl⟩ := List.mem_map.mp hs
        exact hfirst y hy (List.cons_prefix_cons.mp hpre).1.symm

/-- Names that are told apart come one after the other when they are put in order. -/
theorem pairwise_arrange {names : List Filename} (h : names.Nodup) :
    (WalkOrder.sorted.arrange Host.nameLe names).Pairwise fun a b => a < b := by
  have hle : (names.mergeSort Host.nameLe).Pairwise fun a b => Host.nameLe a b := by
    apply List.pairwise_mergeSort
    · intro a b c hab hbc
      exact decide_eq_true (List.le_trans (of_decide_eq_true hab) (of_decide_eq_true hbc))
    · intro a b
      rw [Bool.or_eq_true]
      rcases List.le_total a b with hab | hba
      · exact Or.inl (decide_eq_true hab)
      · exact Or.inr (decide_eq_true hba)
  have hnodup : (names.mergeSort Host.nameLe).Nodup :=
    (List.mergeSort_perm names Host.nameLe).nodup_iff.mpr h
  apply (hle.and hnodup).imp
  rintro a b ⟨hab, hne⟩
  have hab : a ≤ b := of_decide_eq_true hab
  rcases Decidable.em (a < b) with hlt | hlt
  · exact hlt
  · exact absurd (List.le_antisymm hab (List.not_lt.mp hlt)) hne

end Listing

end ZipMount
