import ZipMount.Proofs.Listing
import ZipMount.Proofs.MemberPath
import ZipMount.Proofs.Rose.Simulation

namespace ZipMount

namespace Tree

open MemberKey

/-- A walk with steps enough for the longest key. -/
theorem WellFormed.mem_preorder {t : Tree} (h : t.WellFormed) (order : WalkOrder) {steps : Nat}
    {j k : MemberKey} (hsteps : t.height ≤ k.length + steps) :
    j ∈ t.preorder order steps k ↔ j = k ∨ (j ∈ t.order ∧ k <+: j) := by
  induction steps generalizing k with
  | zero =>
    rw [preorder, List.mem_singleton]
    constructor
    · exact Or.inl
    · rintro (rfl | ⟨hj, hkj⟩)
      · rfl
      · have hlength := length_le_height hj
        exact (hkj.eq_of_length_le (by omega)).symm
  | succ steps ih =>
    have hih : ∀ c ∈ t.below k,
        (j ∈ t.preorder order steps c ↔ j = c ∨ (j ∈ t.order ∧ c <+: j)) := by
      intro c hc
      obtain ⟨-, hn, rfl⟩ := mem_below.mp hc
      have hlt := parent_length_lt hn
      exact ih (by omega)
    rw [preorder, List.mem_cons, List.mem_flatMap]
    constructor
    · rintro (rfl | ⟨c, hc, hj⟩)
      · exact Or.inl rfl
      · have hc := WalkOrder.mem_arrange.mp hc
        obtain ⟨hmem, -, rfl⟩ := mem_below.mp hc
        right
        rcases (hih c hc).mp hj with rfl | ⟨hj, hcj⟩
        · exact ⟨hmem, parent_isPrefix j⟩
        · exact ⟨hj, (parent_isPrefix c).trans hcj⟩
    · rintro (rfl | ⟨hj, hkj⟩)
      · exact Or.inl rfl
      · obtain ⟨r, rfl⟩ := hkj
        cases r with
        | nil => exact Or.inl (List.append_nil k)
        | cons s r =>
          right
          have hpre : k ++ [s] <+: k ++ s :: r := ⟨r, by simp⟩
          have hc : k ++ [s] ∈ t.below k :=
            mem_below.mpr ⟨h.mem_of_prefix hj hpre (by simp), by simp, parent_concat k s⟩
          exact ⟨_, WalkOrder.mem_arrange.mpr hc, (hih _ hc).mpr (Or.inr ⟨hj, hpre⟩)⟩

theorem prefix_of_mem_preorder {t : Tree} {order : WalkOrder} {steps : Nat} {j k : MemberKey}
    (h : j ∈ t.preorder order steps k) : k <+: j := by
  induction steps generalizing k with
  | zero =>
    rw [preorder, List.mem_singleton] at h
    subst h
    exact List.prefix_rfl
  | succ steps ih =>
    rw [preorder, List.mem_cons, List.mem_flatMap] at h
    rcases h with rfl | ⟨c, hc, hj⟩
    · exact List.prefix_rfl
    · obtain ⟨-, -, rfl⟩ := mem_below.mp (WalkOrder.mem_arrange.mp hc)
      exact (parent_isPrefix c).trans (ih hj)

/-- A walk comes to a key before it comes to what is beneath it, and never twice to one. -/
theorem WellFormed.forward_preorder {t : Tree} (h : t.WellFormed) (order : WalkOrder) (steps : Nat)
    (k : MemberKey) : (t.preorder order steps k).Pairwise fun i j => ¬ j <+: i := by
  induction steps generalizing k with
  | zero => exact List.pairwise_singleton _ _
  | succ steps ih =>
    have hlength : ∀ c ∈ order.arrange siblingLe (t.below k), c.length = k.length + 1 := by
      intro c hc
      obtain ⟨-, hn, rfl⟩ := mem_below.mp (WalkOrder.mem_arrange.mp hc)
      have hpos := List.length_pos_iff.mpr hn
      rw [parent, List.length_dropLast]
      omega
    rw [preorder, List.pairwise_cons]
    constructor
    · intro j hj hjk
      obtain ⟨c, hc, hj⟩ := List.mem_flatMap.mp hj
      have hcj := (prefix_of_mem_preorder hj).length_le
      have hle := hjk.length_le
      have hck := hlength c hc
      omega
    · rw [List.pairwise_flatMap]
      refine ⟨fun c _ => ih c, ?_⟩
      have hnodup : (order.arrange siblingLe (t.below k)).Nodup :=
        WalkOrder.nodup_arrange (h.nodup.filter _)
      apply List.Pairwise.imp_of_mem _ hnodup
      intro c d hc hd hne i hi j hj hji
      -- two keys of one length that one key starts with are the same
      have hdi := (prefix_of_mem_preorder hj).trans hji
      have hlen := (hlength c hc).trans (hlength d hd).symm
      have hcd := List.prefix_of_prefix_length_le (prefix_of_mem_preorder hi) hdi (Nat.le_of_eq hlen)
      exact hne (hcd.eq_of_length hlen)

/-- A walk from the root comes to the root first and then to every member. -/
theorem WellFormed.preorder_root {t : Tree} (h : t.WellFormed) (order : WalkOrder) :
    ∃ ks, t.preorder order t.height [] = [] :: ks ∧ ∀ k, k ∈ ks ↔ k ∈ t.order := by
  have hroot : ∃ ks, t.preorder order t.height [] = [] :: ks := by
    cases t.height with
    | zero => exact ⟨_, rfl⟩
    | succ n => exact ⟨_, rfl⟩
  obtain ⟨ks, hks⟩ := hroot
  refine ⟨ks, hks, fun k => ?_⟩
  have hsteps : t.height ≤ ([] : MemberKey).length + t.height := Nat.le_add_left _ _
  have hmem := h.mem_preorder order (j := k) hsteps
  have hforward := h.forward_preorder order t.height []
  rw [hks] at hmem hforward
  constructor
  · intro hk
    rcases hmem.mp (List.mem_cons_of_mem _ hk) with rfl | ⟨hk, -⟩
    · exact absurd List.prefix_rfl ((List.pairwise_cons.mp hforward).1 [] hk)
    · exact hk
  · intro hk
    have hin := hmem.mpr (Or.inr ⟨hk, List.nil_prefix⟩)
    exact (List.mem_cons.mp hin).resolve_left (h.ne_nil k hk)

/-- Whatever a walk comes to after the key it starts from, it came to the parent before. -/
theorem WellFormed.parent_before {t : Tree} (h : t.WellFormed) {order : WalkOrder} {steps : Nat}
    {s k : MemberKey} {done rest : List MemberKey} (hsteps : t.height ≤ s.length + steps)
    (hks : t.preorder order steps s = done ++ k :: rest) (hne : k ≠ s) : parent k ∈ done := by
  have hk : k ∈ t.preorder order steps s := by
    rw [hks]
    exact List.mem_append_right done List.mem_cons_self
  obtain ⟨horder, hsk⟩ := ((h.mem_preorder order hsteps).mp hk).resolve_left hne
  have hsp : s <+: parent k := prefix_parent hsk (Ne.symm hne)
  have hp : parent k ∈ t.preorder order steps s := by
    rw [h.mem_preorder order hsteps]
    by_cases hroot : parent k = []
    · left
      rw [hroot] at hsp ⊢
      exact (List.prefix_nil.mp hsp).symm
    · exact Or.inr ⟨h.closed k horder hroot, hsp⟩
  have hforward := h.forward_preorder order steps s
  rw [hks] at hp hforward
  rcases List.mem_append.mp hp with hp | hp
  · exact hp
  · rcases List.mem_cons.mp hp with hp | hp
    · exact absurd hp (parent_ne_self (h.ne_nil k horder))
    · have hafter := (List.pairwise_cons.mp (List.pairwise_append.mp hforward).2.1).1
      exact absurd (parent_isPrefix k) (hafter _ hp)

/-- The keys that a walk by name visits, less the key it starts from, come in order. -/
theorem WellFormed.sorted_preorder {t : Tree} (h : t.WellFormed) (steps : Nat) (k : MemberKey) :
    ∃ ks : List MemberKey, t.preorder .sorted steps k = ks.map (k ++ ·) ∧
      Listing.Sorted (ks.map filenames) := by
  induction steps generalizing k with
  | zero =>
    refine ⟨[[]], ?_, List.pairwise_singleton _ _⟩
    rw [preorder, List.map_singleton, List.append_nil]
  | succ steps ih =>
    obtain ⟨below, hbelow⟩ := Classical.skolem.mp fun s => ih (k ++ [s])
    let ss := WalkOrder.sorted.arrange nameLe (t.names k)
    refine ⟨[] :: ss.flatMap fun s => (below s).map (s :: ·), ?_, ?_⟩
    · have hle : (fun r s => siblingLe (k ++ [r]) (k ++ [s])) = nameLe := by
        funext r s
        rw [siblingLe, List.getLastD_concat, List.getLastD_concat]
      rw [preorder, below_eq_map, WalkOrder.arrange_map, hle, List.flatMap_map, List.map_cons,
        List.append_nil, List.map_flatMap]
      congr 1
      rw [List.flatMap_def, List.flatMap_def]
      congr 1
      apply List.map_congr_left
      intro s _
      rw [(hbelow s).1, List.map_map]
      apply List.map_congr_left
      intro r _
      simp
    · have hmap : ([] :: ss.flatMap fun s => (below s).map (s :: ·)).map filenames =
          Listing.ofNames Text.bytes (fun s => (below s).map filenames) ss := by
        rw [Listing.ofNames, List.map_cons, List.map_flatMap]
        congr 1
        simp only [List.map_map]
        rfl
      rw [hmap]
      apply Listing.sorted_ofNames
      · have hbytes : ss.map Text.bytes =
            WalkOrder.sorted.arrange Host.nameLe ((t.names k).map Text.bytes) := by
          rw [WalkOrder.arrange_map]
          rfl
        have hnodup : ((t.names k).map Text.bytes).Nodup := by
          apply List.pairwise_map.mpr
          apply (h.nodup_names k).imp
          intro r s hrs hb
          exact hrs (Text.bytes_inj hb)
        have hsorted := Listing.pairwise_arrange hnodup
        rw [← hbytes] at hsorted
        exact List.pairwise_map.mp hsorted
      · exact fun s _ => (hbelow s).2

end Tree

end ZipMount
