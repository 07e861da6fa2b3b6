import ZipMount.Proofs.Tree.Parents
import ZipMount.Proofs.Tree.Walk

namespace ZipMount

/-- A stack, first on top, and what is put out until it is empty: whatever is on top is taken off
and put out, and what it leads to comes on the stack in its place. -/
inductive Drains {α : Type} (leads : α → List α → Prop) : List α → List α → Prop where
  | empty : Drains leads [] []
  | turn {x : α} {xs rest out : List α} (hx : leads x xs) (h : Drains leads (xs ++ rest) out) :
      Drains leads (x :: rest) (x :: out)

namespace Drains

variable {α : Type} {leads : α → List α → Prop} {xs ys out out' : List α}

theorem append (h : Drains leads xs out) (h' : Drains leads ys out') :
    Drains leads (xs ++ ys) (out ++ out') := by
  induction h with
  | empty => exact h'
  | turn hx _ ih =>
    rw [List.append_assoc] at ih
    exact .turn hx ih

theorem flatMap {f : α → List α} (h : ∀ x ∈ xs, Drains leads [x] (f x)) :
    Drains leads xs (xs.flatMap f) := by
  induction xs with
  | nil => exact .empty
  | cons x xs ih =>
    rw [List.flatMap_cons]
    exact (h x List.mem_cons_self).append (ih fun y hy => h y (List.mem_cons_of_mem x hy))

theorem single {x : α} (hx : leads x xs) (h : Drains leads xs out) :
    Drains leads [x] (x :: out) := by
  apply turn hx
  rw [List.append_nil]
  exact h

/-- What is put out is fixed by what each leads to. -/
theorem unique (hleads : ∀ x xs ys, leads x xs → leads x ys → xs = ys)
    (h : Drains leads xs out) (h' : Drains leads xs out') : out = out' := by
  induction h generalizing out' with
  | empty =>
    cases h'
    rfl
  | turn hx _ ih =>
    cases h' with
    | turn hx' h' =>
      rw [hleads _ _ _ hx' hx] at h'
      rw [ih h']

/-- Another stack that does the same to what becomes of everything on this one. -/
theorem map {β : Type} {leads' : β → List β → Prop} {f : α → β} (h : Drains leads xs out)
    (hf : ∀ x ∈ out, ∀ ys, leads x ys → leads' (f x) (ys.map f)) :
    Drains leads' (xs.map f) (out.map f) := by
  induction h with
  | empty => exact .empty
  | turn hx _ ih =>
    have hrest := ih fun y hy => hf y (List.mem_cons_of_mem _ hy)
    rw [List.map_append] at hrest
    exact .turn (hf _ List.mem_cons_self _ hx) hrest

end Drains

/-- Where one thing alone leads to what is looked for, it is in one piece of what all lead to. -/
theorem exists_piece {α β : Type} {f : α → List β} {p : β → Bool} {xs : List α} {x : α}
    (hn : xs.Nodup) (hx : x ∈ xs) (h : ∀ y ∈ xs, y ≠ x → (f y).filter p = []) :
    f x <:+: xs.flatMap f ∧ (xs.flatMap f).filter p = (f x).filter p := by
  obtain ⟨before, after, rfl⟩ := List.append_of_mem hx
  have hnil : ∀ ys : List α, (∀ y ∈ ys, y ∈ before ++ x :: after ∧ y ≠ x) →
      (ys.flatMap f).filter p = [] := by
    intro ys hys
    rw [List.filter_flatMap, List.flatMap_eq_nil_iff]
    exact fun y hy => h y (hys y hy).1 (hys y hy).2
  have hbefore := hnil before fun y hy => by
    refine ⟨List.mem_append_left _ hy, ?_⟩
    rintro rfl
    exact (List.nodup_append.mp hn).2.2 y hy y List.mem_cons_self rfl
  have hafter := hnil after fun y hy => by
    refine ⟨List.mem_append_right _ (List.mem_cons_of_mem x hy), ?_⟩
    rintro rfl
    exact (List.nodup_cons.mp (List.nodup_append.mp hn).2.1).1 hy
  rw [List.flatMap_append, List.flatMap_cons]
  refine ⟨⟨before.flatMap f, after.flatMap f, List.append_assoc _ _ _⟩, ?_⟩
  rw [List.filter_append, List.filter_append, hbefore, hafter, List.nil_append, List.append_nil]

namespace Tree

open MemberKey

variable {t : Tree} {order : WalkOrder} {n : Nat} {c i j k p : MemberKey}

/-- The keys one step beneath a key, as a walk comes to them. -/
def inTurn (t : Tree) (order : WalkOrder) (k : MemberKey) : List MemberKey :=
  order.arrange siblingLe (t.below k)

theorem mem_inTurn : j ∈ t.inTurn order k ↔ j ∈ t.order ∧ j ≠ [] ∧ parent j = k :=
  WalkOrder.mem_arrange.trans mem_below

theorem preorder_succ (t : Tree) (order : WalkOrder) (n : Nat) (k : MemberKey) :
    t.preorder order (n + 1) k = k :: (t.inTurn order k).flatMap (t.preorder order n) := rfl

theorem inTurn_of_height_le (h : t.height ≤ k.length) : t.inTurn order k = [] := by
  rw [inTurn, below_eq_nil_of_height_le h, WalkOrder.arrange_nil]

theorem length_parent (hn : k ≠ []) : k.length = (parent k).length + 1 := by
  have hpos := List.length_pos_iff.mpr hn
  rw [parent, List.length_dropLast]
  omega

theorem length_of_mem_inTurn (h : j ∈ t.inTurn order k) : j.length = k.length + 1 := by
  obtain ⟨-, hn, rfl⟩ := mem_inTurn.mp h
  exact length_parent hn

/-- No two keys in one directory are on the way to the same key. -/
theorem eq_of_mem_inTurn (hi : i ∈ t.inTurn order k) (hj : j ∈ t.inTurn order k) (hip : i <+: p)
    (hjp : j <+: p) : i = j := by
  have hlen := (length_of_mem_inTurn hi).trans (length_of_mem_inTurn hj).symm
  exact (List.prefix_of_prefix_length_le hip hjp (Nat.le_of_eq hlen)).eq_of_length hlen

/-- With steps enough the stack of a walk runs empty. -/
theorem drains_preorder (order : WalkOrder) (h : t.height ≤ k.length + n) :
    Drains (fun k ks => t.inTurn order k = ks) [k] (t.preorder order n k) := by
  induction n generalizing k with
  | zero => exact .single (inTurn_of_height_le h) .empty
  | succ n ih =>
    rw [preorder_succ]
    refine .single rfl (.flatMap fun c hc => ih ?_)
    have hlength := length_of_mem_inTurn hc
    omega

/-- More steps make no difference. -/
theorem preorder_eq {m : Nat} (order : WalkOrder) (hn : t.height ≤ k.length + n)
    (hm : t.height ≤ k.length + m) : t.preorder order n k = t.preorder order m k :=
  (drains_preorder order hn).unique (fun _ _ _ h h' => h.symm.trans h') (drains_preorder order hm)

theorem nodup_inTurn (h : t.WellFormed) : (t.inTurn order k).Nodup :=
  WalkOrder.nodup_arrange (h.nodup.filter _)

/-- What a walk comes to after the key it starts from is longer. -/
theorem exists_preorder_cons (t : Tree) (order : WalkOrder) (n : Nat) (k : MemberKey) :
    ∃ ks, t.preorder order n k = k :: ks ∧ ∀ j ∈ ks, k.length < j.length := by
  cases n with
  | zero => exact ⟨[], rfl, fun _ hj => absurd hj List.not_mem_nil⟩
  | succ n =>
    refine ⟨_, rfl, fun j hj => ?_⟩
    obtain ⟨c, hc, hj⟩ := List.mem_flatMap.mp hj
    have hlength := length_of_mem_inTurn hc
    have hle := (prefix_of_mem_preorder hj).length_le
    omega

/-- A key on the way to what a walk comes to from `c` is on the way to the directory of `c`, or
beneath `c`. -/
theorem prefix_of_prefix_mem (hc : c ∈ t.inTurn order k) (hjk : ¬ j <+: k)
    (hi : i ∈ t.preorder order n c) (hji : j <+: i) : c <+: j := by
  have hci := prefix_of_mem_preorder hi
  have hlength := length_of_mem_inTurn hc
  obtain ⟨-, -, rfl⟩ := mem_inTurn.mp hc
  have hlt : (parent c).length < j.length := by
    apply Nat.lt_of_not_le
    exact fun hle => hjk (List.prefix_of_prefix_length_le hji ((parent_isPrefix c).trans hci) hle)
  exact List.prefix_of_prefix_length_le hci hji (by omega)

/-- What is beneath a key, and the key, a walk comes to in one piece. -/
theorem WellFormed.contiguous_preorder (h : t.WellFormed) (order : WalkOrder) (n : Nat)
    (j k : MemberKey) :
    (t.preorder order n k).filter j.isPrefixOf <:+: t.preorder order n k := by
  induction n generalizing k with
  | zero =>
    rw [preorder, List.filter_cons]
    split
    · exact List.infix_rfl
    · exact List.nil_infix
  | succ n ih =>
    by_cases hjk : j <+: k
    · have hall : ∀ i ∈ t.preorder order (n + 1) k, j.isPrefixOf i = true := fun i hi =>
        List.isPrefixOf_iff_prefix.mpr (hjk.trans (prefix_of_mem_preorder hi))
      rewrite [List.filter_eq_self.mpr hall]
      exact List.infix_rfl
    have hskip : ¬ j.isPrefixOf k = true := fun hp => hjk (List.isPrefixOf_iff_prefix.mp hp)
    rw [preorder_succ, List.filter_cons_of_neg hskip]
    refine List.IsInfix.trans ?_ (List.infix_cons List.infix_rfl)
    -- one member of the directory at most is on the way to the key
    by_cases hc : ∃ c ∈ t.inTurn order k, c <+: j
    · obtain ⟨c, hc, hcj⟩ := hc
      have hother : ∀ d ∈ t.inTurn order k, d ≠ c →
          (t.preorder order n d).filter j.isPrefixOf = [] := by
        intro d hd hdc
        rw [List.filter_eq_nil_iff]
        intro i hi hji
        have hdj := prefix_of_prefix_mem hd hjk hi (List.isPrefixOf_iff_prefix.mp hji)
        exact hdc (eq_of_mem_inTurn hd hc hdj hcj)
      obtain ⟨hpiece, hfilter⟩ := exists_piece (nodup_inTurn h) hc hother
      rw [hfilter]
      exact (ih c).trans hpiece
    · have hnone : ((t.inTurn order k).flatMap (t.preorder order n)).filter j.isPrefixOf = [] := by
        rw [List.filter_eq_nil_iff]
        intro i hi hji
        obtain ⟨c, hmem, hi⟩ := List.mem_flatMap.mp hi
        exact hc ⟨c, hmem, prefix_of_prefix_mem hmem hjk hi (List.isPrefixOf_iff_prefix.mp hji)⟩
      rw [hnone]
      exact List.nil_infix

def isIn (p j : MemberKey) : Bool := decide (j ≠ [] ∧ parent j = p)

theorem isIn_iff : isIn p j = true ↔ j ≠ [] ∧ parent j = p := decide_eq_true_iff

theorem not_isIn (h : ¬ p.length < j.length) : ¬ isIn p j = true := by
  intro hin
  obtain ⟨hn, rfl⟩ := isIn_iff.mp hin
  exact h (parent_length_lt hn)

/-- What is one step beneath the key that a walk starts from. -/
theorem filter_preorder_self (hn : t.height ≤ k.length + n) :
    (t.preorder order n k).filter (isIn k) = t.inTurn order k := by
  have hskip := not_isIn (Nat.lt_irrefl k.length)
  cases n with
  | zero =>
    rw [preorder, List.filter_cons_of_neg hskip, inTurn_of_height_le hn, List.filter_nil]
  | succ n =>
    have hfirst : ∀ c ∈ t.inTurn order k, (t.preorder order n c).filter (isIn k) = [c] := by
      intro c hc
      obtain ⟨ks, hks, hlonger⟩ := exists_preorder_cons t order n c
      have hlength := length_of_mem_inTurn hc
      rw [hks, List.filter_cons_of_pos (isIn_iff.mpr (mem_inTurn.mp hc).2), List.cons.injEq]
      refine ⟨rfl, List.filter_eq_nil_iff.mpr fun j hj hin => ?_⟩
      obtain ⟨hjn, rfl⟩ := isIn_iff.mp hin
      have hlt := hlonger j hj
      have hjlength := length_parent hjn
      omega
    rw [preorder_succ, List.filter_cons_of_neg hskip, List.filter_flatMap, List.flatMap_def,
      List.map_congr_left hfirst, ← List.flatMap_def, List.flatMap_singleton']

/-- Where no member is on the way to a key, a walk comes to nothing beneath it. -/
theorem WellFormed.filter_preorder_missing (h : t.WellFormed) (order : WalkOrder)
    (hn : t.height ≤ k.length + n) {s : String} (hsp : k ++ [s] <+: p) (hs : k ++ [s] ∉ t.order) :
    t.inTurn order p = [] ∧ (t.preorder order n k).filter (isIn p) = [] := by
  have hnone : ∀ j ∈ t.order, ¬ isIn p j = true := by
    intro j hj hin
    obtain ⟨-, rfl⟩ := isIn_iff.mp hin
    exact hs (h.mem_of_prefix hj (hsp.trans (parent_isPrefix j)) (by simp))
  constructor
  · have hbelow : t.below p = [] := List.filter_eq_nil_iff.mpr hnone
    rw [inTurn, hbelow, WalkOrder.arrange_nil]
  · rw [List.filter_eq_nil_iff]
    intro i hi
    rcases (h.mem_preorder order hn).mp hi with rfl | ⟨hi, -⟩
    · apply not_isIn
      have hle := hsp.length_le
      rw [List.length_append, List.length_singleton] at hle
      omega
    · exact hnone i hi

/-- What is one step beneath a key a walk comes to in its order. -/
theorem WellFormed.filter_preorder (h : t.WellFormed) (hn : t.height ≤ k.length + n)
    (hkp : k <+: p) : (t.preorder order n k).filter (isIn p) = t.inTurn order p := by
  have hskip : ¬ isIn p k = true := not_isIn (Nat.not_lt.mpr hkp.length_le)
  induction n generalizing k with
  | zero =>
    have hle := hkp.length_le
    rw [preorder, List.filter_cons_of_neg hskip, List.filter_nil, inTurn_of_height_le (by omega)]
  | succ n ih =>
    by_cases hself : k = p
    · subst hself
      exact filter_preorder_self hn
    obtain ⟨s, hsp⟩ := exists_child hkp hself
    by_cases hs : k ++ [s] ∈ t.order
    · have hturn : k ++ [s] ∈ t.inTurn order k :=
        mem_inTurn.mpr ⟨hs, by simp, parent_concat k s⟩
      have hother : ∀ c ∈ t.inTurn order k, c ≠ k ++ [s] →
          (t.preorder order n c).filter (isIn p) = [] := by
        intro c hc hne
        rw [List.filter_eq_nil_iff]
        intro i hi hin
        obtain ⟨-, rfl⟩ := isIn_iff.mp hin
        have hci := prefix_of_mem_preorder hi
        exact hne (eq_of_mem_inTurn hc hturn hci (hsp.trans (parent_isPrefix i)))
      have hlength := length_of_mem_inTurn hturn
      rw [preorder_succ, List.filter_cons_of_neg hskip,
        (exists_piece (nodup_inTurn h) hturn hother).2]
      exact ih (by omega) hsp (not_isIn (Nat.not_lt.mpr hsp.length_le))
    · obtain ⟨hbelow, hfilter⟩ := h.filter_preorder_missing order hn hsp hs
      rw [hbelow, hfilter]

/-- What a walk from a key comes to: the key, then just the members beneath it, each once and before
what is beneath it, which comes in one piece. -/
structure Visits (t : Tree) (r : MemberKey) (ks : List MemberKey) : Prop where
  first : ks.head? = some r
  mem_iff : ∀ k, k ∈ ks ↔ k = r ∨ (k ∈ t.order ∧ r <+: k ∧ k ≠ r)
  nodup : ks.Nodup
  forward : ks.Pairwise fun j k => ¬ k <+: j
  contiguous : ∀ k : MemberKey, ks.filter k.isPrefixOf <:+: ks

theorem WellFormed.visits_preorder (h : t.WellFormed) (order : WalkOrder) {r : MemberKey}
    (hn : t.height ≤ r.length + n) : t.Visits r (t.preorder order n r) := by
  have hforward := h.forward_preorder order n r
  refine ⟨?_, fun k => ?_, ?_, hforward, fun k => h.contiguous_preorder order n k r⟩
  · obtain ⟨ks, hks, -⟩ := exists_preorder_cons t order n r
    rw [hks, List.head?_cons]
  · rw [h.mem_preorder order hn]
    by_cases hk : k = r
    · simp only [hk, true_or]
    · simp only [hk, false_or, ne_eq, not_false_eq_true, and_true]
  · apply hforward.imp
    rintro j k hjk rfl
    exact hjk List.prefix_rfl

theorem WellFormed.sorted_filenames (h : t.WellFormed) (n : Nat) (k : MemberKey) :
    Listing.Sorted ((t.preorder .sorted n k).map filenames) := by
  obtain ⟨ks, hks, hsorted⟩ := h.sorted_preorder n k
  have hmap : (ks.map (k ++ ·)).map filenames = (ks.map filenames).map (filenames k ++ ·) := by
    simp only [List.map_map, filenames, Function.comp_def, List.map_append]
  rw [hks, hmap]
  apply List.pairwise_map.mpr
  exact hsorted.imp fun hlt => List.append_left_lt hlt

/-- A walk by name depends on nothing but which members are beneath the key. -/
theorem WellFormed.sorted_preorder_eq {t' : Tree} (h : t.WellFormed) (h' : t'.WellFormed)
    {m : Nat} {r : MemberKey} (hn : t.height ≤ r.length + n) (hm : t'.height ≤ r.length + m)
    (hsame : ∀ k, r <+: k → (k ∈ t'.order ↔ k ∈ t.order)) :
    t'.preorder .sorted m r = t.preorder .sorted n r := by
  have hmem : ∀ k, k ∈ t'.preorder .sorted m r ↔ k ∈ t.preorder .sorted n r := by
    intro k
    rw [h'.mem_preorder .sorted hm, h.mem_preorder .sorted hn]
    apply or_congr_right
    rw [and_congr_left_iff]
    exact hsame k
  have hnames : (t'.preorder .sorted m r).map filenames =
      (t.preorder .sorted n r).map filenames := by
    apply Listing.eq_of_mem_iff (h'.sorted_filenames m r) (h.sorted_filenames n r)
    intro l
    simp only [List.mem_map, hmem]
  exact (List.map_inj_right fun _ _ => filenames_inj).mp hnames

/-- Whatever archive a mount starts with and whatever it is asked to do, a walk from any key that is
there ends, and comes to the key and then to just the members beneath it. A walk by name comes to
them in the order of their names, so that any tree with the same keys there is walked alike; the
other comes to the members of each directory in the order in which they came. -/
theorem Reachable.walk_visits {t : Tree} (h : t.Reachable) {r : MemberKey}
    (hr : (t.find? r).isSome) :
    (∀ order, ∃ ks, t.walk order r = .ok ks ∧
      Drains (fun k below => t.inTurn order k = below) [r] ks ∧ t.Visits r ks) ∧
    (∃ ks, t.walk .sorted r = .ok ks ∧ Listing.Sorted (ks.map filenames) ∧
      ∀ t' : Tree, t'.Reachable → (∀ k, r <+: k → (k ∈ t'.order ↔ k ∈ t.order)) →
        t'.walk .sorted r = .ok ks) ∧
    ∃ ks, t.walk .natural r = .ok ks ∧
      ∀ p, r <+: p → ks.filter (isIn p) = t.order.filter (isIn p) := by
  have hw := h.wellFormed
  have hsteps : ∀ t : Tree, t.height ≤ r.length + (t.height - r.length) := fun t => by omega
  have hwalk : ∀ t : Tree, (t.find? r).isSome → ∀ order,
      t.walk order r = .ok (t.preorder order (t.height - r.length) r) := by
    intro t hr order
    obtain ⟨m, hm⟩ := Option.isSome_iff_exists.mp hr
    rw [walk_eq, hm]
  refine ⟨fun order => ?_, ⟨_, hwalk t hr .sorted, hw.sorted_filenames _ r, ?_⟩,
    ⟨_, hwalk t hr .natural, fun p hp => hw.filter_preorder (hsteps t) hp⟩⟩
  · have hdrains := drains_preorder order (hsteps t)
    exact ⟨_, hwalk t hr order, hdrains, hw.visits_preorder order (hsteps t)⟩
  · intro t' h' hsame
    have hr' : (t'.find? r).isSome := by
      by_cases hn : r = []
      · rw [hn, find?_nil]
        rfl
      · rw [← mem_order_iff hn] at hr ⊢
        exact (hsame r List.prefix_rfl).mpr hr
    rw [hwalk t' hr' .sorted, hw.sorted_preorder_eq h'.wellFormed (hsteps t) (hsteps t') hsame]

/-- Entries whose names come in another order than their texts: a hyphen comes before a slash. -/
def dashedEntries : List (Except ZipFault Zip.Entry) :=
  namedEntries ["b", "a-b/c", "a/d", "a/b"]

/-- The tree that a mount of an archive with these entries starts with. -/
def dashedTree : Tree := (ofEntries .epoch dashedEntries).toOption.getD (empty .epoch)

theorem walk_visits_dashedTree :
    dashedTree.Reachable ∧ (dashedTree.find? []).isSome ∧
      (∀ order, ∃ ks, dashedTree.walk order [] = .ok ks ∧
        Drains (fun k below => dashedTree.inTurn order k = below) [[]] ks ∧
        dashedTree.Visits [] ks) ∧
      ∃ ks, dashedTree.walk .sorted [] = .ok ks ∧ Listing.Sorted (ks.map filenames) := by
  have hreach : dashedTree.Reachable :=
    ⟨{ tangledWorld with mounts := [{ tangledMount with tree := dashedTree }] }, ⟨0, 0⟩, _, _,
      [], rfl, Or.inr ⟨.epoch, dashedEntries, rfl⟩, rfl, rfl⟩
  have hthere : (dashedTree.find? []).isSome := rfl
  obtain ⟨hvisits, ⟨ks, hks, hsorted, -⟩, -⟩ := hreach.walk_visits hthere
  exact ⟨hreach, hthere, hvisits, ks, hks, hsorted⟩

example : dashedTree.walk .sorted [] =
    .ok [[], ["a"], ["a", "b"], ["a", "d"], ["a-b"], ["a-b", "c"], ["b"]] := by cbv

end Tree

end ZipMount
