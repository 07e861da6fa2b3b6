import ZipMount.Proofs.Rose.Node
import ZipMount.Proofs.Tree.WellFormed

namespace ZipMount.Tree

open MemberKey

/-- The last names of the keys one step beneath a key. -/
def names (t : Tree) (k : MemberKey) : List String := (t.below k).map fun j => j.getLastD ""

def shown (t : Tree) (k : MemberKey) : Option (Content × List String) :=
  (t.find? k).map fun m => (m.content, t.names k)

theorem concat_getLastD {k : MemberKey} (hk : k ≠ []) : parent k ++ [k.getLastD ""] = k := by
  rw [List.getLastD_eq_getLast?, List.getLast?_eq_some_getLast hk, Option.getD_some]
  exact List.dropLast_concat_getLast hk

theorem below_eq_map (t : Tree) (k : MemberKey) :
    t.below k = (t.names k).map fun s => k ++ [s] := by
  have hid : ∀ j ∈ t.below k, k ++ [j.getLastD ""] = j := by
    intro j hj
    obtain ⟨-, hn, rfl⟩ := mem_below.mp hj
    exact concat_getLastD hn
  rw [names, List.map_map]
  exact (List.map_id _).symm.trans (List.map_congr_left fun j hj => (hid j hj).symm)

theorem WellFormed.nodup_names {t : Tree} (h : t.WellFormed) (k : MemberKey) :
    (t.names k).Nodup := by
  have hb : (t.below k).Nodup := h.nodup.filter _
  rw [below_eq_map] at hb
  apply (List.pairwise_map.mp hb).imp
  rintro s r hsr rfl
  exact hsr rfl

/-- A key that is not there has nothing beneath it. -/
theorem WellFormed.names_eq_nil {t : Tree} (h : t.WellFormed) {k : MemberKey} (hn : k ≠ [])
    (hk : k ∉ t.order) : t.names k = [] := by
  rw [names, List.map_eq_nil_iff, below, List.filter_eq_nil_iff]
  intro j hj hjk
  obtain ⟨-, rfl⟩ := of_decide_eq_true hjk
  exact hk (h.closed j hj hn)

/-- Something is beneath a key just if something is one step beneath it. -/
theorem WellFormed.hasBeneath_iff {t : Tree} (h : t.WellFormed) (k : MemberKey) :
    t.hasBeneath k = true ↔ t.names k ≠ [] := by
  rw [hasBeneath, List.any_eq_true]
  constructor
  · rintro ⟨j, hj, hkj⟩
    rw [Bool.and_eq_true, List.isPrefixOf_iff_prefix, bne_iff_ne] at hkj
    obtain ⟨⟨r, rfl⟩, hne⟩ := hkj
    cases r with
    | nil => exact absurd (List.append_nil k) hne
    | cons s r =>
      have hpre : k ++ [s] <+: k ++ s :: r := ⟨r, by simp⟩
      have hmem : k ++ [s] ∈ t.below k :=
        mem_below.mpr ⟨h.mem_of_prefix hj hpre (by simp), by simp, parent_concat k s⟩
      intro hnil
      rw [names, List.map_eq_nil_iff] at hnil
      rw [hnil] at hmem
      cases hmem
  · intro hne
    have hb : t.below k ≠ [] := fun hnil => hne (List.map_eq_nil_iff.mpr hnil)
    obtain ⟨j, hj⟩ := List.exists_mem_of_ne_nil _ hb
    obtain ⟨hmem, hn, rfl⟩ := mem_below.mp hj
    refine ⟨j, hmem, ?_⟩
    rw [Bool.and_eq_true, List.isPrefixOf_iff_prefix, bne_iff_ne]
    exact ⟨parent_isPrefix j, Ne.symm (parent_ne_self hn)⟩

theorem names_of_order {t t' : Tree} (ho : t'.order = t.order) (k : MemberKey) :
    t'.names k = t.names k := by
  rw [names, names, below, below, ho]

/-- A new member shows itself, and its name last in its parent. -/
theorem WellFormed.shown_insert_new {t : Tree} (h : t.WellFormed) {p : MemberKey} {s : String}
    (hk : p ++ [s] ∉ t.order) {m x : Member} (hp : t.find? p = some x) (j : MemberKey) :
    (t.insert (p ++ [s]) m).shown j =
      if j = p ++ [s] then some (m.content, [])
      else if j = p then some (x.content, t.names p ++ [s])
      else t.shown j := by
  have hn : p ++ [s] ≠ [] := by simp
  have hnames : (t.insert (p ++ [s]) m).names j = t.names j ++ if p = j then [s] else [] := by
    rw [names, names, below, below, order_insert_new hk, List.filter_append, List.map_append]
    congr 1
    by_cases hpj : p = j
    · simp [hpj, parent_concat]
    · simp [hpj, parent_concat]
  rw [shown, find?_insert t hn, hnames]
  by_cases hjk : j = p ++ [s]
  · subst hjk
    have hpk : p ≠ p ++ [s] := by simp
    rw [if_pos rfl, if_pos rfl, if_neg hpk, h.names_eq_nil hn hk]
    rfl
  · rw [if_neg hjk, if_neg hjk]
    by_cases hjp : j = p
    · subst hjp
      rw [if_pos rfl, if_pos rfl, hp]
      rfl
    · rw [if_neg hjp, if_neg (Ne.symm hjp), List.append_nil]
      rfl

/-- Another member in the place of one shows its content there. -/
theorem shown_insert_mem {t : Tree} {k : MemberKey} (hn : k ≠ []) (hk : k ∈ t.order) (m : Member)
    (j : MemberKey) :
    (t.insert k m).shown j = if j = k then some (m.content, t.names k) else t.shown j := by
  rw [shown, find?_insert t hn, names_of_order (order_insert_mem hk m)]
  by_cases hjk : j = k
  · rw [if_pos hjk, if_pos hjk, hjk]
    rfl
  · rw [if_neg hjk, if_neg hjk]
    rfl

/-- A member taken out is not shown, nor is its name in its parent. -/
theorem shown_erase {t : Tree} {p : MemberKey} {s : String} {x : Member} (hp : t.find? p = some x)
    (j : MemberKey) :
    ({ t with members := t.members.erase (p ++ [s]) } : Tree).shown j =
      if j = p ++ [s] then none
      else if j = p then some (x.content, (t.names p).filter (· ≠ s))
      else t.shown j := by
  have hn : p ++ [s] ≠ [] := by simp
  have hbelow : ({ t with members := t.members.erase (p ++ [s]) } : Tree).below j =
      (t.below j).filter (· ≠ p ++ [s]) := by
    rw [below, below, order_erase, List.filter_filter, List.filter_filter]
    exact List.filter_congr fun i _ => Bool.and_comm _ _
  rw [shown, find?_erase t hn]
  by_cases hjk : j = p ++ [s]
  · rw [if_pos hjk, if_pos hjk]
    rfl
  · rw [if_neg hjk, if_neg hjk]
    by_cases hjp : j = p
    · subst hjp
      have hnames : ({ t with members := t.members.erase (j ++ [s]) } : Tree).names j =
          (t.names j).filter (· ≠ s) := by
        rw [names, hbelow, below_eq_map, List.filter_map, List.map_map]
        simp [Function.comp_def]
      rw [if_pos rfl, hp, Option.map_some, hnames]
    · have hsame : ({ t with members := t.members.erase (p ++ [s]) } : Tree).below j =
          t.below j := by
        rw [hbelow, List.filter_eq_self]
        intro i hi
        apply decide_eq_true
        rintro rfl
        have hpj := (mem_below.mp hi).2.2
        rw [parent_concat] at hpj
        exact hjp hpj.symm
      rw [if_neg hjp, shown, names, names, hsame]

theorem shown_retime {t t' : Tree} {k : MemberKey} {change : TimeChange}
    (h : t.retime k change = .ok t') (j : MemberKey) : t'.shown j = t.shown j := by
  have ho := order_retime h
  rw [retime_eq] at h
  cases hf : t.find? k with
  | none => rw [hf] at h; cases h
  | some m =>
    rw [hf] at h
    by_cases hk : k = []
    · simp only [if_pos hk, Except.ok.injEq] at h
      subst h
      by_cases hj : j = []
      · subst hj
        rfl
      · rw [shown, shown, find?_of_ne_nil _ hj, find?_of_ne_nil _ hj]
        rfl
    · simp only [if_neg hk, Except.ok.injEq] at h
      subst h
      rw [shown_insert_mem hk (mem_order_of_find hk hf)]
      by_cases hjk : j = k
      · rw [if_pos hjk, hjk, shown, hf]
        rfl
      · rw [if_neg hjk]

/-- A tree of members that shows at every key what a tree of nodes shows there. -/
structure Represents (t : Tree) (n : Node) : Prop where
  wellFormed : t.WellFormed
  shown : ∀ k, t.shown k = n.shown k

/-- Both refused for one reason, or both carried out with trees that show the same. -/
inductive Agree : Except Refusal Tree → Except Refusal Node → Prop where
  | refused (r : Refusal) : Agree (.error r) (.error r)
  | done {t : Tree} {n : Node} (h : t.Represents n) : Agree (.ok t) (.ok n)

namespace Represents

variable {t : Tree} {n : Node}

theorem find?_none (h : t.Represents n) {k : MemberKey} (hk : n.find? k = none) :
    t.find? k = none := by
  have hs := h.shown k
  rw [Tree.shown, Node.shown, hk] at hs
  exact Option.map_eq_none_iff.mp hs

theorem find?_some (h : t.Represents n) {k : MemberKey} {c : Node} (hk : n.find? k = some c) :
    ∃ times, t.find? k = some ⟨c.content, times⟩ ∧ t.names k = c.names := by
  have hs := h.shown k
  rw [Tree.shown, Node.shown_of_find? hk, Option.map_eq_some_iff] at hs
  obtain ⟨⟨content, times⟩, hf, hm⟩ := hs
  rw [Prod.mk.injEq] at hm
  obtain ⟨rfl, hnames⟩ := hm
  exact ⟨times, hf, hnames⟩

/-- The empty tree of members and a directory with nothing in it. -/
theorem empty (now : Instant) : (Tree.empty now).Represents (.directory []) := by
  refine ⟨wellFormed_empty now, ?_⟩
  intro k
  cases k with
  | nil => rfl
  | cons s k =>
    have hf : (Tree.empty now).find? (s :: k) = none := find?_empty now (List.cons_ne_nil s k)
    rw [Tree.shown, hf, Node.shown_cons_of_names rfl]
    rfl

/-- The names in every directory are distinct. -/
theorem nodup_names (h : t.Represents n) {k : MemberKey} {c : Node} (hk : n.find? k = some c) :
    c.names.Nodup := by
  obtain ⟨times, -, hnames⟩ := h.find?_some hk
  rw [← hnames]
  exact h.wellFormed.nodup_names k

/-- A new member and a new node. -/
theorem add (h : t.Represents n) {k : MemberKey} (hc : Canonical k) (hk : n.find? k = none)
    {leaf : Node} (hleaf : leaf.names = []) {m : Member} (hm : m.content = leaf.content) :
    Agree ((t.checkParent k).map fun _ => t.insert k m) (n.add k leaf) := by
  have hn : k ≠ [] := by
    rintro rfl
    cases hk
  obtain ⟨p, s, rfl⟩ : ∃ p s, k = p ++ [s] := ⟨_, _, (concat_getLastD hn).symm⟩
  rw [Node.add, checkParent_eq, parent_concat, List.getLastD_concat]
  cases hp : n.find? p with
  | none =>
    rw [h.find?_none hp]
    exact .refused .missing
  | some x =>
    obtain ⟨times, hf, hnames⟩ := h.find?_some hp
    rw [hf]
    cases x with
    | file data => exact .refused .notADirectory
    | directory es =>
      have hnew : p ++ [s] ∉ t.order := notMem_order (h.find?_none hk)
      have hs : es.lookup s = none := by
        rw [Node.find?_concat, hp] at hk
        exact hk
      have hparent : parent (p ++ [s]) = [] ∨ parent (p ++ [s]) ∈ t.order := by
        rw [parent_concat]
        by_cases hpn : p = []
        · exact Or.inl hpn
        · exact Or.inr (mem_order_of_find hpn hf)
      refine .done ⟨h.wellFormed.insert hn hc hparent m, ?_⟩
      intro j
      rw [h.wellFormed.shown_insert_new hnew hf, Node.shown_alter_append hp hs hleaf, h.shown j,
        hnames, hm]
      rfl

theorem makeDirectory (h : t.Represents n) {k : MemberKey} (hc : Canonical k) (now : Instant) :
    Agree (t.makeDirectory now k) (n.makeDirectory k) := by
  rw [makeDirectory_eq, Node.makeDirectory]
  cases hk : n.find? k with
  | none =>
    rw [h.find?_none hk]
    exact h.add hc hk rfl rfl
  | some c =>
    obtain ⟨times, hf, -⟩ := h.find?_some hk
    rw [hf]
    exact .refused .present

theorem writeFile (h : t.Represents n) {k : MemberKey} (hc : Canonical k) (now : Instant)
    (data : ByteArray) (mode : WriteMode) :
    Agree (t.writeFile now k data mode) (n.writeFile k data mode) := by
  rw [writeFile_eq]
  unfold Node.writeFile
  cases hk : n.find? k with
  | none =>
    rw [h.find?_none hk]
    exact h.add hc hk rfl rfl
  | some c =>
    obtain ⟨times, hf, hnames⟩ := h.find?_some hk
    rw [hf]
    cases c with
    | directory es => exact .refused .isADirectory
    | file old =>
      cases mode with
      | createNew => exact .refused .present
      | replace =>
        have hn : k ≠ [] := by
          rintro rfl
          cases hf
        have hmem := mem_order_of_find hn hf
        refine .done ⟨wellFormed_of_order h.wellFormed (order_insert_mem hmem _), ?_⟩
        intro j
        rw [shown_insert_mem hn hmem, Node.shown_alter_file hk, h.shown j, hnames]
        rfl

theorem remove (h : t.Represents n) (k : MemberKey) : Agree (t.remove k) (n.remove k) := by
  rw [Node.remove]
  by_cases hn : k = []
  · rw [remove_eq, if_pos hn, if_pos hn]
    exact .refused .root
  rw [if_neg hn]
  obtain ⟨p, s, rfl⟩ : ∃ p s, k = p ++ [s] := ⟨_, _, (concat_getLastD hn).symm⟩
  rw [parent_concat, List.getLastD_concat]
  cases hk : n.find? (p ++ [s]) with
  | none =>
    rw [remove_eq, if_neg hn, h.find?_none hk]
    exact .refused .missing
  | some c =>
    obtain ⟨times, hf, hnames⟩ := h.find?_some hk
    have hbeneath := h.wellFormed.hasBeneath_iff (p ++ [s])
    rw [hnames] at hbeneath
    by_cases hc : c.names = []
    · -- a file, or a directory without entries
      have hbare : t.hasBeneath (p ++ [s]) = false :=
        Bool.eq_false_iff.mpr fun hb => hbeneath.mp hb hc
      have hok : t.remove (p ++ [s]) =
          .ok { t with members := t.members.erase (p ++ [s]) } := by
        rw [remove_eq, if_neg hn, hf]
        simp only [hbare, Bool.false_eq_true, if_false]
      have hagree : Agree (t.remove (p ++ [s])) (.ok (n.alter (Node.without s) p)) := by
        obtain ⟨es, hp, hs⟩ := Node.exists_entries_of_find? hk
        obtain ⟨ptimes, hpf, hpnames⟩ := h.find?_some hp
        rw [hok]
        refine .done ⟨h.wellFormed.remove hok, ?_⟩
        intro j
        rw [shown_erase hpf, Node.shown_alter_without hp hs hc, h.shown j, hpnames]
        rfl
      cases c with
      | file data => exact hagree
      | directory es =>
        cases es with
        | nil => exact hagree
        | cons e es => cases hc
    · have hfull : t.remove (p ++ [s]) = .error .notEmpty := by
        rw [remove_eq, if_neg hn, hf]
        simp only [hbeneath.mpr hc, if_true]
      rw [hfull]
      cases c with
      | file data => exact absurd rfl hc
      | directory es =>
        cases es with
        | nil => exact absurd rfl hc
        | cons e es => exact .refused .notEmpty

theorem retime (h : t.Represents n) {k : MemberKey} {c : Node} (hk : n.find? k = some c)
    (change : TimeChange) : ∃ t', t.retime k change = .ok t' ∧ t'.Represents n := by
  obtain ⟨times, hf, -⟩ := h.find?_some hk
  have heq := retime_eq t k change
  rw [hf] at heq
  refine ⟨_, heq, wellFormed_of_order h.wellFormed (order_retime heq), ?_⟩
  intro j
  rw [shown_retime heq, h.shown j]

theorem retime_none (h : t.Represents n) {k : MemberKey} (hk : n.find? k = none)
    (change : TimeChange) : t.retime k change = .error .missing := by
  rw [retime_eq, h.find?_none hk]

theorem read (h : t.Represents n) (k : MemberKey) : t.read k = n.read k := by
  rw [read_eq, Node.read]
  cases hk : n.find? k with
  | none => rw [h.find?_none hk]
  | some c =>
    obtain ⟨times, hf, -⟩ := h.find?_some hk
    rw [hf]
    cases c <;> rfl

theorem below_eq (h : t.Represents n) {k : MemberKey} {c : Node} (hk : n.find? k = some c) :
    t.below k = c.names.map fun s => k ++ [s] := by
  obtain ⟨times, -, hnames⟩ := h.find?_some hk
  rw [below_eq_map, hnames]

theorem list (h : t.Represents n) (k : MemberKey) : t.list k = n.list k := by
  rw [list_eq, Node.list]
  cases hk : n.find? k with
  | none => rw [h.find?_none hk]
  | some c =>
    obtain ⟨times, hf, -⟩ := h.find?_some hk
    have hb := h.below_eq hk
    rw [hf]
    cases c with
    | file data => rfl
    | directory es =>
      rw [Node.names, List.map_map] at hb
      exact congrArg Except.ok hb

theorem find?_entry (h : t.Represents n) {k : MemberKey} {es : List (String × Node)}
    (hk : n.find? k = some (.directory es)) {e : String × Node} (he : e ∈ es) :
    n.find? (k ++ [e.1]) = some e.2 := by
  have hlookup : ∀ ds : List (String × Node), (ds.map Prod.fst).Nodup → e ∈ ds →
      ds.lookup e.1 = some e.2 := by
    intro ds
    induction ds with
    | nil => intro _ hd; cases hd
    | cons d ds ih =>
      intro hnodup hd
      rw [List.map_cons, List.nodup_cons] at hnodup
      rcases List.mem_cons.mp hd with rfl | hd
      · exact List.lookup_cons_self
      · have hne : (e.1 == d.1) = false := by
          apply beq_eq_false_iff_ne.mpr
          intro hsame
          apply hnodup.1
          rw [← hsame]
          exact List.mem_map_of_mem hd
        rw [List.lookup_cons, hne]
        exact ih hnodup.2 hd
  rw [Node.find?_concat, hk]
  exact hlookup es (h.nodup_names hk) he

/-- The keys at and beneath a key, if there are steps enough for the longest. -/
theorem preorder (h : t.Represents n) (order : WalkOrder) {steps : Nat} {k : MemberKey} {c : Node}
    (hk : n.find? k = some c) (hsteps : t.height ≤ k.length + steps) :
    t.preorder order steps k = c.preorder order k := by
  induction steps generalizing k c with
  | zero =>
    have hnames := h.below_eq hk
    rw [below_eq_nil_of_height_le hsteps] at hnames
    have hc : c.names = [] := List.map_eq_nil_iff.mp hnames.symm
    cases c with
    | file data => rw [Tree.preorder, Node.preorder]
    | directory es =>
      have hes : es = [] := List.map_eq_nil_iff.mp hc
      subst hes
      rw [Tree.preorder, Node.preorder_directory, WalkOrder.arrange_nil]
      rfl
  | succ steps ih =>
    rw [Tree.preorder, h.below_eq hk]
    cases c with
    | file data =>
      rw [Node.preorder, Node.names, List.map_nil, WalkOrder.arrange_nil]
      rfl
    | directory es =>
      rw [Node.preorder_directory, Node.names, List.map_map, WalkOrder.arrange_map,
        List.flatMap_map]
      have hle : (fun a b : String × Node => siblingLe (k ++ [a.1]) (k ++ [b.1])) =
          fun a b => nameLe a.1 b.1 := by
        funext a b
        rw [siblingLe, List.getLastD_concat, List.getLastD_concat]
      have hbelow : ∀ e ∈ order.arrange (fun a b : String × Node => nameLe a.1 b.1) es,
          t.preorder order steps (k ++ [e.1]) = e.2.preorder order (k ++ [e.1]) := by
        intro e he
        apply ih (h.find?_entry hk (WalkOrder.mem_arrange.mp he))
        rw [List.length_append, List.length_singleton]
        omega
      simp only [Function.comp_apply, hle]
      rw [List.flatMap_def, List.flatMap_def, List.map_congr_left hbelow]

theorem walk (h : t.Represents n) (order : WalkOrder) (k : MemberKey) :
    t.walk order k = n.walk order k := by
  rw [walk_eq, Node.walk]
  cases hk : n.find? k with
  | none => rw [h.find?_none hk]
  | some c =>
    obtain ⟨times, hf, -⟩ := h.find?_some hk
    rw [hf]
    exact congrArg Except.ok (h.preorder order hk (by omega))

end Represents

end ZipMount.Tree
