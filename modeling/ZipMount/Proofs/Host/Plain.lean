import ZipMount.Proofs.Host.Reach
import ZipMount.Proofs.Host.Walk

namespace ZipMount

theorem Pathname.hasZero_under {p : Pathname} {names : List Filename} (hp : p.hasZero = false)
    (hnames : ∀ n ∈ names, 0 ∉ n) : (p.under names).hasZero = false := by
  induction names generalizing p with
  | nil => exact hp
  | cons n names ih =>
    have hn := hasZero_join hp (hasZero_eq_false.mpr (hnames n List.mem_cons_self))
    exact ih hn fun m hm => hnames m (List.mem_cons_of_mem n hm)

namespace Host

/-- A directory without links beneath it, and with names as hosts have them, every path of which is
short enough to be looked up. -/
structure Plain (h : Host) (p : Pathname) (dir : Location) : Prop where
  leads : h.At p dir .directory
  noZero : p.hasZero = false
  linkless : h.Linkless dir
  names : ∀ r, h.kind? (dir ++ r) ≠ none → ∀ n ∈ r, n.length ≤ longestName ∧ 0 ∉ n
  short : ∀ r, h.kind? (dir ++ r) ≠ none → (p.under r).bytes.length < pathLimit

variable {h : Host} {p : Pathname} {l dir : Location} {n : Filename} {k : HostKind}
  {r : List Filename}

/-- What a path leads to is found itself, or a link to it is. -/
theorem advance_itself {j i : Nat} {a b : Location} {ss : List Step} (hl : h.Leads j a ss b)
    (hji : j ≤ i) : h.advance .itself i a ss = .ok (.entry b) ∨
      ∃ l target, h.advance .itself i a ss = .ok (.entry l) ∧ h.kind? l = some (.link target) := by
  induction hl generalizing i with
  | done loc => exact Or.inl (advance_nil h _ i loc)
  | stay hs hd _ ih =>
    rw [advance_cons, hd]
    rcases hs with rfl | rfl
    · exact ih hji
    · exact ih hji
  | up hd _ ih =>
    rw [advance_cons, hd]
    exact ih hji
  | @name _ loc l s rest kind hd hn hk hkind _ ih =>
    have hshort : ¬ longestName < s.length := Nat.not_lt.mpr hn
    rw [advance_cons, hd]
    simp only [Manner.itself, Bool.false_eq_true, false_and, if_false, hshort, hk]
    cases kind with
    | link target => exact absurd rfl (hkind target)
    | directory => exact ih hji
    | file data => exact ih hji
  | @link j loc l s rest target hd hn hk _ ih =>
    have hshort : ¬ longestName < s.length := Nat.not_lt.mpr hn
    obtain ⟨i, rfl⟩ : ∃ i', i = i' + 1 := ⟨i - 1, by omega⟩
    rw [advance_cons, hd]
    simp only [Manner.itself, Bool.false_eq_true, false_and, if_false, hshort, hk,
      not_false_eq_true, and_true]
    by_cases hrest : rest = []
    · rw [if_pos hrest]
      exact Or.inr ⟨_, target, rfl, hk⟩
    · rw [if_neg hrest]
      exact ih (by omega)

theorem refused_of_ok {α : Type} (hz : p.hasZero = false) {r : Except Errno α} {x : α}
    (hr : r = .ok x) : refused p (onPath p r) = .ok x := by
  unfold refused onPath
  rw [hz, hr]
  rfl

/-- A walk can start from any path that leads to a directory. -/
theorem enter_of_at (hz : p.hasZero = false) (hat : h.At p l .directory) :
    ∃ modified, h.enter [] p = .ok (l, .directory modified) := by
  obtain ⟨node, hfind, hkind⟩ := find_target_iff.mpr hat
  cases node with
  | file data t => cases hkind
  | link target => cases hkind
  | directory modified =>
    refine ⟨modified, ?_⟩
    have hnode := (find_ok.mp hfind).2
    obtain ⟨hne, hshort, ⟨j, hj, hl⟩, hk⟩ := hat
    unfold enter
    rcases advance_itself hl hj with hself | ⟨l', target, hself, hlink⟩
    · have hitself : h.find .itself p = .ok (l, .directory modified) :=
        find_ok.mpr ⟨lookup_ok.mpr ⟨hne, hshort, hself⟩, hnode⟩
      rw [refused_of_ok hz hitself]
      rfl
    · rw [kind?, Option.map_eq_some_iff] at hlink
      obtain ⟨node, hnode', hkind'⟩ := hlink
      have hitself : h.find .itself p = .ok (l', node) :=
        find_ok.mpr ⟨lookup_ok.mpr ⟨hne, hshort, hself⟩, hnode'⟩
      rw [refused_of_ok hz hitself]
      cases node with
      | directory t => cases hkind'
      | file data t => cases hkind'
      | link target' =>
        change (refused p (onPath p (h.find .target p)) >>= _) = _
        rw [refused_of_ok hz hfind]
        rfl

/-- A name in a directory is entered as what has that name, if it is no link. -/
theorem enter_join (hat : h.At p dir .directory) (hn : IsSegment n)
    (hshort : (p.join ⟨n⟩).bytes.length < pathLimit) (hz : (p.join ⟨n⟩).hasZero = false)
    (hname : n.length ≤ longestName) (hk : h.kind? (dir ++ [n]) = some k)
    (hlink : ∀ target, k ≠ .link target) (ancestors : List Ancestor) :
    ∃ node, h.enter ancestors (p.join ⟨n⟩) = .ok (dir ++ [n], node) ∧ node.kind = k := by
  obtain ⟨j, hj, hl⟩ := hat.leads_plainSteps
  obtain ⟨i, hi⟩ := Nat.exists_eq_add_of_le hj
  have hkind := hk
  rw [kind?, Option.map_eq_some_iff] at hk
  obtain ⟨node, hnode, rfl⟩ := hk
  have hitself : h.find .itself (p.join ⟨n⟩) = .ok (dir ++ [n], node) := by
    refine find_ok.mpr ⟨lookup_ok.mpr ⟨Pathname.join_ne_nil hat.1 hn, hshort, ?_⟩, hnode⟩
    rw [startOf_join hat.1 hn, Pathname.steps_join hat.1 hn, hi, advance_append _ hl]
    exact advance_there _ i hat.kind hname hkind hlink
  refine ⟨node, ?_, rfl⟩
  unfold enter
  rw [refused_of_ok hz hitself]
  cases node with
  | link target => exact absurd rfl (hlink target)
  | directory t => rfl
  | file data t => rfl

theorem list_of_at (hz : p.hasZero = false) (hat : h.At p l .directory) :
    refused p (h.list p) = .ok (h.namesIn l) := by
  obtain ⟨node, hfind, hkind⟩ := find_target_iff.mpr hat
  cases node with
  | file data t => cases hkind
  | link target => cases hkind
  | directory modified =>
    unfold list
    apply refused_of_ok hz
    rw [hfind]
    rfl

namespace Plain

theorem hasZero_under (hp : h.Plain p dir) (hk : h.kind? (dir ++ r) ≠ none) :
    (p.under r).hasZero = false :=
  Pathname.hasZero_under hp.noZero fun n hn => (hp.names r hk n hn).2

theorem isSegment (hw : h.WellFormed) (hk : h.kind? (dir ++ r) = some k) :
    ∀ n ∈ r, IsSegment n :=
  fun n hn => hw.isSegment hk n (List.mem_append_right dir hn)

/-- Names lead from the directory to where they say. -/
theorem at_under (hp : h.Plain p dir) (hw : h.WellFormed) (hk : h.kind? (dir ++ r) = some k) :
    h.At (p.under r) (dir ++ r) k := by
  induction r using List.reverseRecOn generalizing k with
  | nil =>
    rw [List.append_nil] at hk ⊢
    rw [hp.leads.kind] at hk
    cases hk
    exact hp.leads
  | append_singleton init n ih =>
    have hsome : h.kind? (dir ++ (init ++ [n])) ≠ none := by
      rw [hk]
      exact Option.some_ne_none k
    have hdir : h.kind? (dir ++ init) = some .directory := by
      rw [← List.append_assoc] at hk
      exact hw.kind?_prefix hk (List.cons_ne_nil n [])
    have hn : n ∈ init ++ [n] := List.mem_append_right init List.mem_cons_self
    have hshort := hp.short _ hsome
    have hlink : ∀ target, k ≠ .link target := by
      rintro target rfl
      exact hp.linkless _ target hk
    rw [Pathname.under_concat] at hshort ⊢
    rw [← List.append_assoc] at hk ⊢
    exact (ih hdir).join (isSegment hw (r := init ++ [n]) (by rw [← List.append_assoc, hk]) n hn)
      hshort (hp.names _ hsome n hn).1 hk hlink

theorem enter (hp : h.Plain p dir) (hw : h.WellFormed) (hk : h.kind? (dir ++ r) = some k)
    {ancestors : List Ancestor} (hfirst : r = [] → ancestors = []) :
    ∃ node, h.enter ancestors (p.under r) = .ok (dir ++ r, node) ∧ node.kind = k := by
  induction r using List.reverseRecOn with
  | nil =>
    rw [List.append_nil] at hk ⊢
    rw [hp.leads.kind] at hk
    cases hk
    rw [hfirst rfl]
    obtain ⟨modified, hentered⟩ := enter_of_at hp.noZero hp.leads
    exact ⟨_, hentered, rfl⟩
  | append_singleton init n =>
    have hsome : h.kind? (dir ++ (init ++ [n])) ≠ none := by
      rw [hk]
      exact Option.some_ne_none k
    have hn : n ∈ init ++ [n] := List.mem_append_right init List.mem_cons_self
    have hsegment := isSegment hw hk n hn
    have hshort := hp.short _ hsome
    have hzero := hp.hasZero_under hsome
    have hlink : ∀ target, k ≠ .link target := by
      rintro target rfl
      exact hp.linkless _ target hk
    rw [← List.append_assoc] at hk ⊢
    have hdir := hw.kind?_prefix hk (List.cons_ne_nil n [])
    rw [Pathname.under_concat] at hshort hzero ⊢
    exact enter_join (hp.at_under hw hdir) hsegment hshort hzero (hp.names _ hsome n hn).1 hk hlink
      ancestors

end Plain

/-- What is beneath a place that does not lie on the way is as it was. -/
theorem Made.kind?_beneath {h' : Host} (hm : h.Made l h') (hout : ¬ dir <+: l)
    (r : List Filename) : h'.kind? (dir ++ r) = h.kind? (dir ++ r) :=
  hm.others _ fun hpre => hout ((List.prefix_append dir r).trans hpre)

theorem Plain.made {h' : Host} (hp : h.Plain p dir) (hm : h.Made l h') (hout : ¬ dir <+: l) :
    h'.Plain p dir := by
  have hsame := hm.kind?_beneath hout
  refine ⟨hp.leads.mono hm.same hm.working, hp.noZero, ?_, ?_, ?_⟩
  · intro r target
    rw [hsame]
    exact hp.linkless r target
  · intro r hr
    rw [hsame] at hr
    exact hp.names r hr
  · intro r hr
    rw [hsame] at hr
    exact hp.short r hr

theorem kind?_add_beneath (h : Host) (now : Instant) (hr : l ++ r = dir ++ [n]) (node : HostNode)
    (s : List Filename) : (h.add now (dir ++ [n]) node).kind? (l ++ s) =
      if s = r then some node.kind else h.kind? (l ++ s) := by
  rw [kind?_add h now (by simp), ← hr]
  simp only [List.append_cancel_left_eq]

/-- One more entry beneath the directory, that is no link and a path to which can be looked up. -/
theorem Plain.add (hp : h.Plain p l) (hfree : h.kind? (dir ++ [n]) = none)
    (hr : l ++ r = dir ++ [n]) (now : Instant) {node : HostNode}
    (hlink : ∀ target, node.kind ≠ .link target)
    (hnames : ∀ m ∈ r, m.length ≤ longestName ∧ 0 ∉ m)
    (hshort : (p.under r).bytes.length < pathLimit) :
    (h.add now (dir ++ [n]) node).Plain p l := by
  have hadd := kind?_add_beneath h now hr node
  have hcases : ∀ s, (h.add now (dir ++ [n]) node).kind? (l ++ s) ≠ none →
      s = r ∨ h.kind? (l ++ s) ≠ none := by
    intro s hs
    by_cases hsame : s = r
    · exact Or.inl hsame
    · rw [hadd, if_neg hsame] at hs
      exact Or.inr hs
  refine ⟨?_, hp.noZero, ?_, ?_, ?_⟩
  · refine hp.leads.mono (fun l kind => kind?_add_of_some hfree) ?_
    rw [Host.add, workingDirectory_touch]
  · intro s target hs
    rw [hadd] at hs
    split at hs
    · exact hlink target (Option.some.inj hs)
    · exact hp.linkless s target hs
  · intro s hs
    rcases hcases s hs with rfl | hold
    · exact hnames
    · exact hp.names s hold
  · intro s hs
    rcases hcases s hs with rfl | hold
    · exact hshort
    · exact hp.short s hold

theorem mem_arrange_namesIn {order : WalkOrder} {loc : Location} :
    n ∈ order.arrange nameLe (h.namesIn loc) ↔ h.kind? (loc ++ [n]) ≠ none := by
  have hroot : loc ++ [n] ≠ [] := by simp
  rw [WalkOrder.mem_arrange, mem_namesIn]
  constructor
  · intro hkey
    obtain ⟨k, hk⟩ := exists_kind?_of_mem hroot hkey
    rw [hk]
    exact Option.some_ne_none k
  · intro hk
    obtain ⟨k, hk⟩ := Option.ne_none_iff_exists'.mp hk
    exact mem_keys_of_kind? hroot hk

/-- A walk of a directory goes through if it does in everything there. -/
theorem walkFrom_of_children {order : WalkOrder} {depth : Nat} {ancestors : List Ancestor}
    {loc : Location} {modified : Instant} (hz : p.hasZero = false)
    (he : h.enter ancestors p = .ok (loc, .directory modified)) {found : Filename → List Pathname}
    (hf : ∀ n ∈ order.arrange nameLe (h.namesIn loc),
      h.walkFrom order depth (⟨p, loc⟩ :: ancestors) (p.join ⟨n⟩) = .ok (found n)) :
    h.walkFrom order (depth + 1) ancestors p =
      .ok (p :: (order.arrange nameLe (h.namesIn loc)).flatMap found) := by
  have hat : h.At p loc .directory := (enter_ok he).1
  rw [walkFrom, he]
  simp only [bind, Except.bind]
  rw [list_of_at hz hat]
  simp only
  rw [mapM_of_ok hf, List.flatMap_def]
  rfl

/-- A listing of an entry and of all that is beneath it, each directory before what is in it. -/
structure Holds (h : Host) (l : Location) (listing : Listing) : Prop where
  mem : ∀ r, r ∈ listing ↔ h.kind? (l ++ r) ≠ none
  forward : listing.Forward

theorem holds_alone (hw : h.WellFormed) (hk : h.kind? l = some k) (hno : k ≠ .directory) :
    h.Holds l [[]] := by
  refine ⟨fun r => ?_, List.pairwise_singleton _ _⟩
  rw [List.mem_singleton]
  constructor
  · rintro rfl
    rw [List.append_nil, hk]
    exact Option.some_ne_none k
  · intro hr
    obtain ⟨k', hk'⟩ := Option.ne_none_iff_exists'.mp hr
    by_contra hne
    rw [hw.kind?_prefix hk' hne] at hk
    exact hno (Option.some.inj hk).symm

/-- The listing of a directory, put together from those of what is in it. -/
theorem holds_ofNames (hw : h.WellFormed) (hk : h.kind? l ≠ none) {order : WalkOrder}
    {below : Filename → Listing}
    (hbelow : ∀ n ∈ order.arrange nameLe (h.namesIn l), h.Holds (l ++ [n]) (below n)) :
    h.Holds l (.ofNames id below (order.arrange nameLe (h.namesIn l))) := by
  have hnodup : (order.arrange nameLe (h.namesIn l)).Nodup :=
    WalkOrder.nodup_arrange (hw.nodup_namesIn l)
  refine ⟨fun r => ?_, Listing.forward_ofNames hnodup fun n hn => (hbelow n hn).forward⟩
  have hsplit : ∀ (n : Filename) s, l ++ n :: s = l ++ [n] ++ s :=
    fun n s => List.append_cons l n s
  rw [Listing.mem_ofNames]
  constructor
  · rintro (rfl | ⟨n, hn, s, hs, rfl⟩)
    · rwa [List.append_nil]
    · rw [id_eq, hsplit]
      exact ((hbelow n hn).mem s).mp hs
  · intro hr
    cases r with
    | nil => exact Or.inl rfl
    | cons n s =>
      rw [hsplit] at hr
      have hn : n ∈ order.arrange nameLe (h.namesIn l) := by
        apply mem_arrange_namesIn.mpr
        by_cases hnil : s = []
        · subst hnil
          rwa [List.append_nil] at hr
        · obtain ⟨k, hs⟩ := Option.ne_none_iff_exists'.mp hr
          rw [hw.kind?_prefix hs hnil]
          exact Option.some_ne_none _
      exact Or.inr ⟨n, hn, s, ((hbelow n hn).mem s).mpr hr, rfl⟩

/-- A walk that may go as deep as there are entries finds every entry of a plain tree, a directory
before what is in it. -/
theorem walkFrom_plain (hw : h.WellFormed) (hp : h.Plain p dir) (order : WalkOrder) {depth : Nat}
    {ancestors : List Ancestor} (hk : h.kind? (dir ++ r) = some k)
    (hfirst : r = [] → ancestors = []) (hdepth : h.entries.length < (dir ++ r).length + depth) :
    ∃ l : Listing, h.walkFrom order depth ancestors (p.under r) =
        .ok (l.map fun s => p.under (r ++ s)) ∧ h.Holds (dir ++ r) l := by
  induction depth generalizing r k ancestors with
  | zero =>
    have hle := hw.length_le hk
    omega
  | succ depth ih =>
    obtain ⟨node, hentered, rfl⟩ := hp.enter hw hk hfirst
    have hsome : h.kind? (dir ++ r) ≠ none := by
      rw [hk]
      exact Option.some_ne_none _
    cases node with
    | link target => exact absurd hk (hp.linkless r target)
    | file data modified =>
      refine ⟨[[]], ?_, holds_alone hw hk HostKind.noConfusion⟩
      rw [walkFrom, hentered, List.map_singleton, List.append_nil]
      rfl
    | directory modified =>
      -- what the walk finds under each name
      have hchild : ∀ n, ∃ l : Listing, n ∈ order.arrange nameLe (h.namesIn (dir ++ r)) →
          h.walkFrom order depth (⟨p.under r, dir ++ r⟩ :: ancestors) ((p.under r).join ⟨n⟩) =
              .ok (l.map fun s => p.under (r ++ n :: s)) ∧ h.Holds (dir ++ r ++ [n]) l := by
        intro n
        by_cases hn : n ∈ order.arrange nameLe (h.namesIn (dir ++ r))
        · obtain ⟨k, hkn⟩ := Option.ne_none_iff_exists'.mp (mem_arrange_namesIn.mp hn)
          rw [List.append_assoc] at hkn ⊢
          have hlength : h.entries.length < (dir ++ (r ++ [n])).length + depth := by
            rw [← List.append_assoc, List.length_append, List.length_singleton]
            omega
          have hlater : r ++ [n] = [] → ⟨p.under r, dir ++ r⟩ :: ancestors = [] := by simp
          obtain ⟨l, hwalk, hholds⟩ := ih hkn hlater hlength
          rw [Pathname.under_concat] at hwalk
          simp only [← List.append_cons] at hwalk
          exact ⟨l, fun _ => ⟨hwalk, hholds⟩⟩
        · exact ⟨[], fun hn' => absurd hn' hn⟩
      obtain ⟨lists, hlists⟩ := Classical.skolem.mp hchild
      refine ⟨.ofNames id lists (order.arrange nameLe (h.namesIn (dir ++ r))), ?_,
        holds_ofNames hw hsome fun n hn => (hlists n hn).2⟩
      rw [walkFrom_of_children (hp.hasZero_under hsome) hentered fun n hn => (hlists n hn).1,
        Listing.ofNames, List.map_cons, List.append_nil, List.map_flatMap]
      simp only [List.map_map]
      rfl

/-- The walk of a plain tree finds every entry of it once, a directory before what is in it. -/
theorem walk_plain (hw : h.WellFormed) (hp : h.Plain p dir) (order : WalkOrder) :
    ∃ l : Listing, h.walk order p = .ok (l.map p.under) ∧ h.Holds dir l := by
  have hk : h.kind? (dir ++ []) = some .directory := by
    rw [List.append_nil]
    exact hp.leads.kind
  have hdepth : h.entries.length < (dir ++ []).length + h.walkDepth := by
    unfold walkDepth
    have hsquare := Nat.le_mul_self (h.entries.length + 1)
    omega
  obtain ⟨l, hwalk, hholds⟩ := walkFrom_plain hw hp order (r := []) hk (fun _ => rfl) hdepth
  rw [List.append_nil] at hholds
  exact ⟨l, hwalk, hholds⟩

end Host

end ZipMount
