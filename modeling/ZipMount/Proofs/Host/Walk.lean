import ZipMount.Proofs.Host.Lookup
import ZipMount.Proofs.Listing

namespace ZipMount.Host

variable {h : Host}

/-- How many places a walk is not in. -/
def unvisited (h : Host) (visited : List Location) : Nat :=
  (([] :: h.entries.keys).filter (· ∉ visited)).length

/-- How deep a walk can still go from a directory: one step down makes the location longer, or leads
to a place where the walk was not. -/
def room (h : Host) (visited : List Location) (dir : Location) : Nat :=
  h.unvisited (dir :: visited) * (h.entries.length + 1) + (h.entries.length - dir.length)

theorem unvisited_cons_le (h : Host) (dir : Location) (visited : List Location) :
    h.unvisited (dir :: visited) ≤ h.unvisited visited := by
  have hsub : ([] :: h.entries.keys).filter (· ∉ dir :: visited) =
      (([] :: h.entries.keys).filter (· ∉ visited)).filter (· ≠ dir) := by
    rw [List.filter_filter]
    apply List.filter_congr
    intro l _
    simp [not_or]
  rw [unvisited, hsub]
  exact List.length_filter_le _ _

theorem unvisited_cons_lt {dir : Location} {visited : List Location} {k : HostKind}
    (hk : h.kind? dir = some k) (hnew : dir ∉ visited) :
    h.unvisited (dir :: visited) < h.unvisited visited := by
  have hsub : ([] :: h.entries.keys).filter (· ∉ dir :: visited) =
      (([] :: h.entries.keys).filter (· ∉ visited)).filter (· ≠ dir) := by
    rw [List.filter_filter]
    apply List.filter_congr
    intro l _
    simp [not_or]
  have hmem : dir ∈ [] :: h.entries.keys := by
    by_cases hn : dir = []
    · rw [hn]
      exact List.mem_cons_self
    · exact List.mem_cons_of_mem _ (mem_keys_of_kind? hn hk)
  rw [unvisited, hsub]
  apply List.length_filter_lt_length_iff_exists.mpr
  refine ⟨dir, List.mem_filter.mpr ⟨hmem, decide_eq_true hnew⟩, ?_⟩
  simp

theorem room_lt_of_child (hw : h.WellFormed) {dir : Location} {n : Filename} {k : HostKind}
    (hk : h.kind? (dir ++ [n]) = some k) (visited : List Location) :
    h.room (dir :: visited) (dir ++ [n]) < h.room visited dir := by
  have hle := hw.length_le hk
  have hcount := unvisited_cons_le h (dir ++ [n]) (dir :: visited)
  have hmul := Nat.mul_le_mul_right (h.entries.length + 1) hcount
  rw [List.length_append, List.length_singleton] at hle
  unfold room
  rw [List.length_append, List.length_singleton]
  omega

theorem room_lt_of_new {dir loc : Location} {visited : List Location} {k : HostKind}
    (hk : h.kind? loc = some k) (hnew : loc ∉ dir :: visited) :
    h.room (dir :: visited) loc < h.room visited dir := by
  have hcount := unvisited_cons_lt hk hnew
  have hmul := Nat.mul_le_mul_right (h.entries.length + 1) (Nat.succ_le_of_lt hcount)
  rw [Nat.succ_mul] at hmul
  unfold room
  omega

theorem room_le_walkDepth {dir : Location} {k : HostKind} (hk : h.kind? dir = some k) :
    h.room [] dir + 2 ≤ h.walkDepth := by
  have hcount := unvisited_cons_lt hk (List.not_mem_nil)
  have hall : h.unvisited [] = h.entries.length + 1 := by
    have hself : ([] :: h.entries.keys).filter (· ∉ ([] : List Location)) =
        [] :: h.entries.keys := by
      apply List.filter_eq_self.mpr
      intro l _
      simp
    rw [unvisited, hself, List.length_cons, Table.keys, List.length_map]
  rw [hall] at hcount
  have hmul := Nat.mul_le_mul_right (h.entries.length + 1) (Nat.le_of_lt_succ hcount)
  unfold room walkDepth
  rw [Nat.succ_mul]
  omega

theorem refused_ok {α : Type} {p : Pathname} {r : Except Errno α} {x : α}
    (hr : refused p (onPath p r) = .ok x) : p.hasZero = false ∧ r = .ok x := by
  exact onPath_ok (mapError_eq_ok hr)

/-- What a walk finds at a path is what the path leads to; and if it is where a link leads, it is no
directory that the walk is in. -/
theorem enter_ok {ancestors : List Ancestor} {p : Pathname} {loc : Location} {node : HostNode}
    (he : h.enter ancestors p = .ok (loc, node)) :
    h.At p loc node.kind ∧
      ((∃ n, h.find .itself p = .ok (loc, n)) ∨
        (node.kind = .directory → ∀ a ∈ ancestors, a.loc ≠ loc)) := by
  obtain ⟨⟨l, n⟩, hi, he⟩ := bind_eq_ok he
  have hfound := (refused_ok hi).2
  cases n with
  | directory modified =>
    cases he
    exact ⟨at_of_find_itself hfound fun _ => HostNode.noConfusion, Or.inl ⟨_, hfound⟩⟩
  | file data modified =>
    cases he
    exact ⟨at_of_find_itself hfound fun _ => HostNode.noConfusion, Or.inl ⟨_, hfound⟩⟩
  | link target =>
    obtain ⟨⟨l', n'⟩, ht, he⟩ := bind_eq_ok he
    have hfound := (refused_ok ht).2
    cases n' with
    | file data modified =>
      cases he
      exact ⟨at_of_find hfound, Or.inr fun hd => nomatch hd⟩
    | link target =>
      cases he
      exact ⟨at_of_find hfound, Or.inr fun hd => nomatch hd⟩
    | directory modified =>
      cases ha : ancestors.find? fun a => a.loc == l' with
      | some a =>
        simp only [ha] at he
        cases he
      | none =>
        simp only [ha] at he
        cases he
        refine ⟨at_of_find hfound, Or.inr ?_⟩
        intro _ a hmem hloc
        exact List.find?_eq_none.mp ha a hmem (beq_iff_eq.mpr hloc)

theorem list_ok {p : Pathname} {names : List Filename} {loc : Location}
    (hat : h.At p loc .directory) (hl : refused p (h.list p) = .ok names) :
    names = h.namesIn loc := by
  obtain ⟨node, hf, hk⟩ := find_target_iff.mpr hat
  cases node with
  | file data modified => cases hk
  | link target => cases hk
  | directory modified =>
    obtain ⟨-, hr⟩ := refused_ok hl
    rw [hf] at hr
    cases hr
    rfl

/-- What is under a path is in a directory. -/
theorem At.of_under {p : Pathname} (hp : p.bytes ≠ []) {n : Filename} {r : List Filename}
    (hr : ∀ m ∈ n :: r, IsSegment m) {loc : Location} {k : HostKind}
    (ha : h.At (p.under (n :: r)) loc k) :
    ∃ dir, h.At p dir .directory ∧ n ∈ h.namesIn dir := by
  have hn := hr n List.mem_cons_self
  have hrest : ∀ m ∈ r, IsSegment m := fun m hm => hr m (List.mem_cons_of_mem n hm)
  rw [Pathname.under_cons] at ha
  have hall : ∀ (r : List Filename) (q : Pathname), q.bytes ≠ [] → (∀ m ∈ r, IsSegment m) →
      h.At (q.under r) loc k → ∃ loc' k', h.At q loc' k' := by
    intro r
    induction r with
    | nil => exact fun q _ _ ha => ⟨loc, k, ha⟩
    | cons m r ih =>
      intro q hq hr ha
      have hm := hr m List.mem_cons_self
      have hrest : ∀ m ∈ r, IsSegment m := fun x hx => hr x (List.mem_cons_of_mem m hx)
      rw [Pathname.under_cons] at ha
      obtain ⟨loc', k', ha'⟩ := ih _ (Pathname.join_ne_nil hq hm) hrest ha
      obtain ⟨dir, hdir, -⟩ := ha'.of_join hq hm
      exact ⟨dir, _, hdir⟩
  obtain ⟨loc', k', ha'⟩ := hall r _ (Pathname.join_ne_nil hp hn) hrest ha
  exact ha'.of_join hp hn

/-- A listing of what a path leads to and of all that is under it. -/
structure Lists (h : Host) (p : Pathname) (l : Listing) : Prop where
  sorted : l.Sorted
  names : ∀ r ∈ l, ∀ n ∈ r, IsSegment n
  complete : ∀ r : List Filename, (∀ n ∈ r, IsSegment n) → (∃ loc k, h.At (p.under r) loc k) → r ∈ l

theorem walkFrom_directory {order : WalkOrder} {depth : Nat} {ancestors : List Ancestor}
    {p : Pathname} {loc : Location} {modified : Instant} {found : List Pathname}
    (he : h.enter ancestors p = .ok (loc, .directory modified))
    (hf : h.walkFrom order (depth + 1) ancestors p = .ok found) :
    ∃ below, ((order.arrange nameLe (h.namesIn loc)).mapM fun n =>
      h.walkFrom order depth (⟨p, loc⟩ :: ancestors) (p.join ⟨n⟩)) = .ok below ∧
        found = p :: below.flatten := by
  have hat := (enter_ok he).1
  obtain ⟨entered, hentered, hf⟩ := bind_eq_ok hf
  rw [he] at hentered
  cases hentered
  obtain ⟨names, hl, hf⟩ := bind_eq_ok hf
  obtain ⟨below, hb, hf⟩ := bind_eq_ok hf
  cases hf
  rw [list_ok hat hl] at hb
  exact ⟨below, hb, rfl⟩

/-- One step down, the walk has less room. -/
theorem room_lt_of_enter (hw : h.WellFormed) {p : Pathname} (hp : p.bytes ≠ []) {n : Filename}
    (hn : IsSegment n) {dir loc : Location} (hdir : h.At p dir .directory)
    {ancestors : List Ancestor} {node : HostNode}
    (he : h.enter (⟨p, dir⟩ :: ancestors) (p.join ⟨n⟩) = .ok (loc, node))
    (hnode : node.kind = .directory) :
    h.room (dir :: ancestors.map Ancestor.loc) loc < h.room (ancestors.map Ancestor.loc) dir := by
  obtain ⟨hat, hway⟩ := enter_ok he
  rcases hway with ⟨x, hitself⟩ | hnew
  · obtain ⟨dir', hdir', rfl⟩ := find_itself_join hp hn hitself
    obtain ⟨rfl, -⟩ := hdir.unique hdir'
    exact room_lt_of_child hw hat.kind _
  · apply room_lt_of_new hat.kind
    intro hmem
    rcases List.mem_cons.mp hmem with rfl | hmem
    · exact hnew hnode _ List.mem_cons_self rfl
    · obtain ⟨a, ha, hloc⟩ := List.mem_map.mp hmem
      exact hnew hnode a (List.mem_cons_of_mem _ ha) hloc

/-- Nothing is listed under what is no directory. -/
theorem lists_alone {p : Pathname} (hp : p.bytes ≠ []) (hno : ∀ dir, ¬ h.At p dir .directory) :
    h.Lists p [[]] := by
  refine ⟨List.pairwise_singleton _ _, ?_, ?_⟩
  · intro r hr n hn
    rw [List.mem_singleton] at hr
    subst hr
    cases hn
  · rintro r hr ⟨loc, k, ha⟩
    cases r with
    | nil => exact List.mem_cons_self
    | cons n r =>
      obtain ⟨dir, hdir, -⟩ := ha.of_under hp hr
      exact absurd hdir (hno dir)

/-- The listing of a directory, put together from those of what is in it. -/
theorem lists_ofNames (hw : h.WellFormed) {p : Pathname} (hp : p.bytes ≠ []) {dir : Location}
    (hdir : h.At p dir .directory) {below : Filename → Listing}
    (hbelow : ∀ n ∈ h.namesIn dir, h.Lists (p.join ⟨n⟩) (below n)) :
    h.Lists p (.ofNames id below (WalkOrder.sorted.arrange nameLe (h.namesIn dir))) := by
  have hmem : ∀ n, n ∈ WalkOrder.sorted.arrange nameLe (h.namesIn dir) ↔ n ∈ h.namesIn dir :=
    fun n => WalkOrder.mem_arrange
  refine ⟨?_, ?_, ?_⟩
  · apply Listing.sorted_ofNames (Listing.pairwise_arrange (hw.nodup_namesIn dir))
    exact fun n hn => (hbelow n ((hmem n).mp hn)).sorted
  · intro r hr m hm
    rcases Listing.mem_ofNames.mp hr with rfl | ⟨n, hn, s, hs, rfl⟩
    · cases hm
    · have hn := (hmem n).mp hn
      rcases List.mem_cons.mp hm with rfl | hm
      · exact hw.names _ (mem_namesIn.mp hn) m (by simp)
      · exact (hbelow n hn).names s hs m hm
  · rintro r hr ⟨loc, k, ha⟩
    apply Listing.mem_ofNames.mpr
    cases r with
    | nil => exact Or.inl rfl
    | cons n r =>
      obtain ⟨dir', hdir', hn⟩ := ha.of_under hp hr
      obtain ⟨rfl, -⟩ := hdir.unique hdir'
      have hrest : ∀ m ∈ r, IsSegment m := fun m hm => hr m (List.mem_cons_of_mem n hm)
      exact Or.inr ⟨n, (hmem n).mpr hn, r, (hbelow n hn).complete r hrest ⟨loc, k, ha⟩, rfl⟩

/-- A walk that succeeds could enter the path it started from. -/
theorem enter_of_walkFrom {order : WalkOrder} {depth : Nat} {ancestors : List Ancestor}
    {p : Pathname} {found : List Pathname}
    (hf : h.walkFrom order (depth + 1) ancestors p = .ok found) :
    ∃ loc node, h.enter ancestors p = .ok (loc, node) := by
  obtain ⟨⟨loc, node⟩, he, -⟩ := bind_eq_ok hf
  exact ⟨loc, node, he⟩

/-- A walk from what is no directory goes nowhere. -/
theorem walkFrom_other {order : WalkOrder} {depth : Nat} {ancestors : List Ancestor}
    {p : Pathname} {loc : Location} {node : HostNode} {found : List Pathname}
    (he : h.enter ancestors p = .ok (loc, node)) (hnode : node.kind ≠ .directory)
    (hf : h.walkFrom order (depth + 1) ancestors p = .ok found) : found = [p] := by
  unfold walkFrom at hf
  rw [he] at hf
  cases node with
  | directory modified => exact absurd rfl hnode
  | file data modified => exact (Except.ok.inj hf).symm
  | link target => exact (Except.ok.inj hf).symm

/-- A walk that has room in a directory has room in each directory there, if it gets there. -/
theorem room_of_child (hw : h.WellFormed) {p : Pathname} (hp : p.bytes ≠ []) {n : Filename}
    (hn : IsSegment n) {loc dir : Location} (hdir : h.At p loc .directory)
    (hd : h.At (p.join ⟨n⟩) dir .directory) {order : WalkOrder} {depth : Nat}
    {ancestors : List Ancestor} {found : List Pathname}
    (hroom : h.room (ancestors.map Ancestor.loc) loc + 2 ≤ depth + 1)
    (hf : h.walkFrom order depth (⟨p, loc⟩ :: ancestors) (p.join ⟨n⟩) = .ok found) :
    h.room (loc :: ancestors.map Ancestor.loc) dir + 2 ≤ depth := by
  obtain ⟨steps, rfl⟩ : ∃ steps, depth = steps + 1 := ⟨depth - 1, by omega⟩
  obtain ⟨l, node, he⟩ := enter_of_walkFrom hf
  obtain ⟨rfl, hk⟩ := (enter_ok he).1.unique hd
  have hlt := room_lt_of_enter hw hp hn hdir he hk
  omega

/-- A walk by name lists everything, if it may go as deep as it has room. -/
theorem walkFrom_listing (hw : h.WellFormed) {depth : Nat} {ancestors : List Ancestor}
    {p : Pathname} (hp : p.bytes ≠ []) {found : List Pathname}
    (hf : h.walkFrom .sorted depth ancestors p = .ok found)
    (hroom : ∀ dir, h.At p dir .directory → h.room (ancestors.map Ancestor.loc) dir + 2 ≤ depth) :
    ∃ l, found = l.map p.under ∧ h.Lists p l := by
  induction depth generalizing ancestors p found with
  | zero =>
    cases hf
    refine ⟨[[]], rfl, lists_alone hp ?_⟩
    intro dir hdir
    have hle := hroom dir hdir
    omega
  | succ depth ih =>
    obtain ⟨loc, node, he⟩ := enter_of_walkFrom hf
    have hat := (enter_ok he).1
    have hother : node.kind ≠ .directory → ∃ l, found = l.map p.under ∧ h.Lists p l := by
      intro hnode
      refine ⟨[[]], walkFrom_other he hnode hf, lists_alone hp ?_⟩
      intro dir hdir
      exact hnode (hat.unique hdir).2
    cases node with
    | file data modified => exact hother fun hk => nomatch hk
    | link target => exact hother fun hk => nomatch hk
    | directory modified =>
      have hdir : h.At p loc .directory := hat
      have hsteps := hroom loc hdir
      obtain ⟨below, hbelow, rfl⟩ := walkFrom_directory he hf
      have hname : ∀ n ∈ h.namesIn loc, IsSegment n := by
        intro n hn
        exact hw.names _ (mem_namesIn.mp hn) n (by simp)
      -- what the walk lists under each name
      have hchild : ∀ n : Filename, ∃ l : Listing, n ∈ h.namesIn loc → ∀ fn,
          h.walkFrom .sorted depth (⟨p, loc⟩ :: ancestors) (p.join ⟨n⟩) = .ok fn →
            fn = l.map (p.join ⟨n⟩).under ∧ h.Lists (p.join ⟨n⟩) l := by
        intro n
        by_cases hn : n ∈ h.namesIn loc
        · cases hfn : h.walkFrom .sorted depth (⟨p, loc⟩ :: ancestors) (p.join ⟨n⟩) with
          | error f => exact ⟨[], fun _ fn hfn' => nomatch hfn'⟩
          | ok fn =>
            obtain ⟨l, hl⟩ := ih (Pathname.join_ne_nil hp (hname n hn)) hfn
              fun dir hd => room_of_child hw hp (hname n hn) hdir hd hsteps hfn
            refine ⟨l, fun _ fn' hfn' => ?_⟩
            cases hfn'
            exact hl
        · exact ⟨[], fun hn' => absurd hn' hn⟩
      obtain ⟨lists, hlists⟩ := Classical.skolem.mp hchild
      have hmem : ∀ n, n ∈ WalkOrder.sorted.arrange nameLe (h.namesIn loc) →
          n ∈ h.namesIn loc := fun n => WalkOrder.mem_arrange.mp
      obtain ⟨hall, rfl⟩ := mapM_ok hbelow fun n hn fn hfn => (hlists n (hmem n hn) fn hfn).1
      refine ⟨.ofNames id lists _, ?_, lists_ofNames hw hp hdir ?_⟩
      · rw [Listing.ofNames, List.map_cons, List.map_flatMap, List.flatMap_def]
        simp only [List.map_map]
        rfl
      · exact fun n hn => (hlists n hn _ (hall n (WalkOrder.mem_arrange.mpr hn))).2

/-- A walk by name that succeeds lists everything. -/
theorem walk_listing (hw : h.WellFormed) {p : Pathname} (hp : p.bytes ≠ []) {found : List Pathname}
    (hf : h.walk .sorted p = .ok found) : ∃ l, found = l.map p.under ∧ h.Lists p l :=
  walkFrom_listing hw hp hf fun _ hdir => room_le_walkDepth hdir.kind

end ZipMount.Host
