import ZipMount.Operations.Reading
import ZipMount.Proofs.Host.Absolute
import ZipMount.Proofs.Host.Frame

namespace ZipMount

/-- A path ends in a name in the directory of another path, with nothing but dots between them. -/
def Pathname.EndsIn (p q : Pathname) (n : Filename) : Prop :=
  ∃ dots, p.plainSteps = q.plainSteps ++ List.replicate dots .here ++ [.name n]

namespace Host

/-- A path that leads to a free name in a directory, slashes at its end apart. -/
structure Free (h : Host) (p : Pathname) (dir : Location) (n : Filename) : Prop where
  ne_nil : p.bytes ≠ []
  short : p.bytes.length < pathLimit
  noZero : p.hasZero = false
  leads : ∃ before, p.plainSteps = before ++ [.name n] ∧
    ∃ j ≤ linkLimit, h.Leads j (h.startOf p) before dir
  directory : h.kind? dir = some .directory
  name_short : n.length ≤ longestName
  free : h.kind? (dir ++ [n]) = none

variable {h : Host} {p : Pathname} {l dir : Location} {n : Filename} {k : HostKind}

/-- Steps that lead somewhere are looked up in any manner, if a name comes after them. -/
theorem advance_append (m : Manner) {i j : Nat} {a b : Location} {ss : List Step}
    (hl : h.Leads j a ss b) :
    h.advance m (j + i) a (ss ++ [.name n]) = h.advance m i b [.name n] := by
  have hslash : ∀ rest : List Step, rest ++ [.name n] ≠ [.slash] := by
    intro rest hrest
    have hlast := congrArg List.getLast? hrest
    rw [List.getLast?_append] at hlast
    cases hlast
  have hmore : ∀ rest : List Step, rest ++ [.name n] ≠ [] := fun rest => by simp
  -- on the way and not on the steps: a link puts the steps of its target before the rest
  induction hl with
  | done loc => rw [Nat.zero_add, List.nil_append]
  | stay hs hd _ ih =>
    rw [List.cons_append, advance_cons, hd]
    rcases hs with rfl | rfl
    · exact ih
    · exact ih
  | up hd _ ih =>
    rw [List.cons_append, advance_cons, hd]
    exact ih
  | @name _ loc l s rest kind hd hn hk hkind _ ih =>
    have hshort : ¬ longestName < s.length := Nat.not_lt.mpr hn
    rw [List.cons_append, advance_cons, hd]
    simp only [hslash, and_false, if_false, hshort, hk]
    cases kind with
    | link target => exact absurd rfl (hkind target)
    | directory => exact ih
    | file data => exact ih
  | @link j loc l s rest target hd hn hk _ ih =>
    have hshort : ¬ longestName < s.length := Nat.not_lt.mpr hn
    rw [List.append_assoc] at ih
    rw [List.cons_append, advance_cons, hd, Nat.add_right_comm]
    simp only [hslash, hmore, and_false, false_and, if_false, hshort, hk]
    exact ih

theorem advance_free (m : Manner) (i : Nat) (hd : h.kind? dir = some .directory)
    (hn : n.length ≤ longestName) (hfree : h.kind? (dir ++ [n]) = none) :
    h.advance m i dir [.name n] = .ok (.vacant dir n) := by
  have hshort : ¬ longestName < n.length := Nat.not_lt.mpr hn
  have hslash : ([] : List Step) ≠ [.slash] := List.cons_ne_nil _ _ |>.symm
  rw [advance_cons, hd]
  simp only [hslash, and_false, if_false, hshort, hfree, if_true]

theorem advance_there (m : Manner) (i : Nat) (hd : h.kind? dir = some .directory)
    (hn : n.length ≤ longestName) (hk : h.kind? (dir ++ [n]) = some k)
    (hlink : ∀ target, k ≠ .link target) :
    h.advance m i dir [.name n] = .ok (.entry (dir ++ [n])) := by
  have hshort : ¬ longestName < n.length := Nat.not_lt.mpr hn
  have hslash : ([] : List Step) ≠ [.slash] := List.cons_ne_nil _ _ |>.symm
  rw [advance_cons, hd]
  simp only [hslash, and_false, if_false, hshort, hk]
  cases k with
  | link target => exact absurd rfl (hlink target)
  | directory => exact advance_nil h m i _
  | file data => exact advance_nil h m i _

namespace Free

theorem isSegment (hf : h.Free p dir n) : IsSegment n := by
  obtain ⟨before, hsteps, -⟩ := hf.leads
  apply Pathname.isSegment_of_mem_plainSteps (p := p)
  rw [hsteps]
  exact List.mem_append_right before List.mem_cons_self

theorem lookup (hf : h.Free p dir n) (m : Manner) :
    h.lookup m p p.plainSteps = .ok (.vacant dir n) := by
  obtain ⟨before, hsteps, j, hj, hl⟩ := hf.leads
  refine lookup_ok.mpr ⟨hf.ne_nil, hf.short, ?_⟩
  obtain ⟨i, hi⟩ := Nat.exists_eq_add_of_le hj
  rw [hsteps, hi, advance_append m hl]
  exact advance_free m i hf.directory hf.name_short hf.free

theorem onPath {α : Type} (hf : h.Free p dir n) (r : Except Errno α) :
    Host.onPath p r = r.mapError IoFault.host := by
  unfold Host.onPath
  rw [hf.noZero]
  rfl

theorem ne_root : dir ++ [n] ≠ [] := by simp

/-- What is put there is where the path leads, a file only if the path does not end in a slash. -/
theorem at_add (hf : h.Free p dir n) (now : Instant) {node : HostNode}
    (hlink : ∀ target, node.kind ≠ .link target)
    (hslash : node.kind = .directory ∨ p.steps = p.plainSteps) :
    (h.add now (dir ++ [n]) node).At p (dir ++ [n]) node.kind := by
  obtain ⟨before, hsteps, j, hj, hl⟩ := hf.leads
  have hsame : ∀ l k, h.kind? l = some k → (h.add now (dir ++ [n]) node).kind? l = some k :=
    fun l k => kind?_add_of_some hf.free
  have hnew : (h.add now (dir ++ [n]) node).kind? (dir ++ [n]) = some node.kind := by
    rw [kind?_add h now ne_root, if_pos rfl]
  have hstart : (h.add now (dir ++ [n]) node).startOf p = h.startOf p := by
    rw [startOf, startOf, add, workingDirectory_touch]
  have hlast : (h.add now (dir ++ [n]) node).Leads 0 dir [.name n] (dir ++ [n]) :=
    .name (hsame _ _ hf.directory) hf.name_short hnew hlink (.done _)
  have hall := (hl.mono hsame).append hlast
  rw [← hsteps, ← hstart] at hall
  rcases hslash with hkind | hplain
  · rw [hkind] at hnew ⊢
    exact at_of_leads_plainSteps hf.ne_nil hf.short hj hall hnew
  · refine ⟨hf.ne_nil, hf.short, ⟨j, hj, ?_⟩, hnew⟩
    rw [hplain]
    exact hall

theorem wellFormed_add (hf : h.Free p dir n) (hw : h.WellFormed) (now : Instant) (node : HostNode) :
    (h.add now (dir ++ [n]) node).WellFormed :=
  hw.add now hf.directory hf.isSegment hf.free node

end Free

/-- A path with more steps before it that lead to where it starts, over no link. -/
theorem Free.prepend {q : Pathname} (hf : h.Free p dir n) (hne : q.bytes ≠ [])
    (hshort : q.bytes.length < pathLimit) (hzero : q.hasZero = false) {before : List Step}
    (hsteps : q.plainSteps = before ++ p.plainSteps)
    (hl : h.Leads 0 (h.startOf q) before (h.startOf p)) : h.Free q dir n := by
  obtain ⟨ss, hss, j, hj, hrest⟩ := hf.leads
  have hall := hl.append hrest
  rw [Nat.zero_add] at hall
  refine ⟨hne, hshort, hzero, ⟨before ++ ss, ?_, j, hj, hall⟩, hf.directory, hf.name_short, hf.free⟩
  rw [hsteps, hss, List.append_assoc]

theorem hasZero_cwd (hwd : ∀ n ∈ h.workingDirectory, 0 ∉ n) : h.cwd.hasZero = false := by
  have hjoined : ∀ names : List Filename, (∀ n ∈ names, (0 : UInt8) ∉ n) →
      (0 : UInt8) ∉ Text.joined 47 names := by
    intro names hall
    induction names with
    | nil => exact List.not_mem_nil
    | cons n names ih =>
      have hn := hall n List.mem_cons_self
      have hrest := ih fun m hm => hall m (List.mem_cons_of_mem n hm)
      by_cases hnil : names = []
      · subst hnil
        exact hn
      · rw [Text.joined_cons hnil]
        simp [hn, hrest]
  rw [Pathname.hasZero_eq_false, cwd]
  simp [hjoined _ hwd]

/-- A free name is free when its path is taken from the working directory. -/
theorem Free.absolute (hf : h.Free p dir n) (hw : h.WellFormed)
    (hnames : ∀ m ∈ h.workingDirectory, m.length ≤ longestName ∧ 0 ∉ m)
    (hshort : (h.absolute p).bytes.length < pathLimit) (hslash : p.steps = p.plainSteps) :
    h.Free (h.absolute p) dir n ∧ (h.absolute p).steps = (h.absolute p).plainSteps := by
  cases hp : p.isAbsolute with
  | true =>
    have hsame : h.absolute p = p := by rw [Host.absolute, hp, if_pos rfl]
    rw [hsame]
    exact ⟨hf, hslash⟩
  | false =>
    have hjoin : h.absolute p = h.cwd.join p := by
      rw [Host.absolute, hp]
      exact if_neg Bool.false_ne_true
    rw [hjoin] at hshort ⊢
    have hwd : ∀ m ∈ h.workingDirectory, IsSegment m := hw.isSegment hw.working
    have hzero := hasZero_cwd fun m hm => (hnames m hm).2
    obtain ⟨pre, hbytes, -⟩ := bytes_cwd_join hwd hp
    have hplain := plainSteps_cwd_join hwd hp
    have hstart : h.startOf p = h.workingDirectory := by
      rw [startOf, hp]
      exact if_neg Bool.false_ne_true
    have hleads : h.Leads 0 (h.startOf (h.cwd.join p)) (h.workingDirectory.map .name)
        (h.startOf p) := by
      rw [startOf_cwd_join hp, hstart]
      exact leads_of_names (fun pre => hw.kind?_working) fun m hm => (hnames m hm).1
    refine ⟨hf.prepend ?_ hshort (Pathname.hasZero_join hzero hf.noZero) hplain hleads, ?_⟩
    · rw [hbytes]
      simp
    · rcases steps_cwd_join hwd hp with ⟨-, hs⟩ | ⟨hnil, -⟩
      · rw [hs, hplain, hslash]
      · exact absurd hnil hf.ne_nil

theorem makeDirectory_of_free (hf : h.Free p dir n) (now : Instant) :
    h.makeDirectory now p = .ok (h.add now (dir ++ [n]) (.directory now)) := by
  unfold makeDirectory
  rw [hf.onPath, hf.lookup]
  rfl

theorem write_of_free (hf : h.Free p dir n) (hslash : p.steps = p.plainSteps) (now : Instant)
    (data : ByteArray) :
    h.write now p data .replace = .ok (h.add now (dir ++ [n]) (.file data now)) := by
  unfold write
  rw [hf.onPath]
  change (h.replace now p data).mapError IoFault.host = _
  unfold replace
  rw [hslash, hf.lookup]
  rfl

/-- Nothing is found there. -/
theorem check_of_free (hf : h.Free p dir n) (hslash : p.steps = p.plainSteps) :
    h.check p [] = .error (.notFound p.display) := by
  have haccess : h.access p [] = .error .noEntry := by
    unfold access find
    rw [hf.noZero, hslash, hf.lookup]
    rfl
  unfold check
  rw [haccess]
  rfl

/-- The steps to a directory, slashes at the end apart. -/
theorem At.leads_plainSteps (hat : h.At p dir .directory) :
    ∃ j ≤ linkLimit, h.Leads j (h.startOf p) p.plainSteps dir := by
  obtain ⟨-, -, ⟨j, hj, hl⟩, -⟩ := hat
  rcases p.steps_eq with hs | hs
  · rw [hs] at hl
    exact ⟨j, hj, hl⟩
  · rw [hs] at hl
    obtain ⟨i, i', b, hij, hbefore, hlast⟩ := hl.split
    cases hlast with
    | stay _ _ hr =>
      cases hr
      exact ⟨i, by omega, hbefore⟩

theorem At.join (hat : h.At p dir .directory) (hn : IsSegment n)
    (hshort : (p.join ⟨n⟩).bytes.length < pathLimit) (hname : n.length ≤ longestName)
    (hk : h.kind? (dir ++ [n]) = some k) (hlink : ∀ target, k ≠ .link target) :
    h.At (p.join ⟨n⟩) (dir ++ [n]) k := by
  obtain ⟨j, hj, hl⟩ := hat.leads_plainSteps
  refine ⟨Pathname.join_ne_nil hat.1 hn, hshort, ⟨j, hj, ?_⟩, hk⟩
  rw [startOf_join hat.1 hn, Pathname.steps_join hat.1 hn]
  exact hl.append (.name hat.kind hname hk hlink (.done _))

theorem free_join (hat : h.At p dir .directory) (hn : IsSegment n)
    (hshort : (p.join ⟨n⟩).bytes.length < pathLimit) (hzero : (p.join ⟨n⟩).hasZero = false)
    (hname : n.length ≤ longestName) (hfree : h.kind? (dir ++ [n]) = none) :
    h.Free (p.join ⟨n⟩) dir n := by
  obtain ⟨j, hj, hl⟩ := hat.leads_plainSteps
  refine ⟨Pathname.join_ne_nil hat.1 hn, hshort, hzero, ⟨p.plainSteps, ?_, j, hj, ?_⟩, hat.kind,
    hname, hfree⟩
  · exact Pathname.plainSteps_join hat.1 hn
  · rw [startOf_join hat.1 hn]
    exact hl

theorem steps_eq_plainSteps_join (hp : p.bytes ≠ []) (hn : IsSegment n) :
    (p.join ⟨n⟩).steps = (p.join ⟨n⟩).plainSteps := by
  rw [Pathname.steps_join hp hn, Pathname.plainSteps_join hp hn]

/-- A path that leads to a directory, or would if the directories on the way that are missing were
made. The empty path stands for the working directory. -/
inductive Reaches (h : Host) : Pathname → Location → Prop where
  | working {p : Pathname} (hp : p.bytes = []) : Reaches h p h.workingDirectory
  | there {p : Pathname} {l : Location} (hat : h.At p l .directory) : Reaches h p l
  | new {p q : Pathname} {dir : Location} {n : Filename} (hq : p.parent = some q)
      (hreaches : Reaches h q dir) (hends : p.EndsIn q n)
      (hshort : p.bytes.length < pathLimit) (hzero : p.hasZero = false)
      (hname : n.length ≤ longestName) (hfree : h.kind? (dir ++ [n]) = none) :
      Reaches h p (dir ++ [n])

/-- A host on which the directories on the way to a place were made. -/
structure Made (h : Host) (l : Location) (h' : Host) : Prop where
  working : h'.workingDirectory = h.workingDirectory
  wellFormed : h'.WellFormed
  same : ∀ l' k, h.kind? l' = some k → h'.kind? l' = some k
  others : ∀ l', ¬ l' <+: l → h'.kind? l' = h.kind? l'

theorem startOf_parent {q : Pathname} (hq : p.parent = some q) : h.startOf q = h.startOf p := by
  rw [startOf, startOf, Pathname.isAbsolute_parent hq]

theorem plainSteps_of_nil (hp : p.bytes = []) : p.plainSteps = [] := by
  rw [Pathname.plainSteps, Pathname.segments, hp]
  rfl

theorem Reaches.eq_working (hr : h.Reaches p l) (hp : p.bytes = []) : l = h.workingDirectory := by
  cases hr with
  | working => rfl
  | there hat => exact absurd hp hat.1
  | new hq hreaches hends =>
    obtain ⟨dots, hsteps⟩ := hends
    rw [plainSteps_of_nil hp] at hsteps
    exact absurd hsteps.symm (by simp)

/-- Dots lead nowhere else. -/
theorem leads_dots (hd : h.kind? l = some .directory) (dots : Nat) :
    h.Leads 0 l (List.replicate dots .here) l := by
  induction dots with
  | zero => exact .done l
  | succ dots ih => exact .stay (Or.inl rfl) hd ih

theorem Leads.of_dots {j : Nat} {a b : Location} {rest : List Step} {dots : Nat}
    (hl : h.Leads j a (List.replicate dots .here ++ rest) b) : h.Leads j a rest b := by
  induction dots with
  | zero => exact hl
  | succ dots ih =>
    cases hl with
    | stay _ _ hr => exact ih hr

/-- A name is looked up in a directory that has it. -/
theorem Leads.name_there {j : Nat} {a b : Location} {rest : List Step}
    (hl : h.Leads j a (.name n :: rest) b) :
    h.kind? a = some .directory ∧ h.kind? (a ++ [n]) ≠ none := by
  cases hl with
  | stay hs => rcases hs with hs | hs <;> cases hs
  | name hd _ hk => exact ⟨hd, by rw [hk]; exact Option.some_ne_none _⟩
  | link hd _ hk => exact ⟨hd, by rw [hk]; exact Option.some_ne_none _⟩

/-- Where a path would lead it leads, if it leads anywhere. -/
theorem Reaches.unique (hr : h.Reaches p l) {j : Nat} (hj : j ≤ linkLimit) {l' : Location}
    (hl : h.Leads j (h.startOf p) p.plainSteps l') (hd : h.kind? l' = some .directory) :
    l' = l := by
  induction hr generalizing j l' with
  | @working p hp =>
    have hstart : h.startOf p = h.workingDirectory := by
      rw [startOf, Pathname.isAbsolute, hp]
      rfl
    rw [plainSteps_of_nil hp, hstart] at hl
    cases hl
    rfl
  | there hat => exact ((at_of_leads_plainSteps hat.1 hat.2 hj hl hd).unique hat).1
  | @new p q dir n hq _ hends _ _ _ hfree ih =>
    obtain ⟨dots, hsteps⟩ := hends
    rw [hsteps, List.append_assoc, ← startOf_parent hq] at hl
    obtain ⟨i, i', b, hij, hbefore, hlast⟩ := hl.split
    have hplace := hlast.of_dots.name_there
    have hb := ih (by omega) hbefore hplace.1
    subst hb
    exact absurd hfree hplace.2

/-- A path to a place where nothing is has a last name, which is free in the directory before it. -/
theorem Reaches.parent_of_free (hr : h.Reaches p (dir ++ [n])) (hw : h.WellFormed)
    (hfree : h.kind? (dir ++ [n]) = none) :
    ∃ q, p.parent = some q ∧ h.Reaches q dir ∧ p.EndsIn q n ∧
      p.bytes.length < pathLimit ∧ p.hasZero = false ∧ n.length ≤ longestName := by
  generalize hl : dir ++ [n] = l at hr
  rw [hl] at hfree
  cases hr with
  | working =>
    rw [hw.working] at hfree
    cases hfree
  | there hat =>
    rw [hat.kind] at hfree
    cases hfree
  | new hq hreaches hends hshort hzero hname =>
    obtain ⟨rfl, hn⟩ := List.append_inj' hl rfl
    cases hn
    exact ⟨_, hq, hreaches, hends, hshort, hzero, hname⟩

/-- A path to a place where nothing is leads nowhere. -/
theorem Reaches.not_at (hr : h.Reaches p l) (hfree : h.kind? l = none)
    {l' : Location} : ¬ h.At p l' k := by
  intro hat
  cases hr with
  | working hp => exact hat.1 hp
  | there hthere =>
    rw [hthere.kind] at hfree
    cases hfree
  | @new _ q dir n hq hreaches hends _ _ _ _ =>
    obtain ⟨-, -, ⟨j, hj, hl⟩, -⟩ := hat
    obtain ⟨dots, hsteps⟩ := hends
    obtain ⟨rest, hrest⟩ : ∃ rest, p.steps =
        q.plainSteps ++ (List.replicate dots .here ++ .name n :: rest) := by
      rcases p.steps_eq with hs | hs
      · exact ⟨[], by rw [hs, hsteps, List.append_assoc]⟩
      · exact ⟨[.slash], by rw [hs, hsteps, List.append_assoc, List.append_assoc]; rfl⟩
    rw [hrest, ← startOf_parent hq] at hl
    obtain ⟨i, i', b, hij, hbefore, hlast⟩ := hl.split
    have hplace := hlast.of_dots.name_there
    have hb := hreaches.unique (by omega) hbefore hplace.1
    subst hb
    exact hplace.2 hfree

theorem Made.refl (hw : h.WellFormed) (l : Location) : h.Made l h :=
  ⟨rfl, hw, fun _ _ hk => hk, fun _ _ => rfl⟩

theorem Made.add {h' : Host} (hm : h.Made dir h') (hf : h'.Free p dir n) (now : Instant) :
    h.Made (dir ++ [n]) (h'.add now (dir ++ [n]) (.directory now)) := by
  refine ⟨?_, hf.wellFormed_add hm.wellFormed now _, ?_, ?_⟩
  · rw [Host.add, workingDirectory_touch]
    exact hm.working
  · exact fun l k hk => kind?_add_of_some hf.free (hm.same l k hk)
  · intro l hl
    have hne : l ≠ dir ++ [n] := by
      rintro rfl
      exact hl List.prefix_rfl
    have hdir : ¬ l <+: dir := fun hpre => hl (hpre.trans (List.prefix_append dir [n]))
    rw [kind?_add _ now Free.ne_root, if_neg hne, hm.others l hdir]

/-- Once the directories before it are there, the last name of a path is free. -/
theorem Made.free {h' : Host} {q : Pathname} (hm : h.Made dir h') (hq : p.parent = some q)
    (hthere : (q.bytes = [] ∧ dir = h'.workingDirectory) ∨ h'.At q dir .directory)
    (hends : p.EndsIn q n) (hshort : p.bytes.length < pathLimit)
    (hzero : p.hasZero = false) (hname : n.length ≤ longestName)
    (hfree : h.kind? (dir ++ [n]) = none) : h'.Free p dir n := by
  have hne : p.bytes ≠ [] := by
    have hlength := Pathname.length_parent hq
    exact List.ne_nil_of_length_pos (by omega)
  have hleads : ∃ j ≤ linkLimit, h'.Leads j (h'.startOf q) q.plainSteps dir := by
    rcases hthere with ⟨hnil, hdir⟩ | hat
    · have hstart : h'.startOf q = dir := by
        rw [startOf, Pathname.isAbsolute, hnil, hdir]
        rfl
      rw [plainSteps_of_nil hnil, hstart]
      exact ⟨0, Nat.zero_le _, .done dir⟩
    · exact hat.leads_plainSteps
  have hkind : h'.kind? dir = some .directory := by
    rcases hthere with ⟨-, hdir⟩ | hat
    · rw [hdir]
      exact hm.wellFormed.working
    · exact hat.kind
  have hlonger : ¬ dir ++ [n] <+: dir := by
    intro hpre
    have hlength := hpre.length_le
    rw [List.length_append, List.length_singleton] at hlength
    omega
  obtain ⟨dots, hsteps⟩ := hends
  obtain ⟨j, hj, hl⟩ := hleads
  rw [startOf_parent hq] at hl
  exact ⟨hne, hshort, hzero, ⟨_, hsteps, j, hj, hl.append (leads_dots hkind dots)⟩, hkind, hname,
    (hm.others _ hlonger).trans hfree⟩

end Host

end ZipMount
