import ZipMount.Proofs.Host.Calls
import ZipMount.Proofs.Host.Plain

namespace ZipMount

/-- Names that can be put to a path within the limits of hosts. -/
structure Pathname.Fits (p : Pathname) (names : List Filename) : Prop where
  segments : ∀ n ∈ names, IsSegment n
  bounded : ∀ n ∈ names, n.length ≤ Host.longestName ∧ 0 ∉ n
  short : (p.under names).bytes.length < Host.pathLimit

/-- Fewer names are within the limits too. -/
theorem Pathname.Fits.init {p : Pathname} {names : List Filename} {n : Filename} (hp : p.bytes ≠ [])
    (hfit : p.Fits (names ++ [n])) : p.Fits names := by
  have hsegments : ∀ m ∈ names, IsSegment m :=
    fun m hm => hfit.segments m (List.mem_append_left _ hm)
  have hn : IsSegment n := hfit.segments n (by simp)
  have hshort := hfit.short
  rw [under_concat] at hshort
  have hlonger := length_join (under_ne_nil hp hsegments) hn
  exact ⟨hsegments, fun m hm => hfit.bounded m (List.mem_append_left _ hm),
    Nat.lt_trans hlonger hshort⟩

namespace Host

variable {h : Host} {p q : Pathname} {dir : Location} {n : Filename} {init names : List Filename}

/-- What is found of a name in a place. -/
inductive Finds (h : Host) (dir : Location) (n : Filename) : Except Errno Spot → Prop where
  | entry {k : HostKind} (hk : h.kind? (dir ++ [n]) = some k) :
      Finds h dir n (.ok (.entry (dir ++ [n])))
  | vacant (hd : h.kind? dir = some .directory) (hfree : h.kind? (dir ++ [n]) = none) :
      Finds h dir n (.ok (.vacant dir n))
  | unreached (hd : h.kind? dir ≠ some .directory) (hfree : h.kind? (dir ++ [n]) = none)
      (e : Errno) : Finds h dir n (.error e)

/-- What is looked up in a place that is no directory is not found. -/
theorem Plain.lookup_ne_ok (hp : h.Plain p dir) (hfit : p.Fits (init ++ [n]))
    (hd : h.kind? (dir ++ init) ≠ some .directory) (m : Manner) (spot : Spot) :
    h.lookup m (p.under (init ++ [n])) (p.under (init ++ [n])).plainSteps ≠ .ok spot := by
  have hn : IsSegment n := hfit.segments n (by simp)
  have hinit : ∀ s ∈ init, IsSegment s := fun s hs => hfit.segments s (List.mem_append_left _ hs)
  have hne := Pathname.under_ne_nil hp.leads.1 hinit
  intro hl
  obtain ⟨-, hlt, ha⟩ := lookup_ok.mp hl
  rw [Pathname.under_concat] at hlt ha
  rw [startOf_join hne hn, Pathname.plainSteps_join hne hn] at ha
  obtain ⟨i, j, d, hij, hleads, hlast⟩ := (advances_of_advance ha).before_name
  have hshort := Nat.lt_trans (Pathname.length_join hne hn) hlt
  have hat := at_of_leads_plainSteps hne hshort (by omega) hleads hlast.directory
  rw [hp.leads.eq_of_under hp.linkless hinit hat] at hat
  exact hd hat.kind

/-- What is there decides what is found. -/
theorem Plain.lookup_under (hw : h.WellFormed) (hp : h.Plain p dir) (hfit : p.Fits (init ++ [n]))
    (m : Manner) : h.Finds (dir ++ init) n
      (h.lookup m (p.under (init ++ [n])) (p.under (init ++ [n])).plainSteps) := by
  have hn : IsSegment n := hfit.segments n (by simp)
  have hname : n.length ≤ longestName := (hfit.bounded n (by simp)).1
  have hinit : ∀ s ∈ init, IsSegment s := fun s hs => hfit.segments s (List.mem_append_left _ hs)
  have hne := Pathname.under_ne_nil hp.leads.1 hinit
  by_cases hd : h.kind? (dir ++ init) = some .directory
  · -- the steps to the directory are taken, and the name is looked up there
    obtain ⟨j, hj, hl⟩ := (hp.at_under hw hd).leads_plainSteps
    obtain ⟨i, hi⟩ := Nat.exists_eq_add_of_le hj
    have hlast : ∀ spot, h.advance m i (dir ++ init) [.name n] = .ok spot →
        h.lookup m (p.under (init ++ [n])) (p.under (init ++ [n])).plainSteps = .ok spot := by
      intro spot hspot
      refine lookup_ok.mpr ⟨Pathname.under_ne_nil hp.leads.1 hfit.segments, hfit.short, ?_⟩
      rw [Pathname.under_concat, startOf_join hne hn, Pathname.plainSteps_join hne hn, hi,
        advance_append m hl]
      exact hspot
    cases hk : h.kind? (dir ++ init ++ [n]) with
    | none =>
      rw [hlast _ (advance_free m i hd hname hk)]
      exact .vacant hd hk
    | some k =>
      have hlink : ∀ target, k ≠ .link target := by
        rintro target rfl
        rw [List.append_assoc] at hk
        exact hp.linkless _ target hk
      rw [hlast _ (advance_there m i hd hname hk hlink)]
      exact .entry hk
  · have hfree : h.kind? (dir ++ init ++ [n]) = none := by
      by_contra hsome
      obtain ⟨k, hk⟩ := Option.ne_none_iff_exists'.mp hsome
      exact hd (hw.kind?_prefix hk (List.cons_ne_nil n []))
    cases hl : h.lookup m (p.under (init ++ [n])) (p.under (init ++ [n])).plainSteps with
    | ok spot => exact absurd hl (hp.lookup_ne_ok hfit hd m spot)
    | error e => exact .unreached hd hfree e

theorem Plain.steps_under (hp : h.Plain p dir) (hnames : ∀ n ∈ names, IsSegment n)
    (hne : names ≠ []) : ∃ before, (p.under names).steps = before ++ [.name (names.getLast hne)] ∧
      (p.under names).plainSteps = before ++ [.name (names.getLast hne)] := by
  have hlast := hnames _ (List.getLast_mem hne)
  have hbefore : (p.under names.dropLast).bytes ≠ [] :=
    Pathname.under_ne_nil hp.leads.1 fun s hs => hnames s (List.dropLast_subset _ hs)
  have hjoin : p.under names = (p.under names.dropLast).join ⟨names.getLast hne⟩ := by
    rw [← Pathname.under_concat, List.dropLast_concat_getLast]
  rw [hjoin]
  exact ⟨_, Pathname.steps_join hbefore hlast, Pathname.plainSteps_join hbefore hlast⟩

/-- Names lead to a directory if there is one. -/
theorem Plain.at_directory_iff (hw : h.WellFormed) (hp : h.Plain p dir)
    (hnames : ∀ n ∈ names, IsSegment n) :
    (∃ l, h.At (p.under names) l .directory) ↔ h.kind? (dir ++ names) = some .directory := by
  constructor
  · rintro ⟨l, hat⟩
    rw [← hp.leads.eq_of_under hp.linkless hnames hat]
    exact hat.kind
  · exact fun hk => ⟨_, hp.at_under hw hk⟩

/-- The path before a name leads to the directory to which the name was put. -/
theorem At.parent_join (hat : h.At p dir .directory) (hn : IsSegment n)
    (hq : (p.join ⟨n⟩).parent = some q) (hne : q.bytes ≠ []) {dots : Nat}
    (hdots : p.plainSteps = q.plainSteps ++ List.replicate dots .here)
    (hshort : (p.join ⟨n⟩).bytes.length < pathLimit) : h.At q dir .directory := by
  obtain ⟨j, hj, hl⟩ := hat.leads_plainSteps
  have hstart : h.startOf q = h.startOf p :=
    (startOf_parent hq).trans (startOf_join hat.ne_nil hn)
  rw [hdots, ← hstart] at hl
  obtain ⟨i, i', b, hij, hbefore, hlast⟩ := hl.split
  rw [← List.append_nil (List.replicate dots Step.here)] at hlast
  cases hlast.of_dots with
  | done =>
    have hlonger := Nat.lt_trans (Pathname.length_parent hq) hshort
    exact at_of_leads_plainSteps hne hlonger (by omega) hbefore hat.kind

theorem onPath_eq {α : Type} (hz : p.hasZero = false) (r : Except Errno α) :
    onPath p r = r.mapError .host := by
  rw [onPath, hz, if_neg Bool.false_ne_true]

theorem find_eq (hs : p.steps = p.plainSteps) (m : Manner) :
    h.find m p = match h.lookup m p p.plainSteps with
      | .ok (.entry l) =>
        match h.node? l with
        | some node => .ok (l, node)
        | none => .error .noEntry
      | .ok (.vacant ..) => .error .noEntry
      | .error e => .error e := by
  unfold find
  rw [hs]
  cases h.lookup m p p.plainSteps with
  | error e => rfl
  | ok spot =>
    cases spot with
    | vacant d s => rfl
    | entry l =>
      simp only [bind, Except.bind]
      cases h.node? l <;> rfl

theorem makeDirectory_eq (hz : p.hasZero = false) (now : Instant) :
    h.makeDirectory now p = match h.lookup .itself p p.plainSteps with
      | .ok (.entry _) => .error (.host .exists)
      | .ok (.vacant d s) => .ok (h.add now (d ++ [s]) (.directory now))
      | .error e => .error (.host e) := by
  unfold makeDirectory
  rw [onPath_eq hz]
  cases h.lookup .itself p p.plainSteps with
  | error e => rfl
  | ok spot => cases spot <;> rfl

theorem create_eq (hz : p.hasZero = false) (hs : p.steps = p.plainSteps) (now : Instant)
    (data : ByteArray) :
    h.write now p data .createNew = match h.lookup .creating p p.plainSteps with
      | .ok (.entry _) => .error (.host .exists)
      | .ok (.vacant d s) => .ok (h.add now (d ++ [s]) (.file data now))
      | .error e => .error (.host e) := by
  unfold write
  rw [onPath_eq hz]
  change (h.create now p data).mapError _ = _
  unfold create
  rw [hs]
  cases h.lookup .creating p p.plainSteps with
  | error e => rfl
  | ok spot => cases spot <;> rfl

theorem replace_eq (hz : p.hasZero = false) (hs : p.steps = p.plainSteps) (now : Instant)
    (data : ByteArray) :
    h.write now p data .replace = match h.lookup .writing p p.plainSteps with
      | .ok (.entry l) =>
        match h.node? l with
        | some (.file ..) => .ok (h.alter l (.file data now))
        | some _ => .error (.host .isDirectory)
        | none => .error (.host .noEntry)
      | .ok (.vacant d s) => .ok (h.add now (d ++ [s]) (.file data now))
      | .error e => .error (.host e) := by
  unfold write
  rw [onPath_eq hz]
  change (h.replace now p data).mapError _ = _
  unfold replace
  rw [hs]
  cases h.lookup .writing p p.plainSteps with
  | error e => rfl
  | ok spot =>
    cases spot with
    | vacant d s => rfl
    | entry l =>
      simp only [bind, Except.bind]
      cases h.node? l with
      | none => rfl
      | some node => cases node <;> rfl

theorem read_eq (hz : p.hasZero = false) (hs : p.steps = p.plainSteps) :
    h.read p = match h.lookup .target p p.plainSteps with
      | .ok (.entry l) =>
        match h.node? l with
        | some (.file data _) => .ok data
        | some _ => .error (.host .isDirectory)
        | none => .error (.host .noEntry)
      | .ok (.vacant ..) => .error (.host .noEntry)
      | .error e => .error (.host e) := by
  unfold read
  rw [onPath_eq hz, find_eq hs]
  cases h.lookup .target p p.plainSteps with
  | error e => rfl
  | ok spot =>
    cases spot with
    | vacant d s => rfl
    | entry l =>
      simp only
      cases h.node? l with
      | none => rfl
      | some node => cases node <;> rfl

theorem list_eq (hz : p.hasZero = false) (hs : p.steps = p.plainSteps) :
    h.list p = match h.lookup .target p p.plainSteps with
      | .ok (.entry l) =>
        match h.node? l with
        | some (.directory _) => .ok (h.namesIn l)
        | some _ => .error (.host .notDirectory)
        | none => .error (.host .noEntry)
      | .ok (.vacant ..) => .error (.host .noEntry)
      | .error e => .error (.host e) := by
  unfold list
  rw [onPath_eq hz, find_eq hs]
  cases h.lookup .target p p.plainSteps with
  | error e => rfl
  | ok spot =>
    cases spot with
    | vacant d s => rfl
    | entry l =>
      simp only
      cases h.node? l with
      | none => rfl
      | some node => cases node <;> rfl

/-- What is called by its name is taken out unless something is in it. -/
theorem remove_eq (hw : h.WellFormed) (hz : p.hasZero = false) (hs : p.steps = p.plainSteps)
    {before : List Step} (hlast : p.plainSteps = before ++ [.name n]) (now : Instant) :
    h.remove now p = match h.lookup .itself p p.plainSteps with
      | .ok (.entry l) =>
        match h.node? l with
        | some _ => if h.isOccupied l then .error (.host .notEmpty) else .ok (h.drop now l)
        | none => .error (.host .noEntry)
      | .ok (.vacant ..) => .error (.host .noEntry)
      | .error e => .error (.host e) := by
  unfold remove
  rw [onPath_eq hz, find_eq hs]
  cases hl : h.lookup .itself p p.plainSteps with
  | error e => rfl
  | ok spot =>
    cases spot with
    | vacant d s => rfl
    | entry l =>
      simp only
      cases hnode : h.node? l with
      | none => rfl
      | some node =>
        have hempty : node.kind ≠ .directory → h.isOccupied l = false := by
          intro hkind
          have hk : h.kind? l = some node.kind := by
            rw [kind?, hnode]
            rfl
          rw [isOccupied, hw.namesIn_eq_nil hk hkind]
          rfl
        cases node with
        | file data t =>
          rw [hempty HostKind.noConfusion]
          rfl
        | link target =>
          rw [hempty HostKind.noConfusion]
          rfl
        | directory t =>
          change (h.removeDirectory now p).mapError _ = _
          unfold removeDirectory
          rw [hl, hlast, List.getLast?_concat]
          simp only [bind, Except.bind, hnode]
          cases h.isOccupied l <;> rfl

end Host

end ZipMount
