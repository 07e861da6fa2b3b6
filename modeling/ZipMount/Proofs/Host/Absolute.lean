import ZipMount.Proofs.Host.Changes

namespace ZipMount

namespace Host

/-- A path taken from the working directory, if it is relative. -/
def absolute (h : Host) (p : Pathname) : Pathname := if p.isAbsolute then p else h.cwd.join p

variable {h : Host} {p : Pathname}

/-- What is before a relative path when it is taken from the working directory. -/
theorem bytes_cwd_join (hwd : ∀ n ∈ h.workingDirectory, IsSegment n) (hp : p.isAbsolute = false) :
    ∃ pre, (h.cwd.join p).bytes = pre ++ 47 :: p.bytes ∧
      (Text.pieces 47 pre).filterMap Step.ofSegment? = h.workingDirectory.map .name := by
  have hcwd : h.cwd.bytes ≠ [] := List.cons_ne_nil _ _
  by_cases hnil : h.workingDirectory = []
  · refine ⟨[], ?_, by rw [hnil]; rfl⟩
    have hroot : h.cwd = ⟨[47]⟩ := by
      rw [cwd, hnil]
      rfl
    rw [hroot, Pathname.join, hp]
    rfl
  · have hslash : ∀ n ∈ h.workingDirectory, 47 ∉ n := fun n hn => (hwd n hn).2.2.2
    have hpieces : Text.pieces 47 h.cwd.bytes = [] :: h.workingDirectory := by
      have hjoined : h.cwd.bytes = [] ++ 47 :: Text.joined 47 h.workingDirectory := rfl
      rw [hjoined, Text.pieces_append_sep, Text.pieces_joined hnil hslash]
      rfl
    have hlast : h.cwd.bytes.getLast? ≠ some 47 := by
      -- the last piece would be empty, but it is a name
      intro hlast
      obtain ⟨xs, hxs⟩ := List.getLast?_eq_some_iff.mp hlast
      have hend : Text.pieces 47 h.cwd.bytes = Text.pieces 47 xs ++ [[]] := by
        rw [hxs, Text.pieces_append_sep]
        rfl
      rw [hpieces] at hend
      have hmem : ([] : Filename) = h.workingDirectory.getLast hnil := by
        have hl := congrArg List.getLast? hend
        rw [List.getLast?_append, List.getLast?_cons_of_ne_nil hnil,
          List.getLast?_eq_some_getLast hnil] at hl
        exact (Option.some.inj hl).symm
      exact (hwd _ (List.getLast_mem hnil)).1 hmem.symm
    refine ⟨h.cwd.bytes, ?_, ?_⟩
    · rw [Pathname.join, hp]
      simp only [Bool.false_eq_true, if_false, hcwd, hlast, or_self]
    · rw [hpieces, List.filterMap_cons_none (by rfl)]
      have hall : ∀ ns : List Filename, (∀ n ∈ ns, IsSegment n) →
          ns.filterMap Step.ofSegment? = ns.map .name := by
        intro ns hns
        induction ns with
        | nil => rfl
        | cons n ns ih =>
          rw [List.filterMap_cons_some (Step.ofSegment?_name (hns n List.mem_cons_self)),
            ih fun m hm => hns m (List.mem_cons_of_mem n hm)]
          rfl
      exact hall _ hwd

theorem hasZero_of_absolute (hwd : ∀ n ∈ h.workingDirectory, IsSegment n)
    (hz : (h.absolute p).hasZero = false) : p.hasZero = false := by
  unfold absolute at hz
  split at hz
  · exact hz
  · next hp =>
    obtain ⟨pre, hbytes, -⟩ := bytes_cwd_join hwd (Bool.eq_false_iff.mpr hp)
    rw [Pathname.hasZero, hbytes] at hz
    cases hzero : p.hasZero with
    | false => rfl
    | true =>
      rw [Pathname.hasZero, List.contains_iff_mem] at hzero
      have hmem : (0 : UInt8) ∈ pre ++ 47 :: p.bytes := by simp [hzero]
      rw [← List.contains_iff_mem, hz] at hmem
      cases hmem

theorem plainSteps_ne_nil (hp : p.isAbsolute = false) (hne : p.bytes ≠ []) : p.plainSteps ≠ [] := by
  obtain ⟨b, bs, hb⟩ := List.exists_cons_of_ne_nil hne
  have hslash : b ≠ 47 := by
    rintro rfl
    rw [Pathname.isAbsolute, hb] at hp
    cases hp
  obtain ⟨first, more, hmore⟩ := List.exists_cons_of_ne_nil (Text.pieces_ne_nil 47 bs)
  have hsegments : p.segments = (b :: first) :: more := by
    rw [Pathname.segments, hb, Text.pieces, if_neg hslash, hmore]
  have hstep : ∃ step, Step.ofSegment? (b :: first) = some step := by
    unfold Step.ofSegment?
    rw [if_neg (List.cons_ne_nil b first)]
    split
    · exact ⟨_, rfl⟩
    · split
      · exact ⟨_, rfl⟩
      · exact ⟨_, rfl⟩
  obtain ⟨step, hstep⟩ := hstep
  rw [Pathname.plainSteps, hsegments, List.filterMap_cons_some hstep]
  exact List.cons_ne_nil _ _

theorem plainSteps_cwd_join (hwd : ∀ n ∈ h.workingDirectory, IsSegment n)
    (hp : p.isAbsolute = false) :
    (h.cwd.join p).plainSteps = h.workingDirectory.map .name ++ p.plainSteps := by
  obtain ⟨pre, hbytes, hpre⟩ := bytes_cwd_join hwd hp
  rw [Pathname.plainSteps, Pathname.segments, hbytes, Text.pieces_append_sep, List.filterMap_append,
    hpre]
  rfl

/-- The steps of a relative path come after those to the working directory. -/
theorem steps_cwd_join (hwd : ∀ n ∈ h.workingDirectory, IsSegment n) (hp : p.isAbsolute = false) :
    (p.bytes ≠ [] ∧ (h.cwd.join p).steps = h.workingDirectory.map .name ++ p.steps) ∨
      (p.bytes = [] ∧ ((h.cwd.join p).steps = h.workingDirectory.map .name ∨
        (h.cwd.join p).steps = h.workingDirectory.map .name ++ [.slash])) := by
  obtain ⟨pre, hbytes, -⟩ := bytes_cwd_join hwd hp
  have hplain := plainSteps_cwd_join hwd hp
  by_cases hnil : p.bytes = []
  · right
    refine ⟨hnil, ?_⟩
    have hempty : p.plainSteps = [] := by
      rw [Pathname.plainSteps, Pathname.segments, hnil]
      rfl
    rw [hempty, List.append_nil] at hplain
    rcases (h.cwd.join p).steps_eq with hs | hs
    · exact Or.inl (hs.trans hplain)
    · exact Or.inr (by rw [hs, hplain])
  · left
    refine ⟨hnil, ?_⟩
    have hlast : (h.cwd.join p).bytes.getLast? = p.bytes.getLast? := by
      rw [hbytes, List.getLast?_append, List.getLast?_cons_of_ne_nil hnil,
        List.getLast?_eq_some_getLast hnil]
      rfl
    have hsome := plainSteps_ne_nil hp hnil
    have hmore : h.workingDirectory.map Step.name ++ p.plainSteps ≠ [] := by
      intro happend
      exact hsome (List.append_eq_nil_iff.mp happend).2
    rw [Pathname.plainSteps] at hplain hsome hmore
    rw [Pathname.plainSteps] at hplain
    simp only [Pathname.steps, hplain, hlast, ne_eq, hsome, hmore, not_false_eq_true, true_and]
    split
    · exact List.append_assoc _ _ _
    · rfl

theorem startOf_cwd_join (hp : p.isAbsolute = false) : h.startOf (h.cwd.join p) = [] := by
  have habsolute : (h.cwd.join p).isAbsolute = true := by
    rw [Pathname.join, hp]
    simp only [Bool.false_eq_true, if_false]
    split <;> rfl
  rw [startOf, if_pos habsolute]

theorem leads_of_names {names : List Filename} {base : Location}
    (hdirs : ∀ pre, pre <+: names → h.kind? (base ++ pre) = some .directory)
    (hshort : ∀ n ∈ names, n.length ≤ longestName) :
    h.Leads 0 base (names.map .name) (base ++ names) := by
  induction names generalizing base with
  | nil =>
    rw [List.append_nil]
    exact .done base
  | cons n names ih =>
    have hbase := hdirs [] List.nil_prefix
    rw [List.append_nil] at hbase
    have hrest : ∀ pre, pre <+: names → h.kind? (base ++ [n] ++ pre) = some .directory := by
      intro pre hpre
      rw [List.append_assoc]
      exact hdirs (n :: pre) (List.cons_prefix_cons.mpr ⟨rfl, hpre⟩)
    have hfirst := hdirs [n] (List.cons_prefix_cons.mpr ⟨rfl, List.nil_prefix⟩)
    have hsplit : base ++ n :: names = base ++ [n] ++ names := by simp
    rw [hsplit]
    exact .name hbase (hshort n List.mem_cons_self) hfirst (fun _ => HostKind.noConfusion)
      (ih hrest fun m hm => hshort m (List.mem_cons_of_mem n hm))

theorem leads_names {names : List Filename} {base l : Location} {j : Nat} {rest : List Step}
    (hdirs : ∀ pre, pre <+: names → h.kind? (base ++ pre) = some .directory)
    (hl : h.Leads j base (names.map .name ++ rest) l) : h.Leads j (base ++ names) rest l := by
  induction names generalizing base with
  | nil =>
    rw [List.append_nil]
    exact hl
  | cons n names ih =>
    have hrest : ∀ pre, pre <+: names → h.kind? (base ++ [n] ++ pre) = some .directory := by
      intro pre hpre
      rw [List.append_assoc]
      exact hdirs (n :: pre) (List.cons_prefix_cons.mpr ⟨rfl, hpre⟩)
    have hfirst := hdirs [n] (List.cons_prefix_cons.mpr ⟨rfl, List.nil_prefix⟩)
    have hsplit : base ++ n :: names = base ++ [n] ++ names := by simp
    rw [hsplit]
    cases hl with
    | stay hs _ _ =>
      rcases hs with hs | hs
      · cases hs
      · cases hs
    | name _ _ _ _ hr => exact ih hrest hr
    | link _ _ hk _ =>
      rw [hfirst] at hk
      cases hk

theorem WellFormed.kind?_working (hw : h.WellFormed) {pre : Location}
    (hpre : pre <+: h.workingDirectory) : h.kind? pre = some .directory := by
  obtain ⟨rest, hrest⟩ := hpre
  have hk := hw.working
  rw [← hrest] at hk
  by_cases hnil : rest = []
  · rw [hnil, List.append_nil] at hk
    exact hk
  · exact hw.kind?_prefix hk hnil

/-- What a path taken from the working directory leads to, the path leads to, unless it is empty. -/
theorem At.of_absolute (hw : h.WellFormed) {l : Location} {k : HostKind}
    (hat : h.At (h.absolute p) l k) : h.At p l k ∨ (p.bytes = [] ∧ k = .directory) := by
  unfold absolute at hat
  split at hat
  · exact Or.inl hat
  · next hp =>
    have hp : p.isAbsolute = false := Bool.eq_false_iff.mpr hp
    have hwd : ∀ n ∈ h.workingDirectory, IsSegment n := hw.isSegment hw.working
    obtain ⟨pre, hbytes, -⟩ := bytes_cwd_join hwd hp
    obtain ⟨-, hlt, ⟨j, hj, hl⟩, hk⟩ := hat
    have hstart : h.startOf (h.cwd.join p) = [] := startOf_cwd_join hp
    have hdirs : ∀ pre, pre <+: h.workingDirectory → h.kind? ([] ++ pre) = some .directory :=
      fun _ => hw.kind?_working
    rw [hstart] at hl
    have hself : ∀ rest : List Step, rest = [] ∨ rest = [.slash] →
        h.Leads j h.workingDirectory rest l → k = .directory := by
      intro rest hrest hl
      have hsame : l = h.workingDirectory := by
        rcases hrest with rfl | rfl
        · cases hl
          rfl
        · cases hl with
          | stay _ _ hr =>
            cases hr
            rfl
      rw [hsame, hw.working] at hk
      exact (Option.some.inj hk).symm
    rcases steps_cwd_join hwd hp with ⟨hne, hs⟩ | ⟨hnil, hs⟩
    · left
      rw [hs] at hl
      refine ⟨hne, ?_, ⟨j, hj, ?_⟩, hk⟩
      · rw [hbytes, List.length_append, List.length_cons] at hlt
        omega
      · rw [startOf, hp]
        exact leads_names hdirs hl
    · right
      refine ⟨hnil, ?_⟩
      rcases hs with hs | hs
      · rw [hs, ← List.append_nil (h.workingDirectory.map Step.name)] at hl
        exact hself [] (Or.inl rfl) (leads_names hdirs hl)
      · rw [hs] at hl
        exact hself [.slash] (Or.inr rfl) (leads_names hdirs hl)

end Host

end ZipMount
