import ZipMount.Proofs.Archives.Entry
import ZipMount.Proofs.Host.NewFile
import ZipMount.Proofs.Tree.Reachable

namespace ZipMount

open MemberKey

namespace Target

/-- The path that a provider finds to be the target when no filter is before it. -/
def path : Target → Path
  | .host q => .host q
  | .member id q => .member id q

/-- A target that may be written to: on the host, or in an archive that is open for writing. -/
def Writable (w : World) : Target → Prop
  | .host _ => True
  | .member id _ => ∃ m, w.writableMount id = .ok m

/-- A target that a new file finds to be a directory before it finds that something is there. -/
def FoundDirectory (w : World) : Target → Prop
  | .host q => AsksDirectory q.steps
  | .member id q => (Path.member id q).isDirectory w = true

/-- A target where nothing is, in a directory, and on the host under a name with nothing after it. -/
def Free (w : World) : Target → Prop
  | .host q => q.steps = q.plainSteps ∧ ∃ dir n, w.host.Free q dir n
  | .member id q => ∃ m parent, w.openMount id = .ok m ∧ m.tree.find? (ofPathname q) = none ∧
      m.tree.find? (ofPathname q).parent = some parent ∧ parent.isDirectory = true

/-- A world with one new file, which is where the target leads. -/
inductive Created (w : World) (data : ByteArray) : Target → World → Prop where
  | host {q : Pathname} {l : Location} {h : Host} (hfree : w.host.kind? l = none)
      (hputs : w.host.Puts q l (.file data) h) : Created w data (.host q) { w.tick with host := h }
  | member {id : MountId} {q : Pathname} {m : Mount} {t : Tree} (hm : w.openMount id = .ok m)
      (hfree : m.tree.find? (ofPathname q) = none)
      (hfile : t.find? (ofPathname q) = some (.file data w.now))
      (hothers : ∀ j ≠ ofPathname q, t.find? j = m.tree.find? j)
      (horder : t.order = m.tree.order ++ [ofPathname q]) :
      Created w data (.member id q) (w.tick.setTree id m t)

end Target

namespace Path

variable {w w' : World} {p : Path} {q : Pathname} {id : MountId} {m : Mount} {a : Attributes}

/-- Paths that come to the same target are treated alike. -/
theorem alike_of_target {t : Target} (ht : p.provider.target p = .ok t) :
    p.attributes = t.path.attributes ∧ p.read = t.path.read ∧
      ∀ data mode, p.write data mode = t.path.write data mode := by
  have hpath : t.path.provider.target t.path = .ok t := by cases t <;> rfl
  refine ⟨funext fun w => ?_, funext fun w => ?_, fun data mode => ?_⟩
  · unfold attributes Provider.attributes
    rw [ht, hpath]
  · unfold read Provider.read
    rw [ht, hpath]
  · have hsame : (fun w => p.provider.write w p data mode) =
        fun w => t.path.provider.write w t.path data mode := by
      unfold Provider.write
      rw [ht, hpath]
    rw [write_eq, write_eq, hsame]

theorem at_of_attributes (h : (host q).attributes w = .ok a) :
    q.hasZero = false ∧ ∃ l k, w.host.At q l k := by
  have hattributes : (host q).attributes w = Host.answer q (w.host.stat q) := rfl
  rw [hattributes] at h
  obtain ⟨hzero, hstat⟩ := Host.onPath_ok (mapError_eq_ok h)
  obtain ⟨⟨l, node⟩, hfind, -⟩ := bind_eq_ok hstat
  exact ⟨hzero, l, node.kind, Host.at_of_find hfind⟩

/-- What is there on the host is in the way. -/
theorem createNew_host_of_there (h : (host q).attributes w = .ok a) (data : ByteArray) :
    ∃ e, (host q).write data .createNew w = (.error (.error e), w) ∧
      (e.isAlreadyExists = true ↔ ¬ (Target.host q).FoundDirectory w) := by
  obtain ⟨hzero, l, k, hat⟩ := at_of_attributes h
  obtain ⟨hdirectory, hthere⟩ := Host.create_of_at hzero hat w.now data
  by_cases hasks : AsksDirectory q.steps
  · refine ⟨.ofHost q.display (.host .isDirectory), ?_, ?_⟩
    · rw [write_host, hdirectory hasks]
    · exact iff_of_false Bool.false_ne_true (not_not_intro hasks)
  · refine ⟨.ofHost q.display (.host .exists), ?_, ?_⟩
    · rw [write_host, hthere hasks]
    · exact iff_of_true rfl hasks

/-- A new file on the host. -/
theorem createNew_host (q : Pathname) (data : ByteArray) (w : World) :
    ((Target.host q).Free w → ∃ w', (host q).write data .createNew w = (.ok (), w') ∧
        (Target.host q).Created w data w' ∧ (host q).read w' = .ok data) ∧
      (¬ (Target.host q).Free w → ∃ e, (host q).write data .createNew w = (.error (.error e), w)) := by
  rw [write_host]
  constructor
  · rintro ⟨hplain, dir, n, hfree⟩
    have hcreate : w.host.write w.now q data .createNew = _ :=
      Host.create_ok_iff.mpr ⟨dir, n, hfree, hplain, rfl⟩
    rw [hcreate]
    obtain ⟨l, hnone, hputs⟩ := Host.create_puts hcreate
    refine ⟨_, rfl, .host hnone hputs, ?_⟩
    have hread : (host q).read = fun w => Host.answer q (w.host.read q) := rfl
    rw [hread]
    change Host.answer q (Host.read _ q) = .ok data
    rw [Host.read_of_at hfree.noZero hputs.leads]
    rfl
  · intro hnot
    cases hcreate : w.host.write w.now q data .createNew with
    | error f => exact ⟨_, rfl⟩
    | ok h =>
      obtain ⟨dir, n, hfree, hplain, -⟩ := Host.create_ok_iff.mp hcreate
      exact absurd ⟨hplain, dir, n, hfree⟩ hnot

theorem find_of_attributes (hm : w.openMount id = .ok m)
    (h : (member id q).attributes w = .ok a) : ∃ x, m.tree.find? (ofPathname q) = some x := by
  have hattributes : (member id q).attributes w = (do
      let m ← w.openMount id
      pure (← Mount.answer q (m.tree.find (ofPathname q))).attributes) := rfl
  rw [hattributes, hm] at h
  obtain ⟨m', hm', h⟩ := bind_eq_ok h
  cases hm'
  obtain ⟨x, hanswer, -⟩ := bind_eq_ok h
  have hfind := mapError_eq_ok hanswer
  rw [Tree.find_eq] at hfind
  cases hx : m.tree.find? (ofPathname q) with
  | some x => exact ⟨x, rfl⟩
  | none =>
    rw [hx] at hfind
    cases hfind

theorem read_of_file (hm : w.openMount id = .ok m) {data : ByteArray} {times : Times}
    (hx : m.tree.find? (ofPathname q) = some ⟨.file data, times⟩) :
    (member id q).read w = .ok data := by
  have hread : (member id q).read w = (do
      let m ← w.openMount id
      Mount.answer q (m.tree.read (ofPathname q))) := rfl
  rw [hread, hm]
  change Mount.answer q (m.tree.read (ofPathname q)) = _
  rw [Tree.read_eq, hx]
  rfl

/-- What is there in an archive is in the way. -/
theorem createNew_member_of_there (hm : w.writableMount id = .ok m)
    (h : (member id q).attributes w = .ok a) (data : ByteArray) :
    ∃ e, (member id q).write data .createNew w = (.error (.error e), w) ∧
      (e.isAlreadyExists = true ↔ ¬ (Target.member id q).FoundDirectory w) := by
  have hopen := World.openMount_of_writableMount hm
  obtain ⟨⟨content, times⟩, hx⟩ := find_of_attributes hopen h
  have hcontent : (member id q).content? w = some content :=
    content?_member.mpr ⟨m, _, hopen, hx, rfl⟩
  have hwrite := write_member hm q data .createNew
  rw [Tree.writeFile_eq, hx] at hwrite
  cases content with
  | directory =>
    have hfound := content?_directory.mp hcontent
    exact ⟨_, write_of_error hwrite, iff_of_false Bool.false_ne_true (not_not_intro hfound)⟩
  | file old =>
    have hfile : (member id q).isDirectory w = false := Archives.isDirectory_of_content? hcontent
    exact ⟨_, write_of_error hwrite, iff_of_true rfl (Bool.not_eq_true _ ▸ hfile)⟩

/-- A new file in an archive. -/
theorem createNew_member (hm : w.writableMount id = .ok m) (q : Pathname) (data : ByteArray) :
    ((Target.member id q).Free w → ∃ w', (member id q).write data .createNew w = (.ok (), w') ∧
        (Target.member id q).Created w data w' ∧ (member id q).read w' = .ok data) ∧
      (¬ (Target.member id q).Free w →
        ∃ e, (member id q).write data .createNew w = (.error (.error e), w)) := by
  have hopen := World.openMount_of_writableMount hm
  have hwrite := write_member hm q data .createNew
  rw [Tree.writeFile_eq] at hwrite
  constructor
  · rintro ⟨m', parent, hm', hnone, hparent⟩
    cases hopen.symm.trans hm'
    rw [hnone, Tree.checkParent_ok_iff.mpr ⟨parent, hparent⟩] at hwrite
    have hne : ofPathname q ≠ [] := by
      intro hroot
      rw [hroot] at hnone
      cases hnone
    have hfile : (m.tree.insert (ofPathname q) (.file data w.now)).find? (ofPathname q) =
        some (.file data w.now) := by
      rw [Tree.find?_insert m.tree hne, if_pos rfl]
    have hothers : ∀ j ≠ ofPathname q,
        (m.tree.insert (ofPathname q) (.file data w.now)).find? j = m.tree.find? j :=
      fun j hj => by rw [Tree.find?_insert m.tree hne, if_neg hj]
    have horder := Tree.order_insert_new (Tree.notMem_order hnone) (.file data w.now)
    refine ⟨_, write_of_ok hwrite, .member hopen hnone hfile hothers horder, ?_⟩
    exact read_of_file (World.openMount_of_writableMount (World.writableMount_setTree hm _)) hfile
  · intro hnot
    cases hx : m.tree.find? (ofPathname q) with
    | some x =>
      obtain ⟨content, times⟩ := x
      rw [hx] at hwrite
      cases content <;> exact ⟨_, write_of_error hwrite⟩
    | none =>
      rw [hx] at hwrite
      cases hp : m.tree.checkParent (ofPathname q) with
      | error r =>
        rw [hp] at hwrite
        exact ⟨_, write_of_error hwrite⟩
      | ok u =>
        obtain ⟨parent, hparent⟩ := Tree.checkParent_ok_iff.mp hp
        exact absurd ⟨m, parent, hopen, hx, hparent⟩ hnot

/-- Writing a file that must be new leaves what is there alone, and says that it is there unless it
finds a directory first. It puts the file where nothing is, in a directory, and fails otherwise; when
it fails nothing changes. -/
theorem write_createNew {t : Target} (ht : p.provider.target p = .ok t) (hw : t.Writable w)
    (data : ByteArray) :
    (∀ a, p.attributes w = .ok a → ∃ e, p.write data .createNew w = (.error (.error e), w) ∧
        (e.isAlreadyExists = true ↔ ¬ t.FoundDirectory w)) ∧
      (t.Free w → ∃ w', p.write data .createNew w = (.ok (), w') ∧ t.Created w data w' ∧
        p.read w' = .ok data) ∧
      (¬ t.Free w → ∃ e, p.write data .createNew w = (.error (.error e), w)) := by
  obtain ⟨hattributes, hread, hwrite⟩ := alike_of_target ht
  rw [hattributes, hread, hwrite]
  cases t with
  | host q => exact ⟨fun a ha => createNew_host_of_there ha data, createNew_host q data w⟩
  | member id q =>
    obtain ⟨m, hm⟩ := hw
    exact ⟨fun a ha => createNew_member_of_there hm ha data, createNew_member hm q data⟩

/-- A member of an archive through a filter that takes writing as granted. -/
def throughFilter (k : MemberKey) : Path := (ofKey ⟨0, 0⟩ k).granted [.write]

/-- A directory and a file that are there, and a name that is free in the directory. -/
theorem write_createNew_tangled :
    (∀ k, (throughFilter k).provider.target (throughFilter k) =
      .ok (.member ⟨0, 0⟩ (MemberKey.pathname k))) ∧
    (∃ m, Tree.tangledWorld.writableMount ⟨0, 0⟩ = .ok m) ∧
    (∃ e, (throughFilter ["x"]).write ByteArray.empty .createNew Tree.tangledWorld =
      (.error (.error e), Tree.tangledWorld) ∧ e.isAlreadyExists = false) ∧
    (∃ e, (throughFilter ["z"]).write ByteArray.empty .createNew Tree.tangledWorld =
      (.error (.error e), Tree.tangledWorld) ∧ e.isAlreadyExists = true) ∧
    (∃ w, (throughFilter ["x", "new"]).write ByteArray.empty .createNew Tree.tangledWorld =
      (.ok (), w) ∧ (throughFilter ["x", "new"]).read w = .ok ByteArray.empty) := by
  have hwritable : ∃ m, Tree.tangledWorld.writableMount ⟨0, 0⟩ = .ok m := ⟨_, rfl⟩
  have htarget : ∀ k, (throughFilter k).provider.target (throughFilter k) =
      .ok (.member ⟨0, 0⟩ (MemberKey.pathname k)) := fun _ => rfl
  refine ⟨htarget, hwritable, ?_, ?_, ?_⟩
  · obtain ⟨e, hwrite, hreason⟩ :=
      (write_createNew (htarget ["x"]) hwritable ByteArray.empty).1 _ rfl
    have hfound : (Target.member ⟨0, 0⟩ (MemberKey.pathname ["x"])).FoundDirectory
        Tree.tangledWorld := rfl
    exact ⟨e, hwrite, Bool.eq_false_iff.mpr fun h => hreason.mp h hfound⟩
  · obtain ⟨e, hwrite, hreason⟩ :=
      (write_createNew (htarget ["z"]) hwritable ByteArray.empty).1 _ rfl
    have hfound : ¬ (Target.member ⟨0, 0⟩ (MemberKey.pathname ["z"])).FoundDirectory
        Tree.tangledWorld := Bool.false_ne_true
    exact ⟨e, hwrite, hreason.mpr hfound⟩
  · have hfree : (Target.member ⟨0, 0⟩ (MemberKey.pathname ["x", "new"])).Free
        Tree.tangledWorld := ⟨_, _, rfl, rfl, rfl, rfl⟩
    obtain ⟨w, hwrite, -, hread⟩ :=
      (write_createNew (htarget ["x", "new"]) hwritable ByteArray.empty).2.1 hfree
    exact ⟨w, hwrite, hread⟩

end Path

end ZipMount
