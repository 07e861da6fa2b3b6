import ZipMount.Proofs.Archives.CutShort

namespace ZipMount

open MemberKey

/-- What an action comes to, told by its outcome. -/
theorem Action.eq_of_outcome {α : Type} {x : Except Failure α × World} {r : Except Failure α}
    (h : x.1 = r) : x = (r, x.2) := by
  rw [← h]

/-- What cannot be found for not being there does not exist. -/
theorem Host.not_at_of_check {h : Host} {p : Pathname} {e : Error} (hcheck : h.check p [] = .error e)
    (he : e.isNotFound = true) (l : Location) (k : HostKind) : ¬ h.At p l k := by
  intro hat
  cases hz : p.hasZero with
  | true =>
    unfold check access at hcheck
    rw [hz] at hcheck
    cases hcheck
    cases he
  | false =>
    rw [check_of_at hz hat] at hcheck
    cases hcheck

theorem Host.absolute_of_write {h h' : Host} {now : Instant} {p : Pathname} {data : ByteArray}
    (hwrite : h.write now p data .replace = .ok h') : h'.absolute = h.absolute := by
  obtain ⟨l, hputs⟩ := Host.replace_puts hwrite
  funext q
  unfold absolute cwd
  rw [hputs.keeps.working]

theorem Host.WellFormed.read_of_absolute {h : Host} (hw : h.WellFormed) {p : Pathname}
    {data : ByteArray} (hread : h.read (h.absolute p) = .ok data) : h.read p = .ok data := by
  obtain ⟨hz, l, hat⟩ := Host.at_of_read hread
  rcases hat.of_absolute hw with hat | ⟨-, hdirectory⟩
  · exact Host.read_of_at (Host.hasZero_of_absolute (hw.isSegment hw.working) hz) hat
  · cases hdirectory

namespace Archives

/-- The members of the archive at a path, before anything is put to it: those of the file, or none
if nothing is there. -/
def Earlier (archive : Pathname) (v : World) (old : Tree) : Prop :=
  (∃ data now, v.host.read archive = .ok data ∧ Tree.decode now data = .ok old) ∨
    ((∀ l k, ¬ v.host.At (v.host.absolute archive) l k) ∧ ∃ now, old = .empty now)

/-- The file at a path is that of an archive with these members: it was written for them, or they
were read of it. -/
def FileHolds (archive : Pathname) (w : World) (t : Tree) : Prop :=
  ∃ data, w.host.read archive = .ok data ∧
    ((∃ method, t.encode method = .ok data) ∨ ∃ now, Tree.decode now data = .ok t)

/-- A world in which the archive at a path was just opened. -/
structure Opened (archive : Pathname) (w : World) (id : MountId) (m : Mount) (v : World) : Prop where
  number : id.number = w.mounts.length
  mount : v.mount? id = some m
  isOpen : m.isOpen = true
  wellFormed : v.host.WellFormed
  host : (Path.host archive).exists? w = true → v.host = w.host
  backing : m.backing = (Path.host archive).assumingWritable ∨
    m.backing = .host (v.host.absolute archive)
  earlier : Earlier archive v m.tree
  /-- What is out of date from the start is written in any case. -/
  upToDate : (∃ data now, v.host.read archive = .ok data ∧ Tree.decode now data = .ok m.tree) ∨
    (m.dirty = true ∧ m.readOnly = false)

variable {w v u w' : World} {archive : Pathname} {id : MountId} {m : Mount} {es : Outline}
  {fs : FileSystem}

theorem Opened.treeWellFormed (h : Opened archive w id m v) : m.tree.WellFormed := by
  apply Tree.Starting.wellFormed
  rcases h.earlier with ⟨data, now, -, hdecode⟩ | ⟨-, now, hempty⟩
  · exact Tree.starting_decode hdecode
  · exact Or.inl ⟨now, hempty⟩

theorem opened_openArchive (hw : w.host.WellFormed)
    (h : openArchive (.host archive) [] w = (.ok fs, v)) :
    ∃ id m, fs = .archive id ∧ Opened archive w id m v := by
  have henv : Options.ofEnv (Env.merge (Options.ownerEnv w.principal) []) =
      .ok ⟨none, some w.principal, some w.principal, none⟩ := rfl
  cases hmount : w.mount installed (Path.host archive).assumingWritable
      (Env.merge (Options.ownerEnv w.principal) []) none with
  | error e =>
    obtain ⟨f, hf⟩ := openArchive_of_mount_error hmount
    rw [hf] at h
    cases h
  | ok r =>
    obtain ⟨id, x⟩ := r
    rw [openArchive_of_mount hmount] at h
    cases h
    obtain ⟨options, loaded, m, hoptions, hload, hm, hnumber, rfl⟩ := World.mount_ok hmount
    cases henv.symm.trans hoptions
    rcases World.load_ok hload with ⟨-, data, hread, hdecode, hnew⟩ | ⟨hcreates, -⟩
    · have hread : w.host.read archive = .ok data := mapError_eq_ok hread
      have htree : Tree.decode w.now data = .ok m.tree := by
        rw [hm]
        exact hdecode
      refine ⟨id, m, rfl, hnumber, ?_, by rw [hm], hw, fun _ => rfl, Or.inl (by rw [hm]),
        Or.inl ⟨data, w.now, hread, htree⟩, Or.inl ⟨data, w.now, hread, htree⟩⟩
      unfold World.mount?
      rw [hnumber]
      exact List.getElem?_concat_length
    · cases hcreates

theorem opened_createArchive (hw : w.host.WellFormed)
    (h : createArchive archive [] w = (.ok fs, v)) :
    ∃ id m, fs = .archive id ∧ Opened archive w id m v := by
  obtain ⟨honly, l, hlocator, hopen⟩ := createArchive_ok h
  have hnone := exists?_of_createArchive h
  have hcolon : ':' ∉ Locator.jar.toList := by decide
  obtain ⟨-, hl⟩ := Locator.archiveFile_forArchive rfl hlocator hcolon
  have hopened := Action.noted_ok (Action.get_bind_ok hopen)
  rcases World.newFileSystemAt_cases (Provider.archive installed) l _ (withParents archive w) with
    ⟨f, hf⟩ | ⟨registry, id, x, hok, hmount⟩
  · rw [hf] at hopened
    cases hopened
  · rw [hok] at hopened
    cases hopened
    obtain ⟨file, y, hfile, -, hmounted, rfl⟩ := World.mountLocator_ok hmount
    cases hl.symm.trans hfile
    obtain ⟨options, loaded, m, -, hload, hm, hnumber, rfl⟩ := World.mount_ok hmounted
    have hwellFormed : (withParents archive w).host.WellFormed := honly.host hw
    have hloaded : (∃ data now, (withParents archive w).host.read archive = .ok data ∧
        Tree.decode now data = .ok loaded.tree) ∨
        ((∀ l k, ¬ (withParents archive w).host.At
            ((withParents archive w).host.absolute archive) l k) ∧
          loaded = ⟨.empty (withParents archive w).now, false, true⟩) := by
      rcases World.load_ok hload with ⟨-, data, hread, hdecode, -⟩ | ⟨-, hnew, e, hcheck, he⟩
      · have hread : (withParents archive w).host.read
            ((withParents archive w).host.absolute archive) = .ok data := mapError_eq_ok hread
        exact Or.inl ⟨data, _, hwellFormed.read_of_absolute hread, hdecode⟩
      · exact Or.inr ⟨Host.not_at_of_check hcheck he, hnew⟩
    refine ⟨id, m, rfl, ?_, ?_, ?_, hwellFormed, ?_, Or.inr ?_, ?_, ?_⟩
    · rw [hnumber, honly.mounts]
    · unfold World.mount?
      rw [hnumber]
      exact List.getElem?_concat_length
    · rw [hm]
    · intro hthere
      rw [hnone] at hthere
      cases hthere
    · rw [hm]
      rfl
    · rw [hm]
      rcases hloaded with hread | ⟨hno, rfl⟩
      · exact Or.inl hread
      · exact Or.inr ⟨hno, _, rfl⟩
    · rw [hm]
      rcases hloaded with hread | ⟨-, rfl⟩
      · exact Or.inl hread
      · exact Or.inr ⟨rfl, rfl⟩

theorem opened_openOrCreate (hw : w.host.WellFormed)
    (h : openOrCreate archive [] w = (.ok fs, v)) :
    ∃ id m, fs = .archive id ∧ Opened archive w id m v := by
  have h := Action.get_bind_ok h
  split at h
  · exact opened_openArchive hw h
  · exact opened_createArchive hw h

/-- What is written for the mount can be read back at the archive's path. -/
theorem Opened.read_of_write (h : Opened archive w id m v) {x y : World} (hx : x.host = v.host)
    {data : ByteArray} (hwrite : m.backing.provider.write x m.backing data .replace = .ok y) :
    y.host.read archive = .ok data := by
  rcases h.backing with hb | hb
  · rw [hb] at hwrite
    have hchange : x.tick.changeHost archive
        (fun h => h.write x.now archive data .replace) = .ok y := hwrite
    obtain ⟨host, hhost, rfl⟩ := World.changeHost_ok hchange
    exact Host.read_of_write hhost
  · rw [hb] at hwrite
    have hchange : x.tick.changeHost (v.host.absolute archive)
        (fun h => h.write x.now (v.host.absolute archive) data .replace) = .ok y := hwrite
    obtain ⟨host, hhost, rfl⟩ := World.changeHost_ok hchange
    have htick : x.tick.host = v.host := hx
    rw [htick] at hhost
    have hread := Host.read_of_write hhost
    rw [← Host.absolute_of_write hhost] at hread
    exact (Host.write_wellFormed h.wellFormed hhost).read_of_absolute hread

/-- Closed well, the archive's file holds what its members have come to be. -/
theorem Opened.close (h : Opened archive w id m v) (hf : v.Filling id m es u)
    (hclose : FileSystem.close (.archive id) u = (.ok (), w')) :
    ∃ t, m.tree.Covered es t ∧ FileHolds archive w' t := by
  obtain ⟨t, dirty, hmount, hcovered, hsame⟩ := hf.mount
  refine ⟨t, hcovered, ?_⟩
  rw [World.close_of_open hmount h.isOpen] at hclose
  rcases World.closeMount_ok hclose with ⟨hleft, rfl⟩ | ⟨data, x, hencode, hwrite, rfl⟩
  · -- nothing was written, so nothing was put to the members
    have hold : t = m.tree ∧ ∃ data now, v.host.read archive = .ok data ∧
        Tree.decode now data = .ok m.tree := by
      rcases hsame with ⟨rfl, rfl⟩ | ⟨rfl, hwritable⟩
      · refine ⟨rfl, h.upToDate.resolve_right ?_⟩
        rintro ⟨hdirty, hreadOnly⟩
        rcases hleft with hleft | hleft
        · rw [hdirty] at hleft
          cases hleft
        · rw [hreadOnly] at hleft
          cases hleft
      · rcases hleft with hleft | hleft
        · cases hleft
        · rw [hwritable] at hleft
          cases hleft
    obtain ⟨rfl, data, now, hread, hdecode⟩ := hold
    refine ⟨data, ?_, Or.inr ⟨now, hdecode⟩⟩
    rw [World.host_release]
    change u.host.read archive = .ok data
    rw [hf.host]
    exact hread
  · refine ⟨data, ?_, Or.inl ⟨_, hencode⟩⟩
    rw [World.host_release]
    change x.host.read archive = .ok data
    exact h.read_of_write (x := u.setMount id _) hf.host hwrite

/-- What a copy that failed left in an archive: its earlier members, and over them what was copied of
the source till then, one entry after the other. -/
structure Leaves (source : Path) (archive : Pathname) (fs : FileSystem) (f : Failure)
    (w v u w' : World) : Prop where
  /-- Only for a new archive may directories have been made. -/
  host : (Path.host archive).exists? w = true → v.host = w.host
  holds : ∃ before es old t, Stops source fs f v before u ∧
    before.map (source.entry? v) = es.map some ∧ Earlier archive v old ∧ old.Covered es t ∧
    FileHolds archive w' t

theorem leaves_of_error (hw : w.host.WellFormed) {source : Path}
    (hsource : ∀ j ∈ source.mounts, j.number < w.mounts.length) {f : Failure}
    (hopen : openOrCreate archive [] w = (.ok fs, v))
    (hcopy : copyIntoArchive source fs .natural v = (.error f, u))
    (hclose : fs.close u = (.ok (), w')) : Leaves source archive fs f w v u w' := by
  obtain ⟨id, m, rfl, hopened⟩ := opened_openOrCreate hw hopen
  obtain ⟨before, hstops⟩ := stops_of_error hcopy
  have hoff : ∀ j ∈ source.mounts, j.number ≠ id.number := by
    intro j hj
    rw [hopened.number]
    exact Nat.ne_of_lt (hsource j hj)
  have hstart := World.Filling.refl hopened.mount hopened.treeWellFormed
  have hfilled : ∃ es, before.map (source.entry? v) = es.map some ∧ v.Filling id m es u := by
    cases hstops with
    | start h => exact ⟨[], rfl, hstart⟩
    | entry hd hwalk hbefore hfails =>
      obtain ⟨es, hmap, hfilled⟩ := forM_copyBeneath_covers hstart (fun p hp j hj =>
        hoff j (Path.mounts_of_walk hwalk (List.mem_append_left _ hp) hj)) hbefore
      exact ⟨es, hmap, hfilled⟩
  obtain ⟨es, hmap, hfilled⟩ := hfilled
  obtain ⟨t, hcovered, hholds⟩ := hopened.close hfilled hclose
  exact ⟨hopened.host, before, es, m.tree, t, hstops, hmap, hopened.earlier, hcovered, hholds⟩

/-- Whatever fails when a source is packed or an archive unpacked: once it comes to an end, no mount
it made is open, and the same files are registered as before. It succeeds just when opening, copying
and closing do, and the first of them to fail is what is reported. If only the copy into an archive
fails, the archive's file holds its earlier members and, over them, what was copied till then. -/
theorem leaves_settled (source packed target : Path) (archive : Pathname) (time : Instant)
    (w : World) :
    Staged (openOrCreate archive []) (fun fs => copyIntoArchive source fs .natural)
      (zipTree source archive) w ∧
    Staged (openToUnzip packed target)
      (fun fs => Action.noted (unzipNote packed target) (copyFromArchive fs target))
      (unzip packed target) w ∧
    Staged (createReproducible archive [] (some time))
      (fun fs => copyIntoArchive source fs .sorted) (zipReproducibly source archive time) w ∧
    (w.host.WellFormed → (∀ j ∈ source.mounts, j.number < w.mounts.length) →
      ∀ fs v f u w', openOrCreate archive [] w = (.ok fs, v) →
        copyIntoArchive source fs .natural v = (.error f, u) → fs.close u = (.ok (), w') →
        zipTree source archive w = (.error f, w') ∧ Leaves source archive fs f w v u w') := by
  have hzip := staged_zipTree source archive w
  refine ⟨hzip, staged_unzip packed target w, staged_zipReproducibly source archive time w, ?_⟩
  intro hw hsource fs v f u w' hopen hcopy hclose
  refine ⟨?_, leaves_of_error hw hsource hopen hcopy hclose⟩
  cases f with
  | offCalendar t =>
    exact absurd (congrArg Prod.fst hcopy) ((calling_copyIntoArchive source fs .natural v).2 t)
  | error e => exact hzip.uncopied fs v e u (.ok ()) w' hopen hcopy hclose nofun

/-- A host with a directory in which a file and a directory would come to one key. -/
def clashingHost : Host :=
  (((Host.empty .epoch).add .epoch [[115]] (.directory .epoch)).add .epoch [[115], [255]]
    (.file ⟨#[1]⟩ .epoch)).add .epoch [[115], [254]] (.directory .epoch)

/-- Nothing is mounted on it. -/
def clashingWorld : World := .start clashingHost (fun _ => .epoch) "me"

theorem clashingHost_wellFormed : clashingHost.WellFormed := by
  have hempty := Host.wellFormed_empty .epoch
  have hdir : ((Host.empty .epoch).add .epoch [[115]] (.directory .epoch)).WellFormed :=
    hempty.add .epoch (Host.kind?_nil _) (by decide) rfl _
  have hfile : (((Host.empty .epoch).add .epoch [[115]] (.directory .epoch)).add .epoch
      ([[115]] ++ [[255]]) (.file ⟨#[1]⟩ .epoch)).WellFormed :=
    hdir.add .epoch rfl (by decide) rfl _
  have hboth : ((((Host.empty .epoch).add .epoch [[115]] (.directory .epoch)).add .epoch
      [[115], [255]] (.file ⟨#[1]⟩ .epoch)).add .epoch ([[115]] ++ [[254]])
      (.directory .epoch)).WellFormed :=
    hfile.add .epoch rfl (by decide) rfl _
  exact hboth

/-- The world once the archive is open, -/
def clashingOpened : World := (openOrCreate (.ofString "/a.zip") [] clashingWorld).2

/-- and once the directory was copied as far as it can be. -/
def clashingCopied : World :=
  (copyIntoArchive (.host (.ofString "/s")) (.archive ⟨0, 0⟩) .natural clashingOpened).2

theorem openOrCreate_clashingWorld : openOrCreate (.ofString "/a.zip") [] clashingWorld =
    (.ok (.archive ⟨0, 0⟩), clashingOpened) := Action.eq_of_outcome (by decide +kernel)

theorem copyIntoArchive_clashingOpened : ∃ f, copyIntoArchive (.host (.ofString "/s"))
    (.archive ⟨0, 0⟩) .natural clashingOpened = (.error f, clashingCopied) := by
  have hfails : (copyIntoArchive (.host (.ofString "/s")) (.archive ⟨0, 0⟩) .natural
      clashingOpened).1.isOk = false := by decide +kernel
  cases hr : (copyIntoArchive (.host (.ofString "/s")) (.archive ⟨0, 0⟩) .natural
      clashingOpened).1 with
  | ok x =>
    rw [hr] at hfails
    cases hfails
  | error f => exact ⟨f, Action.eq_of_outcome hr⟩

theorem leaves_settled_clashingWorld :
    clashingWorld.host.WellFormed ∧ ∃ f w',
      openOrCreate (.ofString "/a.zip") [] clashingWorld = (.ok (.archive ⟨0, 0⟩), clashingOpened) ∧
      copyIntoArchive (.host (.ofString "/s")) (.archive ⟨0, 0⟩) .natural clashingOpened =
        (.error f, clashingCopied) ∧
      FileSystem.close (.archive ⟨0, 0⟩) clashingCopied = (.ok (), w') ∧
      zipTree (.host (.ofString "/s")) (.ofString "/a.zip") clashingWorld = (.error f, w') ∧
      Leaves (.host (.ofString "/s")) (.ofString "/a.zip") (.archive ⟨0, 0⟩) f clashingWorld
        clashingOpened clashingCopied w' := by
  have hopen := openOrCreate_clashingWorld
  obtain ⟨f, hcopy⟩ := copyIntoArchive_clashingOpened
  have hclose : FileSystem.close (.archive ⟨0, 0⟩) clashingCopied =
      (.ok (), (FileSystem.close (.archive ⟨0, 0⟩) clashingCopied).2) :=
    Action.eq_of_outcome (by decide +kernel)
  obtain ⟨-, -, -, hleaves⟩ := leaves_settled (.host (.ofString "/s")) (.host (.ofString "/a.zip"))
    (.host (.ofString "/t")) (.ofString "/a.zip") .epoch clashingWorld
  obtain ⟨hzip, hleft⟩ := hleaves clashingHost_wellFormed (fun j hj => (List.not_mem_nil hj).elim)
    _ _ f _ _ hopen hcopy hclose
  exact ⟨clashingHost_wellFormed, f, _, hopen, hcopy, hclose, hzip, hleft⟩

end Archives

end ZipMount
