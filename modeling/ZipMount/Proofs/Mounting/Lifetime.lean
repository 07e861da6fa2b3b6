import ZipMount.Mounting.Close
import ZipMount.Mounting.Open
import ZipMount.Proofs.Mounting.Calls
import ZipMount.Proofs.Rose.Run

namespace ZipMount

def Mount.closed (m : Mount) : Mount := { m with isOpen := false }

/-- From one world to another an archive file is mounted, and perhaps registered. -/
def World.Makes (w₀ : World) (backing : Path) (id : MountId) (w : World) : Prop :=
  ∃ registry env registered v, w₀.mount registry backing env registered = .ok (id, v) ∧
    (w = v ∨ ∃ file, w = v.register registry file)

/-- A mount that was closed does nothing when it is closed again, and refuses every operation. -/
structure World.Refusing (w : World) (id : MountId) (backing : Path) : Prop where
  close : ∀ cs, FileSystem.close (.archive id) (w.after cs) = (.ok (), w.after cs)
  run : ∀ cs registry j q op, j.number = id.number →
    Call.run ⟨.archive registry, .member j q, op⟩ (w.after cs) =
      (.error (.closed backing.display), w.after cs)

/-- How a mount does after some calls, given whether there was no file to mount: whether it is out
of date with its file, and what closing it does. -/
structure World.Lifetime (w : World) (id : MountId) (m : Mount) (isNew : Prop) (cs : List Call) :
    Prop where
  mount : (w.after cs).mount? id = some m
  isOpen : m.isOpen = true
  error : ∀ (c : Call) (e : Error),
    (c.run (w.after cs)).1 = .error e → (c.run (w.after cs)).2 = w.after cs
  dirty : m.dirty = true ↔ isNew ∨ w.ChangedBy cs id
  readOnly : m.readOnly = true →
    m.dirty = false ∧ ∀ c : Call, c.Changes id → ∃ e, (c.run (w.after cs)).1 = .error e
  writes : m.dirty = true → m.readOnly = false →
    ∀ data, m.tree.encode m.options.method = .ok data →
      FileSystem.close (.archive id) (w.after cs) =
        match m.backing.provider.write ((w.after cs).setMount id m.closed) m.backing data
          .replace with
        | .ok v => (.ok (), (v.setMount id { m.closed with dirty := false }).release m)
        | .error e =>
          (.error (.error (.context s!"Could not write archive {m.backing.display}" e)),
            ((w.after cs).setMount id m.closed).release m)
  leaves : m.dirty = false ∨ m.readOnly = true →
    FileSystem.close (.archive id) (w.after cs) =
      (.ok (), ((w.after cs).setMount id m.closed).release m)
  closed : (FileSystem.close (.archive id) (w.after cs)).2.Refusing id m.backing

namespace World

variable {w w₀ v : World} {id : MountId} {m : Mount} {backing : Path}

theorem isOpen_of_innermost {fs : FileSystem} (hid : fs.innermost = .archive id)
    (hm : w.mount? id = some m) : fs.isOpen w = m.isOpen := by
  unfold FileSystem.isOpen
  simp only [hid, hm, Option.map_some, Option.getD_some]

theorem close_of_open (hm : w.mount? id = some m) (ho : m.isOpen = true) :
    FileSystem.close (.archive id) w = w.closeMount id m := by
  unfold FileSystem.close
  simp only [hm, ho, if_true]

theorem close_of_closed (hm : w.mount? id = some m) (ho : m.isOpen = false) :
    FileSystem.close (.archive id) w = (.ok (), w) := by
  unfold FileSystem.close
  simp only [hm, ho, Bool.false_eq_true, if_false]

/-- Every operation of an archive's provider asks first whether the mount is open. -/
theorem run_of_not_open {j : MountId} {e : Error} (h : w.openMount j = .error e) (registry : Nat)
    (q : Pathname) (op : Operation) :
    Call.run ⟨.archive registry, .member j q, op⟩ w = (.error e, w) := by
  have hread : ∀ {α : Type} (f : Mount → Except Error α), w.openMount j >>= f = .error e := by
    intro α f
    rw [h]
    rfl
  have hchange : ∀ (v : World) (f : Tree → Except Refusal Tree), v.openMount j = .error e →
      v.changeTree j q f = .error e := by
    intro v f hv
    unfold changeTree writableMount
    rw [hv]
    rfl
  cases op with
  | check modes =>
    have hcheck : Provider.check (.archive registry) w (.member j q) modes = .error e :=
      hread fun m => m.access q modes
    simp only [Call.run_eq, hcheck, Except.map]
  | attributes =>
    have hattributes : Provider.attributes (.archive registry) w (.member j q) = .error e :=
      hread fun m => do pure (← Mount.answer q (m.tree.find (.ofPathname q))).attributes
    simp only [Call.run_eq, hattributes, Except.map]
  | read =>
    have hcontents : Provider.read (.archive registry) w (.member j q) = .error e :=
      hread fun m => Mount.answer q (m.tree.read (.ofPathname q))
    simp only [Call.run_eq, hcontents, Except.map]
  | list =>
    have hlist : Provider.list (.archive registry) w (.member j q) = .error e :=
      hread fun m => do pure ((← Mount.answer q (m.tree.list (.ofPathname q))).map (Path.ofKey j))
    simp only [Call.run_eq, hlist, Except.map]
  | walk order =>
    have hwalk : Provider.walk (.archive registry) w order (.member j q) = .error e :=
      hread fun m => do
        pure ((← Mount.answer q (m.tree.walk order (.ofPathname q))).map (Path.ofKey j))
    simp only [Call.run_eq, hwalk, Except.map]
  | setTimes change =>
    have hset : Provider.setTimes (.archive registry) w (.member j q) change = .error e :=
      hchange w (fun t => t.retime (.ofPathname q) change) h
    simp only [Call.run_eq, hset, Call.changed]
  | makeDirectory =>
    have hmake : Provider.makeDirectory (.archive registry) w (.member j q) = .error e :=
      hchange w.tick (fun t => t.makeDirectory w.now (.ofPathname q)) h
    simp only [Call.run_eq, hmake, Call.changed]
  | write data mode =>
    have hwrite : Provider.write (.archive registry) w (.member j q) data mode = .error e :=
      hchange w.tick (fun t => t.writeFile w.now (.ofPathname q) data mode) h
    simp only [Call.run_eq, hwrite, Call.changed]
  | delete =>
    have hdelete : Provider.delete (.archive registry) w (.member j q) = .error e :=
      hchange w (fun t => t.remove (.ofPathname q)) h
    simp only [Call.run_eq, hdelete, Call.changed]

theorem refusing_of_closed (hm : w.mount? id = some m) (ho : m.isOpen = false) :
    w.Refusing id m.backing := by
  have hafter := mount?_after_of_not_writable hm (Or.inl ho)
  refine ⟨fun cs => close_of_closed (hafter cs) ho, ?_⟩
  intro cs registry j q op hj
  have hmj : (w.after cs).mount? j = some m := (mount?_of_number hj).trans (hafter cs)
  apply run_of_not_open
  unfold openMount
  simp only [hmj, ho, Bool.false_eq_true, if_false]

theorem closeMount_eq (w : World) (id : MountId) (m : Mount) :
    w.closeMount id m =
      match (w.setMount id m.closed).writeBack id m.closed with
      | .ok v => (.ok (), v.release m)
      | .error (.error e) => (.error (.error e), (w.setMount id m.closed).release m)
      | .error (.offCalendar t) => (.error (.offCalendar t), w.setMount id m.closed) := by
  simp only [closeMount, writingBack_eq, Mount.closed]
  generalize (w.setMount id { m with isOpen := false }).writeBack id { m with isOpen := false } = r
  rcases r with (_ | _) | _ <;> rfl

theorem mounts_release (w : World) (m : Mount) : (w.release m).mounts = w.mounts := by
  unfold release
  cases m.registered <;> rfl

theorem host_release (w : World) (m : Mount) : (w.release m).host = w.host := by
  unfold release
  cases m.registered <;> rfl

theorem mount?_release (w : World) (m : Mount) (id : MountId) :
    (w.release m).mount? id = w.mount? id := by
  rw [mount?, mounts_release]
  rfl

/-- A mount that is up to date, or cannot be written, is closed and nothing else. -/
theorem closeMount_leaves (h : m.dirty = false ∨ m.readOnly = true) :
    w.closeMount id m = (.ok (), (w.setMount id m.closed).release m) := by
  have hguard : (m.closed.dirty && !m.closed.readOnly) = false := by
    change (m.dirty && !m.readOnly) = false
    rcases h with hd | hr
    · rw [hd, Bool.false_and]
    · rw [hr, Bool.not_true, Bool.and_false]
  have hback : (w.setMount id m.closed).writeBack id m.closed = .ok (w.setMount id m.closed) := by
    unfold writeBack
    rw [hguard]
    rfl
  rw [closeMount_eq, hback]

/-- A mount that is out of date writes its members to its file, once. -/
theorem closeMount_writes (hd : m.dirty = true) (hr : m.readOnly = false) {data : ByteArray}
    (he : m.tree.encode m.options.method = .ok data) :
    w.closeMount id m =
      match m.backing.provider.write (w.setMount id m.closed) m.backing data .replace with
      | .ok v => (.ok (), (v.setMount id { m.closed with dirty := false }).release m)
      | .error e =>
        (.error (.error (.context s!"Could not write archive {m.backing.display}" e)),
          (w.setMount id m.closed).release m) := by
  have hguard : (m.closed.dirty && !m.closed.readOnly) = true := by
    change (m.dirty && !m.readOnly) = true
    rw [hd, hr]
    rfl
  have hback : (w.setMount id m.closed).writeBack id m.closed =
      (m.backing.provider.write (w.setMount id m.closed) m.backing data .replace).mapError
          (fun e => .error (.context s!"Could not write archive {m.backing.display}" e)) >>=
        fun v => pure (v.setMount id { m.closed with dirty := false }) := by
    unfold writeBack
    rw [if_pos hguard]
    change (m.tree.encode m.options.method).mapError _ >>= _ = _
    rw [he]
    rfl
  rw [closeMount_eq, hback]
  cases m.backing.provider.write (w.setMount id m.closed) m.backing data .replace <;> rfl

/-- Writing back that succeeds had nothing to do, or packed the members and wrote them. -/
theorem writeBack_ok (h : w.writeBack id m = .ok v) :
    ((m.dirty = false ∨ m.readOnly = true) ∧ v = w) ∨
      ∃ data x, m.tree.encode m.options.method = .ok data ∧
        m.backing.provider.write w m.backing data .replace = .ok x ∧
        v = x.setMount id { m with dirty := false } := by
  unfold writeBack at h
  split at h
  · obtain ⟨data, hdata, h⟩ := bind_eq_ok h
    obtain ⟨x, hwrite, h⟩ := bind_eq_ok h
    cases h
    exact Or.inr ⟨data, x, mapError_eq_ok hdata, mapError_eq_ok hwrite, rfl⟩
  · next hguard =>
    cases h
    rw [Bool.not_eq_true, Bool.and_eq_false_iff, Bool.not_eq_false'] at hguard
    exact Or.inl ⟨hguard, rfl⟩

/-- Closing that succeeds closed the mount and nothing else, or packed the members and wrote them. -/
theorem closeMount_ok (h : w.closeMount id m = (.ok (), v)) :
    ((m.dirty = false ∨ m.readOnly = true) ∧ v = (w.setMount id m.closed).release m) ∨
      ∃ data x, m.tree.encode m.options.method = .ok data ∧
        m.backing.provider.write (w.setMount id m.closed) m.backing data .replace = .ok x ∧
        v = (x.setMount id { m with isOpen := false, dirty := false }).release m := by
  rw [closeMount_eq] at h
  cases hback : (w.setMount id m.closed).writeBack id m.closed with
  | error f =>
    rw [hback] at h
    cases f with
    | error e => cases h
    | offCalendar t => cases h
  | ok u =>
    rw [hback] at h
    cases h
    rcases writeBack_ok hback with ⟨hleft, rfl⟩ | ⟨data, x, hdata, hwrite, rfl⟩
    · exact Or.inl ⟨hleft, rfl⟩
    · exact Or.inr ⟨data, x, hdata, hwrite, rfl⟩

/-- What is written changes no mount that is closed. -/
theorem mount?_write (hm : w.mount? id = some m) (ho : m.isOpen = false) {prov : Provider}
    {p : Path} {data : ByteArray} {mode : WriteMode} (h : prov.write w p data mode = .ok v) :
    v.mount? id = some m := by
  have hrun : (Call.run ⟨prov, p, .write data mode⟩ w).2 = v := by
    simp only [Call.run_eq, h, Call.changed]
  have hsame := mount?_after_of_not_writable hm (Or.inl ho) [⟨prov, p, .write data mode⟩]
  rw [after_cons, hrun, after_nil] at hsame
  exact hsame

/-- The mount takes no note of what is written back but that it was. -/
theorem mount?_writeBack (hm : w.mount? id = some m) (ho : m.isOpen = false)
    (h : w.writeBack id m = .ok v) :
    ∃ dirty, v.mount? id = some { m with dirty := dirty } := by
  rcases writeBack_ok h with ⟨-, rfl⟩ | ⟨data, x, -, hwrite, rfl⟩
  · exact ⟨m.dirty, hm⟩
  · exact ⟨false, (mount?_setMount (mount?_write hm ho hwrite) _ id).trans (if_pos rfl)⟩

/-- Whatever comes of closing a mount, it is closed. -/
theorem mount?_closeMount (hm : w.mount? id = some m) :
    ∃ m', (w.closeMount id m).2.mount? id = some m' ∧ m'.isOpen = false ∧
      m'.backing = m.backing := by
  have hclosed : (w.setMount id m.closed).mount? id = some m.closed :=
    (mount?_setMount hm _ id).trans (if_pos rfl)
  rw [closeMount_eq]
  cases hback : (w.setMount id m.closed).writeBack id m.closed with
  | ok v =>
    obtain ⟨dirty, hv⟩ := mount?_writeBack hclosed rfl hback
    refine ⟨{ m.closed with dirty := dirty }, ?_, rfl, rfl⟩
    rw [mount?_release]
    exact hv
  | error f =>
    refine ⟨m.closed, ?_, rfl, rfl⟩
    cases f with
    | error e =>
      rw [mount?_release]
      exact hclosed
    | offCalendar t => exact hclosed

theorem not_isOpen_closeMount {fs : FileSystem} (hid : fs.innermost = .archive id)
    (hm : w.mount? id = some m) : fs.isOpen (w.closeMount id m).2 = false := by
  obtain ⟨m', hm', hclosed, -⟩ := mount?_closeMount hm
  exact (isOpen_of_innermost hid hm').trans hclosed

/-- A mount of what was loaded comes after those that were there. -/
theorem mount_of_load {registry : Nat} {env : Env} {options : Options} {loaded : Loaded}
    (henv : Options.ofEnv env = .ok options) (hload : w.load backing options = .ok loaded)
    (registered : Option (Nat × Pathname)) :
    w.mount registry backing env registered =
      .ok (w.nextMount registry, { w.tick with mounts := w.mounts ++ [⟨backing, registered,
        loaded.readOnly, options, true, loaded.tree, loaded.isNew⟩] }) := by
  unfold mount
  rw [henv]
  change (w.load backing options >>= _) = _
  rw [hload]
  rfl

/-- A mount starts with the archive at its path; only where nothing is there it is out of date with
its file, and then it can be written. -/
theorem mount?_mount {registry : Nat} {env : Env} {registered : Option (Nat × Pathname)}
    (h : w₀.mount registry backing env registered = .ok (id, v)) :
    ∃ m, v.mount? id = some m ∧ m.backing = backing ∧ m.isOpen = true ∧
      (m.dirty = true ↔ ∃ e, backing.provider.check w₀ backing [] = .error e) ∧
      (m.readOnly = true → m.dirty = false) := by
  obtain ⟨options, loaded, m, -, hload, hm, hnumber, rfl⟩ := mount_ok h
  refine ⟨m, ?_, congrArg Mount.backing hm, congrArg Mount.isOpen hm, ?_⟩
  · change (w₀.mounts ++ [m])[id.number]? = some m
    rw [hnumber, List.getElem?_concat_length]
  rw [hm]
  change (loaded.isNew = true ↔ _) ∧ (loaded.readOnly = true → loaded.isNew = false)
  rcases load_ok hload with ⟨hthere, data, -, -, hnew⟩ | ⟨-, rfl, e, hcheck, -⟩
  · rw [hthere, hnew]
    exact ⟨⟨nofun, nofun⟩, fun _ => rfl⟩
  · exact ⟨⟨fun _ => ⟨e, hcheck⟩, fun _ => rfl⟩, nofun⟩

theorem Makes.mount? (h : w₀.Makes backing id w) :
    ∃ m, w.mount? id = some m ∧ m.backing = backing ∧ m.isOpen = true ∧
      (m.dirty = true ↔ ∃ e, backing.provider.check w₀ backing [] = .error e) ∧
      (m.readOnly = true → m.dirty = false) := by
  obtain ⟨registry, env, registered, v, hmount, hw⟩ := h
  have hmounts : w.mounts = v.mounts := by
    rcases hw with rfl | ⟨file, rfl⟩
    · rfl
    · rfl
  unfold World.mount?
  rw [hmounts]
  exact mount?_mount hmount

theorem makes_newFileSystem {prov : Provider} {p : Path} {env : Env}
    (h : prov.newFileSystem p env w₀ = (.ok (.archive id), w)) : w₀.Makes (prov.reach p).2 id w := by
  unfold Provider.newFileSystem at h
  split at h
  · rename_i registry q hreach
    rw [hreach]
    cases hmount : w₀.mount registry q env none with
    | error e => rw [hmount] at h; cases h
    | ok r =>
      rw [hmount] at h
      cases h
      exact ⟨registry, env, none, _, hmount, Or.inl rfl⟩
  · cases h

theorem makes_mountLocator {registry : Nat} {l : Locator} {env : Env}
    (h : Provider.mountLocator registry l env w₀ = .ok (id, w)) :
    ∃ file, l.archiveFile = .ok file ∧ w₀.Makes (.host file) id w := by
  unfold Provider.mountLocator at h
  split at h
  · cases h
  · obtain ⟨file, hfile, h⟩ := bind_eq_ok h
    split at h
    · cases h
    · obtain ⟨⟨id', v⟩, hmount, h⟩ := bind_eq_ok h
      cases h
      exact ⟨file, hfile, registry, env, _, v, hmount, Or.inr ⟨file, rfl⟩⟩

/-- However a mount is made and whatever it is asked to do: an operation that fails changes nothing;
the mount is out of date with its file just when there was no file or a change was not refused; when
it is closed its file is written, once, if it is out of date and not read only, and nothing is
written otherwise; closing it again does nothing, and it refuses everything then. One that is read
only refuses every change from the start. -/
theorem Makes.lifetime (h : w₀.Makes backing id w) (cs : List Call) :
    ∃ m, m.backing = backing ∧
      w.Lifetime id m (∃ e, backing.provider.check w₀ backing [] = .error e) cs := by
  obtain ⟨m₀, hm₀, rfl, hopen, hnew, hreadOnly⟩ := h.mount?
  obtain ⟨t, dirty, hm, hdirty⟩ := mount?_after_calls hm₀ cs
  have hclose := close_of_open hm hopen
  refine ⟨{ m₀ with tree := t, dirty := dirty }, rfl, hm, hopen, fun c e => c.run_error, ?_, ?_, ?_, ?_, ?_⟩
  · rw [← hnew]
    exact hdirty
  · intro hr
    have hsame := mount?_after_of_not_writable hm₀ (Or.inr hr) cs
    have hold : m₀ = { m₀ with tree := t, dirty := dirty } := Option.some.inj (hsame.symm.trans hm)
    refine ⟨?_, ?_⟩
    · exact (congrArg Mount.dirty hold).symm.trans (hreadOnly hr)
    · intro c hc
      rcases c.becomes_run hsame with ⟨-, -, hwritable, -⟩ | ⟨hnot, -⟩
      · rw [hr] at hwritable
        cases hwritable
      · exact Call.error_of_not_succeeds hsame hc hnot
  · intro hd hr data he
    rw [hclose]
    exact closeMount_writes hd hr he
  · intro hleaves
    rw [hclose]
    exact closeMount_leaves hleaves
  · rw [hclose]
    obtain ⟨m', hm', hclosed, hbacking⟩ := mount?_closeMount hm
    have hrefusing := refusing_of_closed hm' hclosed
    rw [hbacking] at hrefusing
    exact hrefusing

/-- Calls of which the second changes a member and the others are refused. -/
def mixedCalls : List Call :=
  let path := fun text => (FileSystem.archive ⟨0, 0⟩).path text
  [⟨.archive 0, path "d/f", .write (contents [1]) .createNew⟩,
    ⟨.archive 0, path "d", .makeDirectory⟩, ⟨.archive 0, path "e", .delete⟩,
    ⟨.archive 0, path "d", .makeDirectory⟩]

theorem lifetime_created :
    bare.Makes (.host (.ofString "/a.zip")) ⟨0, 0⟩ created ∧
      ∃ m, m.backing = .host (.ofString "/a.zip") ∧ created.Lifetime ⟨0, 0⟩ m
        (∃ e, Provider.host.check bare (.host (.ofString "/a.zip")) [] = .error e) mixedCalls :=
  have hmakes : bare.Makes (.host (.ofString "/a.zip")) ⟨0, 0⟩ created :=
    ⟨0, Options.createEnv "", none, created, rfl, Or.inl rfl⟩
  ⟨hmakes, hmakes.lifetime mixedCalls⟩

end World

end ZipMount
