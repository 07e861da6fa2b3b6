import ZipMount.Mounting.Close
import ZipMount.Mounting.Open
import ZipMount.Proofs.Except

namespace ZipMount

namespace World

/-- The world after a change to the members of a mount that is open for writing. -/
def changeTree (w : World) (id : MountId) (p : Pathname) (f : Tree → Except Refusal Tree) :
    Except Error World := do
  let m ← w.writableMount id
  pure (w.setTree id m (← Mount.answer p (f m.tree)))

def changeHost (w : World) (p : Pathname) (f : Host → Except IoFault Host) :
    Except Error World := do
  pure { w with host := ← Host.answer p (f w.host) }

end World

namespace Provider

/-- The world that `Work.setTimes` leaves, if it succeeds (`Work.setTimes_eq`). -/
def setTimes (prov : Provider) (w : World) (p : Path) (change : TimeChange) :
    Except Error World := do
  match ← prov.target p with
  | .host q => w.changeHost q fun h => h.setTimes q change
  | .member id q => w.changeTree id q fun t => t.retime (.ofPathname q) change

/-- The world that `Work.makeDirectory` leaves, if it succeeds (`Work.makeDirectory_eq`). -/
def makeDirectory (prov : Provider) (w : World) (p : Path) : Except Error World := do
  match ← prov.target p with
  | .host q => w.tick.changeHost q fun h => h.makeDirectory w.now q
  | .member id q => w.tick.changeTree id q fun t => t.makeDirectory w.now (.ofPathname q)

/-- The world that `Work.write` leaves, if it succeeds (`Work.write_eq`). -/
def write (prov : Provider) (w : World) (p : Path) (data : ByteArray) (mode : WriteMode) :
    Except Error World := do
  match ← prov.target p with
  | .host q => w.tick.changeHost q fun h => h.write w.now q data mode
  | .member id q => w.tick.changeTree id q fun t => t.writeFile w.now (.ofPathname q) data mode

/-- The world that `Work.delete` leaves, if it succeeds (`Work.delete_eq`). -/
def delete (prov : Provider) (w : World) (p : Path) : Except Error World := do
  match ← prov.target p with
  | .host q => w.tick.changeHost q fun h => h.remove w.now q
  | .member id q => w.changeTree id q fun t => t.remove (.ofPathname q)

end Provider

namespace Work

variable {w : World} {prov : Provider} {p : Path}

/-- The world that is left, or an error and the world as it was. -/
def leaving (w : World) : Except Error World → Except Error Unit × World
  | .ok v => (.ok (), v)
  | .error e => (.error e, w)

theorem changeHost_eq (asked : World → World) (q : Pathname)
    (f : Instant → Host → Except IoFault Host) (hasked : (asked w).host = w.host) :
    changeHost asked q f w = leaving w ((asked w).changeHost q (f w.now)) := by
  rw [changeHost, runBind_eq, ask, World.changeHost, hasked]
  cases Host.answer q (f w.now w.host) <;> rfl

theorem changeTree_eq (asked : World → World) (i : MountId) (q : Pathname)
    (f : Instant → Tree → Except Refusal Tree)
    (hasked : (asked w).writableMount i = w.writableMount i) :
    changeTree asked i q f w = leaving w ((asked w).changeTree i q (f w.now)) := by
  rw [changeTree, runBind_eq, ask, World.changeTree, hasked]
  cases w.writableMount i with
  | error e => rfl
  | ok m =>
    change (ask _ >>= _ : Work Unit) w = leaving w (Mount.answer q (f w.now m.tree) >>= _)
    rw [runBind_eq, ask]
    cases Mount.answer q (f w.now m.tree) <;> rfl

/-- A change of what a path leads to fails before it changes anything. -/
theorem target_eq {x : Target → Work Unit} {y : Target → Except Error World}
    (h : ∀ t, x t w = leaving w (y t)) :
    (ask (fun _ => prov.target p) >>= x) w = leaving w (prov.target p >>= y) := by
  rw [runBind_eq, ask]
  cases prov.target p with
  | error e => rfl
  | ok t => exact h t

theorem setTimes_eq (change : TimeChange) :
    setTimes prov p change w = leaving w (prov.setTimes w p change) := by
  refine target_eq fun t => ?_
  cases t with
  | host q => exact changeHost_eq _ _ _ rfl
  | member i q => exact changeTree_eq _ _ _ _ rfl

theorem makeDirectory_eq : makeDirectory prov p w = leaving w (prov.makeDirectory w p) := by
  refine target_eq fun t => ?_
  cases t with
  | host q => exact changeHost_eq _ _ _ rfl
  | member i q => exact changeTree_eq _ _ _ _ rfl

theorem write_eq (data : ByteArray) (mode : WriteMode) :
    write prov p data mode w = leaving w (prov.write w p data mode) := by
  refine target_eq fun t => ?_
  cases t with
  | host q => exact changeHost_eq _ _ _ rfl
  | member i q => exact changeTree_eq _ _ _ _ rfl

theorem delete_eq : delete prov p w = leaving w (prov.delete w p) := by
  refine target_eq fun t => ?_
  cases t with
  | host q => exact changeHost_eq _ _ _ rfl
  | member i q => exact changeTree_eq _ _ _ _ rfl

end Work

namespace Action

/-- Changes the world, or fails and leaves it as it is. -/
def change (f : World → Except Error World) : Action Unit := fun w =>
  match f w with
  | .ok w => (.ok (), w)
  | .error e => (.error (.error e), w)

theorem ofWork_eq {x : Work Unit} {f : World → Except Error World}
    (h : ∀ w, x w = Work.leaving w (f w)) : ofWork x = change f := by
  funext w
  rw [ofWork, change, h]
  cases f w <;> rfl

end Action

theorem Path.makeDirectory_eq (p : Path) :
    p.makeDirectory = Action.change fun w => p.provider.makeDirectory w p :=
  Action.ofWork_eq fun _ => Work.makeDirectory_eq

theorem Path.write_eq (p : Path) (data : ByteArray) (mode : WriteMode) :
    p.write data mode = Action.change fun w => p.provider.write w p data mode :=
  Action.ofWork_eq fun _ => Work.write_eq data mode

theorem FileSystem.stamp_eq_noted (time : Instant) (p : Path) :
    stamp time p = Action.noted s!"Could not set time attributes on {p.display}"
      (Action.change fun w => p.provider.setTimes w p (.all time)) :=
  congrArg _ (Action.ofWork_eq fun _ => Work.setTimes_eq _)

/-- The world after a mount's members are written to its file, if the file is out of date. -/
def World.writeBack (w : World) (id : MountId) (m : Mount) : Except Failure World :=
  if m.dirty && !m.readOnly then do
    let data ← (m.tree.encode m.options.method).mapError
      (Failure.noted s!"Could not encode archive {m.backing.display}")
    let w ← (m.backing.provider.write w m.backing data .replace).mapError fun e =>
      .error (.context s!"Could not write archive {m.backing.display}" e)
    pure (w.setMount id { m with dirty := false })
  else .ok w

theorem World.writingBack_eq (w : World) (id : MountId) (m : Mount) :
    writingBack id m w = match w.writeBack id m with
      | .ok v => (.ok (), v)
      | .error e => (.error e, w) := by
  unfold writingBack writeBack
  split
  · change (Action.ofExcept _ >>= _ : Action Unit) w = _
    rw [runBind_eq, Action.ofExcept]
    generalize (m.tree.encode m.options.method).mapError
      (Failure.noted s!"Could not encode archive {m.backing.display}") = encoded
    cases encoded with
    | error e => rfl
    | ok data =>
      change (Action.noted _ _ >>= _ : Action Unit) w = _
      rw [runBind_eq, Action.noted, Path.write_eq, Action.change]
      simp only [bind, Except.bind]
      cases m.backing.provider.write w m.backing data .replace <;> rfl
  · rfl

namespace World

def withRegistrations (w : World) (rs : List (Nat × Pathname)) : World :=
  { w with registrations := rs }

theorem check_withRegistrations (w : World) (rs : List (Nat × Pathname)) (prov : Provider)
    (p : Path) (modes : List AccessMode) :
    prov.check (w.withRegistrations rs) p modes = prov.check w p modes := by
  induction prov generalizing p modes with
  | host => rfl
  | archive registry => rfl
  | granting allowed d ih => simp only [Provider.check, ih]
  | denying denied d ih => simp only [Provider.check, ih]

theorem load_withRegistrations (w : World) (rs : List (Nat × Pathname)) (backing : Path)
    (options : Options) : (w.withRegistrations rs).load backing options = w.load backing options := by
  unfold load loadFile probeWriting
  simp only [check_withRegistrations]
  rfl

theorem mount_withRegistrations (w : World) (rs : List (Nat × Pathname)) (registry : Nat)
    (backing : Path) (env : Env) (registered : Option (Nat × Pathname)) :
    (w.withRegistrations rs).mount registry backing env registered =
      (w.mount registry backing env registered).map fun r => (r.1, r.2.withRegistrations rs) := by
  unfold mount
  simp only [load_withRegistrations]
  cases Options.ofEnv env with
  | error e => rfl
  | ok options =>
    change (w.load backing options >>= _) = Except.map _ (w.load backing options >>= _)
    cases w.load backing options <;> rfl

theorem mount_register (w : World) (registry : Nat) (file : Pathname) (backing : Path) (env : Env)
    (registered : Option (Nat × Pathname)) :
    (w.register registry file).mount registry backing env registered =
      (w.mount registry backing env registered).map fun r => (r.1, r.2.register registry file) := by
  refine (w.mount_withRegistrations _ registry backing env registered).trans ?_
  cases hw : w.mount registry backing env registered with
  | error e => rfl
  | ok r =>
    obtain ⟨options, -, h⟩ := bind_eq_ok hw
    obtain ⟨loaded, -, h⟩ := bind_eq_ok h
    cases h
    rfl

theorem unregister_register {w : World} {registry : Nat} {file : Pathname}
    (h : w.isRegistered registry file = false) :
    (w.register registry file).unregister registry file = w := by
  have hself : (registry == registry && file.same file) = true := by
    rw [beq_self_eq_true, Bool.true_and]
    exact beq_self_eq_true _
  have hother : ∀ r ∈ w.registrations, (!(r.1 == registry && r.2.same file)) = true := by
    intro r hr
    rw [Bool.not_eq_true']
    exact Bool.eq_false_iff.mpr (List.any_eq_false.mp h r hr)
  unfold unregister register
  rw [List.filter_cons_of_neg (by rw [hself]; exact Bool.false_ne_true),
    List.filter_eq_self.mpr hother]

end World

/-- The mount that `Work.mountLocator` makes, and the world it leaves, if it succeeds
(`Work.mountLocator_eq`). -/
def Provider.mountLocator (registry : Nat) (l : Locator) (env : Env) (w : World) :
    Except Error (MountId × World) := do
  if l.scheme ≠ Locator.jar then throw (.invalidLocator l.text)
  let file ← l.archiveFile
  if w.isRegistered registry file then throw (.alreadyMounted l.text)
  let (id, w) ← w.mount registry (.host file) env (some (registry, file))
  pure (id, w.register registry file)

/-- What a mount comes to that may fail, where a failure leaves the world as it was. -/
def Work.mounting (w : World) : Except Error (MountId × World) → Except Error MountId × World
  | .ok (id, v) => (.ok id, v)
  | .error e => (.error e, w)

/-- Registering the file first leaves no trace where it cannot be mounted. -/
theorem Work.mountLocator_eq (registry : Nat) (l : Locator) (env : Env) (w : World) :
    mountLocator registry l env w = mounting w (Provider.mountLocator registry l env w) := by
  unfold mountLocator Provider.mountLocator
  split
  · rfl
  · change (ask (fun _ => l.archiveFile) >>= _ : Work MountId) w = _
    rw [runBind_eq, ask]
    cases l.archiveFile with
    | error e => rfl
    | ok file =>
      change (if w.isRegistered registry file then (throw _ : Work MountId) else _) w =
        mounting w (if w.isRegistered registry file then throw _ else _)
      cases hfree : w.isRegistered registry file with
      | true => rfl
      | false =>
        rw [if_neg Bool.false_ne_true, if_neg Bool.false_ne_true]
        change (match (w.register registry file).mount registry (.host file) env
            (some (registry, file)) with
          | .ok (id, v) => (do set v; pure id : Work MountId)
          | .error e => do
            modify fun v : World => v.unregister registry file
            throw e) (w.register registry file) =
          mounting w (w.mount registry (.host file) env (some (registry, file)) >>= _)
        rw [World.mount_register]
        cases w.mount registry (.host file) env (some (registry, file)) with
        | error e =>
          change (Except.error e, (w.register registry file).unregister registry file) = _
          rw [World.unregister_register hfree]
          rfl
        | ok r => rfl

theorem Provider.newFileSystemAt_archive (registry : Nat) (l : Locator) (env : Env) (w : World) :
    (archive registry).newFileSystemAt l env w = match mountLocator registry l env w with
      | .ok (id, v) => (.ok (.archive id), v)
      | .error e => (.error (.error e), w) := by
  change ((Action.ofWork _ >>= _ : Action FileSystem)) w = _
  rw [runBind_eq, Action.ofWork, Work.mountLocator_eq]
  cases mountLocator registry l env w <;> rfl

end ZipMount
