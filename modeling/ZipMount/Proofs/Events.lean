import ZipMount.Mounting.Drop
import ZipMount.Proofs.Calling
import ZipMount.Proofs.Mounting.Lifetime

namespace ZipMount

/-- An operation on a path, a file mounted by its path or by a locator, a file system closed, or a
mount forgotten to which nothing leads any more. -/
inductive Event where
  | call (c : Call)
  | mount (provider : Provider) (backing : Path) (env : Env)
  | mountAt (provider : Provider) (l : Locator) (env : Env)
  | close (fs : FileSystem)
  | drop (number : Nat)

/-- The world after an event, whether or not it went well. -/
def Event.run : Event → World → World
  | .call c, w => (c.run w).2
  | .mount provider backing env, w => (provider.newFileSystem backing env w).2
  | .mountAt provider l env, w => (provider.newFileSystemAt l env w).2
  | .close fs, w => (fs.close w).2
  | .drop number, w => w.dropMount number

def World.later (w : World) (es : List Event) : World := es.foldl (fun w e => e.run w) w

/-- What holds of a world and goes on to hold, whatever happens to mounts. -/
structure World.Lasting (P : World → Prop) : Prop where
  call : ∀ w (c : Call), P w → P (c.run w).2
  mount : ∀ w registry backing env id v,
    w.mount registry backing env none = .ok (id, v) → P w → P v
  locator : ∀ w registry l env id v,
    Provider.mountLocator registry l env w = .ok (id, v) → P w → P v
  close : ∀ w id m, w.mount? id = some m → m.isOpen = true → P w → P (w.closeMount id m).2
  drop : ∀ w id m, w.mount? id = some m → m.isOpen = true → P w →
    P ((w.setMount id m.closed).release m)

namespace World

variable {P : World → Prop} {w v : World} {id : MountId} {m : Mount}

@[simp] theorem later_nil (w : World) : w.later [] = w := rfl

@[simp] theorem later_cons (w : World) (e : Event) (es : List Event) :
    w.later (e :: es) = (e.run w).later es := rfl

theorem dropMount_of_open {number : Nat} (hm : w.mounts[number]? = some m) (ho : m.isOpen = true)
    (registry : Nat) :
    w.dropMount number = (w.setMount ⟨number, registry⟩ m.closed).release m := by
  unfold dropMount
  simp only [hm, ho, if_true]
  rfl

theorem dropMount_of_closed {number : Nat} (hm : w.mounts[number]? = some m)
    (ho : m.isOpen = false) : w.dropMount number = w := by
  unfold dropMount
  simp only [hm, ho, Bool.false_eq_true, if_false]

theorem dropMount_of_none {number : Nat} (hm : w.mounts[number]? = none) :
    w.dropMount number = w := by
  unfold dropMount
  rw [hm]

theorem close_of_not_open {fs : FileSystem} (h : fs.isOpen w = false) : fs.close w = (.ok (), w) := by
  induction fs with
  | host => cases h
  | archive id =>
    unfold FileSystem.close
    cases hm : w.mount? id with
    | none => rfl
    | some m =>
      have ho : m.isOpen = false := (isOpen_of_innermost rfl hm).symm.trans h
      simp only [ho, Bool.false_eq_true, if_false]
  | substituted n d p ih => exact ih h
  | shared n d ih => rfl
  | stamping n d time ih =>
    have hd : d.isOpen w = false := h
    unfold FileSystem.close
    simp only [hd, Bool.false_eq_true, if_false]

theorem newFileSystem_ok {prov : Provider} {p : Path} {env : Env} {fs : FileSystem}
    (h : prov.newFileSystem p env w = (.ok fs, v)) :
    ∃ registry q id, fs = .archive id ∧ w.mount registry q env none = .ok (id, v) := by
  unfold Provider.newFileSystem at h
  split at h
  · next registry q hreach =>
    cases hmount : w.mount registry q env none with
    | error e =>
      rw [hmount] at h
      cases h
    | ok r =>
      rw [hmount] at h
      cases h
      exact ⟨registry, q, r.1, rfl, hmount⟩
  · cases h

theorem newFileSystem_error {prov : Provider} {p : Path} {env : Env} {f : Failure}
    (h : prov.newFileSystem p env w = (.error f, v)) : v = w := by
  unfold Provider.newFileSystem at h
  split at h
  · split at h
    · cases h
    · cases h
      rfl
  · cases h
    rfl

namespace Lasting

variable (hP : Lasting P)

include hP

theorem after (hw : P w) (cs : List Call) : P (w.after cs) := by
  induction cs generalizing w with
  | nil => exact hw
  | cons c cs ih => exact ih (hP.call w c hw)

theorem calling {α : Type} {act : Action α} (h : act.Calling) (hw : P w) : P (act w).2 := by
  obtain ⟨cs, hcs⟩ := (h w).1
  rw [hcs]
  exact hP.after hw cs

theorem closes (hw : P w) (fs : FileSystem) : P (fs.close w).2 := by
  induction fs generalizing w with
  | host => exact hw
  | archive id =>
    unfold FileSystem.close
    cases hm : w.mount? id with
    | none => exact hw
    | some m =>
      by_cases ho : m.isOpen = true
      · simp only [if_pos ho]
        exact hP.close w id m hm ho hw
      · simp only [if_neg ho]
        exact hw
  | substituted n d p ih => exact ih hw
  | shared n d ih => exact hw
  | stamping n d time ih =>
    unfold FileSystem.close
    by_cases hd : d.isOpen w = true
    · simp only [if_pos hd]
      cases time with
      | none => exact ih hw
      | some t =>
        have hstamped := hP.calling (d.calling_stampAll t) hw
        exact FileSystem.andThen_world hstamped (ih hstamped)
    · simp only [if_neg hd]
      exact hw

theorem newFileSystem (hw : P w) (prov : Provider) (p : Path) (env : Env) :
    P (prov.newFileSystem p env w).2 := by
  cases hnew : prov.newFileSystem p env w with
  | mk r v =>
    cases r with
    | ok fs =>
      obtain ⟨registry, q, id, rfl, hmount⟩ := newFileSystem_ok hnew
      exact hP.mount w registry q env id v hmount hw
    | error f =>
      rw [newFileSystem_error hnew]
      exact hw

theorem newFileSystemAt (hw : P w) (prov : Provider) (l : Locator) (env : Env) :
    P (prov.newFileSystemAt l env w).2 := by
  induction prov with
  | host => exact hw
  | archive registry =>
    rw [Provider.newFileSystemAt_archive]
    cases hmount : Provider.mountLocator registry l env w with
    | ok r => exact hP.locator w registry l env r.1 r.2 hmount hw
    | error e => exact hw
  | granting allowed d ih => exact ih
  | denying denied d ih => exact ih

theorem run (hw : P w) (e : Event) : P (e.run w) := by
  cases e with
  | call c => exact hP.call w c hw
  | mount prov backing env => exact hP.newFileSystem hw prov backing env
  | mountAt prov l env => exact hP.newFileSystemAt hw prov l env
  | close fs => exact hP.closes hw fs
  | drop number =>
    change P (w.dropMount number)
    cases hm : w.mounts[number]? with
    | none =>
      rw [dropMount_of_none hm]
      exact hw
    | some m =>
      cases ho : m.isOpen with
      | false =>
        rw [dropMount_of_closed hm ho]
        exact hw
      | true =>
        rw [dropMount_of_open hm ho 0]
        exact hP.drop w ⟨number, 0⟩ m hm ho hw

theorem later (hw : P w) (es : List Event) : P (w.later es) := by
  induction es generalizing w with
  | nil => exact hw
  | cons e es ih => exact ih (hP.run hw e)

end Lasting

end World

/-- What a mount is of, what is registered because of it, and whether it is open. -/
def Mount.standing (m : Mount) : Path × Option (Nat × Pathname) × Bool :=
  (m.backing, m.registered, m.isOpen)

/-- The same mounts, as open as they were, and the same registrations. -/
structure World.SameMounts (w v : World) : Prop where
  mounts : v.mounts.map Mount.standing = w.mounts.map Mount.standing
  registrations : v.registrations = w.registrations

namespace World

variable {w v u : World} {id : MountId} {m : Mount}

namespace SameMounts

theorem refl (w : World) : w.SameMounts w := ⟨rfl, rfl⟩

theorem trans (h : w.SameMounts v) (h' : v.SameMounts u) : w.SameMounts u :=
  ⟨h'.mounts.trans h.mounts, h'.registrations.trans h.registrations⟩

theorem symm (h : w.SameMounts v) : v.SameMounts w := ⟨h.mounts.symm, h.registrations.symm⟩

theorem length (h : w.SameMounts v) : v.mounts.length = w.mounts.length := by
  have hlength := congrArg List.length h.mounts
  rwa [List.length_map, List.length_map] at hlength

theorem exists_mount (h : w.SameMounts v) {i : Nat} (hm : v.mounts[i]? = some m) :
    ∃ m₀, w.mounts[i]? = some m₀ ∧ m₀.backing = m.backing ∧ m₀.registered = m.registered ∧
      m₀.isOpen = m.isOpen := by
  have hmap : (v.mounts.map Mount.standing)[i]? = some m.standing := by
    rw [List.getElem?_map, hm]
    rfl
  rw [h.mounts, List.getElem?_map] at hmap
  obtain ⟨m₀, hm₀, hstanding⟩ := Option.map_eq_some_iff.mp hmap
  obtain ⟨hbacking, hrest⟩ := Prod.mk.inj hstanding
  obtain ⟨hregistered, hopen⟩ := Prod.mk.inj hrest
  exact ⟨m₀, hm₀, hbacking, hregistered, hopen⟩

theorem isRegistered (h : w.SameMounts v) (registry : Nat) (file : Pathname) :
    v.isRegistered registry file = w.isRegistered registry file := by
  unfold World.isRegistered
  rw [h.registrations]

/-- Something else in a mount's place that stands as the mount does. -/
theorem setMount (hm : w.mount? id = some m) {m' : Mount} (hs : m'.standing = m.standing) :
    w.SameMounts (w.setMount id m') := by
  refine ⟨?_, rfl⟩
  change (w.mounts.set id.number m').map Mount.standing = _
  have hstands : (w.mounts.map Mount.standing)[id.number]? = some m.standing := by
    rw [List.getElem?_map, show w.mounts[id.number]? = some m from hm]
    rfl
  obtain ⟨hlt, hget⟩ := List.getElem?_eq_some_iff.mp hstands
  rw [List.map_set, hs, ← hget]
  exact List.set_getElem_self hlt

end SameMounts

theorem Changed.sameMounts (h : w.Changed v) : w.SameMounts v := by
  cases h with
  | host u hu h =>
    rcases hu with rfl | rfl
    · exact ⟨rfl, rfl⟩
    · exact ⟨rfl, rfl⟩
  | tree u hu id m t hm ht =>
    have hget := (writableMount_ok.mp hm).1
    rcases hu with rfl | rfl
    · exact SameMounts.setMount hget rfl
    · have htick : w.SameMounts w.tick := ⟨rfl, rfl⟩
      have hget : w.tick.mount? id = some m := hget
      exact htick.trans (SameMounts.setMount hget rfl)

/-- A call leaves it to others to mount and to close. -/
theorem sameMounts_run (w : World) (c : Call) : w.SameMounts (c.run w).2 := by
  rcases c.run_cases w with hsame | hchanged
  · rw [hsame]
    exact SameMounts.refl w
  · exact hchanged.sameMounts

theorem sameMounts_after (w : World) (cs : List Call) : w.SameMounts (w.after cs) := by
  induction cs generalizing w with
  | nil => exact SameMounts.refl w
  | cons c cs ih => exact (sameMounts_run w c).trans (ih _)

/-- What comes down to calls does so too. -/
theorem sameMounts_calling {α : Type} {act : Action α} (h : act.Calling) (w : World) :
    w.SameMounts (act w).2 := by
  obtain ⟨cs, hcs⟩ := (h w).1
  rw [hcs]
  exact w.sameMounts_after cs

theorem sameMounts_writeBack (hm : w.mount? id = some m) (ho : m.isOpen = false)
    (h : w.writeBack id m = .ok v) : w.SameMounts v := by
  rcases writeBack_ok h with ⟨-, rfl⟩ | ⟨data, x, -, hwrite, rfl⟩
  · exact SameMounts.refl v
  · have hcall := sameMounts_run w ⟨m.backing.provider, m.backing, .write data .replace⟩
    simp only [Call.run_eq, hwrite, Call.changed] at hcall
    exact hcall.trans (SameMounts.setMount (mount?_write hm ho hwrite) rfl)

/-- Closing a mount closes it, and but for an instant off the calendar takes back what was
registered because of it. -/
theorem closeMount_cases (hm : w.mount? id = some m) :
    ∃ v, (w.setMount id m.closed).SameMounts v ∧
      ((∀ t, (w.closeMount id m).1 ≠ .error (.offCalendar t)) ∧
          (w.closeMount id m).2 = v.release m ∨
        (∃ t, (w.closeMount id m).1 = .error (.offCalendar t)) ∧ (w.closeMount id m).2 = v) := by
  have hclosed : (w.setMount id m.closed).mount? id = some m.closed :=
    (mount?_setMount hm _ id).trans (if_pos rfl)
  rw [closeMount_eq]
  cases hback : (w.setMount id m.closed).writeBack id m.closed with
  | ok v => exact ⟨v, sameMounts_writeBack hclosed rfl hback, Or.inl ⟨nofun, rfl⟩⟩
  | error f =>
    refine ⟨_, SameMounts.refl _, ?_⟩
    cases f with
    | error e => exact Or.inl ⟨nofun, rfl⟩
    | offCalendar t => exact Or.inr ⟨⟨t, rfl⟩, rfl⟩

/-- A mount that is made comes after those that were there, and registers nothing yet. -/
theorem mounts_mount {registry : Nat} {backing : Path} {env : Env}
    {registered : Option (Nat × Pathname)}
    (h : w.mount registry backing env registered = .ok (id, v)) :
    ∃ m, v.mounts = w.mounts ++ [m] ∧ m.standing = (backing, registered, true) ∧
      v.registrations = w.registrations ∧ id.number = w.mounts.length := by
  obtain ⟨options, loaded, m, -, -, rfl, hnumber, rfl⟩ := mount_ok h
  exact ⟨_, rfl, rfl, rfl, hnumber⟩

/-- A file that is mounted by locator was not registered before, and is now. -/
theorem mountLocator_ok {registry : Nat} {l : Locator} {env : Env}
    (h : Provider.mountLocator registry l env w = .ok (id, v)) :
    ∃ file u, l.archiveFile = .ok file ∧ w.isRegistered registry file = false ∧
      w.mount registry (.host file) env (some (registry, file)) = .ok (id, u) ∧
      v = u.register registry file := by
  unfold Provider.mountLocator at h
  split at h
  · cases h
  · obtain ⟨file, hfile, h⟩ := bind_eq_ok h
    split at h
    · cases h
    · next hfree =>
      obtain ⟨⟨id', u⟩, hmount, h⟩ := bind_eq_ok h
      cases h
      exact ⟨file, u, hfile, Bool.eq_false_iff.mpr hfree, hmount, rfl⟩

/-- What depends on the mounts only lasts if it stays when they stand as they stood, when one is added
and when one is closed. -/
theorem lasting_of_mounts {P : World → Prop}
    (hmounts : ∀ w v, v.mounts = w.mounts → P w → P v)
    (hsame : ∀ w v, w.SameMounts v → P w → P v)
    (happend : ∀ w v m, v.mounts = w.mounts ++ [m] → P w → P v)
    (hclosed : ∀ w id m, w.mount? id = some m → P w → P (w.setMount id m.closed)) :
    Lasting P where
  call w c hw := hsame _ _ (sameMounts_run w c) hw
  mount w registry backing env id v h hw := by
    obtain ⟨m, hadded, -⟩ := mounts_mount h
    exact happend w v m hadded hw
  locator w registry l env id v h hw := by
    obtain ⟨file, u, -, -, hmount, rfl⟩ := mountLocator_ok h
    obtain ⟨m, hadded, -⟩ := mounts_mount hmount
    exact happend w _ m hadded hw
  close w id m hm ho hw := by
    obtain ⟨v, hv, hworld⟩ := closeMount_cases hm
    have hleft := hsame _ _ hv (hclosed w id m hm hw)
    rcases hworld with ⟨-, hworld⟩ | ⟨-, hworld⟩
    · rw [hworld]
      exact hmounts v _ (mounts_release v m) hleft
    · rw [hworld]
      exact hleft
  drop w id m hm ho hw := hmounts _ _ (mounts_release _ m) (hclosed w id m hm hw)

/-- No mount is ever taken away. -/
theorem lasting_length (n : Nat) : Lasting fun w => n ≤ w.mounts.length := by
  refine lasting_of_mounts ?_ ?_ ?_ ?_
  · intro w v hmounts hw
    rw [hmounts]
    exact hw
  · intro w v hsame hw
    rw [hsame.length]
    exact hw
  · intro w v m hadded hw
    rw [hadded, List.length_append]
    exact Nat.le_add_right_of_le hw
  · intro w id m hm hw
    exact List.length_set.symm ▸ hw

end World

end ZipMount
