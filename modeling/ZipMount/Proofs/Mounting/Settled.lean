import ZipMount.Proofs.Mounting.Release

namespace ZipMount

/-- Whether a file system is shared, so that closing it leaves the mount beneath open. -/
def FileSystem.isShared : FileSystem → Bool
  | .host => false
  | .archive _ => false
  | .substituted _ d _ => d.isShared
  | .shared _ _ => true
  | .stamping _ d _ => d.isShared

namespace World

/-- What is left of the mounts that were made since is closed; the mounts there were stand as they
stood, and the same files are registered. -/
structure Settled (w v : World) : Prop where
  kept : ∀ (i : Nat) m, w.mounts[i]? = some m →
    ∃ m', v.mounts[i]? = some m' ∧ m'.standing = m.standing
  closed : ∀ (i : Nat) m, w.mounts.length ≤ i → v.mounts[i]? = some m → m.isOpen = false
  registrations : v.registrations = w.registrations

/-- One more mount, which is open. If a file is registered because of it, none was before. -/
structure Gains (w : World) (id : MountId) (v : World) : Prop where
  number : id.number = w.mounts.length
  mounts : ∃ backing registered,
    v.mounts.map Mount.standing = w.mounts.map Mount.standing ++ [(backing, registered, true)] ∧
      v.registrations = registered.toList ++ w.registrations ∧
      ∀ r ∈ registered, w.isRegistered r.1 r.2 = false

variable {w v u : World} {id : MountId} {m : Mount}

theorem SameMounts.settled (h : w.SameMounts v) : w.Settled v where
  kept := by
    intro i m hm
    obtain ⟨m', hm', hbacking, hregistered, hopen⟩ := h.symm.exists_mount hm
    refine ⟨m', hm', ?_⟩
    unfold Mount.standing
    rw [hbacking, hregistered, hopen]
  closed := by
    intro i m hi hm
    have hlt := (List.getElem?_eq_some_iff.mp hm).1
    rw [h.length] at hlt
    omega
  registrations := h.registrations

namespace Gains

theorem of_sameMounts (h : w.SameMounts v) (hg : v.Gains id u) : w.Gains id u := by
  obtain ⟨backing, registered, hmounts, hregistrations, hfree⟩ := hg.mounts
  refine ⟨hg.number.trans h.length, backing, registered, ?_, ?_, ?_⟩
  · rw [hmounts, h.mounts]
  · rw [hregistrations, h.registrations]
  · intro r hr
    rw [← h.isRegistered]
    exact hfree r hr

theorem trans_sameMounts (hg : w.Gains id v) (h : v.SameMounts u) : w.Gains id u := by
  obtain ⟨backing, registered, hmounts, hregistrations, hfree⟩ := hg.mounts
  exact ⟨hg.number, backing, registered, h.mounts.trans hmounts,
    h.registrations.trans hregistrations, hfree⟩

theorem mount {registry : Nat} {backing : Path} {env : Env}
    (h : w.mount registry backing env none = .ok (id, v)) : w.Gains id v := by
  obtain ⟨m, hmounts, hstanding, hregistrations, hnumber⟩ := mounts_mount h
  refine ⟨hnumber, backing, none, ?_, hregistrations, nofun⟩
  rw [hmounts, List.map_append, List.map_singleton, hstanding]

theorem mountLocator {registry : Nat} {l : Locator} {env : Env}
    (h : Provider.mountLocator registry l env w = .ok (id, v)) : w.Gains id v := by
  obtain ⟨file, u, -, hfree, hmount, rfl⟩ := mountLocator_ok h
  obtain ⟨m, hmounts, hstanding, hregistrations, hnumber⟩ := mounts_mount hmount
  refine ⟨hnumber, .host file, some (registry, file), ?_, ?_, ?_⟩
  · change u.mounts.map Mount.standing = _
    rw [hmounts, List.map_append, List.map_singleton, hstanding]
  · change (registry, file) :: u.registrations = _
    rw [hregistrations]
    rfl
  · intro r hr
    cases hr
    exact hfree

theorem exists_mount (hg : w.Gains id v) : ∃ m, v.mount? id = some m ∧ m.isOpen = true := by
  obtain ⟨backing, registered, hmounts, -⟩ := hg.mounts
  have hget : (v.mounts.map Mount.standing)[id.number]? = some (backing, registered, true) := by
    rw [hmounts, hg.number, ← List.length_map Mount.standing]
    exact List.getElem?_concat_length
  rw [List.getElem?_map] at hget
  obtain ⟨m, hm, hstanding⟩ := Option.map_eq_some_iff.mp hget
  exact ⟨m, hm, congrArg (fun s => s.2.2) hstanding⟩

end Gains

/-- Closing a file system that is not shared closes the mount beneath, after times were set perhaps.
-/
theorem close_of_not_isShared {fs : FileSystem} (hs : fs.isShared = false)
    (hid : fs.innermost = .archive id) (hm : w.mount? id = some m) (ho : m.isOpen = true) :
    ∃ u m', w.SameMounts u ∧ u.mount? id = some m' ∧ m'.isOpen = true ∧
      (fs.close w).2 = (u.closeMount id m').2 ∧
      ∀ t, (fs.close w).1 = .error (.offCalendar t) ↔
        (u.closeMount id m').1 = .error (.offCalendar t) := by
  induction fs generalizing w m with
  | host => cases hid
  | archive id' =>
    cases hid
    rw [close_of_open hm ho]
    exact ⟨w, m, SameMounts.refl w, hm, ho, rfl, fun t => Iff.rfl⟩
  | substituted n d p ih => exact ih hs hid hm ho
  | shared n d ih => cases hs
  | stamping n d time ih =>
    have hopen : d.isOpen w = true := (isOpen_of_innermost hid hm).trans ho
    unfold FileSystem.close
    simp only [hopen, if_true]
    cases time with
    | none => exact ih hs hid hm ho
    | some time =>
      obtain ⟨hworld, hoff⟩ := FileSystem.andThen_of_dated (d.calling_stampAll time).dated d.close w
      have hstamped := sameMounts_calling (d.calling_stampAll time) w
      obtain ⟨m₀, hm₀, -, -, ho₀⟩ := hstamped.symm.exists_mount hm
      obtain ⟨u, m', hsame, hrest⟩ := ih hs hid hm₀ (ho₀.trans ho)
      simp only [hworld, hoff]
      exact ⟨u, m', hstamped.trans hsame, hrest⟩

/-- What was registered because of a mount alone is taken out with it. -/
theorem registrations_release (h : v.registrations = m.registered.toList ++ w.registrations)
    (hfree : ∀ r ∈ m.registered, w.isRegistered r.1 r.2 = false) :
    (v.release m).registrations = w.registrations := by
  unfold release
  cases hr : m.registered with
  | none =>
    rw [hr] at h
    exact h
  | some r =>
    obtain ⟨registry, file⟩ := r
    rw [hr] at h
    have hfree : w.isRegistered registry file = false := hfree _ hr
    change v.registrations.filter _ = _
    have hself : (registry == registry && file.same file) = true := by
      rw [Bool.and_eq_true]
      exact ⟨beq_self_eq_true registry, Pathname.same_iff.mpr rfl⟩
    rw [h, Option.toList_some, List.singleton_append, List.filter_cons]
    simp only [hself, Bool.not_true, Bool.false_eq_true, if_false]
    refine List.filter_eq_self.mpr fun r hr => ?_
    rw [Bool.not_eq_true', Bool.eq_false_iff]
    intro hsame
    have hregistered : w.isRegistered registry file = true := List.any_eq_true.mpr ⟨r, hr, hsame⟩
    rw [hfree] at hregistered
    cases hregistered

/-- A mount that was made is closed, and nothing else is different. -/
theorem Gains.close (hg : w.Gains id v) {fs : FileSystem} (hs : fs.isShared = false)
    (hid : fs.innermost = .archive id)
    (hdated : ∀ t, (fs.close v).1 ≠ .error (.offCalendar t)) : w.Settled (fs.close v).2 := by
  obtain ⟨m₀, hm₀, ho₀⟩ := hg.exists_mount
  obtain ⟨u, m, hsame, hm, ho, hworld, hoff⟩ := close_of_not_isShared hs hid hm₀ ho₀
  obtain ⟨backing, registered, hmounts, hregistrations, hfree⟩ := (hg.trans_sameMounts hsame).mounts
  obtain ⟨x, hx, ⟨-, hreleased⟩ | ⟨⟨t, ht⟩, -⟩⟩ := closeMount_cases hm
  · rw [hworld, hreleased]
    have hlength : id.number = (w.mounts.map Mount.standing).length := by
      rw [List.length_map]
      exact hg.number
    have hstanding : m.standing = (backing, registered, true) := by
      have hget : (u.mounts.map Mount.standing)[id.number]? = some m.standing := by
        rw [List.getElem?_map, show u.mounts[id.number]? = some m from hm]
        rfl
      rw [hmounts, hlength, List.getElem?_concat_length, Option.some.injEq] at hget
      exact hget.symm
    have hregistered : m.registered = registered := congrArg (fun s => s.2.1) hstanding
    have hall : (x.release m).mounts.map Mount.standing =
        w.mounts.map Mount.standing ++ [m.closed.standing] := by
      rw [mounts_release, hx.mounts]
      change (u.mounts.set id.number m.closed).map Mount.standing = _
      rw [List.map_set, hmounts, hlength, List.set_append_right _ _ (Nat.le_refl _), Nat.sub_self]
      rfl
    have hget : ∀ i : Nat, ((x.release m).mounts[i]?).map Mount.standing =
        (w.mounts.map Mount.standing ++ [m.closed.standing])[i]? := by
      intro i
      rw [← List.getElem?_map, hall]
    refine ⟨?_, ?_, ?_⟩
    · intro i m₁ hm₁
      have hi := (List.getElem?_eq_some_iff.mp hm₁).1
      have hstands := hget i
      rw [List.getElem?_append_left (by rwa [List.length_map]), List.getElem?_map, hm₁] at hstands
      exact Option.map_eq_some_iff.mp hstands
    · intro i m₁ hi hm₁
      have hstands := hget i
      rw [hm₁, List.getElem?_append_right (by rwa [List.length_map])] at hstands
      obtain ⟨_, hlast⟩ := List.getElem?_eq_some_iff.mp hstands.symm
      have hopen : m.closed.isOpen = m₁.isOpen := by
        rw [List.getElem_singleton] at hlast
        exact congrArg (fun s => s.2.2) hlast
      exact hopen.symm
    · refine registrations_release ?_ ?_
      · rw [hregistered]
        exact hx.registrations.trans hregistrations
      · rw [hregistered]
        exact hfree
  · exact absurd ((hoff t).mpr ht) (hdated t)

end World

end ZipMount
