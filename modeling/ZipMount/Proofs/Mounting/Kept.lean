import ZipMount.Proofs.Mounting.Settled
import ZipMount.Proofs.Tree.Dated

namespace ZipMount

/-- An event closes the mount of a number, or forgets it. -/
def Event.Shuts (e : Event) (number : Nat) : Prop :=
  (∃ fs id, e = .close fs ∧ fs.isShared = false ∧ fs.innermost = .archive id ∧
    id.number = number) ∨ e = .drop number

/-- The clock says days of the calendar, and so do the members of the mount of a number. -/
structure World.Dated (w : World) (number : Nat) : Prop where
  clock : ∀ i, (w.clock i).onCalendar = true
  members : ∀ m, w.mounts[number]? = some m → m.tree.Dated

theorem Event.not_shuts_call (c : Call) (number : Nat) : ¬ (Event.call c).Shuts number := by
  rintro (⟨fs, id, h, -⟩ | h)
  · cases h
  · cases h

theorem Event.not_shuts_close {fs : FileSystem} (hs : fs.isShared = true) (number : Nat) :
    ¬ (Event.close fs).Shuts number := by
  rintro (⟨fs', id, h, hs', -⟩ | h)
  · cases h
    rw [hs] at hs'
    cases hs'
  · cases h

namespace World

variable {w v : World} {id : MountId} {m : Mount} {number : Nat}

/-- The mount of a number is there and open. -/
def Stands (w : World) (number : Nat) : Prop := ∃ m, w.mounts[number]? = some m ∧ m.isOpen = true

theorem isOpen_iff_stands {fs : FileSystem} (hid : fs.innermost = .archive id) :
    fs.isOpen w = true ↔ w.Stands id.number := by
  unfold FileSystem.isOpen Stands
  simp only [hid, mount?]
  cases w.mounts[id.number]? with
  | none => simp
  | some m => simp

namespace Stands

theorem of_sameMounts (h : w.Stands number) (hsame : w.SameMounts v) : v.Stands number := by
  obtain ⟨m, hm, ho⟩ := h
  obtain ⟨m', hm', -, -, hopen⟩ := hsame.symm.exists_mount hm
  exact ⟨m', hm', hopen.trans ho⟩

theorem append (h : w.Stands number) (hv : v.mounts = w.mounts ++ [m]) : v.Stands number := by
  obtain ⟨m', hm', ho⟩ := h
  refine ⟨m', ?_, ho⟩
  rw [hv, List.getElem?_append_left (List.getElem?_eq_some_iff.mp hm').1]
  exact hm'

theorem setMount (h : w.Stands number) (hm : w.mount? id = some m) (hne : id.number ≠ number)
    (m' : Mount) : (w.setMount id m').Stands number := by
  obtain ⟨m₀, hm₀, ho⟩ := h
  have hset := mount?_setMount hm m' ⟨number, 0⟩
  rw [if_neg (Ne.symm hne)] at hset
  exact ⟨m₀, hset.trans hm₀, ho⟩

theorem release (h : w.Stands number) (m : Mount) : (w.release m).Stands number := by
  unfold Stands
  rw [mounts_release]
  exact h

theorem closeMount (h : w.Stands number) (hm : w.mount? id = some m) (hne : id.number ≠ number) :
    (w.closeMount id m).2.Stands number := by
  obtain ⟨v, hsame, hv⟩ := closeMount_cases hm
  have hstands := (h.setMount hm hne m.closed).of_sameMounts hsame
  rcases hv with ⟨-, hv⟩ | ⟨-, hv⟩
  · rw [hv]
    exact hstands.release m
  · rw [hv]
    exact hstands

end Stands

/-- Closing a file system that is shared leaves all mounts as they stand, even if it gives their
members a time. -/
theorem sameMounts_close_of_isShared {fs : FileSystem} (hs : fs.isShared = true) (w : World) :
    w.SameMounts (fs.close w).2 := by
  induction fs generalizing w with
  | host => cases hs
  | archive id => cases hs
  | substituted n d p ih => exact ih hs w
  | shared n d ih => exact SameMounts.refl w
  | stamping n d time ih =>
    unfold FileSystem.close
    split
    · cases time with
      | none => exact ih hs w
      | some time =>
        have hstamped := sameMounts_calling (d.calling_stampAll time) w
        obtain ⟨hworld, -⟩ := FileSystem.andThen_of_dated (d.calling_stampAll time).dated d.close w
        simp only [hworld]
        exact hstamped.trans (ih hs _)
    · exact SameMounts.refl w

namespace Stands

theorem close (h : w.Stands number) {fs : FileSystem} (hs : ¬ (Event.close fs).Shuts number) :
    (fs.close w).2.Stands number := by
  cases hshared : fs.isShared with
  | true => exact h.of_sameMounts (sameMounts_close_of_isShared hshared w)
  | false =>
    rcases close_cases fs w with ⟨hsame, -⟩ | ⟨id, u, m, hid, hsame, hm, -, hworld, -⟩
    · exact h.of_sameMounts hsame
    · have hne : id.number ≠ number :=
        fun hnumber => hs (Or.inl ⟨fs, id, rfl, hshared, hid, hnumber⟩)
      rw [hworld]
      exact (h.of_sameMounts hsame).closeMount hm hne

/-- Only what shuts a mount leaves it other than open. -/
theorem run (h : w.Stands number) {e : Event} (he : ¬ e.Shuts number) :
    (e.run w).Stands number := by
  cases e with
  | call c => exact h.of_sameMounts (sameMounts_run w c)
  | mount prov backing env =>
    change (prov.newFileSystem backing env w).2.Stands number
    cases hnew : prov.newFileSystem backing env w with
    | mk r v =>
      cases r with
      | ok fs =>
        obtain ⟨registry, q, id, -, hmount⟩ := newFileSystem_ok hnew
        obtain ⟨m, hadded, -⟩ := mounts_mount hmount
        exact h.append hadded
      | error f =>
        rw [newFileSystem_error hnew]
        exact h
  | mountAt prov l env =>
    change (prov.newFileSystemAt l env w).2.Stands number
    rcases newFileSystemAt_cases prov l env w with ⟨f, hf⟩ | ⟨registry, id, v, hv, hmount⟩
    · rw [hf]
      exact h
    · obtain ⟨file, u, -, -, hbeneath, rfl⟩ := mountLocator_ok hmount
      obtain ⟨m, hadded, -⟩ := mounts_mount hbeneath
      rw [hv]
      exact h.append hadded
  | close fs => exact h.close he
  | drop dropped =>
    have hne : dropped ≠ number := fun hnumber => he (Or.inr (hnumber ▸ rfl))
    change (w.dropMount dropped).Stands number
    cases hm : w.mounts[dropped]? with
    | none =>
      rw [dropMount_of_none hm]
      exact h
    | some m =>
      cases ho : m.isOpen with
      | false =>
        rw [dropMount_of_closed hm ho]
        exact h
      | true =>
        have hget : w.mount? ⟨dropped, 0⟩ = some m := hm
        rw [dropMount_of_open hm ho 0]
        exact (h.setMount hget hne m.closed).release m

end Stands

namespace Dated

theorem of_mounts (h : w.Dated number) (hclock : v.clock = w.clock) (hmounts : v.mounts = w.mounts) :
    v.Dated number := by
  refine ⟨?_, ?_⟩
  · rw [hclock]
    exact h.clock
  · rw [hmounts]
    exact h.members

theorem setMount (h : w.Dated number) (hm : id.number = number → m.tree.Dated) :
    (w.setMount id m).Dated number := by
  refine ⟨h.clock, fun m' hm' => ?_⟩
  change (w.mounts.set id.number m)[number]? = some m' at hm'
  rw [List.getElem?_set] at hm'
  split at hm'
  · next hnumber =>
    split at hm'
    · cases hm'
      exact hm hnumber
    · cases hm'
  · exact h.members m' hm'

theorem release (h : w.Dated number) (m : Mount) : (w.release m).Dated number := by
  refine h.of_mounts ?_ (mounts_release w m)
  unfold World.release
  cases m.registered <;> rfl

/-- What is written to some file gets the time of the clock. -/
theorem write (h : w.Dated number) {prov : Provider} {p : Path} {data : ByteArray} {mode : WriteMode}
    (hwrite : prov.write w p data mode = .ok v) : v.Dated number := by
  have htick : w.tick.Dated number := h.of_mounts rfl rfl
  obtain ⟨target, -, hwrite⟩ := bind_eq_ok hwrite
  cases target with
  | host q =>
    obtain ⟨host, -, rfl⟩ := changeHost_ok hwrite
    exact htick.of_mounts rfl rfl
  | member id q =>
    obtain ⟨m, t, hm, ht, rfl⟩ := changeTree_ok hwrite
    have hget : w.mount? id = some m := (writableMount_ok.mp hm).1
    refine htick.setMount fun hnumber => ?_
    subst hnumber
    exact (h.members m hget).writeFile (h.clock w.ticks) ht

theorem closeMount (h : w.Dated number) (hm : w.mount? id = some m) :
    (w.closeMount id m).2.Dated number := by
  have htree : id.number = number → m.tree.Dated := by
    rintro rfl
    exact h.members m hm
  have hclosed : (w.setMount id m.closed).Dated number := h.setMount (m := m.closed) htree
  rw [closeMount_eq]
  cases hback : (w.setMount id m.closed).writeBack id m.closed with
  | ok v =>
    refine Dated.release ?_ m
    rcases writeBack_ok hback with ⟨-, rfl⟩ | ⟨data, x, -, hwrite, rfl⟩
    · exact hclosed
    · exact (hclosed.write hwrite).setMount htree
  | error f =>
    cases f with
    | error e => exact hclosed.release m
    | offCalendar t => exact hclosed

theorem close (h : w.Dated number) (id : MountId) :
    ((FileSystem.archive id).close w).2.Dated number := by
  unfold FileSystem.close
  cases hm : w.mount? id with
  | none => exact h
  | some m =>
    cases ho : m.isOpen with
    | true =>
      simp only [ho, if_true]
      exact h.closeMount hm
    | false =>
      simp only [ho, Bool.false_eq_true, if_false]
      exact h

end Dated

/-- Writing back stops short only where members cannot be packed. -/
theorem encode_of_writeBack {t : Instant} (h : w.writeBack id m = .error (.offCalendar t)) :
    m.tree.encode m.options.method = .error (.offCalendar t) := by
  unfold writeBack at h
  split at h
  · cases he : m.tree.encode m.options.method with
    | ok data =>
      rw [he] at h
      change (m.backing.provider.write w m.backing data .replace).mapError _ >>= _ = _ at h
      cases hwrite : m.backing.provider.write w m.backing data .replace with
      | ok v =>
        rw [hwrite] at h
        cases h
      | error e =>
        rw [hwrite] at h
        cases h
    | error f =>
      rw [he] at h
      cases f with
      | error e => cases h
      | offCalendar t' =>
        cases h
        rfl
  · cases h

/-- The members of the mount can be packed, unless the codec refuses them. -/
theorem Dated.offCalendar (h : w.Dated id.number) (t : Instant) :
    ((FileSystem.archive id).close w).1 ≠ .error (.offCalendar t) := by
  intro hclose
  cases ho : (FileSystem.archive id).isOpen w with
  | false =>
    rw [close_of_not_open ho] at hclose
    cases hclose
  | true =>
    obtain ⟨m, hm, hopen⟩ := (isOpen_iff_stands rfl).mp ho
    rw [close_of_open hm hopen, closeMount_eq] at hclose
    cases hback : (w.setMount id m.closed).writeBack id m.closed with
    | ok v =>
      rw [hback] at hclose
      cases hclose
    | error f =>
      rw [hback] at hclose
      cases f with
      | error e => cases hclose
      | offCalendar t' =>
        have hencode := encode_of_writeBack hback
        exact (h.members m hm).encode m.options.method t' hencode

end World

end ZipMount
