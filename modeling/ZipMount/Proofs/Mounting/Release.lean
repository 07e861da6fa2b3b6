import ZipMount.Proofs.Mounting.Registry

namespace ZipMount

/-- A mount was registered because of a file. -/
def Mount.Claims (m : Mount) (registry : Nat) (file : Pathname) : Prop :=
  ∃ file', m.registered = some (registry, file') ∧ file'.same file = true

/-- A file system is closed, and that stops short on an instant off the calendar at a mount that is
registered because of a file. -/
def Event.Strands (e : Event) (w : World) (registry : Nat) (file : Pathname) : Prop :=
  ∃ fs id m t, e = .close fs ∧ fs.innermost = .archive id ∧ w.mount? id = some m ∧
    m.Claims registry file ∧ (fs.close w).1 = .error (.offCalendar t)

namespace World

/-- Some mount by locator is open and is of a file. -/
def Held (w : World) (registry : Nat) (file : Pathname) : Prop :=
  ∃ number file', w.Occupies number registry file' ∧ file'.same file = true

/-- One of some events left the registration of a file behind. -/
def Stranded (w : World) : List Event → Nat → Pathname → Prop
  | [], _, _ => False
  | e :: es, registry, file => e.Strands w registry file ∨ (e.run w).Stranded es registry file

/-- What is registered because of open mounts, and what else is. -/
structure Accounted (w : World) (left : Nat → Pathname → Prop) : Prop extends Exclusive w where
  isRegistered_iff : ∀ registry file,
    w.isRegistered registry file = true ↔ w.Held registry file ∨ left registry file
  apart : ∀ registry file, w.Held registry file → ¬ left registry file

variable {w v : World} {id : MountId} {m : Mount} {number registry : Nat} {file : Pathname}
  {left left' : Nat → Pathname → Prop}

theorem isRegistered_release_iff : (w.release m).isRegistered registry file = true ↔
    w.isRegistered registry file = true ∧ ¬ m.Claims registry file := by
  unfold release Mount.Claims
  cases hr : m.registered with
  | none => simp
  | some r =>
    obtain ⟨registry', file'⟩ := r
    constructor
    · intro h
      obtain ⟨r, hr, hregistry, hfile⟩ := isRegistered_iff.mp h
      obtain ⟨hr, hkept⟩ := List.mem_filter.mp hr
      refine ⟨isRegistered_iff.mpr ⟨r, hr, hregistry, hfile⟩, ?_⟩
      rintro ⟨file'', hclaim, hsame⟩
      obtain ⟨rfl, rfl⟩ := Prod.mk.inj (Option.some.inj hclaim)
      have htaken : (r.1 == registry' && r.2.same file') = true := by
        rw [Bool.and_eq_true]
        exact ⟨beq_iff_eq.mpr hregistry,
          Pathname.same_iff.mpr (hfile.trans (Pathname.same_iff.mp hsame).symm)⟩
      rw [htaken] at hkept
      cases hkept
    · rintro ⟨h, hfree⟩
      apply isRegistered_unregister h
      rintro rfl
      rw [Bool.eq_false_iff]
      intro hsame
      exact hfree ⟨file', rfl, Pathname.same_iff.mpr (Pathname.same_iff.mp hsame).symm⟩

theorem isRegistered_register_iff {registry' : Nat} {file' : Pathname} :
    (w.register registry file).isRegistered registry' file' = true ↔
      w.isRegistered registry' file' = true ∨ registry = registry' ∧ file.same file' = true := by
  constructor
  · intro h
    obtain ⟨r, hr, hregistry, hfile⟩ := isRegistered_iff.mp h
    rcases List.mem_cons.mp hr with rfl | hr
    · exact Or.inr ⟨hregistry, Pathname.same_iff.mpr hfile⟩
    · exact Or.inl (isRegistered_iff.mpr ⟨r, hr, hregistry, hfile⟩)
  · rintro (h | ⟨rfl, hsame⟩)
    · exact isRegistered_register_of h registry file
    · exact isRegistered_of_same (isRegistered_register w registry file) hsame

theorem held_congr (h : w.SameMounts v) : v.Held registry file ↔ w.Held registry file := by
  constructor
  · rintro ⟨number, file', hv, hsame⟩
    exact ⟨number, file', hv.of_sameMounts h, hsame⟩
  · rintro ⟨number, file', hw, hsame⟩
    exact ⟨number, file', hw.of_sameMounts h.symm, hsame⟩

/-- An open mount holds the file it was registered because of. -/
theorem held_of_claims (hm : w.mount? id = some m) (ho : m.isOpen = true)
    (h : m.Claims registry file) : w.Held registry file := by
  obtain ⟨file', hr, hsame⟩ := h
  exact ⟨id.number, file', ⟨m, hm, ho, hr⟩, hsame⟩

theorem held_append (hv : v.mounts = w.mounts ++ [m]) (ho : m.isOpen = true) :
    v.Held registry file ↔ w.Held registry file ∨ m.Claims registry file := by
  constructor
  · rintro ⟨number, file', hocc, hsame⟩
    rcases hocc.of_append hv with hocc | ⟨-, hr⟩
    · exact Or.inl ⟨number, file', hocc, hsame⟩
    · exact Or.inr ⟨file', hr, hsame⟩
  · rintro (⟨number, file', ⟨m', hm', ho', hr'⟩, hsame⟩ | ⟨file', hr, hsame⟩)
    · have hlt := (List.getElem?_eq_some_iff.mp hm').1
      refine ⟨number, file', ⟨m', ?_, ho', hr'⟩, hsame⟩
      rw [hv, List.getElem?_append_left hlt]
      exact hm'
    · refine ⟨w.mounts.length, file', ⟨m, ?_, ho, hr⟩, hsame⟩
      rw [hv, List.getElem?_concat_length]

theorem held_closed (hm : w.mount? id = some m) (ho : m.isOpen = true) :
    w.Held registry file ↔
      (w.setMount id m.closed).Held registry file ∨ m.Claims registry file := by
  constructor
  · rintro ⟨number, file', ⟨m', hm', ho', hr'⟩, hsame⟩
    by_cases hnumber : number = id.number
    · subst hnumber
      cases hm'.symm.trans hm
      exact Or.inr ⟨file', hr', hsame⟩
    · have hset := (mount?_setMount hm m.closed ⟨number, registry⟩).trans (if_neg hnumber)
      exact Or.inl ⟨number, file', ⟨m', hset.trans hm', ho', hr'⟩, hsame⟩
  · rintro (⟨number, file', hocc, hsame⟩ | hclaim)
    · exact ⟨number, file', (hocc.of_closed hm).2, hsame⟩
    · exact held_of_claims hm ho hclaim

/-- An open mount by locator is the only one that holds its file. -/
theorem Exclusive.not_held_closed (hw : w.Exclusive) (hm : w.mount? id = some m)
    (ho : m.isOpen = true) (h : m.Claims registry file) :
    ¬ (w.setMount id m.closed).Held registry file := by
  rintro ⟨number, file'', hocc, hsame'⟩
  obtain ⟨file', hr, hsame⟩ := h
  obtain ⟨hne, hold⟩ := hocc.of_closed hm
  have hboth : file''.same file' = true :=
    Pathname.same_iff.mpr ((Pathname.same_iff.mp hsame').trans (Pathname.same_iff.mp hsame).symm)
  exact hne (hw.alone number id.number registry file'' file' hold ⟨m, hm, ho, hr⟩ hboth)

namespace Accounted

theorem of_iff (hw : w.Accounted left)
    (h : ∀ registry file, left' registry file ↔ left registry file) : w.Accounted left' where
  toExclusive := hw.toExclusive
  isRegistered_iff registry file := by rw [hw.isRegistered_iff, h]
  apart registry file hheld := by
    rw [h]
    exact hw.apart registry file hheld

theorem congr (hw : w.Accounted left) (h : w.SameMounts v) : v.Accounted left where
  toExclusive := hw.toExclusive.congr h
  isRegistered_iff registry file := by
    rw [h.isRegistered, hw.isRegistered_iff, held_congr h]
  apart registry file hheld := hw.apart registry file ((held_congr h).mp hheld)

/-- With an open mount added, and what it is of registered, which was not before. -/
theorem add (hw : w.Accounted left) (hv : v.Exclusive) (hmounts : v.mounts = w.mounts ++ [m])
    (ho : m.isOpen = true)
    (hregistered : ∀ registry file, v.isRegistered registry file = true ↔
      w.isRegistered registry file = true ∨ m.Claims registry file)
    (hfree : ∀ registry file, m.Claims registry file → w.isRegistered registry file = false) :
    v.Accounted left where
  toExclusive := hv
  isRegistered_iff registry file := by
    rw [hregistered, hw.isRegistered_iff, held_append hmounts ho, or_right_comm]
  apart registry file hheld hleft := by
    rcases (held_append hmounts ho).mp hheld with hheld | hclaim
    · exact hw.apart registry file hheld hleft
    · have hold := (hw.isRegistered_iff registry file).mpr (Or.inr hleft)
      rw [hfree registry file hclaim] at hold
      cases hold

/-- With an open mount closed, and what was registered because of it taken back. -/
theorem release (hw : w.Accounted left) (hm : w.mount? id = some m) (ho : m.isOpen = true)
    (h : (w.setMount id m.closed).SameMounts v) : (v.release m).Accounted left := by
  have hheld : ∀ registry file,
      (v.release m).Held registry file ↔ (w.setMount id m.closed).Held registry file := by
    intro registry file
    have hmounts : (v.release m).Held registry file ↔ v.Held registry file := by
      unfold Held Occupies
      rw [mounts_release]
    rw [hmounts, held_congr h]
  refine ⟨hw.toExclusive.release hm ho h, ?_, ?_⟩
  · intro registry file
    have hold : v.isRegistered registry file = w.isRegistered registry file := h.isRegistered _ _
    rw [isRegistered_release_iff, hold, hw.isRegistered_iff, hheld, held_closed hm ho]
    constructor
    · rintro ⟨(hheld | hclaim) | hleft, hnot⟩
      · exact Or.inl hheld
      · exact absurd hclaim hnot
      · exact Or.inr hleft
    · rintro (hheld | hleft)
      · exact ⟨Or.inl (Or.inl hheld), fun hclaim =>
          hw.toExclusive.not_held_closed hm ho hclaim hheld⟩
      · exact ⟨Or.inr hleft, fun hclaim =>
          hw.apart registry file (held_of_claims hm ho hclaim) hleft⟩
  · intro registry file h'
    exact hw.apart registry file ((held_closed hm ho).mpr (Or.inl ((hheld registry file).mp h')))

/-- With an open mount closed, and what was registered because of it left behind. -/
theorem strand (hw : w.Accounted left) (hm : w.mount? id = some m) (ho : m.isOpen = true)
    (h : (w.setMount id m.closed).SameMounts v) :
    v.Accounted fun registry file => left registry file ∨ m.Claims registry file where
  toExclusive := (hw.toExclusive.closed hm).congr h
  isRegistered_iff registry file := by
    have hold : v.isRegistered registry file = w.isRegistered registry file := h.isRegistered _ _
    rw [hold, hw.isRegistered_iff, held_closed hm ho, held_congr h, or_assoc]
    exact or_congr_right or_comm
  apart registry file hheld := by
    have hheld := (held_congr h).mp hheld
    rintro (hleft | hclaim)
    · exact hw.apart registry file ((held_closed hm ho).mpr (Or.inl hheld)) hleft
    · exact hw.toExclusive.not_held_closed hm ho hclaim hheld

end Accounted

end World

/-- An action that stops short with errors only. -/
def Action.Dated {α : Type} (act : Action α) : Prop := ∀ w t, (act w).1 ≠ .error (.offCalendar t)

theorem Action.Calling.dated {α : Type} {act : Action α} (h : act.Calling) : act.Dated :=
  fun w => (h w).2

/-- After an action that stops short with errors only, another is done in any case, and decides
whether both stop short on an instant off the calendar. -/
theorem FileSystem.andThen_of_dated {first : Action Unit} (h : first.Dated) (second : Action Unit)
    (w : World) : (andThen first second w).2 = (second (first w).2).2 ∧
      ∀ t, (andThen first second w).1 = .error (.offCalendar t) ↔
        (second (first w).2).1 = .error (.offCalendar t) := by
  unfold andThen
  cases hf : first w with
  | mk r v =>
    cases r with
    | ok u => exact ⟨rfl, fun t => Iff.rfl⟩
    | error f =>
      cases f with
      | offCalendar t => exact absurd (congrArg Prod.fst hf) (h w t)
      | error e =>
        cases hs : second v with
        | mk r' v' =>
          cases r' with
          | ok u => simp [hs]
          | error f => cases f <;> simp [hs]

namespace World

variable {w v : World} {id : MountId} {m : Mount} {registry : Nat} {file : Pathname}
  {left : Nat → Pathname → Prop}

/-- Closing a file system comes to closing the mount beneath, after times were set perhaps; or it
leaves all mounts as they are. -/
theorem close_cases (fs : FileSystem) (w : World) :
    (w.SameMounts (fs.close w).2 ∧ ∀ t, (fs.close w).1 ≠ .error (.offCalendar t)) ∨
      ∃ id u m, fs.innermost = .archive id ∧ w.SameMounts u ∧ u.mount? id = some m ∧
        m.isOpen = true ∧ (fs.close w).2 = (u.closeMount id m).2 ∧
        ∀ t, (fs.close w).1 = .error (.offCalendar t) ↔
          (u.closeMount id m).1 = .error (.offCalendar t) := by
  induction fs generalizing w with
  | host => exact Or.inl ⟨SameMounts.refl w, nofun⟩
  | archive id =>
    cases ho : (FileSystem.archive id).isOpen w with
    | false =>
      rw [close_of_not_open ho]
      exact Or.inl ⟨SameMounts.refl w, nofun⟩
    | true =>
      cases hm : w.mount? id with
      | none =>
        unfold FileSystem.isOpen at ho
        simp only [FileSystem.innermost, hm] at ho
        cases ho
      | some m =>
        have hopen : m.isOpen = true := (isOpen_of_innermost rfl hm).symm.trans ho
        rw [close_of_open hm hopen]
        exact Or.inr ⟨id, w, m, rfl, SameMounts.refl w, hm, hopen, rfl, fun t => Iff.rfl⟩
  | substituted n d p ih => exact ih w
  | shared n d ih => exact Or.inl ⟨SameMounts.refl w, nofun⟩
  | stamping n d time ih =>
    cases ho : d.isOpen w with
    | false =>
      have hdone : (FileSystem.stamping n d time).close w = (.ok (), w) := close_of_not_open ho
      rw [hdone]
      exact Or.inl ⟨SameMounts.refl w, nofun⟩
    | true =>
      unfold FileSystem.close
      simp only [ho, if_true]
      cases time with
      | none => exact ih w
      | some time =>
        have hstamped := sameMounts_calling (d.calling_stampAll time) w
        obtain ⟨hworld, hoff⟩ :=
          FileSystem.andThen_of_dated (d.calling_stampAll time).dated d.close w
        simp only [hworld, ne_eq, hoff]
        rcases ih (d.stampAll time w).2 with ⟨hsame, hnot⟩ | ⟨id, u, m, hid, hsame, hrest⟩
        · exact Or.inl ⟨hstamped.trans hsame, hnot⟩
        · exact Or.inr ⟨id, u, m, hid, hstamped.trans hsame, hrest⟩

/-- A mount that is made and open. -/
theorem newFileSystemAt_cases (prov : Provider) (l : Locator) (env : Env) (w : World) :
    (∃ f, prov.newFileSystemAt l env w = (.error f, w)) ∨
      ∃ registry id v, prov.newFileSystemAt l env w = (.ok (.archive id), v) ∧
        Provider.mountLocator registry l env w = .ok (id, v) := by
  induction prov with
  | host => exact Or.inl ⟨_, rfl⟩
  | archive registry =>
    rw [Provider.newFileSystemAt_archive]
    cases hmount : Provider.mountLocator registry l env w with
    | ok r => exact Or.inr ⟨registry, r.1, r.2, rfl, hmount⟩
    | error e => exact Or.inl ⟨_, rfl⟩
  | granting allowed d ih => exact ih
  | denying denied d ih => exact ih

namespace Accounted

theorem mount (hw : w.Accounted left) {backing : Path} {env : Env}
    (h : w.mount registry backing env none = .ok (id, v)) : v.Accounted left := by
  obtain ⟨m, hmounts, hstanding, hsame, -⟩ := mounts_mount h
  have hr : m.registered = none := congrArg (fun s => s.2.1) hstanding
  have hnone : ∀ registry file, ¬ m.Claims registry file := by
    rintro registry file ⟨file', hclaim, -⟩
    rw [hr] at hclaim
    cases hclaim
  refine hw.add (hw.toExclusive.append hmounts hr hsame) hmounts
    (congrArg (fun s => s.2.2) hstanding) ?_ fun registry file hclaim =>
      absurd hclaim (hnone registry file)
  intro registry file
  unfold isRegistered
  rw [hsame, or_iff_left (hnone registry file)]

theorem mountLocator (hw : w.Accounted left) {l : Locator} {env : Env}
    (h : Provider.mountLocator registry l env w = .ok (id, v)) : v.Accounted left := by
  have hv := lasting_exclusive.locator w registry l env id v h hw.toExclusive
  obtain ⟨file, u, -, hfree, hmount, rfl⟩ := mountLocator_ok h
  obtain ⟨m, hmounts, hstanding, hsame, -⟩ := mounts_mount hmount
  have hr : m.registered = some (registry, file) := congrArg (fun s => s.2.1) hstanding
  have hclaims : ∀ registry' file', m.Claims registry' file' ↔
      registry = registry' ∧ file.same file' = true := by
    intro registry' file'
    unfold Mount.Claims
    simp only [hr, Option.some.injEq, Prod.mk.injEq]
    constructor
    · rintro ⟨_, ⟨rfl, rfl⟩, hfile⟩
      exact ⟨rfl, hfile⟩
    · rintro ⟨rfl, hfile⟩
      exact ⟨file, ⟨rfl, rfl⟩, hfile⟩
  refine hw.add hv hmounts (congrArg (fun s => s.2.2) hstanding) ?_ ?_
  · intro registry' file'
    rw [isRegistered_register_iff, hclaims]
    unfold isRegistered
    rw [hsame]
  · intro registry' file' hclaim
    obtain ⟨rfl, hfile⟩ := (hclaims registry' file').mp hclaim
    rw [Bool.eq_false_iff]
    intro hold
    have hback := Pathname.same_iff.mpr (Pathname.same_iff.mp hfile).symm
    rw [isRegistered_of_same hold hback] at hfree
    cases hfree

theorem close (hw : w.Accounted left) (fs : FileSystem) : (fs.close w).2.Accounted
    fun registry file => left registry file ∨ (Event.close fs).Strands w registry file := by
  have hnot : (∀ t, (fs.close w).1 ≠ .error (.offCalendar t)) →
      ∀ registry file, ¬ (Event.close fs).Strands w registry file := by
    rintro hdated registry file ⟨fs', id, m, t, hfs, -, -, -, hoff⟩
    cases hfs
    exact hdated t hoff
  rcases close_cases fs w with ⟨hsame, hdated⟩ | ⟨id, u, m, hid, hsame, hm, ho, hworld, hoff⟩
  · exact (hw.congr hsame).of_iff fun _ _ => or_iff_left (hnot hdated _ _)
  · obtain ⟨v, hv, hcases⟩ := closeMount_cases hm
    rw [hworld]
    rcases hcases with ⟨hdated, hreleased⟩ | ⟨⟨t, ht⟩, hkept⟩
    · rw [hreleased]
      exact ((hw.congr hsame).release hm ho hv).of_iff fun _ _ =>
        or_iff_left (hnot (fun t h => hdated t ((hoff t).mp h)) _ _)
    · rw [hkept]
      obtain ⟨m₀, hm₀, -, hr, -⟩ := hsame.exists_mount hm
      refine ((hw.congr hsame).strand hm ho hv).of_iff fun registry file => or_congr_right ?_
      constructor
      · rintro ⟨fs', id', m', t', hfs, hid', hm', hclaim, -⟩
        cases hfs
        cases hid.symm.trans hid'
        cases hm'.symm.trans hm₀
        unfold Mount.Claims at hclaim ⊢
        rwa [hr] at hclaim
      · intro hclaim
        refine ⟨fs, id, m₀, t, rfl, hid, hm₀, ?_, (hoff t).mpr ht⟩
        unfold Mount.Claims at hclaim ⊢
        rwa [hr]

/-- What is left behind after an event is what was before, and what the event leaves behind. -/
theorem run (hw : w.Accounted left) (e : Event) : (e.run w).Accounted
    fun registry file => left registry file ∨ e.Strands w registry file := by
  -- only closing leaves anything behind
  have hkeep : (∀ fs, e ≠ .close fs) → (e.run w).Accounted left →
      (e.run w).Accounted fun registry file => left registry file ∨ e.Strands w registry file := by
    intro hne h
    refine h.of_iff fun registry file => or_iff_left ?_
    rintro ⟨fs, _, _, _, he, -⟩
    exact hne fs he
  cases e with
  | close fs => exact hw.close fs
  | call c => exact hkeep nofun (hw.congr (sameMounts_run w c))
  | mount prov backing env =>
    refine hkeep nofun ?_
    change (prov.newFileSystem backing env w).2.Accounted left
    cases hnew : prov.newFileSystem backing env w with
    | mk r v =>
      cases r with
      | ok fs =>
        obtain ⟨registry, q, id, -, hmount⟩ := newFileSystem_ok hnew
        exact hw.mount hmount
      | error f =>
        rw [newFileSystem_error hnew]
        exact hw
  | mountAt prov l env =>
    refine hkeep nofun ?_
    change (prov.newFileSystemAt l env w).2.Accounted left
    rcases newFileSystemAt_cases prov l env w with ⟨f, hf⟩ | ⟨registry, id, v, hv, hmount⟩
    · rw [hf]
      exact hw
    · rw [hv]
      exact hw.mountLocator hmount
  | drop number =>
    refine hkeep nofun ?_
    change (w.dropMount number).Accounted left
    cases hm : w.mounts[number]? with
    | none =>
      rw [dropMount_of_none hm]
      exact hw
    | some m =>
      cases ho : m.isOpen with
      | false =>
        rw [dropMount_of_closed hm ho]
        exact hw
      | true =>
        have hget : w.mount? ⟨number, 0⟩ = some m := hm
        rw [dropMount_of_open hm ho 0]
        exact hw.release hget ho (SameMounts.refl _)

theorem later (hw : w.Accounted left) (es : List Event) : (w.later es).Accounted
    fun registry file => left registry file ∨ w.Stranded es registry file := by
  induction es generalizing w left with
  | nil => exact hw.of_iff fun _ _ => or_iff_left id
  | cons e es ih => exact (ih (hw.run e)).of_iff fun _ _ => or_assoc.symm

end Accounted

theorem close_shuts (id : MountId) (w : World) :
    (FileSystem.archive id).isOpen ((FileSystem.archive id).close w).2 = false := by
  cases ho : (FileSystem.archive id).isOpen w with
  | false =>
    rw [close_of_not_open ho]
    exact ho
  | true =>
    cases hm : w.mount? id with
    | none =>
      unfold FileSystem.isOpen at ho
      simp only [FileSystem.innermost, hm] at ho
      cases ho
    | some m =>
      rw [close_of_open hm ((isOpen_of_innermost rfl hm).symm.trans ho)]
      exact not_isOpen_closeMount rfl hm

end World

end ZipMount
