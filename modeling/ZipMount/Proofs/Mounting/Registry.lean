import ZipMount.Proofs.Events

namespace ZipMount

theorem Pathname.same_iff {p q : Pathname} : p.same q = true ↔ p.components = q.components :=
  beq_iff_eq

namespace World

/-- A mount by locator that is open, and the file it is of. -/
def Occupies (w : World) (number registry : Nat) (file : Pathname) : Prop :=
  ∃ m, w.mounts[number]? = some m ∧ m.isOpen = true ∧ m.registered = some (registry, file)

/-- What mounts by locator have to themselves. -/
structure Exclusive (w : World) : Prop where
  /-- What is registered because of a mount is the file it is read from and written back to. -/
  backing : ∀ m ∈ w.mounts, ∀ registry file, m.registered = some (registry, file) →
    m.backing = .host file
  /-- It is registered as long as the mount is open, -/
  registered : ∀ number registry file, w.Occupies number registry file →
    w.isRegistered registry file = true
  /-- and no two open mounts are of one file. -/
  alone : ∀ number number' registry file file', w.Occupies number registry file →
    w.Occupies number' registry file' → file.same file' = true → number = number'

variable {w v : World} {id : MountId} {m : Mount} {number registry registry' : Nat}
  {file file' : Pathname}

theorem isRegistered_iff : w.isRegistered registry file = true ↔
    ∃ r ∈ w.registrations, r.1 = registry ∧ r.2.components = file.components := by
  unfold isRegistered
  simp only [List.any_eq_true, Bool.and_eq_true, beq_iff_eq, Pathname.same_iff]

theorem isRegistered_of_same (h : w.isRegistered registry file = true)
    (hsame : file.same file' = true) : w.isRegistered registry file' = true := by
  obtain ⟨r, hr, hregistry, hfile⟩ := isRegistered_iff.mp h
  exact isRegistered_iff.mpr ⟨r, hr, hregistry, hfile.trans (Pathname.same_iff.mp hsame)⟩

theorem isRegistered_register (w : World) (registry : Nat) (file : Pathname) :
    (w.register registry file).isRegistered registry file = true :=
  isRegistered_iff.mpr ⟨_, List.mem_cons_self, rfl, rfl⟩

theorem isRegistered_register_of (h : w.isRegistered registry file = true) (registry' : Nat)
    (file' : Pathname) : (w.register registry' file').isRegistered registry file = true := by
  obtain ⟨r, hr, hrest⟩ := isRegistered_iff.mp h
  exact isRegistered_iff.mpr ⟨r, List.mem_cons_of_mem _ hr, hrest⟩

theorem isRegistered_unregister (h : w.isRegistered registry' file' = true)
    (hne : registry' = registry → file'.same file = false) :
    (w.unregister registry file).isRegistered registry' file' = true := by
  obtain ⟨r, hr, hregistry, hfile⟩ := isRegistered_iff.mp h
  refine isRegistered_iff.mpr ⟨r, List.mem_filter.mpr ⟨hr, ?_⟩, hregistry, hfile⟩
  rw [Bool.not_eq_true', Bool.and_eq_false_imp]
  intro heq
  have hother := hne (hregistry.symm.trans (beq_iff_eq.mp heq))
  rw [Bool.eq_false_iff] at hother ⊢
  intro hsame
  exact hother (Pathname.same_iff.mpr (hfile.symm.trans (Pathname.same_iff.mp hsame)))

theorem Occupies.of_sameMounts (h : w.SameMounts v) (hv : v.Occupies number registry file) :
    w.Occupies number registry file := by
  obtain ⟨m, hm, ho, hr⟩ := hv
  obtain ⟨m₀, hm₀, -, hregistered, hopen⟩ := h.exists_mount hm
  exact ⟨m₀, hm₀, hopen.trans ho, hregistered.trans hr⟩

theorem Occupies.of_closed (hm : w.mount? id = some m)
    (hv : (w.setMount id m.closed).Occupies number registry file) :
    number ≠ id.number ∧ w.Occupies number registry file := by
  obtain ⟨m', hm', ho, hr⟩ := hv
  have hset := mount?_setMount hm m.closed ⟨number, registry⟩
  unfold mount? at hset
  rw [hm'] at hset
  split at hset
  · cases hset
    cases ho
  · next hne => exact ⟨hne, m', hset.symm, ho, hr⟩

/-- A mount that is added occupies its file; the others occupy what they did. -/
theorem Occupies.of_append (hv : v.mounts = w.mounts ++ [m])
    (h : v.Occupies number registry file) :
    w.Occupies number registry file ∨
      number = w.mounts.length ∧ m.registered = some (registry, file) := by
  obtain ⟨m', hm', ho, hr⟩ := h
  rw [hv] at hm'
  rcases Nat.lt_or_ge number w.mounts.length with hlt | hge
  · rw [List.getElem?_append_left hlt] at hm'
    exact Or.inl ⟨m', hm', ho, hr⟩
  · rw [List.getElem?_append_right hge] at hm'
    obtain ⟨hlt, rfl⟩ := List.getElem?_eq_some_iff.mp hm'
    rw [List.length_singleton] at hlt
    rw [List.getElem_singleton] at hr
    exact Or.inr ⟨by omega, hr⟩

namespace Exclusive

theorem congr (hw : w.Exclusive) (h : w.SameMounts v) : v.Exclusive := by
  refine ⟨?_, ?_, ?_⟩
  · intro m hm registry file hr
    obtain ⟨i, hi⟩ := List.mem_iff_getElem?.mp hm
    obtain ⟨m₀, hm₀, hbacking, hregistered, -⟩ := h.exists_mount hi
    rw [← hbacking]
    exact hw.backing m₀ (List.mem_of_getElem? hm₀) registry file (hregistered.trans hr)
  · intro number registry file hv
    rw [h.isRegistered]
    exact hw.registered number registry file (hv.of_sameMounts h)
  · exact fun number number' registry file file' hv hv' =>
      hw.alone number number' registry file file' (hv.of_sameMounts h) (hv'.of_sameMounts h)

theorem closed (hw : w.Exclusive) (hm : w.mount? id = some m) :
    (w.setMount id m.closed).Exclusive := by
  refine ⟨?_, ?_, ?_⟩
  · intro m' hm' registry file hr
    rcases List.mem_or_eq_of_mem_set hm' with hold | rfl
    · exact hw.backing m' hold registry file hr
    · exact hw.backing m (List.mem_of_getElem? hm) registry file hr
  · exact fun number registry file hv => hw.registered number registry file (hv.of_closed hm).2
  · exact fun number number' registry file file' hv hv' =>
      hw.alone number number' registry file file' (hv.of_closed hm).2 (hv'.of_closed hm).2

/-- With a file taken out of the registry that no open mount is of. -/
theorem unregister (hw : w.Exclusive)
    (hfree : ∀ number file', w.Occupies number registry file' → file'.same file = false) :
    (w.unregister registry file).Exclusive := by
  refine ⟨hw.backing, ?_, hw.alone⟩
  intro number registry' file' hv
  have hold : w.Occupies number registry' file' := hv
  apply isRegistered_unregister (hw.registered number registry' file' hold)
  rintro rfl
  exact hfree number file' hold

theorem release (hw : w.Exclusive) (hm : w.mount? id = some m) (ho : m.isOpen = true)
    (h : (w.setMount id m.closed).SameMounts v) : (v.release m).Exclusive := by
  have hv := (hw.closed hm).congr h
  unfold World.release
  cases hr : m.registered with
  | none => exact hv
  | some r =>
    apply hv.unregister
    intro number file' hother
    obtain ⟨hne, hold⟩ := (hother.of_sameMounts h).of_closed hm
    -- the closed mount was the only one of its file
    rw [Bool.eq_false_iff]
    exact fun hsame => hne (hw.alone number id.number r.1 file' r.2 hold ⟨m, hm, ho, hr⟩ hsame)

theorem append (hw : w.Exclusive) (hv : v.mounts = w.mounts ++ [m]) (hr : m.registered = none)
    (hsame : v.registrations = w.registrations) : v.Exclusive := by
  have hold : ∀ number registry file, v.Occupies number registry file →
      w.Occupies number registry file := by
    intro number registry file h
    rcases h.of_append hv with h | ⟨-, hnew⟩
    · exact h
    · rw [hr] at hnew
      cases hnew
  refine ⟨?_, ?_, ?_⟩
  · intro m' hm' registry file hregistered
    rw [hv] at hm'
    rcases List.mem_append.mp hm' with hm' | hm'
    · exact hw.backing m' hm' registry file hregistered
    · rw [List.mem_singleton.mp hm', hr] at hregistered
      cases hregistered
  · intro number registry file h
    unfold isRegistered
    rw [hsame]
    exact hw.registered number registry file (hold number registry file h)
  · exact fun number number' registry file file' h h' =>
      hw.alone number number' registry file file' (hold _ _ _ h) (hold _ _ _ h')

/-- No open mount is of a file that is not registered. -/
theorem vacant (hw : w.Exclusive) (hfree : w.isRegistered registry file = false)
    (h : w.Occupies number registry file') : file'.same file = false := by
  rw [Bool.eq_false_iff]
  intro hfile
  rw [isRegistered_of_same (hw.registered number registry file' h) hfile] at hfree
  cases hfree

/-- With a mount added by the locator of a file that was not registered, and is now. -/
theorem register (hw : w.Exclusive) (hfree : w.isRegistered registry file = false)
    (hv : v.mounts = w.mounts ++ [m]) (hr : m.registered = some (registry, file))
    (hb : m.backing = .host file) (hsame : v.registrations = w.registrations) :
    (v.register registry file).Exclusive := by
  have hcases : ∀ number registry' file', (v.register registry file).Occupies number registry' file' →
      w.Occupies number registry' file' ∨
        number = w.mounts.length ∧ registry' = registry ∧ file' = file := by
    intro number registry' file' h
    rcases Occupies.of_append (v := v) hv h with h | ⟨hnumber, hnew⟩
    · exact Or.inl h
    · rw [hr] at hnew
      cases hnew
      exact Or.inr ⟨hnumber, rfl, rfl⟩
  refine ⟨?_, ?_, ?_⟩
  · intro m' hm' registry' file' hregistered
    have hm' : m' ∈ v.mounts := hm'
    rw [hv] at hm'
    rcases List.mem_append.mp hm' with hm' | hm'
    · exact hw.backing m' hm' registry' file' hregistered
    · rw [List.mem_singleton.mp hm'] at hregistered ⊢
      rw [hr] at hregistered
      cases hregistered
      exact hb
  · intro number registry' file' h
    rcases hcases number registry' file' h with h | ⟨-, rfl, rfl⟩
    · apply isRegistered_register_of
      unfold isRegistered
      rw [hsame]
      exact hw.registered number registry' file' h
    · exact isRegistered_register v registry' file'
  · intro number number' registry' file₁ file₂ h h' hfile
    rcases hcases number registry' file₁ h with hold | ⟨hnumber, rfl, rfl⟩
    · rcases hcases number' registry' file₂ h' with hold' | ⟨-, rfl, rfl⟩
      · exact hw.alone number number' registry' file₁ file₂ hold hold' hfile
      · rw [hw.vacant hfree hold] at hfile
        cases hfile
    · rcases hcases number' registry' file₂ h' with hold' | ⟨hnumber', -, -⟩
      · have hback := Pathname.same_iff.mpr (Pathname.same_iff.mp hfile).symm
        rw [hw.vacant hfree hold'] at hback
        cases hback
      · rw [hnumber, hnumber']

end Exclusive

theorem lasting_exclusive : Lasting Exclusive where
  call w c hw := hw.congr (sameMounts_run w c)
  mount w registry backing env id v h hw := by
    obtain ⟨m, hmounts, hstanding, hsame, -⟩ := mounts_mount h
    exact hw.append hmounts (congrArg (fun s => s.2.1) hstanding) hsame
  locator w registry l env id v h hw := by
    obtain ⟨file, u, -, hfree, hmount, rfl⟩ := mountLocator_ok h
    obtain ⟨m, hmounts, hstanding, hsame, -⟩ := mounts_mount hmount
    exact hw.register hfree hmounts (congrArg (fun s => s.2.1) hstanding)
      (congrArg Prod.fst hstanding) hsame
  close w id m hm ho hw := by
    obtain ⟨v, hsame, hv⟩ := closeMount_cases hm
    rcases hv with ⟨-, hv⟩ | ⟨-, hv⟩
    · rw [hv]
      exact hw.release hm ho hsame
    · rw [hv]
      exact (hw.closed hm).congr hsame
  drop w id m hm ho hw := hw.release hm ho (SameMounts.refl _)

theorem exclusive_start (host : Host) (clock : Nat → Instant) (principal : String) :
    (start host clock principal).Exclusive where
  backing := by
    intro m hm
    cases hm
  registered := by
    rintro number registry file ⟨m, hm, -⟩
    cases hm
  alone := by
    rintro number number' registry file file' ⟨m, hm, -⟩
    cases hm

/-- What has become of a mount: it is of the same file, what is registered because of it is the
same, and once it is closed it is closed for good. -/
def Follows (m : Mount) (number : Nat) (w : World) : Prop :=
  ∃ m', w.mounts[number]? = some m' ∧ m'.backing = m.backing ∧ m'.registered = m.registered ∧
    (m.isOpen = false → m'.isOpen = false)

theorem follows_of_standing {m' : Mount} (hm : w.mounts[number]? = some m')
    (hs : m'.standing = m.standing) : Follows m number w := by
  obtain ⟨hbacking, hrest⟩ := Prod.mk.inj hs
  obtain ⟨hregistered, hopen⟩ := Prod.mk.inj hrest
  exact ⟨m', hm, hbacking, hregistered, fun hclosed => hopen.trans hclosed⟩

namespace Follows

theorem congr (hw : Follows m number w) (h : w.SameMounts v) : Follows m number v := by
  obtain ⟨m', hm', hbacking, hregistered, hclosed⟩ := hw
  obtain ⟨m'', hm'', hb, hr, ho⟩ := h.symm.exists_mount hm'
  exact ⟨m'', hm'', hb.trans hbacking, hr.trans hregistered,
    fun hm => ho.trans (hclosed hm)⟩

theorem append (hw : Follows m number w) {m₁ : Mount} (hv : v.mounts = w.mounts ++ [m₁]) :
    Follows m number v := by
  obtain ⟨m', hm', hrest⟩ := hw
  refine ⟨m', ?_, hrest⟩
  rw [hv, List.getElem?_append_left (List.getElem?_eq_some_iff.mp hm').1]
  exact hm'

theorem closed (hw : Follows m number w) {m₁ : Mount} (hm₁ : w.mount? id = some m₁) :
    Follows m number (w.setMount id m₁.closed) := by
  obtain ⟨m', hm', hbacking, hregistered, hclosed⟩ := hw
  have hset := mount?_setMount hm₁ m₁.closed ⟨number, 0⟩
  by_cases hnumber : number = id.number
  · subst hnumber
    have hsame : m' = m₁ := Option.some.inj (hm'.symm.trans hm₁)
    subst hsame
    exact ⟨m'.closed, hset.trans (if_pos rfl), hbacking, hregistered, fun _ => rfl⟩
  · exact ⟨m', (hset.trans (if_neg hnumber)).trans hm', hbacking, hregistered, hclosed⟩

end Follows

theorem lasting_follows (m : Mount) (number : Nat) : Lasting (Follows m number) := by
  refine lasting_of_mounts ?_ ?_ ?_ ?_
  · intro w v hmounts hw
    unfold Follows
    rw [hmounts]
    exact hw
  · exact fun w v hsame hw => hw.congr hsame
  · exact fun w v m₁ hadded hw => hw.append hadded
  · exact fun w id m₁ hm₁ hw => hw.closed hm₁

/-- Mounting by path takes no notice of what is registered and leaves it as it is. -/
theorem newFileSystem_withRegistrations (w : World) (rs : List (Nat × Pathname)) (prov : Provider)
    (p : Path) (env : Env) :
    prov.newFileSystem p env (w.withRegistrations rs) =
      ((prov.newFileSystem p env w).1, (prov.newFileSystem p env w).2.withRegistrations rs) := by
  unfold Provider.newFileSystem
  split
  · next registry q _ =>
    rw [mount_withRegistrations]
    cases w.mount registry q env none <;> rfl
  · rfl

/-- How mounting and closing go in a world. -/
structure Guarded (w : World) : Prop extends Exclusive w where
  /-- What is mounted by locator is a file that was not registered; whatever happens, the mount
  goes on being of that file, which is registered until the mount is closed or forgotten. -/
  opens : ∀ registry l env id v,
    (Provider.archive registry).newFileSystemAt l env w = (.ok (.archive id), v) →
    ∃ file, l.archiveFile = .ok file ∧ w.isRegistered registry file = false ∧
      ∀ es, ∃ m, (v.later es).mount? id = some m ∧ m.backing = .host file ∧
        m.registered = some (registry, file) ∧
        (m.isOpen = true → (v.later es).isRegistered registry file = true)
  /-- A registered file cannot be mounted by locator, and trying to leaves everything as it is. -/
  refuses : ∀ registry l env file, l.scheme = Locator.jar → l.archiveFile = .ok file →
    w.isRegistered registry file = true →
    (Provider.archive registry).newFileSystemAt l env w =
      (.error (.error (.alreadyMounted l.text)), w)
  /-- Mounting by path goes the same whatever is registered, and leaves that as it is. -/
  byPath : ∀ (prov : Provider) p env rs,
    prov.newFileSystem p env (w.withRegistrations rs) =
      ((prov.newFileSystem p env w).1, (prov.newFileSystem p env w).2.withRegistrations rs)
  /-- A mount that is closed is not closed or forgotten again, whatever was mounted since. -/
  closed : ∀ (fs : FileSystem) id m es, fs.innermost = .archive id → w.mount? id = some m →
    m.isOpen = false →
    fs.close (w.later es) = (.ok (), w.later es) ∧ (w.later es).dropMount id.number = w.later es

theorem newFileSystemAt_ok {l : Locator} {env : Env}
    (h : (Provider.archive registry).newFileSystemAt l env w = (.ok (.archive id), v)) :
    Provider.mountLocator registry l env w = .ok (id, v) := by
  rw [Provider.newFileSystemAt_archive] at h
  cases hmount : Provider.mountLocator registry l env w with
  | ok r =>
    rw [hmount] at h
    cases h
    rfl
  | error e =>
    rw [hmount] at h
    cases h

theorem Exclusive.opens (hw : w.Exclusive) {l : Locator} {env : Env}
    (h : Provider.mountLocator registry l env w = .ok (id, v)) :
    ∃ file, l.archiveFile = .ok file ∧ w.isRegistered registry file = false ∧
      ∀ es, ∃ m, (v.later es).mount? id = some m ∧ m.backing = .host file ∧
        m.registered = some (registry, file) ∧
        (m.isOpen = true → (v.later es).isRegistered registry file = true) := by
  have hv := lasting_exclusive.locator w registry l env id v h hw
  obtain ⟨file, u, hfile, hfree, hmount, rfl⟩ := mountLocator_ok h
  obtain ⟨m, hmounts, hstanding, -, hnumber⟩ := mounts_mount hmount
  have hm : u.mounts[id.number]? = some m := by
    rw [hmounts, hnumber, List.getElem?_concat_length]
  refine ⟨file, hfile, hfree, fun es => ?_⟩
  obtain ⟨m', hm', hbacking, hregistered, -⟩ :=
    (lasting_follows m id.number).later (follows_of_standing (w := u.register registry file) hm rfl)
      es
  have hb : m'.backing = .host file := hbacking.trans (congrArg Prod.fst hstanding)
  have hr : m'.registered = some (registry, file) :=
    hregistered.trans (congrArg (fun s => s.2.1) hstanding)
  exact ⟨m', hm', hb, hr, fun ho =>
    (lasting_exclusive.later hv es).registered id.number registry file ⟨m', hm', ho, hr⟩⟩

theorem newFileSystemAt_of_registered {l : Locator} (hl : l.scheme = Locator.jar)
    (hfile : l.archiveFile = .ok file) (h : w.isRegistered registry file = true) (env : Env) :
    (Provider.archive registry).newFileSystemAt l env w =
      (.error (.error (.alreadyMounted l.text)), w) := by
  have hmount : Provider.mountLocator registry l env w = .error (.alreadyMounted l.text) := by
    unfold Provider.mountLocator
    rw [if_neg (not_not_intro hl), hfile]
    exact if_pos h
  rw [Provider.newFileSystemAt_archive, hmount]

theorem later_of_closed (hm : w.mount? id = some m) (ho : m.isOpen = false) {fs : FileSystem}
    (hfs : fs.innermost = .archive id) (es : List Event) :
    fs.close (w.later es) = (.ok (), w.later es) ∧
      (w.later es).dropMount id.number = w.later es := by
  obtain ⟨m', hm', -, -, hclosed⟩ :=
    (lasting_follows m id.number).later (follows_of_standing hm rfl) es
  have hmount : (w.later es).mount? id = some m' := hm'
  exact ⟨close_of_not_open ((isOpen_of_innermost hfs hmount).trans (hclosed ho)),
    dropMount_of_closed hm' (hclosed ho)⟩

/-- Whatever happened to mounts, by locator and by path, those by locator have their files to
themselves. -/
theorem guarded_later (host : Host) (clock : Nat → Instant) (principal : String)
    (es : List Event) : ((start host clock principal).later es).Guarded := by
  have hw := lasting_exclusive.later (exclusive_start host clock principal) es
  exact {
    toExclusive := hw
    opens := fun _ _ _ _ _ h => hw.opens (newFileSystemAt_ok h)
    refuses := fun _ _ env _ hl hfile h => newFileSystemAt_of_registered hl hfile h env
    byPath := fun prov p env rs => newFileSystem_withRegistrations _ rs prov p env
    closed := fun _ _ _ es hfs hm ho => later_of_closed hm ho hfs es }

end World

end ZipMount
