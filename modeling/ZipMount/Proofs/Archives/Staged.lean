import ZipMount.Proofs.Archives.Calling
import ZipMount.Proofs.Archives.Occupied
import ZipMount.Proofs.Mounting.Settled

namespace ZipMount

/-- An opening that mounts nothing if it fails, and else one archive, in a file system that closes
it. -/
def Action.Opening (act : Action FileSystem) : Prop :=
  ∀ w, (∀ f v, act w = (.error f, v) → w.SameMounts v) ∧
    ∀ fs v, act w = (.ok fs, v) →
      fs.isShared = false ∧ ∃ id, fs.innermost = .archive id ∧ w.Gains id v

namespace Action

variable {α : Type} {act : Action FileSystem}

theorem opening_fail (f : Failure) : (throw f : Action FileSystem).Opening := by
  refine fun w => ⟨?_, fun fs v h => by cases h⟩
  intro f' v h
  cases h
  exact World.SameMounts.refl w

theorem opening_get {g : World → Action FileSystem} (h : ∀ w, (g w).Opening) :
    (get >>= g).Opening := fun w => h w w

theorem Opening.noted (h : act.Opening) (note : String) : (noted note act).Opening := by
  refine fun w => ⟨?_, ?_⟩
  · intro f v hrun
    have hworld := congrArg Prod.snd hrun
    rw [noted_world] at hworld
    cases hact : act w with
    | mk r u =>
      rw [hact] at hworld
      cases hworld
      cases r with
      | ok fs =>
        rw [noted_of_ok hact] at hrun
        cases hrun
      | error f' => exact (h w).1 f' _ hact
  · intro fs v hrun
    exact (h w).2 fs v (noted_ok hrun)

/-- Calls may come before. -/
theorem Calling.opening {first : Action α} (h : first.Calling) {f : α → Action FileSystem}
    (hf : ∀ a, (f a).Opening) : (first >>= f).Opening := by
  intro w
  have hsame := World.sameMounts_calling h w
  rw [bind_eq]
  cases hfirst : first w with
  | mk r u =>
    rw [hfirst] at hsame
    cases r with
    | error f' =>
      refine ⟨?_, fun fs v hrun => by cases hrun⟩
      intro _ v hrun
      cases hrun
      exact hsame
    | ok a =>
      refine ⟨fun f' v hrun => hsame.trans ((hf a u).1 f' v hrun), ?_⟩
      intro fs v hrun
      obtain ⟨hshared, id, hid, hgains⟩ := (hf a u).2 fs v hrun
      exact ⟨hshared, id, hid, World.Gains.of_sameMounts hsame hgains⟩

/-- A proxy may be put before what is opened. -/
theorem Opening.proxied (h : act.Opening) {proxy : Nat → FileSystem → FileSystem}
    (hproxy : ∀ n fs, (proxy n fs).isShared = fs.isShared ∧ (proxy n fs).innermost = fs.innermost) :
    (act >>= fun fs => newNumber >>= fun n => pure (proxy n fs)).Opening := by
  intro w
  rw [bind_eq]
  cases hact : act w with
  | mk r u =>
    cases r with
    | error f =>
      refine ⟨?_, fun fs v hrun => by cases hrun⟩
      intro _ v hrun
      cases hrun
      exact (h w).1 f _ hact
    | ok fs =>
      refine ⟨fun f v hrun => (nomatch hrun), ?_⟩
      intro _ v hrun
      cases hrun
      obtain ⟨hshared, id, hid, hgains⟩ := (h w).2 fs u hact
      obtain ⟨hs, hi⟩ := hproxy (u.proxies + 1) fs
      exact ⟨hs.trans hshared, id, hi.trans hid, hgains.trans_sameMounts ⟨rfl, rfl⟩⟩

end Action

namespace Provider

theorem opening_newFileSystem (prov : Provider) (p : Path) (env : Env) :
    (prov.newFileSystem p env).Opening := by
  refine fun w => ⟨?_, ?_⟩
  · intro f v h
    rw [World.newFileSystem_error h]
    exact World.SameMounts.refl w
  · intro fs v h
    obtain ⟨registry, q, id, rfl, hmount⟩ := World.newFileSystem_ok h
    exact ⟨rfl, id, rfl, World.Gains.mount hmount⟩

theorem opening_newFileSystemAt (prov : Provider) (l : Locator) (env : Env) :
    (prov.newFileSystemAt l env).Opening := by
  intro w
  rcases World.newFileSystemAt_cases prov l env w with ⟨f, hf⟩ | ⟨registry, id, v, hv, hmount⟩
  · rw [hf]
    refine ⟨?_, fun fs v h => by cases h⟩
    intro _ v h
    cases h
    exact World.SameMounts.refl w
  · rw [hv]
    refine ⟨fun f v h => by (cases h), ?_⟩
    intro fs v h
    cases h
    exact ⟨rfl, id, rfl, World.Gains.mountLocator hmount⟩

end Provider

namespace Archives

open ZipMount.Action

theorem opening_openArchive (archive : Path) (env : Env) : (openArchive archive env).Opening :=
  opening_get fun _ => (Provider.opening_newFileSystem _ _ _).noted _

theorem opening_openLocator (l : Locator) (env : Env) : (openLocator l env).Opening :=
  opening_get fun _ => (Provider.opening_newFileSystemAt _ _ _).noted _

theorem opening_createArchive (file : Pathname) (env : Env) : (createArchive file env).Opening := by
  let located : Action FileSystem := Action.ask (locator file) >>= fun l => get >>= fun w =>
    openLocator l (Env.merge (Options.createEnv w.principal) env)
  have hlocated : located.Opening :=
    (calling_ask _).opening fun l => opening_get fun w => opening_openLocator l _
  have hparents : ∀ above : Path, (if above.pathname.bytes ≠ [] then
        Action.noted s!"Could not create parent directories of {file.display}"
          above.makeDirectories >>= fun _ => located
      else located).Opening := by
    intro above
    split
    · exact ((Path.calling_makeDirectoriesUpTo _ _).noted _).opening fun _ => hlocated
    · exact hlocated
  refine opening_get fun w => ?_
  by_cases hthere : (Path.host file).exists? w = true
  · simp only [hthere, if_true]
    refine (calling_fail _).opening fun _ => ?_
    cases (Path.host file).parent? with
    | none => exact hlocated
    | some above => exact hparents above
  · simp only [hthere, Bool.false_eq_true, if_false]
    cases (Path.host file).parent? with
    | none => exact hlocated
    | some above => exact hparents above

theorem opening_openOrCreate (file : Pathname) (env : Env) : (openOrCreate file env).Opening := by
  refine opening_get fun w => ?_
  split
  · exact opening_openArchive _ env
  · exact opening_createArchive file env

theorem opening_createReproducible (file : Pathname) (env : Env) (time : Option Instant) :
    (createReproducible file env time).Opening := by
  by_cases htime : ∀ t, time = some t → t.onCalendar = true
  · rw [createReproducible_eq env htime]
    exact (opening_createArchive file env).proxied fun n fs => ⟨rfl, rfl⟩
  · obtain ⟨t, htime⟩ := not_forall.mp htime
    obtain ⟨rfl, hoff⟩ := Classical.not_imp.mp htime
    have hthrow : createReproducible file env (some t) = throw (.offCalendar t) := by
      unfold createReproducible
      simp only [hoff]
      rfl
    rw [hthrow]
    exact opening_fail _

/-- What comes of opening an archive, copying and closing it, one after the other. -/
structure Staged (opening : Action FileSystem) (copying : FileSystem → Action Unit)
    (act : Action Unit) (w : World) : Prop where
  /-- If it comes to an end, what was mounted is closed, and nothing is registered that was not. -/
  settled : ∀ r w', act w = (r, w') → (∀ t, r ≠ .error (.offCalendar t)) → w.Settled w'
  /-- It succeeds just when all three do. -/
  ok : ∀ w', act w = (.ok (), w') ↔ ∃ fs v u,
    opening w = (.ok fs, v) ∧ copying fs v = (.ok (), u) ∧ fs.close u = (.ok (), w')
  /-- Otherwise the first of them that fails is the one reported. -/
  unopened : ∀ f v, opening w = (.error f, v) → act w = (.error f, v)
  uncopied : ∀ fs v e u r w', opening w = (.ok fs, v) → copying fs v = (.error (.error e), u) →
    fs.close u = (r, w') → (∀ t, r ≠ .error (.offCalendar t)) → act w = (.error (.error e), w')
  unclosed : ∀ fs v u f w', opening w = (.ok fs, v) → copying fs v = (.ok (), u) →
    fs.close u = (.error f, w') → act w = (.error f, w')

theorem staged {opening : Action FileSystem} {copying : FileSystem → Action Unit} {act : Action Unit}
    (hopening : opening.Opening) (hcopying : ∀ fs, (copying fs).Calling)
    (hact : act = opening >>= fun fs => FileSystem.andThen (copying fs) fs.close) (w : World) :
    Staged opening copying act w := by
  subst hact
  have hok : ∀ fs v, opening w = (.ok fs, v) →
      (opening >>= fun fs => FileSystem.andThen (copying fs) fs.close) w =
        FileSystem.andThen (copying fs) fs.close v := fun fs v h => Action.bind_of_ok h _
  refine ⟨?_, ?_, fun f v h => Action.bind_of_error h _, ?_, ?_⟩
  · intro r w' hrun hdated
    cases hopen : opening w with
    | mk r' v =>
      cases r' with
      | error f =>
        rw [Action.bind_of_error hopen] at hrun
        cases hrun
        exact ((hopening w).1 f _ hopen).settled
      | ok fs =>
        obtain ⟨hshared, id, hid, hgains⟩ := (hopening w).2 fs v hopen
        obtain ⟨hworld, hoff⟩ := FileSystem.andThen_of_dated (hcopying fs).dated fs.close v
        rw [hok fs v hopen] at hrun
        rw [hrun] at hworld hoff
        have hworld : w' = (fs.close (copying fs v).2).2 := hworld
        rw [hworld]
        exact (hgains.trans_sameMounts (World.sameMounts_calling (hcopying fs) v)).close hshared hid
          fun t ht => hdated t ((hoff t).mpr ht)
  · intro w'
    constructor
    · intro hrun
      obtain ⟨fs, v, hopen, hrest⟩ := Action.bind_ok hrun
      obtain ⟨u, hcopy, hclose⟩ := FileSystem.andThen_ok hrest
      exact ⟨fs, v, u, hopen, hcopy, hclose⟩
    · rintro ⟨fs, v, u, hopen, hcopy, hclose⟩
      rw [hok fs v hopen, FileSystem.andThen_of_ok hcopy]
      exact hclose
  · intro fs v e u r w' hopen hcopy hclose hdated
    rw [hok fs v hopen, FileSystem.andThen_of_error hcopy, hclose]
    rw [hclose]
    exact hdated
  · intro fs v u f w' hopen hcopy hclose
    rw [hok fs v hopen, FileSystem.andThen_of_ok hcopy]
    exact hclose

theorem staged_zipTree (source : Path) (archive : Pathname) (w : World) :
    Staged (openOrCreate archive []) (fun fs => copyIntoArchive source fs .natural)
      (zipTree source archive) w :=
  staged (opening_openOrCreate archive []) (fun fs => calling_copyIntoArchive source fs .natural)
    rfl w

theorem staged_zipReproducibly (source : Path) (archive : Pathname) (time : Instant) (w : World) :
    Staged (createReproducible archive [] (some time))
      (fun fs => copyIntoArchive source fs .sorted) (zipReproducibly source archive time) w :=
  staged (opening_createReproducible archive [] (some time))
    (fun fs => calling_copyIntoArchive source fs .sorted) rfl w

def unzipNote (archive target : Path) : String :=
  s!"Could not unzip {archive.display} to target dir {target.display}"

/-- Makes sure of a target, and opens the archive that is to be unpacked there. -/
def openToUnzip (archive target : Path) : Action FileSystem :=
  Action.noted (unzipNote archive target) (ensureTarget target) >>= fun _ => openArchive archive []

theorem staged_unzip (archive target : Path) (w : World) :
    Staged (openToUnzip archive target)
      (fun fs => Action.noted (unzipNote archive target) (copyFromArchive fs target))
      (unzip archive target) w := by
  refine staged ?_ (fun fs => (calling_copyFromArchive fs target).noted _) ?_ w
  · exact ((calling_ensureTarget target).noted _).opening fun _ => opening_openArchive archive []
  · exact (bind_assoc _ _ _).symm

end Archives

end ZipMount
