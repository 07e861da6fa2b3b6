import ZipMount.Proofs.Archives.Close
import ZipMount.Proofs.Host.Absolute
import ZipMount.Proofs.Locator
import ZipMount.Proofs.Mounting.Open

namespace ZipMount

/-- A world in which only the host's files differ from those of another, and have kept their shape.
-/
structure World.HostOnly (w w' : World) : Prop where
  mounts : w'.mounts = w.mounts
  host : w.host.WellFormed → w'.host.WellFormed

namespace World.HostOnly

variable {u v w w' : World}

theorem refl (w : World) : w.HostOnly w := ⟨rfl, id⟩

theorem trans (h : u.HostOnly v) (h' : v.HostOnly w) : u.HostOnly w :=
  ⟨h'.mounts.trans h.mounts, h'.host ∘ h.host⟩

theorem wellFormed (h : w.HostOnly w') (hw : w.WellFormed) : w'.WellFormed := by
  refine ⟨h.host hw.host, ?_⟩
  intro m hm
  rw [h.mounts] at hm
  exact hw.trees m hm

end World.HostOnly

namespace Path

variable {w w' : World} {p : Pathname}

theorem ensureDirectory_hostOnly (h : (host p).ensureDirectory w = (.ok (), w')) :
    w.HostOnly w' := by
  unfold ensureDirectory at h
  obtain ⟨r, v, hattempt, hrest⟩ := Action.bind_ok h
  rw [makeDirectory_eq] at hattempt
  rcases Action.attempt_change hattempt with ⟨rfl, hmade⟩ | ⟨e, rfl, -, rfl⟩
  · obtain ⟨-, rfl⟩ := Action.pure_ok hrest
    have hchange : w.tick.changeHost p (fun h => h.makeDirectory w.now p) = .ok v := hmade
    obtain ⟨host, hhost, rfl⟩ := World.changeHost_ok hchange
    exact ⟨rfl, fun hw => Host.makeDirectory_wellFormed hw hhost⟩
  · have hthere := Action.get_bind_ok hrest
    split at hthere
    · cases hthere
    · obtain ⟨-, rfl⟩ := Action.pure_ok hthere
      exact .refl _

theorem makeDirectoriesUpTo_hostOnly {n : Nat}
    (h : (host p).makeDirectoriesUpTo n w = (.ok (), w')) : w.HostOnly w' := by
  induction n generalizing p w w' with
  | zero =>
    obtain ⟨-, rfl⟩ := Action.pure_ok h
    exact .refl w
  | succ n ih =>
    unfold makeDirectoriesUpTo at h
    have h := Action.get_bind_ok h
    split at h
    · obtain ⟨-, rfl⟩ := Action.pure_ok h
      exact .refl w
    · split at h
      · next above habove =>
        split at h
        · obtain ⟨u, v, habove', hrest⟩ := Action.bind_ok h
          obtain ⟨q, -, rfl⟩ := Option.map_eq_some_iff.mp habove
          exact (ih habove').trans (ensureDirectory_hostOnly hrest)
        · exact ensureDirectory_hostOnly h
      · exact ensureDirectory_hostOnly h

end Path

namespace Archives

variable {w v : World} {file : Pathname} {fs : FileSystem}

/-- The world once the directories are made that an archive is to be in. -/
def withParents (file : Pathname) (w : World) : World :=
  match (Path.host file).parent? with
  | some above => if above.pathname.bytes ≠ [] then (above.makeDirectories w).2 else w
  | none => w

/-- Whether the directory is there that an archive is to be in. -/
def HasParent (file : Pathname) (w : World) : Prop :=
  ∀ above, (Path.host file).parent? = some above → above.pathname.bytes ≠ [] →
    above.isDirectory w = true

theorem withParents_of_hasParent (hd : HasParent file w) : withParents file w = w := by
  unfold withParents
  split
  · next above hp =>
    split
    · next hne =>
      have hthere := hd above hp hne
      unfold Path.makeDirectories Path.makeDirectoriesUpTo
      change ((if above.isDirectory w = true then (pure () : Action Unit) else _) w).2 = w
      rw [if_pos hthere]
      rfl
    · rfl
  · rfl

/-- Nothing is found at the path of a new archive, before its directories are made. -/
theorem exists?_of_createArchive {env : Env} (h : createArchive file env w = (.ok fs, v)) :
    (Path.host file).exists? w = false := by
  have h := Action.get_bind_ok h
  split at h
  · obtain ⟨u, v', hfail, -⟩ := Action.bind_ok h
    cases hfail
  · next hno => exact Bool.eq_false_iff.mpr hno

theorem createArchive_ok {env : Env} (h : createArchive file env w = (.ok fs, v)) :
    w.HostOnly (withParents file w) ∧ ∃ l, locator file (withParents file w) = .ok l ∧
      openLocator l (Env.merge (Options.createEnv (withParents file w).principal) env)
        (withParents file w) = (.ok fs, v) := by
  unfold createArchive at h
  have h := Action.get_bind_ok h
  have hopen : ∀ {u : World}, (do
      let l ← Action.ask (locator file)
      openLocator l (Env.merge (Options.createEnv (← get).principal) env) : Action FileSystem) u =
        (.ok fs, v) → ∃ l, locator file u = .ok l ∧
          openLocator l (Env.merge (Options.createEnv u.principal) env) u = (.ok fs, v) := by
    intro u hu
    obtain ⟨l, u', hask, hrest⟩ := Action.bind_ok hu
    obtain ⟨hl, rfl⟩ := Action.ask_ok hask
    exact ⟨l, hl, Action.get_bind_ok hrest⟩
  split at h
  · obtain ⟨u, v', hfail, -⟩ := Action.bind_ok h
    cases hfail
  · unfold withParents
    cases hp : (Path.host file).parent? with
    | none =>
      simp only [hp] at h
      exact ⟨.refl w, hopen h⟩
    | some above =>
      simp only [hp] at h
      by_cases hne : above.pathname.bytes = []
      · simp only [hne, ne_eq, not_true_eq_false, if_false] at h ⊢
        exact ⟨.refl w, hopen h⟩
      · simp only [hne, ne_eq, not_false_eq_true, if_true] at h ⊢
        obtain ⟨u, v', hnoted, hrest⟩ := Action.bind_ok h
        have hmade := Action.noted_ok hnoted
        obtain ⟨q, -, rfl⟩ := Option.map_eq_some_iff.mp hp
        rw [hmade]
        exact ⟨Path.makeDirectoriesUpTo_hostOnly hmade, hopen hrest⟩

end Archives

/-- What a path leads to exists. -/
theorem Host.check_of_at {h : Host} {p : Pathname} (hz : p.hasZero = false) {l : Location}
    {k : HostKind} (hat : h.At p l k) : h.check p [] = .ok () := by
  obtain ⟨node, hf, -⟩ := find_target_iff.mpr hat
  have haccess : h.access p [] = .ok () := by
    unfold access
    rw [hz, hf]
    cases node <;> rfl
  unfold check
  rw [haccess]
  rfl

/-- A world in which an empty archive was just mounted, whose file is to be created where nothing
is. -/
structure World.Mounted (w : World) (q : Pathname) (id : MountId) (m : Mount) (v : World) :
    Prop where
  number : id.number = w.mounts.length
  mounts : v.mounts = w.mounts ++ [m]
  host : v.host = w.host
  ready : m.Ready
  backing : m.backing = .host q
  method : m.options.method = .deflated
  empty : ∃ now, m.tree = .empty now
  free : q.hasZero = false → ∀ l k, ¬ w.host.At q l k

namespace World

variable {w v : World} {q : Pathname}

/-- What is loaded where there is no file: an empty tree, if nothing at all is there. -/
theorem load_new {options : Options} {loaded : Loaded}
    (hno : q.hasZero = false → ∀ l data, ¬ w.host.At q l (.file data))
    (h : w.load (.host q) options = .ok loaded) :
    loaded = ⟨.empty w.now, false, true⟩ ∧ (q.hasZero = false → ∀ l k, ¬ w.host.At q l k) := by
  rcases load_ok h with ⟨-, data, hdata, -⟩ | ⟨-, hnew, e, hcheck, -⟩
  · -- a file that could be read would be there
    obtain ⟨hz, l, hat⟩ := Host.at_of_read (mapError_eq_ok hdata)
    exact absurd hat (hno hz l data)
  · refine ⟨hnew, fun hz l k hat => ?_⟩
    have hthere : (Path.host q).provider.check w (.host q) [] = .ok () := Host.check_of_at hz hat
    rw [hthere] at hcheck
    cases hcheck

theorem mount_new {registry : Nat} {env : Env} {registered : Option (Nat × Pathname)} {id : MountId}
    {options : Options} (henv : Options.ofEnv env = .ok options)
    (hmethod : options.method = .deflated)
    (hno : q.hasZero = false → ∀ l data, ¬ w.host.At q l (.file data))
    (h : w.mount registry (.host q) env registered = .ok (id, v)) : ∃ m, w.Mounted q id m v := by
  obtain ⟨o, loaded, m, ho, hload, rfl, hnumber, rfl⟩ := mount_ok h
  rw [henv] at ho
  cases ho
  obtain ⟨rfl, hfree⟩ := load_new hno hload
  exact ⟨_, hnumber, rfl, rfl, ⟨rfl, rfl, rfl⟩, rfl, hmethod, ⟨w.now, rfl⟩, hfree⟩

namespace Mounted

variable {id : MountId} {m : Mount}

/-- Neither a registration nor the number of a proxy makes a difference. -/
theorem congr (h : w.Mounted q id m v) {v' : World} (hm : v'.mounts = v.mounts)
    (hh : v'.host = v.host) : w.Mounted q id m v' :=
  ⟨h.number, hm.trans h.mounts, hh.trans h.host, h.ready, h.backing, h.method, h.empty, h.free⟩

theorem wellFormed (h : w.Mounted q id m v) (hw : w.WellFormed) : v.WellFormed := by
  refine ⟨?_, ?_⟩
  · rw [h.host]
    exact hw.host
  · intro m' hm'
    rw [h.mounts, List.mem_append, List.mem_singleton] at hm'
    rcases hm' with hm' | rfl
    · exact hw.trees m' hm'
    · obtain ⟨now, hnow⟩ := h.empty
      rw [hnow]
      exact Tree.wellFormed_empty now

theorem sameBut (h : w.Mounted q id m v) : w.SameBut id m (Tree.Outlined []) v := by
  refine ⟨h.host, ?_, m.tree, ?_, ?_⟩
  · intro n hn
    rw [h.number] at hn
    rw [h.mounts]
    by_cases hlt : n < w.mounts.length
    · exact List.getElem?_append_left hlt
    · have hlength : (w.mounts ++ [m]).length = w.mounts.length + 1 := List.length_append
      have hnew : (w.mounts ++ [m])[n]? = none := List.getElem?_eq_none (by omega)
      have hold : w.mounts[n]? = none := List.getElem?_eq_none (by omega)
      rw [hnew, hold]
  · rw [World.mount?, h.number, h.mounts]
    exact List.getElem?_concat_length
  · obtain ⟨now, hnow⟩ := h.empty
    rw [hnow]
    exact ⟨Tree.wellFormed_empty now, rfl⟩

/-- A directory that was there before is not on the new mount. -/
theorem isOff (h : w.Mounted q id m v) {s : Path} (hs : s.holds w [] = some .directory) :
    s.IsOff id := by
  rintro j p rfl hj
  obtain ⟨p', hp', hcontent⟩ := Option.bind_eq_some_iff.mp hs
  obtain ⟨k, -, rfl⟩ := Path.below?_member.mp hp'
  obtain ⟨m', x, hopen, -⟩ := Path.content?_member.mp hcontent
  obtain ⟨hlt, -⟩ := List.getElem?_eq_some_iff.mp (openMount_ok.mp hopen).1
  rw [hj, h.number] at hlt
  exact Nat.lt_irrefl _ hlt

end Mounted

end World

namespace Archives

variable {w v : World} {file q : Pathname} {fs : FileSystem}

theorem openLocator_new {l : Locator} {env : Env} {options : Options}
    (henv : Options.ofEnv (Env.merge (Options.ownerEnv w.principal) env) = .ok options)
    (hmethod : options.method = .deflated) (hl : l.archiveFile = .ok q)
    (hno : q.hasZero = false → ∀ loc data, ¬ w.host.At q loc (.file data))
    (h : openLocator l env w = (.ok fs, v)) :
    ∃ id m, fs = .archive id ∧ w.Mounted q id m v := by
  have h := Action.noted_ok (Action.get_bind_ok h)
  rw [Provider.newFileSystemAt_archive] at h
  split at h
  · next id v' hm =>
    cases h
    unfold Provider.mountLocator at hm
    split at hm
    · cases hm
    · obtain ⟨file, hfile, hm⟩ := bind_eq_ok hm
      rw [hl] at hfile
      cases hfile
      split at hm
      · cases hm
      · obtain ⟨⟨id', u⟩, hmount, hm⟩ := bind_eq_ok hm
        cases hm
        obtain ⟨m, hmounted⟩ := World.mount_new henv hmethod hno hmount
        exact ⟨id, m, rfl, hmounted.congr rfl rfl⟩
  · cases h

/-- A new file system that gives its members one time, where nothing was at the archive's path. -/
theorem createReproducible_new {time : Instant} (hw : w.WellFormed)
    (hnone : (Path.host file).exists? (withParents file w) = false)
    (h : createReproducible file [] (some time) w = (.ok fs, v)) :
    (withParents file w).WellFormed ∧
      ∃ n id m, fs = .stamping n (.archive id) (some time) ∧ (withParents file w).Mounted
        ((withParents file w).host.absolute file) id m v := by
  unfold createReproducible stamping at h
  simp only at h
  split at h
  · obtain ⟨u, v', hthrow, -⟩ := Action.bind_ok h
    cases hthrow
  · obtain ⟨inner, v', hcreate, h⟩ := Action.bind_ok h
    obtain ⟨n, v'', hnumber, h⟩ := Action.bind_ok h
    cases hnumber
    cases h
    obtain ⟨honly, l, hlocator, hopen⟩ := createArchive_ok hcreate
    have hwellFormed := honly.wellFormed hw
    have hcolon : ':' ∉ Locator.jar.toList := by decide
    obtain ⟨-, hl⟩ := Locator.archiveFile_forArchive rfl hlocator hcolon
    have henv : Options.ofEnv (Env.merge (Options.ownerEnv (withParents file w).principal)
        (Env.merge (Options.createEnv (withParents file w).principal) [])) =
          .ok ⟨some true, some (withParents file w).principal,
            some (withParents file w).principal, none⟩ := rfl
    have hno : ((withParents file w).host.absolute file).hasZero = false → ∀ loc data,
        ¬ (withParents file w).host.At ((withParents file w).host.absolute file) loc
          (.file data) := by
      intro hz loc data hat
      rcases hat.of_absolute hwellFormed.host with hat | ⟨-, hdirectory⟩
      · have hsegments := hwellFormed.host.isSegment hwellFormed.host.working
        have hcheck := Host.check_of_at (Host.hasZero_of_absolute hsegments hz) hat
        have hexists : (Path.host file).exists? (withParents file w) =
            ((withParents file w).host.check file []).isOk := rfl
        rw [hexists, hcheck] at hnone
        cases hnone
      · cases hdirectory
    obtain ⟨id, m, rfl, hmounted⟩ := openLocator_new henv rfl hl hno hopen
    exact ⟨hwellFormed, _, id, m, rfl, hmounted.congr rfl rfl⟩

end Archives

end ZipMount
