import ZipMount.Proofs.Archives.Create
import ZipMount.Proofs.Archives.Entry
import ZipMount.Proofs.Host.Names

namespace ZipMount

namespace Pathname

variable {p : Pathname} {n : Filename}

/-- A segment that says a name is the name. -/
theorem eq_of_filterMap_ofSegment? {s : Filename} (hs : s ≠ []) {before : List Step}
    (h : (before ++ [s].filterMap Step.ofSegment?).getLast? = some (.name n)) : s = n := by
  cases hstep : Step.ofSegment? s with
  | none =>
    rw [Step.ofSegment?, if_neg hs] at hstep
    split at hstep
    · cases hstep
    · split at hstep
      · cases hstep
      · cases hstep
  | some step =>
    rw [List.filterMap_cons_some hstep, List.filterMap_nil, List.getLast?_concat] at h
    cases h
    rw [Step.ofSegment?, if_neg hs] at hstep
    split at hstep
    · cases hstep
    · split at hstep
      · cases hstep
      · cases hstep
        rfl

/-- A path that ends in a name is that name alone, or the name put to a path. -/
theorem eq_join_of_steps (h : p.steps.getLast? = some (.name n)) :
    IsSegment n ∧ (p = ⟨n⟩ ∨ ∃ q : Pathname, q.bytes ≠ [] ∧ p = q.join ⟨n⟩) := by
  have hn : IsSegment n := isSegment_of_mem_steps (List.mem_of_getLast? h)
  -- a slash at the end would be a step of its own
  have hplain : p.plainSteps.getLast? = some (.name n) ∧ p.bytes.getLast? ≠ some 47 := by
    unfold steps at h
    simp only at h
    split at h
    · rw [List.getLast?_concat] at h
      cases h
    · next hslash =>
      refine ⟨h, fun hend => hslash ⟨?_, hend⟩⟩
      intro hnil
      rw [hnil] at h
      cases h
  obtain ⟨hlast, hend⟩ := hplain
  refine ⟨hn, ?_⟩
  by_cases hmem : 47 ∈ p.bytes.reverse
  · -- the last slash is found from behind
    obtain ⟨as, bs, hbytes, has⟩ := List.eq_append_cons_of_mem hmem
    have hsplit : p.bytes = bs.reverse ++ 47 :: as.reverse := by
      rw [← List.reverse_reverse p.bytes, hbytes, List.reverse_append, List.reverse_cons,
        List.append_assoc]
      rfl
    have hslash : 47 ∉ as.reverse := fun hin => has (List.mem_reverse.mp hin)
    have hne : as.reverse ≠ [] := by
      intro hempty
      rw [hsplit, hempty, List.getLast?_concat] at hend
      exact hend rfl
    rw [plainSteps, segments, hsplit, Text.pieces_append_sep, Text.pieces_of_not_mem hslash,
      List.filterMap_append] at hlast
    have hsegment := eq_of_filterMap_ofSegment? hne hlast
    have habsolute : (Pathname.mk n).isAbsolute = false := by
      rw [Bool.eq_false_iff]
      intro ha
      rw [isAbsolute, beq_iff_eq] at ha
      exact hn.2.2.2 (List.mem_of_head? ha)
    right
    refine ⟨⟨bs.reverse ++ [47]⟩, by simp, ?_⟩
    rw [join, habsolute]
    simp only [Bool.false_eq_true, if_false, List.getLast?_concat, or_true, if_true]
    rw [← hsegment, List.append_assoc]
    exact congrArg Pathname.mk hsplit
  · left
    have hslash : 47 ∉ p.bytes := fun hin => hmem (List.mem_reverse.mpr hin)
    have hne : p.bytes ≠ [] := by
      intro hempty
      rw [plainSteps, segments, hempty] at hlast
      cases hlast
    rw [plainSteps, segments, Text.pieces_of_not_mem hslash,
      ← List.nil_append (List.filterMap _ _)] at hlast
    exact congrArg Pathname.mk (eq_of_filterMap_ofSegment? hne hlast)

end Pathname

namespace Host

variable {h : Host} {p : Pathname}

/-- Something has the path, be it a link that leads nowhere. -/
def Occupied (h : Host) (p : Pathname) : Prop :=
  p.hasZero = false ∧ ∃ loc node, h.find .itself p = .ok (loc, node)

theorem ne_link_of_directory {loc : Location} (hd : h.kind? loc = some .directory)
    (target : Pathname) : h.kind? loc ≠ some (.link target) := by
  rw [hd]
  exact fun heq => HostKind.noConfusion (Option.some.inj heq)

/-- A link is found without being followed only by its name. -/
theorem getLast?_of_link (hw : h.WellFormed) {k : Nat} {loc l : Location} {steps : List Step}
    {target : Pathname} (hl : h.kind? l = some (.link target))
    (hloc : ∀ t, h.kind? loc ≠ some (.link t))
    (ha : h.Advances .itself k loc steps (.entry l)) :
    ∃ n, steps.getLast? = some (.name n) := by
  generalize hspot : Spot.entry l = spot at ha
  have hcons : ∀ {step : Step} {rest : List Step}, (∃ n, rest.getLast? = some (.name n)) →
      ∃ n, (step :: rest).getLast? = some (.name n) := by
    rintro step rest ⟨n, hn⟩
    exact ⟨n, by rw [List.getLast?_cons, hn]; rfl⟩
  induction ha with
  | done k loc =>
    cases hspot
    exact absurd hl (hloc target)
  | stay _ _ _ ih => exact hcons (ih hloc hspot)
  | up hd _ ih => exact hcons (ih (ne_link_of_directory (hw.parent hd)) hspot)
  | name _ _ hk hkind _ ih =>
    refine hcons (ih (fun t ht => ?_) hspot)
    rw [hk, Option.some.injEq] at ht
    exact hkind t ht
  | @link k loc n rest t spot hd _ _ hf _ ih =>
    have hbase : ∀ t', h.kind? (linkBase t loc) ≠ some (.link t') := by
      unfold linkBase
      split
      · exact ne_link_of_directory (kind?_nil h)
      · exact ne_link_of_directory hd
    have hrest : rest ≠ [] := by
      rcases hf with hf | hf
      · exact hf
      · cases hf
    -- the link was followed because more steps came after it, and the last of them is the last
    obtain ⟨m, hm⟩ := ih hbase hspot
    rw [List.getLast?_append, List.getLast?_eq_some_getLast hrest, Option.some_or,
      ← List.getLast?_eq_some_getLast] at hm
    exact hcons ⟨m, hm⟩
  | @last k loc n => exact ⟨n, rfl⟩
  | vacant => cases hspot

/-- Looking up a path never fails for something being there. -/
theorem advance_ne_exists (m : Manner) (k : Nat) (loc : Location) (steps : List Step) :
    h.advance m k loc steps ≠ .error .exists := by
  induction k using Nat.strongRecOn generalizing loc steps with
  | ind k ihk =>
  induction steps generalizing loc with
  | nil =>
    rw [advance_nil]
    simp
  | cons step rest ih =>
    rw [advance_cons]
    cases h.kind? loc with
    | none => simp
    | some kind =>
      cases kind with
      | file data => simp
      | link target => simp
      | directory =>
        cases step with
        | here => exact ih loc
        | slash => exact ih loc
        | up => exact ih loc.dropLast
        | name n =>
          simp only
          split
          · simp
          split
          · simp
          cases h.kind? (loc ++ [n]) with
          | none =>
            simp only
            split <;> simp
          | some kind =>
            cases kind with
            | directory => exact ih (loc ++ [n])
            | file data => exact ih (loc ++ [n])
            | link target =>
              simp only
              split
              · simp
              · cases k with
                | zero => simp
                | succ k => exact ihk k (Nat.lt_succ_self k) _ _

theorem find_ne_exists (m : Manner) (p : Pathname) : h.find m p ≠ .error .exists := by
  intro hf
  unfold find at hf
  cases hl : h.lookup m p p.steps with
  | error e =>
    rw [hl] at hf
    cases hf
    unfold lookup at hl
    split at hl
    · cases hl
    · split at hl
      · cases hl
      · exact advance_ne_exists m _ _ _ hl
  | ok spot =>
    rw [hl] at hf
    cases spot with
    | vacant dir n => cases hf
    | entry l =>
      cases hn : h.node? l with
      | none =>
        simp only [bind, Except.bind, hn] at hf
        cases hf
      | some node =>
        simp only [bind, Except.bind, hn] at hf
        cases hf

/-- What is missed at a path that leads nowhere is not said to be there. -/
theorem check_lost (hno : p.hasZero = false → ∀ l k, ¬ h.At p l k) :
    ∃ e, h.check p [] = .error e ∧ e.isAlreadyExists = false := by
  have haccess : ∃ errno, h.access p [] = .error errno ∧ errno ≠ .exists := by
    unfold access
    cases hz : p.hasZero with
    | true => exact ⟨.invalid, rfl, Errno.noConfusion⟩
    | false =>
      cases hf : h.find .target p with
      | error errno => exact ⟨errno, rfl, fun heq => find_ne_exists .target p (heq ▸ hf)⟩
      | ok found => exact absurd (at_of_find hf) (hno hz _ _)
  obtain ⟨errno, haccess, hne⟩ := haccess
  unfold check
  rw [haccess]
  refine ⟨_, rfl, ?_⟩
  cases errno with
  | «exists» => exact absurd rfl hne
  | _ => rfl

end Host

theorem Options.ofEnv_error {env : Env} {e : Error} (h : Options.ofEnv env = .error e) :
    e.isAlreadyExists = false := by
  have hfield : ∀ {α : Type} {key : String} {read : String → Option α} {e : Error},
      readField env key read = .error e → e.isAlreadyExists = false := by
    intro α key read e he
    unfold readField at he
    split at he
    · cases he
    · split at he
      · cases he
      · cases he
        rfl
  unfold ofEnv at h
  cases hc : readField env createKey boolOfName? with
  | error e' =>
    rw [hc] at h
    cases h
    exact hfield hc
  | ok c =>
    rw [hc] at h
    cases hm : readField env compressionKey Compression.ofName? with
    | error e' =>
      simp only [bind, Except.bind, hm] at h
      cases h
      exact hfield hm
    | ok m =>
      simp only [bind, Except.bind, hm] at h
      cases h

/-- A file that is not there is mounted without a change to the host, or refused, though not for
something being there. -/
theorem World.mount_lost {w : World} {q : Pathname}
    (hno : q.hasZero = false → ∀ loc k, ¬ w.host.At q loc k) (registry : Nat) (env : Env)
    (registered : Option (Nat × Pathname)) :
    (∃ id v, w.mount registry (.host q) env registered = .ok (id, v) ∧ v.host = w.host) ∨
      ∃ e, w.mount registry (.host q) env registered = .error e ∧ e.isAlreadyExists = false := by
  obtain ⟨missed, hcheck, hmissed⟩ := Host.check_lost hno
  have hthere : (Path.host q).provider.check w (.host q) [] = .error missed := hcheck
  unfold mount
  cases hoptions : Options.ofEnv env with
  | error e => exact Or.inr ⟨e, rfl, Options.ofEnv_error hoptions⟩
  | ok options =>
    have hload : w.load (.host q) options =
        if missed.isNotFound && options.creates then .ok ⟨.empty w.now, false, true⟩
        else .error missed := by
      unfold load
      rw [hthere]
    cases hcreates : missed.isNotFound && options.creates with
    | true =>
      rw [hcreates, if_pos rfl] at hload
      simp only [bind, Except.bind, hload]
      exact Or.inl ⟨_, _, rfl, rfl⟩
    | false =>
      rw [hcreates, if_neg Bool.false_ne_true] at hload
      simp only [bind, Except.bind, hload]
      exact Or.inr ⟨missed, rfl, hmissed⟩

theorem Provider.newFileSystemAt_lost {w : World} {l : Locator} {q : Pathname}
    (hscheme : l.scheme = Locator.jar) (hfile : l.archiveFile = .ok q)
    (hno : q.hasZero = false → ∀ loc k, ¬ w.host.At q loc k) (registry : Nat) (env : Env) :
    (∃ fs v, (archive registry).newFileSystemAt l env w = (.ok fs, v) ∧ v.host = w.host) ∨
      ∃ e, (archive registry).newFileSystemAt l env w = (.error (.error e), w) ∧
        e.isAlreadyExists = false := by
  rw [newFileSystemAt_archive]
  cases hregistered : w.isRegistered registry q with
  | true =>
    have hlocator : mountLocator registry l env w = .error (.alreadyMounted l.text) := by
      unfold mountLocator
      rw [if_neg (not_not_intro hscheme), hfile]
      exact if_pos hregistered
    rw [hlocator]
    exact Or.inr ⟨_, rfl, rfl⟩
  | false =>
    have hlocator : mountLocator registry l env w =
        (w.mount registry (.host q) env (some (registry, q))).map
          fun r => (r.1, r.2.register registry q) := by
      unfold mountLocator
      rw [if_neg (not_not_intro hscheme), hfile]
      change (if w.isRegistered registry q = true then _ else _) = _
      rw [if_neg (Bool.eq_false_iff.mp hregistered)]
      cases w.mount registry (.host q) env (some (registry, q)) <;> rfl
    rw [hlocator]
    rcases World.mount_lost hno registry env (some (registry, q)) with
      ⟨id, v, hmount, hhost⟩ | ⟨e, hmount, he⟩
    · rw [hmount]
      exact Or.inl ⟨_, _, rfl, hhost⟩
    · rw [hmount]
      exact Or.inr ⟨e, rfl, he⟩

namespace Archives

variable {w : World} {file : Pathname}

/-- The archive is refused as being there already, and nothing at all has changed. -/
def Refuses (file : Pathname) (act : Action FileSystem) (w : World) : Prop :=
  act w = (.error (.error (.alreadyExists file.display)), w)

theorem createArchive_of_at {loc : Location} {k : HostKind} (hz : file.hasZero = false)
    (hat : w.host.At file loc k) (env : Env) : Refuses file (createArchive file env) w := by
  have hexists : (Path.host file).exists? w = true := by
    have hcheck := Host.check_of_at hz hat
    change (w.host.check file []).isOk = true
    rw [hcheck]
    rfl
  unfold Refuses createArchive
  rw [Action.get_bind, if_pos hexists]
  exact Action.bind_of_error rfl _

/-- The directory that has a link is there. -/
theorem hasParent_of_link (hw : w.host.WellFormed) (hz : file.hasZero = false) {loc : Location}
    {target : Pathname} (hf : w.host.find .itself file = .ok (loc, .link target)) :
    HasParent file w := by
  obtain ⟨hl, hn⟩ := Host.find_ok.mp hf
  obtain ⟨-, hshort, ha⟩ := Host.lookup_ok.mp hl
  have hkind : w.host.kind? loc = some (.link target) := by
    rw [Host.kind?, hn]
    rfl
  have hstart : ∀ t, w.host.kind? (w.host.startOf file) ≠ some (.link t) := by
    unfold Host.startOf
    split
    · exact Host.ne_link_of_directory (Host.kind?_nil _)
    · exact Host.ne_link_of_directory hw.working
  obtain ⟨n, hlast⟩ := Host.getLast?_of_link hw hkind hstart (Host.advances_of_advance ha)
  obtain ⟨hsegment, hfile⟩ := Pathname.eq_join_of_steps hlast
  rintro above habove hne
  obtain ⟨q, hq, rfl⟩ := Option.map_eq_some_iff.mp habove
  rcases hfile with rfl | ⟨p, hp, rfl⟩
  · -- a name alone is in the working directory, whose path is not asked for
    have hparent : (Pathname.mk n).parent = some .empty := by
      have hsegments : (Pathname.mk n).segments = [n] := Text.pieces_of_not_mem hsegment.2.2.2
      rw [Pathname.parent, hsegments]
      simp only [Pathname.trimmed, List.reverse_nil, List.dropWhile_nil, if_true,
        if_neg hsegment.1]
    rw [hparent] at hq
    cases hq
    exact absurd rfl hne
  · obtain ⟨q', hq', hne', dots, hdots⟩ := Pathname.parent_join hp hsegment
    rw [hq] at hq'
    cases hq'
    obtain ⟨dir, hdir, -⟩ := Host.find_itself_join hp hsegment hf
    exact Path.isDirectory_host.mpr ⟨Pathname.hasZero_parent hq hz,
      dir, hdir.parent_join hsegment hq hne' hdots hshort⟩

/-- Where the directory is there already, an archive is opened by its locator at once. -/
theorem createArchive_of_hasParent {l : Locator} (hno : (Path.host file).exists? w = false)
    (hparent : HasParent file w) (hl : locator file w = .ok l) (env : Env) :
    createArchive file env w = openLocator l (Env.merge (Options.createEnv w.principal) env) w := by
  have hrest : (Action.ask (locator file) >>= fun l => get >>= fun u =>
      openLocator l (Env.merge (Options.createEnv u.principal) env)) w =
        openLocator l (Env.merge (Options.createEnv w.principal) env) w := by
    rw [Action.bind_of_ok (Action.ask_of_ok hl), Action.get_bind]
  unfold createArchive
  rw [Action.get_bind, hno]
  cases habove : (Path.host file).parent? with
  | none => exact hrest
  | some above =>
    by_cases hne : above.pathname.bytes = []
    · simp only [Bool.false_eq_true, if_false, hne, ne_eq, not_true_eq_false]
      exact hrest
    · have hthere : above.makeDirectories w = (.ok (), w) := by
        unfold Path.makeDirectories Path.makeDirectoriesUpTo
        change (if above.isDirectory w = true then (pure () : Action Unit) else _) w = _
        rw [if_pos (hparent above habove hne)]
        rfl
      simp only [Bool.false_eq_true, if_false, hne, ne_eq, not_false_eq_true, if_true]
      rw [Action.bind_of_ok (Action.noted_of_ok hthere _)]
      exact hrest

/-- Where the path is that of a link which leads nowhere, the archive is created without a change to
the host, or refused, though not as being there. -/
theorem createArchive_lost (hw : w.host.WellFormed) (ho : w.host.Occupied file)
    (hno : ∀ loc k, ¬ w.host.At file loc k) (env : Env) :
    (∃ fs v, createArchive file env w = (.ok fs, v) ∧ v.host = w.host) ∨
      ∃ e, createArchive file env w = (.error (.error e), w) ∧ e.isAlreadyExists = false := by
  obtain ⟨hz, loc, node, hf⟩ := ho
  have hparent : HasParent file w := by
    cases node with
    | directory t => exact absurd (Host.at_of_find_itself hf (by simp)) (hno _ _)
    | file data t => exact absurd (Host.at_of_find_itself hf (by simp)) (hno _ _)
    | link target => exact hasParent_of_link hw hz hf
  have hfree : (w.host.absolute file).hasZero = false →
      ∀ l k, ¬ w.host.At (w.host.absolute file) l k := by
    intro _ l k hat
    rcases hat.of_absolute hw with hat | ⟨hempty, -⟩
    · exact hno l k hat
    · exact (Host.lookup_ok.mp (Host.find_ok.mp hf).1).1 hempty
  have hexists : (Path.host file).exists? w = false := by
    obtain ⟨e, hcheck, -⟩ := Host.check_lost (p := file) fun _ => hno
    change (w.host.check file []).isOk = false
    rw [hcheck]
    rfl
  obtain ⟨l, hl⟩ := Locator.exists_forArchive w.host.cwd file
  have hcolon : ':' ∉ Locator.jar.toList := by decide
  obtain ⟨hscheme, hfile⟩ := Locator.archiveFile_forArchive rfl hl hcolon
  rw [createArchive_of_hasParent hexists hparent hl]
  unfold openLocator
  rw [Action.get_bind]
  rcases Provider.newFileSystemAt_lost hscheme hfile hfree installed _ with
    ⟨fs, v, hopened, hhost⟩ | ⟨e, hopened, he⟩
  · exact Or.inl ⟨fs, v, Action.noted_of_ok hopened _, hhost⟩
  · exact Or.inr ⟨.context _ e, Action.noted_of_error hopened _, he⟩

/-- How an action that is to create an archive leaves what has its path already. It is refused if
that is no link, or if the link leads to something; a link that leads nowhere does not count. -/
structure Spares (file : Pathname) (act : Action FileSystem) (w : World) : Prop where
  host : (act w).2.host = w.host
  proper : (∃ loc node, w.host.find .itself file = .ok (loc, node) ∧
    ∀ target, node ≠ .link target) → Refuses file act w
  leads : (∃ loc k, w.host.At file loc k) → Refuses file act w
  lost : (¬ ∃ loc k, w.host.At file loc k) → ∀ e v, act w = (.error (.error e), v) →
    v = w ∧ e.isAlreadyExists = false

/-- What comes after the creation may not fail nor touch the host. -/
theorem Spares.bind {act : Action FileSystem} (h : Spares file act w)
    {f : FileSystem → Action FileSystem}
    (hf : ∀ fs v, ∃ fs' v', f fs v = (.ok fs', v') ∧ v'.host = v.host) :
    Spares file (act >>= f) w := by
  have hrefuses : Refuses file act w → Refuses file (act >>= f) w := fun hact =>
    Action.bind_of_error hact f
  refine ⟨?_, fun hproper => hrefuses (h.proper hproper), fun hat => hrefuses (h.leads hat), ?_⟩
  · have hhost : (act w).2.host = w.host := h.host
    refine Action.bind_world (P := fun v => v.host = w.host) hhost fun fs v hact => ?_
    obtain ⟨fs', v', hrun, hsame⟩ := hf fs v
    rw [hact] at hhost
    rw [hrun]
    exact hsame.trans hhost
  · intro hno e v hrun
    cases hact : act w with
    | mk r u =>
      cases r with
      | ok fs =>
        obtain ⟨fs', v', hok, -⟩ := hf fs u
        rw [Action.bind_of_ok hact, hok] at hrun
        cases hrun
      | error failure =>
        rw [Action.bind_of_error hact] at hrun
        cases hrun
        exact h.lost hno e v hact

theorem spares_createArchive (hw : w.host.WellFormed) (ho : w.host.Occupied file) (env : Env) :
    Spares file (createArchive file env) w := by
  have hleads : (∃ loc k, w.host.At file loc k) → Refuses file (createArchive file env) w := by
    rintro ⟨loc, k, hat⟩
    exact createArchive_of_at ho.1 hat env
  have hlost : (¬ ∃ loc k, w.host.At file loc k) →
      (createArchive file env w).2.host = w.host ∧
        ∀ e v, createArchive file env w = (.error (.error e), v) →
          v = w ∧ e.isAlreadyExists = false := by
    intro hno
    rcases createArchive_lost hw ho (fun loc k hat => hno ⟨loc, k, hat⟩) env with
      ⟨fs, v, hcreated, hhost⟩ | ⟨e, hfailed, he⟩
    · rw [hcreated]
      exact ⟨hhost, fun e v h => by cases h⟩
    · rw [hfailed]
      refine ⟨rfl, fun e' v h => ?_⟩
      cases h
      exact ⟨rfl, he⟩
  refine ⟨?_, ?_, hleads, fun hno => (hlost hno).2⟩
  · by_cases hat : ∃ loc k, w.host.At file loc k
    · rw [hleads hat]
    · exact (hlost hat).1
  · rintro ⟨loc, node, hf, hnode⟩
    exact hleads ⟨loc, _, Host.at_of_find_itself hf hnode⟩

/-- A reproducible archive is created as any other is. -/
theorem createReproducible_eq (env : Env) {time : Option Instant}
    (htime : ∀ t, time = some t → t.onCalendar = true) :
    createReproducible file env time =
      (createArchive file env >>= fun fs => Action.newNumber >>= fun n =>
        pure (.stamping n fs time)) := by
  cases time with
  | none => rfl
  | some t =>
    have ht := htime t rfl
    unfold createReproducible stamping
    simp only [ht, Bool.not_true, Bool.false_eq_true, if_false]

/-- Whatever has the path of a new archive, no file of the host changes. The archive is refused, and
nothing else changes either, if what has the path is no link, or if the link leads to something; a
link that leads nowhere is not taken for something that is there. -/
theorem create_occupied (hw : w.host.WellFormed) (ho : w.host.Occupied file) (env : Env)
    {time : Option Instant} (htime : ∀ t, time = some t → t.onCalendar = true) :
    Spares file (createArchive file env) w ∧ Spares file (createReproducible file env time) w := by
  have hspares := spares_createArchive hw ho env
  refine ⟨hspares, ?_⟩
  rw [createReproducible_eq env htime]
  exact hspares.bind fun fs v => ⟨_, _, rfl, rfl⟩

/-- A host with a file and a link that leads nowhere. -/
def strayHost : Host :=
  ((Host.empty .epoch).add .epoch [[97]] (.link ⟨[47, 98]⟩)).add .epoch [[99]] (.file ⟨#[1]⟩ .epoch)

/-- Nothing is mounted on it. -/
def strayHostWorld : World := .start strayHost (fun _ => .epoch) "me"

theorem strayHost_wellFormed : strayHost.WellFormed := by
  have hempty := Host.wellFormed_empty .epoch
  have hlink : ((Host.empty .epoch).add .epoch [[97]] (.link ⟨[47, 98]⟩)).WellFormed :=
    hempty.add .epoch (Host.kind?_nil _) (by decide) rfl _
  have hfree : ((Host.empty .epoch).add .epoch [[97]] (.link ⟨[47, 98]⟩)).kind? ([] ++ [[99]]) =
      none := rfl
  exact hlink.add .epoch (Host.kind?_nil _) (by decide) hfree _

theorem create_occupied_strayHost :
    Refuses (.ofString "/c") (createArchive (.ofString "/c") []) strayHostWorld ∧
      (createReproducible (.ofString "/a") [] (some .epoch) strayHostWorld).2.host = strayHost ∧
      (createReproducible (.ofString "/a") [] (some .epoch) strayHostWorld).1.isOk = true := by
  have htime : ∀ t, some Instant.epoch = some t → t.onCalendar = true := by
    rintro t ht
    cases ht
    decide
  have hfile : strayHost.find .itself (.ofString "/c") = .ok ([[99]], .file ⟨#[1]⟩ .epoch) := by
    decide +kernel
  have hlink : strayHost.find .itself (.ofString "/a") = .ok ([[97]], .link ⟨[47, 98]⟩) := by
    decide +kernel
  have hthere := create_occupied (w := strayHostWorld) strayHost_wellFormed
    ⟨by decide +kernel, _, _, hfile⟩ [] htime
  have hstray := create_occupied (w := strayHostWorld) strayHost_wellFormed
    ⟨by decide +kernel, _, _, hlink⟩ [] htime
  refine ⟨hthere.1.proper ⟨_, _, hfile, fun target => HostNode.noConfusion⟩, hstray.2.host, ?_⟩
  decide +kernel

end Archives

end ZipMount
