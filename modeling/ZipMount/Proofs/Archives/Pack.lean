import ZipMount.Proofs.Archives.Create
import ZipMount.Proofs.Archives.Entry
import ZipMount.Proofs.Archives.Mirror
import ZipMount.Proofs.Archives.Target
import ZipMount.Proofs.Host.Plain
import ZipMount.Proofs.Mounting.Lifetime

namespace ZipMount

open MemberKey

/-- A place on the host for a new archive: nothing is there or mounted from there, and all that is
missing are directories on the way. -/
structure World.Place (w : World) (a : Pathname) (dir : Location) (n : Filename) : Prop where
  reaches : w.host.Reaches a (dir ++ [n])
  free : w.host.kind? (dir ++ [n]) = none
  /-- The path does not end in a slash. -/
  slashless : a.steps = a.plainSteps
  short : (w.host.absolute a).bytes.length < Host.pathLimit
  working : ∀ m ∈ w.host.workingDirectory, m.length ≤ Host.longestName ∧ 0 ∉ m
  unmounted : w.isRegistered Archives.installed (w.host.absolute a) = false

theorem Host.absolute_of_working {h h' : Host} (hw : h'.workingDirectory = h.workingDirectory)
    (p : Pathname) : h'.absolute p = h.absolute p := by
  rw [absolute, absolute, cwd, cwd, hw]

/-- Where there is no archive file, an empty archive is loaded. -/
theorem World.load_of_free {w : World} {file : Pathname} {dir : Location} {n : Filename}
    (hf : w.host.Free file dir n) (hslash : file.steps = file.plainSteps) {options : Options}
    (hcreates : options.creates = true) :
    w.load (.host file) options = .ok ⟨.empty w.now, false, true⟩ := by
  have hcheck : (Path.host file).provider.check w (.host file) [] =
      .error (.notFound file.display) := Host.check_of_free hf hslash
  unfold load
  rw [hcheck, hcreates]
  rfl

namespace Archives

variable {w u v : World} {a : Pathname} {dir : Location} {n : Filename}

/-- Where nothing is at the path of an archive, and it is not mounted, an empty one is mounted. -/
theorem mountLocator_of_free {file : Pathname} (hf : u.host.Free file dir n)
    (hslash : file.steps = file.plainSteps) {l : Locator} (hscheme : l.scheme = Locator.jar)
    (hfile : l.archiveFile = .ok file) (hreg : u.isRegistered installed file = false) {env : Env}
    {options : Options} (henv : Options.ofEnv env = .ok options) (hcreates : options.creates = true)
    (hmethod : options.method = .deflated) :
    ∃ v m, Provider.mountLocator installed l env u = .ok (u.nextMount installed, v) ∧
      u.Mounted file (u.nextMount installed) m v ∧ v.clock = u.clock := by
  let m : Mount := ⟨.host file, some (installed, file), false, options, true, .empty u.now, true⟩
  let mounted : World := { u.tick with mounts := u.mounts ++ [m] }
  have hmount : u.mount installed (.host file) env (some (installed, file)) =
      .ok (u.nextMount installed, mounted) :=
    World.mount_of_load henv (World.load_of_free hf hslash hcreates) _
  have hrun : Provider.mountLocator installed l env u =
      .ok (u.nextMount installed, mounted.register installed file) := by
    unfold Provider.mountLocator
    rw [hscheme, hfile]
    change (if u.isRegistered installed file then _ else _) = _
    rw [hreg]
    change (u.mount installed (.host file) env (some (installed, file)) >>= _) = _
    rw [hmount]
    rfl
  have hfree : file.hasZero = false → ∀ l k, ¬ u.host.At file l k := by
    intro hz l k hat
    have hfound : u.host.check file [] = .ok () := Host.check_of_at hz hat
    rw [Host.check_of_free hf hslash] at hfound
    cases hfound
  exact ⟨_, m, hrun, ⟨rfl, rfl, rfl, ⟨rfl, rfl, rfl⟩, rfl, hmethod, ⟨u.now, rfl⟩, hfree⟩, rfl⟩

/-- Where nothing is, the directories on the way are made first, and then the archive is opened. -/
theorem createArchive_eq {env : Env} {above : Path} (hno : (Path.host a).exists? w = false)
    (hparent : (Path.host a).parent? = some above) :
    createArchive a env w =
      ((if above.pathname.bytes ≠ [] then
          Action.noted s!"Could not create parent directories of {a.display}" above.makeDirectories
        else pure () : Action Unit) >>= fun _ => Action.ask (locator a) >>= fun l =>
          get >>= fun u => openLocator l (Env.merge (Options.createEnv u.principal) env)) w := by
  unfold createArchive
  rw [Action.get_bind, hno, hparent]
  by_cases hne : above.pathname.bytes ≠ []
  · simp only [Bool.false_eq_true, if_false, if_pos hne]
  · have hskip : (pure () : Action Unit) w = (.ok (), w) := rfl
    simp only [Bool.false_eq_true, if_false, if_neg hne]
    rw [Action.bind_of_ok hskip]

/-- The directories that a new archive is to be in are made, unless it is to be in the working
directory. -/
theorem makeParents (hw : u.host.WellFormed) {q : Pathname} (hr : u.host.Reaches q dir)
    (hz : q.hasZero = false) (note : String) :
    ∃ h t, (if (Path.host q).pathname.bytes ≠ [] then
          Action.noted note (Path.host q).makeDirectories
        else pure () : Action Unit) u = (.ok (), { u with host := h, ticks := t }) ∧
      u.host.Made dir h ∧ ((q.bytes = [] ∧ dir = h.workingDirectory) ∨ h.At q dir .directory) := by
  by_cases hq : q.bytes = []
  · have hskip : ¬ (Path.host q).pathname.bytes ≠ [] := not_not.mpr hq
    refine ⟨u.host, u.ticks, ?_, .refl hw dir, Or.inl ⟨hq, hr.eq_working hq⟩⟩
    rw [if_neg hskip]
    rfl
  · have hgo : (Path.host q).pathname.bytes ≠ [] := hq
    obtain ⟨h, t, hmade, hm, hat⟩ := Path.makeDirectories_of_reaches hw hr hq hz
    refine ⟨h, t, ?_, hm, Or.inr hat⟩
    rw [if_pos hgo]
    exact Action.noted_of_ok hmade note

/-- A new archive is created: the directories on the way to its place are made, and an empty archive
is mounted whose file has a free place. -/
theorem createArchive_of_place (hw : w.host.WellFormed) (ha : w.Place a dir n) :
    ∃ h t v m, createArchive a [] w = (.ok (.archive (w.nextMount installed)), v) ∧
      w.host.Made dir h ∧ h.Free a dir n ∧ h.Free (w.host.absolute a) dir n ∧
      (w.host.absolute a).steps = (w.host.absolute a).plainSteps ∧
      ({ w with host := h, ticks := t } : World).Mounted (w.host.absolute a)
        (w.nextMount installed) m v ∧ v.clock = w.clock := by
  obtain ⟨q, hq, hreaches, hends, hshort, hzero, hname⟩ := ha.reaches.parent_of_free hw ha.free
  have hparent : (Path.host a).parent? = some (.host q) := by
    rw [Path.parent?, hq]
    rfl
  obtain ⟨h, t, hmade, hm, hthere⟩ := makeParents hw hreaches (Pathname.hasZero_parent hq hzero)
    s!"Could not create parent directories of {a.display}"
  have hfree : h.Free a dir n := hm.free hq hthere hends hshort hzero hname ha.free
  have habsolute : h.absolute a = w.host.absolute a := Host.absolute_of_working hm.working a
  have hworking : ∀ m ∈ h.workingDirectory, m.length ≤ Host.longestName ∧ 0 ∉ m := by
    rw [hm.working]
    exact ha.working
  obtain ⟨hfile, hslash⟩ := hfree.absolute hm.wellFormed hworking (habsolute ▸ ha.short) ha.slashless
  rw [habsolute] at hfile hslash
  let u : World := { w with host := h, ticks := t }
  obtain ⟨l, hl⟩ := Locator.exists_forArchive h.cwd a
  have hcolon : ':' ∉ Locator.jar.toList := by decide
  obtain ⟨hscheme, harchive⟩ := Locator.archiveFile_forArchive rfl hl hcolon
  have harchive : l.archiveFile = .ok (w.host.absolute a) := by
    rw [harchive, ← habsolute]
    rfl
  have henv : Options.ofEnv (Env.merge (Options.ownerEnv w.principal)
      (Env.merge (Options.createEnv w.principal) [])) =
        .ok ⟨some true, some w.principal, some w.principal, none⟩ := rfl
  obtain ⟨v, m, hrun, hmounted, hclock⟩ := mountLocator_of_free (u := u) hfile hslash hscheme harchive
    ha.unmounted henv rfl rfl
  have hnew : (Provider.archive installed).newFileSystemAt l (Env.merge
      (Options.ownerEnv w.principal) (Env.merge (Options.createEnv w.principal) [])) u =
        (.ok (.archive (w.nextMount installed)), v) := by
    rw [Provider.newFileSystemAt_archive, hrun]
    rfl
  refine ⟨h, t, v, m, ?_, hm, hfree, hfile, hslash, hmounted, hclock⟩
  have hlocated : locator a u = .ok l := hl
  have hopened := Action.noted_of_ok hnew s!"Failed to create a new filesystem for {l.text}"
  rw [createArchive_eq (Path.exists?_of_reaches ha.reaches ha.free) hparent,
    Action.bind_of_ok hmade, Action.bind_of_ok (Action.ask_of_ok hlocated)]
  exact hopened

/-- What is beneath a plain directory of the host is its own kind of contents. -/
theorem content?_under {p : Pathname} {loc : Location} (hw : w.host.WellFormed)
    (hp : w.host.Plain p loc) {r : List Filename} {kind : HostKind}
    (hk : w.host.kind? (loc ++ r) = some kind) :
    ∃ c, (Path.host (p.under r)).content? w = some c ∧ kind = c.kind := by
  have hsome : w.host.kind? (loc ++ r) ≠ none := by
    rw [hk]
    exact Option.some_ne_none kind
  have hcontent : ∃ c, kind.content? = some c := by
    cases kind with
    | directory => exact ⟨_, rfl⟩
    | file data => exact ⟨_, rfl⟩
    | link target => exact absurd hk (hp.linkless r target)
  obtain ⟨c, hc⟩ := hcontent
  refine ⟨c, Path.content?_host.mpr ⟨hp.hasZero_under hsome, _, kind, hp.at_under hw hk, hc⟩, ?_⟩
  exact HostKind.content?_eq_some.mp hc

/-- An entry that is new in an archive is put there, if its parent is a directory. -/
theorem copyEntry_new {j : MountId} {m : Mount} {k : MemberKey} (hm : w.writableMount j = .ok m)
    (hk : Canonical k) (hfind : m.tree.find? k = none) (hparent : m.tree.checkParent k = .ok ())
    {p : Path} {c : Content} (hc : p.content? w = some c) :
    copyEntry p (.ofKey j k) w =
      (.ok (), w.tick.setTree j m (m.tree.insert k ⟨c, .all w.now⟩)) := by
  cases c with
  | directory =>
    rw [copyEntry_directory hc, Path.ensureDirectory_ofKey hm hk, hfind, hparent]
    rfl
  | file data =>
    rw [copyEntry_file hc, Path.replace_ofKey hm hk, hfind, hparent]
    rfl

/-- A world in which some entries of a directory were put to a mount. -/
structure Packing (u : World) (loc : Location) (id : MountId) (m : Mount) (done : List MemberKey)
    (w : World) : Prop where
  same : u.SameBut id m (fun t => t.Packed u.host loc done) w
  clock : w.clock = u.clock

variable {p : Pathname} {loc : Location} {id : MountId} {m : Mount} {done : List MemberKey}

/-- One more entry is put. -/
theorem Packing.copyBeneath (hpack : Packing u loc id m done w) (hm : m.Ready)
    (hclock : ∀ i, (u.clock i).onCalendar = true) (hw : u.host.WellFormed)
    (hp : u.host.Plain p loc) {k : MemberKey} (hkind : u.host.kind? (loc ++ k.filenames) ≠ none)
    (hnew : k ∉ done) (hparent : k ≠ [] → parent k ∈ done) :
    ∃ w', copyBeneath (.host p) (.ofKey id []) (.host (p.under k.filenames)) w = (.ok (), w') ∧
      Packing u loc id m (done ++ [k]) w' := by
  have hdir : k ≠ [] → u.host.kind? (loc ++ (parent k).filenames) = some .directory :=
    fun hne => kind?_parent hw hne hkind
  obtain ⟨kind, hkind⟩ := Option.ne_none_iff_exists'.mp hkind
  have hk : Canonical k := canonical_of_isSegment (Host.Plain.isSegment hw hkind)
  obtain ⟨t, ht, htree⟩ := hpack.same.mount
  have hwritable : w.writableMount id = .ok { m with tree := t } :=
    World.writableMount_ok.mpr ⟨ht, hm.isOpen, hm.readOnly⟩
  have hhost : w.host = u.host := hpack.same.host
  obtain ⟨c, hc, rfl⟩ := content?_under (w := w) (hhost ▸ hw) (hhost ▸ hp) (hhost ▸ hkind)
  rw [copyBeneath_of_destination (destination_root hp.leads.1 hk)]
  by_cases hne : k = []
  · -- the root of the archive is there already
    subst hne
    have hroot : loc ++ filenames [] = loc := List.append_nil loc
    rw [hroot, hp.leads.kind] at hkind
    cases c with
    | file data => cases hkind
    | directory =>
      refine ⟨w, ?_, ⟨hpack.same.host, hpack.same.others, t, ht, htree.root⟩, hpack.clock⟩
      apply Action.noted_of_ok
      rw [copyEntry_directory hc, Path.ensureDirectory_ofKey hwritable hk]
      rfl
  · have hcheck := htree.checkParent (hparent hne) (hdir hne)
    have hentry := copyEntry_new hwritable hk (htree.find?_eq_none hne hnew) hcheck hc
    refine ⟨_, Action.noted_of_ok hentry _, ?_, hpack.clock⟩
    apply hpack.same.tick.setTree hm ht
    apply htree.insert hne hk hnew hcheck hkind
    change (w.clock w.ticks).onCalendar = true
    rw [hpack.clock]
    exact hclock _

/-- The walk of a directory whose names are text comes to keys. -/
theorem walk_keys (hw : w.host.WellFormed) (hp : w.host.Plain p loc)
    (htexts : w.host.TextNames loc) (order : WalkOrder) :
    ∃ ks : List MemberKey,
      (Path.host p).walk order w = .ok (ks.map fun k => .host (p.under k.filenames)) ∧
      (∀ k : MemberKey, k ∈ ks ↔ w.host.kind? (loc ++ k.filenames) ≠ none) ∧ ParentsFirst ks := by
  obtain ⟨l, hwalk, hall, hforward⟩ := Host.walk_plain hw hp order
  obtain ⟨ks, rfl⟩ := exists_map_filenames fun r hr => htexts r ((hall r).mp hr)
  have hmem : ∀ k : MemberKey, k ∈ ks ↔ w.host.kind? (loc ++ k.filenames) ≠ none := by
    intro k
    rw [← hall]
    constructor
    · exact List.mem_map_of_mem
    · intro hk
      obtain ⟨j, hj, hsame⟩ := List.mem_map.mp hk
      exact filenames_inj hsame ▸ hj
  refine ⟨ks, ?_, hmem, ?_⟩
  · have hunfold : (Path.host p).walk order w =
        ((w.host.walk order p).mapError Host.WalkFault.error >>= fun ps =>
          pure (ps.map .host)) := rfl
    rw [hunfold, hwalk, List.map_map]
    change Except.ok (((ks.map (p.under ∘ filenames)).map Path.host)) = _
    rw [List.map_map]
    rfl
  · refine parentsFirst_of_forward hforward fun k hk hne => (hmem _).mpr ?_
    rw [kind?_parent hw hne ((hmem k).mp hk)]
    exact Option.some_ne_none _

/-- A directory of the host whose names are text is put whole. -/
theorem copyIntoArchive_packs (hw : v.host.WellFormed) (hp : v.host.Plain p loc)
    (htexts : v.host.TextNames loc) (hclock : ∀ i, (v.clock i).onCalendar = true) (hm : m.Ready)
    (hmount : v.mount? id = some m) (hempty : ∃ now, m.tree = .empty now) :
    ∃ w' t, copyIntoArchive (.host p) (.archive id) .natural v = (.ok (), w') ∧
      w'.host = v.host ∧ w'.mount? id = some { m with tree := t } ∧ t.WellFormed ∧
      (∀ km ∈ t.members, km.2.times.modified.onCalendar = true) ∧ t.Mirrors v.host loc := by
  obtain ⟨ks, hwalk, hmem, hfirst⟩ := walk_keys hw hp htexts .natural
  have hdirectory : (Path.host p).isDirectory v = true :=
    Path.isDirectory_host.mpr ⟨hp.noZero, loc, hp.leads⟩
  have hstart : Packing v loc id m [] v := by
    obtain ⟨now, hnow⟩ := hempty
    refine ⟨⟨rfl, fun _ _ => rfl, m.tree, hmount, ?_⟩, rfl⟩
    rw [hnow]
    exact Tree.packed_empty now v.host loc
  have hstep : ∀ before k after, ks = before ++ k :: after → ∀ w, Packing v loc id m before w →
      ∃ w', copyBeneath (.host p) (.ofKey id []) (.host (p.under k.filenames)) w = (.ok (), w') ∧
        Packing v loc id m (before ++ [k]) w' := by
    intro before k after hks w hpack
    obtain ⟨hnew, hparent⟩ := hfirst before k after hks
    have hk : k ∈ ks := by
      rw [hks]
      exact List.mem_append_right before List.mem_cons_self
    exact hpack.copyBeneath hm hclock hw hp ((hmem k).mp hk) hnew hparent
  obtain ⟨w', hrun, hpack⟩ := Action.forM_of_steps hstep hstart
  obtain ⟨t, ht, htree⟩ := hpack.same.mount
  have hmirrors : t.Mirrors v.host loc := by
    refine htree.mirrors hp.leads.kind fun r hr => ?_
    obtain ⟨k, rfl⟩ := htexts r hr
    exact ⟨k, rfl, (hmem k).mpr hr⟩
  refine ⟨w', t, ?_, hpack.same.host, ht, htree.wellFormed, htree.dated, hmirrors⟩
  unfold copyIntoArchive
  rw [Action.get_bind, hdirectory]
  change copyTree (.host p) (.ofKey id []) .natural v = _
  unfold copyTree
  rw [Action.bind_of_ok (Action.ask_of_ok hwalk), Action.forM_map fun _ _ => rfl]
  exact hrun

/-- The image of a directory whose paths can be looked up can be written. -/
theorem encode_of_mirrors {t : Tree} {h : Host} (hw : t.WellFormed) (ht : t.Mirrors h loc)
    (hp : h.Plain p loc) (hdated : ∀ km ∈ t.members, km.2.times.modified.onCalendar = true)
    (method : Compression) : ∃ b, t.encode method = .ok b := by
  refine Tree.encode_of_dated method hdated ?_
  rintro ⟨k, x⟩ hkm
  have hk : Canonical k := hw.canonical k (List.mem_map_of_mem hkm)
  have hsome : h.kind? (loc ++ k.filenames) ≠ none := by
    rw [← ht.kinds, Tree.kind?, hw.get?_of_mem hkm]
    exact Option.some_ne_none _
  have hshort := hp.short _ hsome
  have hlimit : Host.pathLimit = 4096 := rfl
  have htext := Pathname.length_text_le p hk
  change (Text.bytes k.text).length < 65535
  omega

/-- A mount whose file has a free place is written there when it is closed. -/
theorem close_of_free {file : Pathname} (hf : w.host.Free file dir n)
    (hslash : file.steps = file.plainSteps) (hmount : w.mount? id = some m) (hm : m.Ready)
    (hbacking : m.backing = .host file) {b : ByteArray} (hb : m.tree.encode m.options.method = .ok b) :
    ∃ now w' m', FileSystem.close (.archive id) w = (.ok (), w') ∧
      w'.host = w.host.add now (dir ++ [n]) (.file b now) ∧ w'.mount? id = some m' ∧
      m'.tree = m.tree := by
  let closed := w.setMount id m.closed
  have hwrite : m.backing.provider.write closed m.backing b .replace =
      .ok { closed.tick with host := w.host.add w.now (dir ++ [n]) (.file b w.now) } := by
    have hchange : m.backing.provider.write closed m.backing b .replace =
        closed.tick.changeHost file fun h => h.write w.now file b .replace := by
      rw [hbacking]
      rfl
    rw [hchange]
    unfold World.changeHost
    change (Host.answer file (w.host.write w.now file b .replace) >>= _) = _
    rw [Host.write_of_free hf hslash]
    rfl
  let written : World := { closed.tick with
    host := w.host.add w.now (dir ++ [n]) (.file b w.now) }
  have hclosed : written.mount? id = some m.closed :=
    (World.mount?_setMount hmount m.closed id).trans (if_pos rfl)
  have hrun : w.closeMount id m = _ := World.closeMount_writes hm.dirty hm.readOnly hb
  rw [hwrite] at hrun
  refine ⟨w.now, _, { m.closed with dirty := false },
    (World.close_of_open hmount hm.isOpen).trans hrun, ?_, ?_, ?_⟩
  · rw [World.host_release]
    rfl
  · rw [World.mount?, World.mounts_release]
    exact (World.mount?_setMount hclosed _ id).trans (if_pos rfl)
  · rfl

/-- Packing a directory of the host into a new archive succeeds, whatever is in it, if its names are
text. The file that is written is that of the image of the directory. -/
theorem zipTree_packs (hw : w.host.WellFormed) (ha : w.Place a dir n) (hp : w.host.Plain p loc)
    (htexts : w.host.TextNames loc) (hout : ¬ loc <+: dir ++ [n])
    (hclock : ∀ i, (w.clock i).onCalendar = true) :
    ∃ h now w' m b, zipTree (.host p) a w = (.ok (), w') ∧ w.host.Made dir h ∧ h.Free a dir n ∧
      w'.host = h.add now (dir ++ [n]) (.file b now) ∧
      w'.mount? (w.nextMount installed) = some m ∧ m.tree.WellFormed ∧
      m.tree.Mirrors w.host loc ∧ m.tree.encode .deflated = .ok b := by
  obtain ⟨h, t, v, m, hcreate, hmade, hfree, hfile, hslash, hmounted, hclock'⟩ :=
    createArchive_of_place hw ha
  have hout' : ¬ loc <+: dir := fun hpre => hout (hpre.trans (List.prefix_append dir [n]))
  have hsame := hmade.kind?_beneath hout'
  have hhost : v.host = h := hmounted.host
  have hplain : h.Plain p loc := hp.made hmade hout'
  have htexts' : h.TextNames loc := by
    intro r hr
    rw [hsame] at hr
    exact htexts r hr
  have hmount : v.mount? (w.nextMount installed) = some m := by
    rw [World.mount?, hmounted.mounts]
    exact List.getElem?_concat_length
  obtain ⟨u, t, hcopy, huhost, humount, hwf, hdated, hmirrors⟩ := copyIntoArchive_packs
    (v := v) (hhost ▸ hmade.wellFormed) (hhost ▸ hplain)
    (hhost ▸ htexts') (hclock' ▸ hclock) hmounted.ready hmount hmounted.empty
  rw [hhost] at huhost hmirrors
  obtain ⟨b, hb⟩ := encode_of_mirrors hwf hmirrors hplain hdated .deflated
  have hready : ({ m with tree := t } : Mount).Ready :=
    ⟨hmounted.ready.isOpen, hmounted.ready.readOnly, hmounted.ready.dirty⟩
  have hmethod : m.options.method = .deflated := hmounted.method
  obtain ⟨now, w', m', hclose, hwhost, hwmount, htree⟩ := close_of_free (w := u) (m := { m with tree := t })
    (huhost ▸ hfile) hslash humount hready hmounted.backing (hmethod ▸ hb)
  have hmirrors' : m'.tree.Mirrors w.host loc := by
    rw [htree]
    exact hmirrors.congr fun r => (hsame r).symm
  refine ⟨h, now, w', m', b, ?_, hmade, hfree, huhost ▸ hwhost, hwmount, htree ▸ hwf, hmirrors',
    htree ▸ hb⟩
  have hnew : openOrCreate a [] w = (.ok (.archive (w.nextMount installed)), v) := by
    unfold openOrCreate
    rw [Action.get_bind, Path.exists?_of_reaches ha.reaches ha.free]
    exact hcreate
  unfold zipTree
  rw [Action.bind_of_ok hnew]
  unfold FileSystem.andThen
  rw [hcopy]
  exact hclose

end Archives

end ZipMount
