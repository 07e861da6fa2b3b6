import ZipMount.Proofs.Archives.Confined
import ZipMount.Proofs.Archives.Mirror
import ZipMount.Proofs.Archives.Target
import ZipMount.Proofs.Host.Plain

namespace ZipMount

open MemberKey

namespace Host

variable {h : Host} {p : Pathname} {l loc : Location}

/-- A file that is there can be read and written. -/
theorem check_of_file (hz : p.hasZero = false) {data : ByteArray} (hat : h.At p l (.file data))
    {modes : List AccessMode} (hmodes : .execute ∉ modes) : h.check p modes = .ok () := by
  obtain ⟨node, hfind, hkind⟩ := find_target_iff.mpr hat
  cases node with
  | directory t => cases hkind
  | link target => cases hkind
  | file data' t =>
    have haccess : h.access p modes = .ok () := by
      unfold access
      rw [hz, hfind]
      change (if .execute ∈ modes then _ else _) = _
      rw [if_neg hmodes]
      rfl
    unfold check
    rw [haccess]
    rfl

/-- A directory that is there is not made again. -/
theorem makeDirectory_of_at (hz : p.hasZero = false) (hat : h.At p l .directory) (now : Instant) :
    h.makeDirectory now p = .error (.host .exists) := by
  obtain ⟨j, hj, hl⟩ := hat.leads_plainSteps
  obtain ⟨x, hx⟩ : ∃ x, h.lookup .itself p p.plainSteps = .ok (.entry x) := by
    rcases advance_itself hl hj with hself | ⟨l', target, hlink, -⟩
    · exact ⟨_, lookup_ok.mpr ⟨hat.1, hat.2, hself⟩⟩
    · exact ⟨_, lookup_ok.mpr ⟨hat.1, hat.2, hlink⟩⟩
  unfold makeDirectory onPath
  rw [hz, hx]
  rfl

end Host

/-- An archive file that can be read is loaded as what is read. It is taken to be writable. -/
theorem World.load_of_at {w : World} {a : Pathname} {la : Location} (hz : a.hasZero = false)
    {b : ByteArray} (hat : w.host.At a la (.file b)) {t : Tree} (ht : Tree.decode w.now b = .ok t)
    (options : Options) :
    w.load (Path.host a).assumingWritable options = .ok ⟨t, false, false⟩ := by
  let backing := (Path.host a).assumingWritable
  have hthere : backing.provider.check w backing [] = .ok () :=
    Host.check_of_file hz hat List.not_mem_nil
  have hreadable : backing.provider.check w backing [.read] = .ok () :=
    Host.check_of_file hz hat (by decide)
  have hwritable : w.probeWriting backing = .ok false := rfl
  have hread : backing.provider.read w backing = .ok b := by
    have hhost : backing.provider.read w backing = Host.answer a (w.host.read a) := rfl
    rw [hhost, Host.read_of_at hz hat]
    rfl
  unfold load
  rw [hthere]
  change w.loadFile backing = _
  unfold loadFile
  rw [hreadable, hwritable, hread]
  change (Error.noted _ (Tree.decode w.now b) >>= fun tree =>
    (pure ⟨tree, false, false⟩ : Except Error Loaded)) = _
  rw [ht]
  rfl

namespace Archives

variable {w v : World} {a p : Pathname} {la loc : Location} {id : MountId} {m : Mount}
  {done : List MemberKey} {k : MemberKey}

/-- An archive file that can be read is opened as what is read. -/
theorem openArchive_of_at (hz : a.hasZero = false) {b : ByteArray} (hat : w.host.At a la (.file b))
    {t : Tree} (ht : Tree.decode w.now b = .ok t) :
    ∃ id m v, openArchive (.host a) [] w = (.ok (.archive id), v) ∧ v.host = w.host ∧
      v.Opened id m ∧ m.tree = t := by
  let options : Options := ⟨none, some w.principal, some w.principal, none⟩
  have henv : Options.ofEnv (Env.merge (Options.ownerEnv w.principal) []) = .ok options := rfl
  have hload := World.load_of_at hz hat ht options
  exact ⟨_, _, _, openArchive_of_mount (World.mount_of_load henv hload none), rfl,
    ⟨List.getElem?_concat_length, rfl, rfl, (Tree.starting_decode ht).wellFormed⟩, rfl⟩

/-- The members can be copied to beneath a path: each path there can be looked up, and what has a
parent is in a directory. -/
structure Fits (t : Tree) (p : Pathname) : Prop where
  short : ∀ k : MemberKey, t.kind? k ≠ none → (p.under k.filenames).bytes.length < Host.pathLimit
  names : ∀ k : MemberKey, t.kind? k ≠ none → ∀ n ∈ k.filenames, n.length ≤ Host.longestName ∧ 0 ∉ n
  parents : ∀ k : MemberKey, k ≠ [] → t.kind? k ≠ none → t.kind? (parent k) = some .directory

/-- A host on which some members were copied to beneath a path that leads to a new directory. -/
structure Unpacking (t : Tree) (p : Pathname) (loc : Location) (done : List MemberKey) (h : Host) :
    Prop where
  wellFormed : h.WellFormed
  plain : h.Plain p loc
  kinds : ∀ k ∈ done, h.kind? (loc ++ k.filenames) = t.kind? k
  names : ∀ r, h.kind? (loc ++ r) ≠ none → r = [] ∨ ∃ k ∈ done, r = k.filenames

namespace Unpacking

variable {t : Tree} {h : Host}

/-- The target itself is there from the start. -/
theorem root (hu : Unpacking t p loc done h) : Unpacking t p loc (done ++ [[]]) h := by
  refine ⟨hu.wellFormed, hu.plain, ?_, ?_⟩
  · intro k hk
    rcases List.mem_append.mp hk with hk | hk
    · exact hu.kinds k hk
    · rw [List.mem_singleton.mp hk]
      have hroot : loc ++ filenames [] = loc := List.append_nil loc
      rw [hroot, hu.plain.leads.kind]
      rfl
  · intro r hr
    rcases hu.names r hr with hnil | ⟨k, hk, hsame⟩
    · exact Or.inl hnil
    · exact Or.inr ⟨k, List.mem_append_left _ hk, hsame⟩

/-- The place of a member that is still to be copied is free. -/
theorem free (hu : Unpacking t p loc done h) (hk : k ≠ []) (hnew : k ∉ done) :
    h.kind? (loc ++ k.filenames) = none := by
  by_contra hsome
  rcases hu.names _ hsome with hnil | ⟨j, hj, hsame⟩
  · exact hk (List.map_eq_nil_iff.mp hnil)
  · exact hnew (filenames_inj hsame ▸ hj)

theorem add (hu : Unpacking t p loc done h) (hfit : Fits t p) (hnew : k ∉ done)
    {q : Pathname} {dir : Location} {n : Filename} (hf : h.Free q dir n)
    (hloc : loc ++ k.filenames = dir ++ [n]) {c : Content} (hkind : t.kind? k = some c.kind)
    (now : Instant) {node : HostNode} (hnode : node.kind = c.kind) :
    Unpacking t p loc (done ++ [k]) (h.add now (dir ++ [n]) node) := by
  have hsome : t.kind? k ≠ none := by
    rw [hkind]
    exact Option.some_ne_none _
  have hlink : ∀ target, node.kind ≠ .link target := by
    intro target
    rw [hnode]
    cases c <;> exact HostKind.noConfusion
  have hadd := Host.kind?_add_beneath h now hloc node
  rw [hnode] at hadd
  refine ⟨hf.wellFormed_add hu.wellFormed now node,
    hu.plain.add hf.free hloc now hlink (hfit.names k hsome) (hfit.short k hsome), ?_, ?_⟩
  · intro j hj
    rw [hadd]
    rcases List.mem_append.mp hj with hj | hj
    · have hother : j.filenames ≠ k.filenames := fun heq => hnew (filenames_inj heq ▸ hj)
      rw [if_neg hother]
      exact hu.kinds j hj
    · rw [List.mem_singleton.mp hj, if_pos rfl, hkind]
  · intro r hr
    rw [hadd] at hr
    split at hr
    · next hlast => exact Or.inr ⟨k, List.mem_append_right _ List.mem_cons_self, hlast⟩
    · rcases hu.names r hr with hnil | ⟨j, hj, hsame⟩
      · exact Or.inl hnil
      · exact Or.inr ⟨j, List.mem_append_left _ hj, hsame⟩

/-- The path of a member that is still to be copied leads to a free name, its parent being there. -/
theorem exists_free (hu : Unpacking t p loc done h) (hfit : Fits t p) (hk : k ≠ [])
    (hsome : t.kind? k ≠ none) (hcanonical : Canonical k) (hnew : k ∉ done)
    (hparent : parent k ∈ done) :
    ∃ dir n, loc ++ k.filenames = dir ++ [n] ∧ h.Free (p.under k.filenames) dir n ∧
      (p.under k.filenames).steps = (p.under k.filenames).plainSteps := by
  obtain ⟨n, hn⟩ := filenames_eq_concat hk
  have hloc : loc ++ k.filenames = loc ++ (parent k).filenames ++ [n] := by
    rw [hn, ← List.append_assoc]
  have hdir : h.At (p.under (parent k).filenames) (loc ++ (parent k).filenames) .directory := by
    apply hu.plain.at_under hu.wellFormed
    rw [hu.kinds _ hparent]
    exact hfit.parents k hk hsome
  have hlast : n ∈ k.filenames := by
    rw [hn]
    exact List.mem_append_right _ List.mem_cons_self
  have hsegment : IsSegment n := isSegment_of_mem hcanonical n hlast
  have hshort := hfit.short k hsome
  have hzero : (p.under k.filenames).hasZero = false :=
    Pathname.hasZero_under hu.plain.noZero fun s hs => (hfit.names k hsome s hs).2
  have hjoin : p.under k.filenames = (p.under (parent k).filenames).join ⟨n⟩ := by
    rw [hn, Pathname.under_concat]
  refine ⟨_, n, hloc, ?_⟩
  rw [hjoin] at hshort hzero ⊢
  exact ⟨Host.free_join hdir hsegment hshort hzero (hfit.names k hsome n hlast).1
    (hloc ▸ hu.free hk hnew), Host.steps_eq_plainSteps_join hdir.1 hsegment⟩

end Unpacking

/-- An entry is copied to a free name. -/
theorem copyEntry_of_free {source : Path} {q : Pathname} {dir : Location} {n : Filename}
    (hf : w.host.Free q dir n) (hslash : q.steps = q.plainSteps) {c : Content}
    (hc : source.content? w = some c) :
    ∃ node, copyEntry source (.host q) w =
        (.ok (), { w.tick with host := w.host.add w.now (dir ++ [n]) node }) ∧
      node.kind = c.kind := by
  cases c with
  | directory =>
    rw [copyEntry_directory hc]
    exact ⟨.directory w.now, Path.ensureDirectory_of_free hf, rfl⟩
  | file data =>
    rw [copyEntry_file hc, Path.write_host, Host.write_of_free hf hslash]
    exact ⟨.file data w.now, rfl, rfl⟩

/-- A directory is copied to one that is there. -/
theorem copyEntry_of_at {source : Path} (hz : p.hasZero = false)
    (hat : w.host.At p loc .directory) (hc : source.content? w = some .directory) :
    copyEntry source (.host p) w = (.ok (), w) := by
  have hthere : (Path.host p).isDirectory w = true := Path.isDirectory_host.mpr ⟨hz, loc, hat⟩
  rw [copyEntry_directory hc, Path.ensureDirectory_host, Host.makeDirectory_of_at hz hat]
  simp only [hthere, Bool.and_true]
  exact if_pos rfl

/-- A member that fits is copied to its place, its parent being there. -/
theorem extract_unpacks (hv : v.Opened id m) (hu : Unpacking m.tree p loc done v.host)
    (hfit : Fits m.tree p) (hsome : m.tree.kind? k ≠ none) (hcanonical : Canonical k)
    (hnew : k ∉ done) (hparent : k ≠ [] → parent k ∈ done) :
    ∃ v', extract id p k v = (.ok (), v') ∧ v'.mounts = v.mounts ∧
      Unpacking m.tree p loc (done ++ [k]) v'.host := by
  have hopen : v.openMount id = .ok m := World.openMount_ok.mpr ⟨hv.mount, hv.isOpen⟩
  obtain ⟨kind, hkind⟩ := Option.ne_none_iff_exists'.mp hsome
  obtain ⟨x, hx, rfl⟩ := Option.map_eq_some_iff.mp hkind
  have hcontent : (Path.ofKey id k).content? v = some x.content :=
    (Path.content?_ofKey hcanonical).mpr ⟨m, x, hopen, hx, rfl⟩
  by_cases hk : k = []
  · subst hk
    cases hx
    have hcopy : copyEntry (.ofKey id []) (.host p) v = (.ok (), v) :=
      copyEntry_of_at hu.plain.noZero hu.plain.leads hcontent
    exact ⟨v, Action.noted_of_ok hcopy _, rfl, hu.root⟩
  · obtain ⟨dir, n, hloc, hf, hslash⟩ :=
      hu.exists_free hfit hk hsome hcanonical hnew (hparent hk)
    obtain ⟨node, hcopy, hnode⟩ := copyEntry_of_free hf hslash hcontent
    exact ⟨_, Action.noted_of_ok hcopy _, rfl, hu.add hfit hnew hf hloc hkind v.now hnode⟩

theorem mem_unpacked (hm : v.Opened id m) : k ∈ unpacked m ↔ m.tree.kind? k ≠ none := by
  rw [unpacked, hm.wellFormed.mem_preorder .natural (Nat.le_add_left _ _)]
  by_cases hk : k = []
  · subst hk
    exact iff_of_true (Or.inl rfl) (Option.some_ne_none _)
  · rw [Tree.mem_order_iff hk, Tree.kind?, ← Option.isSome_iff_ne_none, Option.isSome_map]
    simp [hk]

theorem parentsFirst_unpacked (hm : v.Opened id m) (hp : p.bytes ≠ []) :
    ParentsFirst (unpacked m) := by
  have hkeys := unpacks hm hp
  intro before k after hks
  refine ⟨?_, hkeys.parents before k after hks⟩
  intro hbefore
  have hforward := hkeys.forward
  rw [hks, List.pairwise_append] at hforward
  exact hforward.2.2 k hbefore k List.mem_cons_self List.prefix_rfl

/-- A new directory has nothing in it. -/
theorem unpacking_of_made {t : Tree} {h h' : Host} (hw : h.WellFormed) (hmade : h.Made loc h')
    (hz : p.hasZero = false) (hat : h'.At p loc .directory) (hfree : h.kind? loc = none) :
    Unpacking t p loc [] h' := by
  have hnil : ∀ r, h'.kind? (loc ++ r) ≠ none → r = [] := by
    intro r hr
    by_contra hne
    have hlonger : ¬ loc ++ r <+: loc := by
      intro hpre
      have hlength := hpre.length_le
      have hpos := List.length_pos_iff.mpr hne
      rw [List.length_append] at hlength
      omega
    rw [hmade.others _ hlonger] at hr
    obtain ⟨k, hk⟩ := Option.ne_none_iff_exists'.mp hr
    rw [hw.kind?_prefix hk hne] at hfree
    cases hfree
  refine ⟨hmade.wellFormed, ⟨hat, hz, ?_, ?_, ?_⟩, ?_, fun r hr => Or.inl (hnil r hr)⟩
  · intro r target hlink
    have hr := hnil r (by rw [hlink]; exact Option.some_ne_none _)
    subst hr
    rw [List.append_nil, hat.kind] at hlink
    cases hlink
  · intro r hr n hn
    rw [hnil r hr] at hn
    cases hn
  · intro r hr
    rw [hnil r hr]
    exact hat.2
  · exact fun k hk => (List.not_mem_nil hk).elim

/-- Once all members are copied, they are the image of the new directory. -/
theorem mirrors_of_unpacking {h : Host} (hm : v.Opened id m)
    (hu : Unpacking m.tree p loc (unpacked m) h) : m.tree.Mirrors h loc := by
  have hroot : [] ∈ unpacked m := (mem_unpacked hm).mpr (Option.some_ne_none _)
  have htexts : ∀ r, h.kind? (loc ++ r) ≠ none → ∃ k ∈ unpacked m, r = k.filenames := by
    intro r hr
    rcases hu.names r hr with rfl | hk
    · exact ⟨[], hroot, rfl⟩
    · exact hk
  refine ⟨?_, ?_⟩
  · intro k
    by_cases hk : k ∈ unpacked m
    · exact (hu.kinds k hk).symm
    · have hnone : m.tree.kind? k = none := not_not.mp fun hsome => hk ((mem_unpacked hm).mpr hsome)
      rw [hnone]
      symm
      by_contra hsome
      obtain ⟨j, hj, hsame⟩ := htexts _ hsome
      exact hk (filenames_inj hsame ▸ hj)
  · intro r hr
    obtain ⟨k, -, hsame⟩ := htexts r hr
    exact ⟨k, hsame⟩

/-- All members of an archive are copied, if they fit. -/
theorem copyAll_unpacks (hm : v.Opened id m) (hne : p.bytes ≠ []) (hfit : Fits m.tree p)
    (hu : Unpacking m.tree p loc [] v.host) :
    ∃ v', (unpacked m).forM (extract id p) v = (.ok (), v') ∧ v'.mounts = v.mounts ∧
      Unpacking m.tree p loc (unpacked m) v'.host := by
  -- what is copied so far is closed under parents, since the keys are in walk order
  refine Action.forM_of_steps
    (P := fun before w => w.mounts = v.mounts ∧ Unpacking m.tree p loc before w.host) ?_ ⟨rfl, hu⟩
  rintro before k after hks w ⟨hmounts, hu⟩
  have hk : k ∈ unpacked m := by
    rw [hks]
    exact List.mem_append_right before List.mem_cons_self
  obtain ⟨hnew, hparent⟩ := parentsFirst_unpacked hm hne before k after hks
  obtain ⟨w', hrun, hmounts', hu'⟩ := extract_unpacks (hm.congr hmounts) hu hfit
    ((mem_unpacked hm).mp hk) (canonical_of_unpacked hm hk) hnew hparent
  exact ⟨w', hrun, hmounts'.trans hmounts, hu'⟩

/-- Unpacking an archive whose members fit into a directory that is missing succeeds, and what is
there then is what the members are. -/
theorem unzip_unpacks (hw : w.host.WellFormed) (ha : a.hasZero = false) {b : ByteArray}
    (hat : w.host.At a la (.file b))
    (hdecode : ∀ now, ∃ t, Tree.decode now b = .ok t ∧ Fits t p)
    (hr : w.host.Reaches p loc) (hfree : w.host.kind? loc = none) (hne : p.bytes ≠ [])
    (hz : p.hasZero = false) :
    ∃ w' now t, unzip (.host a) (.host p) w = (.ok (), w') ∧ Tree.decode now b = .ok t ∧
      w'.host.At p loc .directory ∧ t.Mirrors w'.host loc := by
  obtain ⟨h, ticks, htarget, hmade, hthere⟩ := ensureTarget_of_reaches hw hr hne hz hfree
  let u : World := { w with host := h, ticks := ticks }
  have hsame : u.host.At a la (.file b) := hat.mono hmade.same hmade.working
  obtain ⟨t, ht, hfit⟩ := hdecode u.now
  obtain ⟨id, m, v, hopen, hvhost, hm, rfl⟩ := openArchive_of_at ha hsame ht
  have hstart : Unpacking m.tree p loc [] v.host := by
    rw [hvhost]
    exact unpacking_of_made hw hmade hz hthere hfree
  obtain ⟨v', hcopy, hmounts, hu⟩ := copyAll_unpacks hm hne hfit hstart
  obtain ⟨w', hclose, hhost⟩ := (hm.congr hmounts).close
  rw [← hhost] at hu
  refine ⟨w', u.now, m.tree, ?_, ht, hu.plain.leads, mirrors_of_unpacking hm hu⟩
  rw [unzip_eq htarget hopen hm]
  unfold FileSystem.andThen
  rw [Action.noted_of_ok hcopy]
  exact hclose

end Archives

end ZipMount
