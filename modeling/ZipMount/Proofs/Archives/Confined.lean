import ZipMount.Proofs.Archives.Destination
import ZipMount.Proofs.Archives.Entry
import ZipMount.Proofs.Host.Frame
import ZipMount.Proofs.Mounting.Lifetime
import ZipMount.Proofs.Tree.Reachable

namespace ZipMount

open MemberKey

/-- The path itself and the paths of the directories it is in, as they are written. -/
inductive Pathname.Above (p : Pathname) : Pathname → Prop where
  | self : Above p p
  | parent {q r : Pathname} (h : Above p q) (hr : q.parent = some r) : Above p r

namespace Host

/-- A directory that was not there, and to which the path or one above it leads now. -/
def MadeFor (h : Host) (p : Pathname) (h' : Host) (l : Location) : Prop :=
  h.kind? l = none ∧ ∃ q, p.Above q ∧ h'.At q l .directory

/-- All that changed is the directory that a path leads to, with what is beneath it, and directories
on the way that were missing. -/
structure Confined (h : Host) (p : Pathname) (h' : Host) : Prop where
  keeps : h.Keeps h'
  elsewhere : ∀ l, h.SameAt h' l ∨ h.MadeFor p h' l ∨ ∃ dir, h'.At p dir .directory ∧ dir <+: l

namespace Confined

variable {h h' h'' : Host} {p q : Pathname} {l dir : Location} {k : HostKind}

theorem refl (h : Host) (p : Pathname) : h.Confined p h := ⟨.refl h, fun l => Or.inl (.refl h l)⟩

theorem trans (hc : h.Confined p h') (hc' : h'.Confined p h'') : h.Confined p h'' := by
  refine ⟨hc.keeps.trans hc'.keeps, fun l => ?_⟩
  -- what the first leaves may still be made by the second; where it put something, that stays
  rcases hc.elsewhere l with hsame | ⟨hnone, q, hq, hat⟩ | ⟨dir, hat, hl⟩
  · rcases hc'.elsewhere l with hsame' | ⟨hnone, hmade⟩ | hbelow
    · exact Or.inl (hsame.trans hc.keeps hsame' hc'.keeps)
    · exact Or.inr (Or.inl ⟨hsame.kind?.symm.trans hnone, hmade⟩)
    · exact Or.inr (Or.inr hbelow)
  · exact Or.inr (Or.inl ⟨hnone, q, hq, hat.keeps hc'.keeps⟩)
  · exact Or.inr (Or.inr ⟨dir, hat.keeps hc'.keeps, hl⟩)

/-- A directory made on the way. -/
theorem of_above (hq : p.Above q) (hnone : h.kind? l = none) (hputs : h.Puts q l .directory h') :
    h.Confined p h' := by
  refine ⟨hputs.keeps, fun l' => ?_⟩
  by_cases hl : l' = l
  · subst hl
    exact Or.inr (Or.inl ⟨hnone, q, hq, hputs.leads⟩)
  · exact Or.inl (hputs.others l' hl)

/-- Something put beneath the target. -/
theorem of_under (hp : h.At p dir .directory) (hno : h.Linkless dir) {names : List Filename}
    (hnames : ∀ n ∈ names, IsSegment n) (hputs : h.Puts (p.under names) l k h') :
    h.Confined p h' := by
  have hat := hp.keeps hputs.keeps
  have hplace : l = dir ++ names :=
    hat.eq_of_under (hno.keeps hputs.keeps) hnames hputs.leads
  refine ⟨hputs.keeps, fun l' => ?_⟩
  by_cases hl : l' = l
  · refine Or.inr (Or.inr ⟨dir, hat, ?_⟩)
    rw [hl, hplace]
    exact List.prefix_append dir names
  · exact Or.inl (hputs.others l' hl)

end Confined

end Host

/-- A world with the mounts of another, in which all that changed on the host is at a path. -/
structure World.Confined (w : World) (p : Pathname) (w' : World) : Prop where
  mounts : w'.mounts = w.mounts
  host : w.host.Confined p w'.host

namespace World.Confined

variable {w w' w'' : World} {p : Pathname}

theorem refl (w : World) (p : Pathname) : w.Confined p w := ⟨rfl, .refl w.host p⟩

theorem trans (hc : w.Confined p w') (hc' : w'.Confined p w'') : w.Confined p w'' :=
  ⟨hc'.mounts.trans hc.mounts, hc.host.trans hc'.host⟩

end World.Confined

namespace Path

variable {p q : Pathname} {w v : World}

theorem ensureDirectory_confined (hq : p.Above q) (w : World) :
    w.Confined p ((host q).ensureDirectory w).2 := by
  rw [ensureDirectory_host]
  cases hm : w.host.makeDirectory w.now q with
  | ok h =>
    obtain ⟨l, hnone, hputs⟩ := Host.makeDirectory_puts hm
    exact ⟨rfl, .of_above hq hnone hputs⟩
  | error f =>
    simp only
    split <;> exact .refl w p

theorem at_of_ensureDirectory (h : (host q).ensureDirectory w = (.ok (), v)) :
    ∃ l, v.host.At q l .directory := by
  rw [ensureDirectory_host] at h
  cases hm : w.host.makeDirectory w.now q with
  | ok host =>
    rw [hm] at h
    cases h
    obtain ⟨l, -, hputs⟩ := Host.makeDirectory_puts hm
    exact ⟨l, hputs.leads⟩
  | error f =>
    simp only [hm] at h
    split at h
    · next hthere =>
      cases h
      rw [Bool.and_eq_true] at hthere
      exact (isDirectory_host.mp hthere.2).2
    · cases h

theorem makeDirectoriesUpTo_confined (n : Nat) (hq : p.Above q) (w : World) :
    w.Confined p ((host q).makeDirectoriesUpTo n w).2 := by
  induction n generalizing q w with
  | zero => exact .refl w p
  | succ n ih =>
    rw [makeDirectoriesUpTo_succ]
    split
    · exact .refl w p
    · split
      · next above habove =>
        obtain ⟨r, hr, rfl⟩ := Option.map_eq_some_iff.mp habove
        split
        · have hmade := ih (hq.parent hr) w
          refine Action.bind_world hmade fun _ v hv => ?_
          rw [hv] at hmade
          exact hmade.trans (ensureDirectory_confined hq v)
        · exact ensureDirectory_confined hq w
      · exact ensureDirectory_confined hq w

theorem at_of_makeDirectories (h : (host q).makeDirectories w = (.ok (), v)) :
    ∃ l, v.host.At q l .directory := by
  unfold makeDirectories at h
  rw [makeDirectoriesUpTo_succ] at h
  split at h
  · next hthere =>
    cases h
    exact (isDirectory_host.mp hthere).2
  · split at h
    · split at h
      · obtain ⟨_, u, -, hlast⟩ := Action.bind_ok h
        exact at_of_ensureDirectory hlast
      · exact at_of_ensureDirectory h
    · exact at_of_ensureDirectory h

end Path

namespace Archives

variable {p : Pathname} {w u v : World}

theorem ensureTarget_confined (p : Pathname) (w : World) :
    w.Confined p (ensureTarget (.host p) w).2 := by
  unfold ensureTarget
  rw [Action.get_bind]
  split
  · exact .refl w p
  · exact Path.makeDirectoriesUpTo_confined _ .self w

theorem at_of_ensureTarget (h : ensureTarget (.host p) w = (.ok (), u)) :
    ∃ l, u.host.At p l .directory := by
  unfold ensureTarget at h
  rw [Action.get_bind] at h
  split at h
  · cases h
  · exact Path.at_of_makeDirectories h

/-- Copies a member of an archive to the same names beneath a path. -/
def extract (id : MountId) (p : Pathname) (k : MemberKey) : Action Unit :=
  let d := Path.host (p.under k.filenames)
  Action.noted s!"Could not copy {(Path.ofKey id k).display} to {d.display}"
    (copyEntry (.ofKey id k) d)

/-- An entry is put where it is copied to, or nothing is done. -/
theorem copyEntry_puts (source : Path) (q : Pathname) (w : World) :
    (copyEntry source (.host q) w).2 = w ∨
      ((copyEntry source (.host q) w).2.mounts = w.mounts ∧
        ∃ l k, w.host.Puts q l k (copyEntry source (.host q) w).2.host) := by
  cases hc : source.content? w with
  | none =>
    obtain ⟨e, he⟩ := copyEntry_nothing hc (.host q)
    rw [he]
    exact Or.inl rfl
  | some c =>
    cases c with
    | directory =>
      rw [copyEntry_directory hc, Path.ensureDirectory_host]
      cases hm : w.host.makeDirectory w.now q with
      | ok h =>
        obtain ⟨l, -, hputs⟩ := Host.makeDirectory_puts hm
        exact Or.inr ⟨rfl, l, _, hputs⟩
      | error f =>
        left
        simp only
        split <;> rfl
    | file data =>
      rw [copyEntry_file hc, Path.write_host]
      cases hm : w.host.write w.now q data .replace with
      | ok h =>
        obtain ⟨l, hputs⟩ := Host.replace_puts hm
        exact Or.inr ⟨rfl, l, _, hputs⟩
      | error f => exact Or.inl rfl

theorem extract_confined {dir : Location} (hp : w.host.At p dir .directory)
    (hno : w.host.Linkless dir) {id : MountId} {k : MemberKey} (hk : Canonical k) :
    w.Confined p (extract id p k w).2 := by
  unfold extract
  rw [Action.noted_world]
  rcases copyEntry_puts (.ofKey id k) (p.under k.filenames) w with hsame | ⟨hmounts, l, kind, hputs⟩
  · rw [hsame]
    exact .refl w p
  · exact ⟨hmounts, .of_under hp hno (isSegment_of_mem hk) hputs⟩

theorem forM_extract_confined {dir : Location} (hp : w.host.At p dir .directory)
    (hno : w.host.Linkless dir) {id : MountId} {keys : List MemberKey}
    (hkeys : ∀ k ∈ keys, Canonical k) : w.Confined p (keys.forM (extract id p) w).2 := by
  refine Action.forM_world (P := w.Confined p) ?_ (.refl w p)
  intro k hk v hv
  have hat := hp.keeps hv.host.keeps
  exact hv.trans (extract_confined hat (hno.keeps hv.host.keeps) (hkeys k hk))

end Archives

/-- A mount of an archive file that is up to date with it. -/
structure World.Opened (w : World) (id : MountId) (m : Mount) : Prop where
  mount : w.mount? id = some m
  isOpen : m.isOpen = true
  dirty : m.dirty = false
  wellFormed : m.tree.WellFormed

namespace World

variable {w v : World} {id : MountId} {m : Mount}

theorem Opened.congr (h : w.Opened id m) (hm : v.mounts = w.mounts) : v.Opened id m := by
  refine ⟨?_, h.isOpen, h.dirty, h.wellFormed⟩
  rw [mount?, hm]
  exact h.mount

/-- Closing it succeeds and writes nothing. -/
theorem Opened.close (h : w.Opened id m) :
    ∃ w', FileSystem.close (.archive id) w = (.ok (), w') ∧ w'.host = w.host := by
  rw [close_of_open h.mount h.isOpen, closeMount_leaves (Or.inl h.dirty)]
  exact ⟨_, rfl, host_release _ _⟩

/-- What is not to be created is there to be read. -/
theorem opened_of_mount {registry : Nat} {backing : Path} {env : Env} {options : Options}
    {registered : Option (Nat × Pathname)} (henv : Options.ofEnv env = .ok options)
    (hcreates : options.creates = false)
    (h : w.mount registry backing env registered = .ok (id, v)) :
    v.host = w.host ∧ ∃ m, v.Opened id m := by
  obtain ⟨o, loaded, m, ho, hload, hm, hnumber, rfl⟩ := mount_ok h
  rw [henv] at ho
  cases ho
  have hget : (w.mounts ++ [m])[id.number]? = some m := by
    rw [hnumber, List.getElem?_concat_length]
  rcases load_ok hload with ⟨-, data, -, hdecode, hnew⟩ | ⟨hmay, -⟩
  · subst hm
    exact ⟨rfl, _, hget, rfl, hnew, (Tree.starting_decode hdecode).wellFormed⟩
  · rw [hcreates] at hmay
    cases hmay

end World

namespace Archives

variable {p : Pathname} {w u v : World} {id : MountId} {m : Mount}

/-- An archive whose file is mounted is open. -/
theorem openArchive_of_mount {archive : Path} {env : Env}
    (h : w.mount installed archive.assumingWritable
      (Env.merge (Options.ownerEnv w.principal) env) none = .ok (id, v)) :
    openArchive archive env w = (.ok (.archive id), v) := by
  have hnew : (Provider.archive installed).newFileSystem archive.assumingWritable
      (Env.merge (Options.ownerEnv w.principal) env) w = (.ok (.archive id), v) := by
    simp only [Provider.newFileSystem, Provider.reach, h]
  unfold openArchive
  rw [Action.get_bind]
  exact Action.noted_of_ok hnew _

/-- An archive whose file cannot be mounted is not opened, and nothing changes. -/
theorem openArchive_of_mount_error {archive : Path} {env : Env} {e : Error}
    (h : w.mount installed archive.assumingWritable
      (Env.merge (Options.ownerEnv w.principal) env) none = .error e) :
    ∃ f, openArchive archive env w = (.error f, w) := by
  have hnew : (Provider.archive installed).newFileSystem archive.assumingWritable
      (Env.merge (Options.ownerEnv w.principal) env) w = (.error (.error e), w) := by
    simp only [Provider.newFileSystem, Provider.reach, h]
  unfold openArchive
  rw [Action.get_bind]
  exact ⟨_, Action.noted_of_error hnew _⟩

/-- Opening an archive that is there. -/
theorem openArchive_cases (archive : Path) (w : World) :
    (∃ f, openArchive archive [] w = (.error f, w)) ∨
      ∃ id m v, openArchive archive [] w = (.ok (.archive id), v) ∧ v.host = w.host ∧
        v.Opened id m := by
  have henv : Options.ofEnv (Env.merge (Options.ownerEnv w.principal) []) =
      .ok ⟨none, some w.principal, some w.principal, none⟩ := rfl
  cases hmount : w.mount installed archive.assumingWritable
      (Env.merge (Options.ownerEnv w.principal) []) none with
  | error e => exact Or.inl (openArchive_of_mount_error hmount)
  | ok r =>
    obtain ⟨id, v⟩ := r
    obtain ⟨hhost, m, hm⟩ := World.opened_of_mount henv rfl hmount
    exact Or.inr ⟨id, m, v, openArchive_of_mount hmount, hhost, hm⟩

/-- The keys of all that is in an archive, each directory before what is in it. -/
def unpacked (m : Mount) : List MemberKey := m.tree.preorder .natural m.tree.height []

theorem canonical_of_unpacked (hm : v.Opened id m) {k : MemberKey} (hk : k ∈ unpacked m) :
    Canonical k := by
  rcases (hm.wellFormed.mem_preorder .natural (Nat.le_add_left _ _)).mp hk with rfl | ⟨hk, -⟩
  · exact canonical_nil
  · exact hm.wellFormed.canonical k hk

/-- Copying all that is in an archive is copying its members one after the other. -/
theorem copyFromArchive_eq (hm : v.Opened id m) (p : Pathname) :
    copyFromArchive (.archive id) (.host p) v = (unpacked m).forM (extract id p) v := by
  have hopen : v.openMount id = .ok m := World.openMount_ok.mpr ⟨hm.mount, hm.isOpen⟩
  have hwalk : (Path.ofKey id []).walk .natural v = .ok ((unpacked m).map (Path.ofKey id)) :=
    Path.walk_ofKey hopen canonical_nil (Tree.find?_nil _) .natural
  have heach : ∀ k ∈ unpacked m,
      copyBeneath (.ofKey id []) (.host p) (.ofKey id k) = extract id p k := by
    intro k hk
    have hdestination : destination (.ofKey id []) (.host p) (.ofKey id ([] ++ k)) =
        .ok (.host (p.under k.filenames)) :=
      destination_host canonical_nil (canonical_of_unpacked hm hk) p
    exact funext fun w => copyBeneath_of_destination hdestination w
  change copyTree (.ofKey id []) (.host p) .natural v = _
  unfold copyTree
  rw [Action.bind_of_ok (Action.ask_of_ok hwalk), Action.forM_map heach]

/-- The keys of what is copied out of an archive: all are made of names, no two name the same path
beneath the target, and whatever is in a directory comes after it. -/
structure Unpacks (p : Pathname) (keys : List MemberKey) : Prop where
  segments : ∀ k ∈ keys, ∀ n ∈ k.filenames, IsSegment n
  distinct : keys.Pairwise fun j k => ¬ (p.under j.filenames).same (p.under k.filenames)
  forward : keys.Pairwise fun j k => ¬ k <+: j
  parents : ∀ before k after, keys = before ++ k :: after → k ≠ [] → parent k ∈ before

theorem unpacks (hm : v.Opened id m) (hp : p.bytes ≠ []) : Unpacks p (unpacked m) := by
  have hforward := hm.wellFormed.forward_preorder .natural m.tree.height []
  refine ⟨fun k hk => isSegment_of_mem (canonical_of_unpacked hm hk), ?_, hforward, ?_⟩
  · refine hforward.imp_of_mem ?_
    intro j k hj hk hnot hsame
    have hj := canonical_of_unpacked hm hj
    have hk := canonical_of_unpacked hm hk
    rw [Pathname.same, beq_iff_eq, Pathname.components_under hp (isSegment_of_mem hj),
      Pathname.components_under hp (isSegment_of_mem hk)] at hsame
    have htexts := congrArg Pathname.stepsText (List.append_cancel_left hsame)
    rw [stepsText_filenames, stepsText_filenames] at htexts
    have hkeys : j = k := by rw [← ofText_text hj, ← ofText_text hk, htexts]
    subst hkeys
    exact hnot List.prefix_rfl
  · intro before k after hks hne
    exact hm.wellFormed.parent_before (Nat.le_add_left _ _) hks hne

/-- Unpacking an archive copies its members, one after the other, to the same names beneath the
target. -/
theorem unzip_eq {archive : Path} (hu : ensureTarget (.host p) w = (.ok (), u))
    (hv : openArchive archive [] u = (.ok (.archive id), v)) (hm : v.Opened id m) :
    unzip archive (.host p) w = FileSystem.andThen
      (Action.noted s!"Could not unzip {archive.display} to target dir {p.display}"
        ((unpacked m).forM (extract id p))) (FileSystem.close (.archive id)) v := by
  unfold unzip
  rw [Action.bind_of_ok (Action.noted_of_ok hu _), Action.bind_of_ok hv]
  exact FileSystem.andThen_congr (Action.noted_congr (copyFromArchive_eq hm p)) _

/-- Copying the members and closing the archive changes nothing elsewhere. -/
theorem copyAll_confined {dir : Location} (hat : v.host.At p dir .directory)
    (hno : v.host.Linkless dir) (hm : v.Opened id m) (note : String) :
    v.host.Confined p (FileSystem.andThen
      (Action.noted note ((unpacked m).forM (extract id p)))
      (FileSystem.close (.archive id)) v).2.host := by
  have hcopied : v.Confined p ((unpacked m).forM (extract id p) v).2 :=
    forM_extract_confined hat hno fun k hk => canonical_of_unpacked hm hk
  apply FileSystem.andThen_world (P := fun x => v.host.Confined p x.host)
  · rw [Action.noted_world]
    exact hcopied.host
  · obtain ⟨w', hclose, hhost⟩ := (hm.congr hcopied.mounts).close
    rw [Action.noted_world, hclose, hhost]
    exact hcopied.host

/-- Whatever an archive calls its entries, unpacking it copies its members to proper names, no two
the same, each directory before what is in it. If nothing at or beneath the directory that the
target leads to is a link, then whether or not it succeeds nothing is gone, and nothing changes but
what is at or beneath that directory; above it, directories come that were missing. -/
theorem unzip_confined (archive : Path) (p : Pathname) (w : World) :
    (∀ u fs v, ensureTarget (.host p) w = (.ok (), u) → openArchive archive [] u = (.ok fs, v) →
      ∃ id m, fs = .archive id ∧ v.Opened id m ∧ Unpacks p (unpacked m) ∧
        unzip archive (.host p) w = FileSystem.andThen
          (Action.noted s!"Could not unzip {archive.display} to target dir {p.display}"
            ((unpacked m).forM (extract id p))) fs.close v) ∧
      ((∀ dir, (ensureTarget (.host p) w).2.host.At p dir .directory → w.host.Linkless dir) →
        w.host.Confined p (unzip archive (.host p) w).2.host) := by
  refine ⟨?_, ?_⟩
  · intro u fs v hu hv
    obtain ⟨l, hat⟩ := at_of_ensureTarget hu
    rcases openArchive_cases archive u with ⟨e, he⟩ | ⟨id, m, v', hv', -, hm⟩
    · rw [he] at hv
      cases hv
    · rw [hv'] at hv
      cases hv
      exact ⟨id, m, rfl, hm, unpacks hm hat.1, unzip_eq hu hv' hm⟩
  · intro hno
    have htarget := ensureTarget_confined p w
    cases hu : ensureTarget (.host p) w with
    | mk r u =>
      rw [hu] at htarget hno
      cases r with
      | error e =>
        unfold unzip
        rw [Action.bind_of_error (Action.noted_of_error hu _)]
        exact htarget.host
      | ok _ =>
        rcases openArchive_cases archive u with ⟨e, he⟩ | ⟨id, m, v, hv, hhost, hm⟩
        · unfold unzip
          rw [Action.bind_of_ok (Action.noted_of_ok hu _), Action.bind_of_error he]
          exact htarget.host
        · obtain ⟨dir, hat⟩ := at_of_ensureTarget hu
          have hlinkless : u.host.Linkless dir := (hno dir hat).keeps htarget.host.keeps
          rw [← hhost] at hat hlinkless
          rw [unzip_eq hu hv hm]
          exact htarget.host.trans (hhost ▸ copyAll_confined hat hlinkless hm _)

/-- An archive with entries whose names lead elsewhere. -/
def strayArchive : ByteArray :=
  let draft := fun name => ⟨name, false, .stored, .ofInstant .epoch, none, contents [1]⟩
  (Zip.write (["../x", "/e//./p"].map draft)).toOption.getD .empty

def strayWorld : World :=
  World.start ⟨[([[97]], .file strayArchive .epoch)], .epoch, []⟩ (fun _ => .epoch) ""

/-- Unpacking it into a directory two steps down that is not there. -/
def strayTarget : Pathname := .ofString "/t/u"

set_option maxRecDepth 30000 in
theorem strayTarget_ensured : (ensureTarget (.host strayTarget) strayWorld).1.isOk = true := by
  decide +kernel

set_option maxRecDepth 30000 in
theorem strayArchive_opened :
    (openArchive (.host (.ofString "/a")) []
      (ensureTarget (.host strayTarget) strayWorld).2).1.isOk = true := by
  decide +kernel

theorem unzip_confined_strayWorld :
    (∃ id m v note, v.Opened id m ∧ Unpacks strayTarget (unpacked m) ∧
      unzip (.host (.ofString "/a")) (.host strayTarget) strayWorld = FileSystem.andThen
        (Action.noted note ((unpacked m).forM (extract id strayTarget)))
        (FileSystem.close (.archive id)) v) ∧
      (∀ l target, strayWorld.host.kind? l ≠ some (.link target)) ∧
      strayWorld.host.Confined strayTarget
        (unzip (.host (.ofString "/a")) (.host strayTarget) strayWorld).2.host := by
  have hok : ∀ {α : Type} (r : Except Failure α × World), r.1.isOk = true →
      ∃ a, r = (.ok a, r.2) := by
    intro α r hr
    obtain ⟨_ | a, w⟩ := r
    · cases hr
    · exact ⟨a, rfl⟩
  have hnone : ∀ l target, strayWorld.host.kind? l ≠ some (.link target) := by
    intro l target hl
    by_cases hnil : l = []
    · subst hnil
      cases hl
    · obtain ⟨node, hnode⟩ : ∃ node, strayWorld.host.entries.get? l = some node := by
        rw [Host.kind?_of_ne_nil hnil, Option.map_eq_some_iff] at hl
        obtain ⟨node, hnode, -⟩ := hl
        exact ⟨node, hnode⟩
      have hfile : l = [[97]] := by
        have hmem := Table.mem_keys_iff.mpr ⟨node, hnode⟩
        exact List.mem_singleton.mp hmem
      subst hfile
      cases hl
  obtain ⟨_, hu⟩ := hok _ strayTarget_ensured
  obtain ⟨fs, hv⟩ := hok _ strayArchive_opened
  obtain ⟨hunpacks, hconfined⟩ := unzip_confined (.host (.ofString "/a")) strayTarget strayWorld
  obtain ⟨id, m, rfl, hm, hkeys, hrun⟩ := hunpacks _ fs _ hu hv
  exact ⟨⟨id, m, _, _, hm, hkeys, hrun⟩, hnone, hconfined fun dir _ r => hnone (dir ++ r)⟩

end Archives

end ZipMount
