import ZipMount.Proofs.Errands.Together

namespace ZipMount

open MemberKey

/-- What is asked of a path. -/
inductive Deed where
  | makeDirectory
  | write (data : ByteArray) (mode : WriteMode)
  | delete
  | read
  | list
  | makeDirectories

def Deed.run (q : Path) : Deed → Action Answer
  | .makeDirectory => do
    q.makeDirectory
    pure .done
  | .write data mode => do
    q.write data mode
    pure .done
  | .delete => do
    Action.ofWork (Work.delete q.provider q)
    pure .done
  | .read => do
    let data ← Action.ask q.read
    pure (.contents data)
  | .list => do
    let paths ← Action.ask fun w => q.provider.list w q
    pure (.paths paths)
  | .makeDirectories => do
    q.makeDirectories
    pure .done

namespace World

/-- The replies to errands at the paths of some keys beneath a base, and the world after them. -/
def errands (base : Path) : World → List (MemberKey × Deed) → List (Except Failure Answer) × World
  | w, [] => ([], w)
  | w, (k, deed) :: es =>
    let r := deed.run (base.resolve k.text) w
    let rest := errands base r.2 es
    (r.1 :: rest.1, rest.2)

end World

/-- The same answer beneath two bases: paths are the same steps from the one as from the other, in
whatever order. -/
inductive Answer.SameBeneath (a b : Pathname) : Answer → Answer → Prop where
  | done : SameBeneath a b .done .done
  | contents (data : ByteArray) : SameBeneath a b (.contents data) (.contents data)
  | paths {ps qs : List Path} (steps : List (List Component))
      (hp : ps.map (fun q => q.pathname.relativeTo? a) = steps.map some)
      (hq : (qs.map fun q => q.pathname.relativeTo? b).Perm (steps.map some)) :
      SameBeneath a b (.paths ps) (.paths qs)

instance (k : MemberKey) (p : Pathname) : Decidable (k.Suits p) :=
  decidable_of_iff (k ≠ [] ∧ (∀ n ∈ k.filenames, IsSegment n) ∧
      (∀ n ∈ k.filenames, n.length ≤ Host.longestName ∧ 0 ∉ n) ∧
      (p.under k.filenames).bytes.length < Host.pathLimit)
    ⟨fun h => ⟨h.1, h.2.1, h.2.2.1, h.2.2.2⟩,
      fun h => ⟨h.ne_nil, h.fits.segments, h.fits.bounded, h.fits.short⟩⟩

variable {id : MountId} {start : Host} {p : Pathname} {loc : Location} {k : MemberKey} {v w : World}

/-- Every name makes a path longer. -/
theorem Pathname.length_under (hp : p.bytes ≠ []) {names : List Filename}
    (hnames : ∀ n ∈ names, IsSegment n) :
    p.bytes.length + names.length ≤ (p.under names).bytes.length := by
  induction names generalizing p with
  | nil => exact Nat.le_refl _
  | cons n names ih =>
    have hn := hnames n List.mem_cons_self
    have hlonger := length_join hp hn
    have hrest := ih (join_ne_nil hp hn) fun m hm => hnames m (List.mem_cons_of_mem n hm)
    rw [under_cons, List.length_cons]
    omega

/-- What names put to a path are beneath it. -/
theorem MemberKey.Suits.relativeTo? (hk : k.Suits p) (hp : p.bytes ≠ []) :
    (p.under k.filenames).relativeTo? p = some (k.filenames.map .name) ∧
      k.pathname.relativeTo? (pathname []) = some (k.filenames.map .name) := by
  have hpath := pathname_append canonical_nil hk.canonical
  rw [List.nil_append] at hpath
  rw [hpath]
  exact ⟨Pathname.relativeTo?_under hp hk.fits.segments,
    Pathname.relativeTo?_under (pathname_ne_nil []) hk.fits.segments⟩

namespace World.Paired

/-- One errand. -/
theorem run (hp : v.Paired id start p loc w) (hk : k.Suits p) (deed : Deed) :
    Together id start p loc (Answer.SameBeneath (pathname []) p) (deed.run (.ofKey id k) v)
      (deed.run (.host (p.under k.filenames)) w) := by
  have hne := hp.origin.leads.ne_nil
  have hdone : ∀ (a b : Unit) (v' w' : World), True → v'.Paired id start p loc w' →
      Together id start p loc (Answer.SameBeneath (pathname []) p)
        ((pure .done : Action Answer) v') ((pure .done : Action Answer) w') :=
    fun _ _ _ _ _ hp' => .pure hp' .done
  cases deed with
  | makeDirectory => exact (hp.makeDirectory hk).bind hdone
  | write data mode => exact (hp.write hk data mode).bind hdone
  | delete => exact (hp.delete hk).bind hdone
  | read =>
    refine (together_ask hp (hp.read hk)).bind fun data data' _ _ hsame hp' => ?_
    cases hsame
    exact .pure hp' (.contents data)
  | list =>
    refine (together_ask hp (hp.list hk)).bind fun ps qs _ _ hsame hp' => .pure hp' ?_
    obtain ⟨ss, hss, rfl, hperm⟩ := hsame
    refine .paths (ss.map fun s => (k ++ [s]).filenames.map .name) ?_ ?_
    · rw [List.map_map, List.map_map]
      exact List.map_congr_left fun s hs => ((hss s hs).relativeTo? hne).2
    · refine (hperm.map _).trans (List.Perm.of_eq ?_)
      rw [List.map_map, List.map_map]
      exact List.map_congr_left fun s hs => ((hss s hs).relativeTo? hne).1
  | makeDirectories =>
    have hlong := Pathname.length_under hne hk.fits.segments
    have hlong' := Pathname.length_under (pathname_ne_nil []) hk.fits.segments
    rw [← pathname_append canonical_nil hk.canonical, List.nil_append] at hlong'
    rw [filenames, List.length_map] at hlong hlong'
    apply Together.bind (hp.makeDirectoriesUpTo (.under hk) ?_ ?_) hdone
    · change k.length ≤ k.pathname.bytes.length + 1
      omega
    · change k.length ≤ (p.under k.filenames).bytes.length + 1
      rw [filenames]
      omega

/-- Errands in a row. -/
theorem errands (hp : v.Paired id start p loc w) {es : List (MemberKey × Deed)}
    (hes : ∀ e ∈ es, e.1.Suits p) :
    List.Forall₂ (Concur (Answer.SameBeneath (pathname []) p))
        (v.errands (FileSystem.archive id).root es).1 (w.errands (.host p) es).1 ∧
      (v.errands (FileSystem.archive id).root es).2.Paired id start p loc
        (w.errands (.host p) es).2 := by
  induction es generalizing v w with
  | nil => exact ⟨.nil, hp⟩
  | cons e es ih =>
    obtain ⟨k, deed⟩ := e
    have hk : k.Suits p := hes _ List.mem_cons_self
    have harchive : (FileSystem.archive id).root.resolve k.text = .ofKey id k := by
      change Path.member id ((pathname []).join (.ofString k.text)) = _
      rw [Pathname.join_text _ hk.canonical hk.ne_nil, ← pathname_append canonical_nil hk.canonical]
      rfl
    have hhost : (Path.host p).resolve k.text = .host (p.under k.filenames) :=
      congrArg Path.host (Pathname.join_text p hk.canonical hk.ne_nil)
    have hfirst := hp.run hk deed
    rw [← harchive, ← hhost] at hfirst
    obtain ⟨hrest, hlast⟩ := ih hfirst.worlds fun e he => hes e (List.mem_cons_of_mem _ he)
    exact ⟨.cons hfirst.results hrest, hlast⟩

end World.Paired

/-- Errands beneath the root of a new archive, and the same errands beneath a directory of a host in
which nothing is: each is refused in both or done in both, with the same answer, and in the end both
hold the same under the same names. -/
theorem World.errands_concur (hv : v.Fresh id) (hw : w.host.EmptyAt p loc)
    (es : List (MemberKey × Deed)) (hes : ∀ e ∈ es, e.1.Suits p) :
    List.Forall₂ (Concur (Answer.SameBeneath (FileSystem.archive id).root.pathname p))
        (v.errands (FileSystem.archive id).root es).1 (w.errands (.host p) es).1 ∧
      (w.errands (.host p) es).2.host.At p loc .directory ∧
      ∃ m, (v.errands (FileSystem.archive id).root es).2.writableMount id = .ok m ∧
        m.tree.Mirrors (w.errands (.host p) es).2.host loc := by
  obtain ⟨m, now, hm, hempty⟩ := hv
  have hpaired : v.Paired id w.host p loc w := ⟨m, hm, hempty ▸ .empty hw now⟩
  obtain ⟨hreplies, m', hm', ht⟩ := hpaired.errands hes
  exact ⟨hreplies, ht.plain.leads, m', hm', ht.mirrors⟩

/-- A host with one directory, in which nothing is. -/
def World.spare : World :=
  .start ((Host.empty .epoch).add .epoch [[100]] (.directory .epoch)) (fun _ => .epoch) ""

/-- Errands that are refused for every reason there is, and others. -/
def mixedErrands : List (MemberKey × Deed) :=
  [(["a", "b"], .makeDirectories), (["a"], .makeDirectory),
    (["a", "f"], .write (contents [1]) .createNew), (["a", "f"], .write (contents [2]) .createNew),
    (["a", "f"], .write (contents [3]) .replace), (["a"], .delete), (["a"], .list),
    (["a", "f"], .read), (["a", "f", "g"], .makeDirectories), (["x", "y"], .makeDirectory),
    (["a", "b"], .read), (["a", "b"], .delete), (["a", "f"], .list)]

theorem World.errands_concur_created :
    created.Fresh ⟨0, 0⟩ ∧ spare.host.EmptyAt ⟨[47, 100]⟩ [[100]] ∧
      (∀ e ∈ mixedErrands, e.1.Suits ⟨[47, 100]⟩) ∧
      (created.errands (FileSystem.archive ⟨0, 0⟩).root mixedErrands).1.map Except.isOk =
        [true, false, true, false, true, false, true, true, false, false, false, true, false] ∧
      List.Forall₂
        (Concur (Answer.SameBeneath (FileSystem.archive ⟨0, 0⟩).root.pathname ⟨[47, 100]⟩))
        (created.errands (FileSystem.archive ⟨0, 0⟩).root mixedErrands).1
        (spare.errands (.host ⟨[47, 100]⟩) mixedErrands).1 ∧
      (spare.errands (.host ⟨[47, 100]⟩) mixedErrands).2.host.At ⟨[47, 100]⟩ [[100]] .directory ∧
      ∃ m, (created.errands (FileSystem.archive ⟨0, 0⟩).root mixedErrands).2.writableMount
          ⟨0, 0⟩ = .ok m ∧
        m.tree.Mirrors (spare.errands (.host ⟨[47, 100]⟩) mixedErrands).2.host [[100]] := by
  have hnone : (Path.host (.ofString "/a.zip")).provider.check bare
      (.host (.ofString "/a.zip")) [] = .error (.notFound "/a.zip") := rfl
  have hmount : bare.mount 0 (.host (.ofString "/a.zip")) (Options.createEnv "") none =
      .ok (⟨0, 0⟩, created) := rfl
  have hfresh := fresh_mount hnone hmount
  have hempty : spare.host.EmptyAt ⟨[47, 100]⟩ [[100]] := by
    refine ⟨?_, Host.find_target_iff.mp ⟨_, rfl, rfl⟩, by decide, by decide⟩
    exact (Host.wellFormed_empty .epoch).add .epoch (Host.kind?_nil _) (by decide) rfl _
  have hsuits : ∀ e ∈ mixedErrands, e.1.Suits ⟨[47, 100]⟩ := by decide
  exact ⟨hfresh, hempty, hsuits, by decide, errands_concur hfresh hempty mixedErrands hsuits⟩

end ZipMount
