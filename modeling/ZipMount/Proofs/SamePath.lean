import ZipMount.Proofs.Mounting.Nested
import ZipMount.Proofs.RootedPath

namespace ZipMount

open MemberKey

/-- What filters leave as it is: neither a question for modes nor a walk. -/
def Operation.Passed : Operation → Prop
  | .check _ => False
  | .walk _ => False
  | _ => True

namespace Call

/-- What comes of an operation under one name and under another: the same, or a refusal that changes
nothing and gives the one name or the other. -/
inductive Alike (s t : String) :
    Except Error Answer × World → Except Error Answer × World → Prop where
  | same (r : Except Error Answer × World) : Alike s t r r
  | refused (x : Refusal) (w : World) : Alike s t (.error (x.error s), w) (.error (x.error t), w)
  | denied (modes : List AccessMode) (w : World) :
      Alike s t (.error (.permissionDenied s modes), w) (.error (.permissionDenied t modes), w)

end Call

namespace Path

/-- The path behind some proxies, the outermost first. -/
def behind (p : Path) (fss : List FileSystem) : Path := fss.foldr (fun fs q => .proxy q fs) p

/-- A path of some archive that is made from texts, with any proxies before it and on the way. -/
inductive Given : Path → Prop where
  | path {fs : FileSystem} {id : MountId} (hfs : fs.innermost = .archive id) (text : String) :
      Given (fs.path text)
  | resolve {p : Path} (h : Given p) (text : String) : Given (p.resolve text)
  | parent {p q : Path} (h : Given p) (hq : p.parent? = some q) : Given q
  | proxy {p : Path} (h : Given p) (fs : FileSystem) : Given (.proxy p fs)

/-- An operation on the path, asked of its own provider. -/
def call (p : Path) (op : Operation) : Call := ⟨p.provider, p, op⟩

/-- The path's own provider finds it to be one of its paths. -/
def Served (p : Path) : Prop := ∃ t, p.provider.target p = .ok t

/-- What the filters before a path pass on comes to what is asked of the path beneath the proxies,
or is refused because the path is of another kind than the provider beneath the filters is for. -/
structure PassedOn (p : Path) (op : Operation) (w : World) : Prop where
  served : p.Served → (p.call op).run w = (p.innermost.call op).run w
  refused : ¬ p.Served →
    (p.call op).run w = (.error (.providerMismatch p.provider.scheme p.display), w)

/-- Two paths lead to one member. -/
structure OneMember (a b : Path) : Prop where
  /-- Beneath the proxies they are paths of one mount, and name one key. -/
  names : ∃ id k, a.innermost.Names id k ∧ b.innermost.Names id k
  /-- Whatever is asked of the archive comes to the same for both, -/
  beneath : ∀ op w, Call.Alike a.display b.display ((a.innermost.call op).run w)
    ((b.innermost.call op).run w)
  /-- and so does what is passed on by the filters that are before them. -/
  through : a.Served → b.Served → ∀ op, op.Passed → ∀ w,
    Call.Alike a.display b.display ((a.call op).run w) ((b.call op).run w)

end Path

namespace Call

variable {w : World} {id : MountId} {q r : Pathname} {s t : String}

theorem alike_openMount {α : Type} {f : α → Answer} {look look' : Mount → Except Error α}
    (h : ∀ m, Alike s t ((look m).map f, w) ((look' m).map f, w)) :
    Alike s t ((w.openMount id >>= look).map f, w) ((w.openMount id >>= look').map f, w) := by
  cases w.openMount id with
  | error e => exact .same _
  | ok m => exact h m

theorem alike_answer {α β : Type} (x : Except Refusal α) (g : α → β) (f : β → Answer) :
    Alike q.display r.display ((do pure (g (← Mount.answer q x)) : Except Error β).map f, w)
      ((do pure (g (← Mount.answer r x)) : Except Error β).map f, w) := by
  cases x with
  | error x => exact .refused x w
  | ok a => exact .same _

theorem alike_changeTree (v : World) (f : Tree → Except Refusal Tree) :
    Alike q.display r.display (changed w (v.changeTree id q f))
      (changed w (v.changeTree id r f)) := by
  cases hm : v.writableMount id with
  | error e =>
    have hfail : ∀ p : Pathname, v.changeTree id p f = .error e := by
      intro p
      unfold World.changeTree
      rw [hm]
      rfl
    rw [hfail, hfail]
    exact .same _
  | ok m =>
    rw [World.changeTree_eq hm, World.changeTree_eq hm]
    cases f m.tree with
    | error x => exact .refused x w
    | ok t => exact .same _

theorem alike_access (m : Mount) (h : ofPathname q = ofPathname r) (modes : List AccessMode) :
    Alike q.display r.display ((m.access q modes).map fun _ => .done, w)
      ((m.access r modes).map fun _ => .done, w) := by
  unfold Mount.access
  rw [h]
  cases m.tree.find (.ofPathname r) with
  | error x => exact .refused x w
  | ok x =>
    simp only [Mount.answer, Except.mapError, bind, Except.bind]
    split
    · exact .denied modes w
    · exact .same _

/-- An operation on a member under two paths that name it. -/
theorem run_alike (h : ofPathname q = ofPathname r) (op : Operation) (w : World) (n : Nat) :
    Alike q.display r.display (run ⟨.archive n, .member id q, op⟩ w)
      (run ⟨.archive n, .member id r, op⟩ w) := by
  have htarget : ∀ p, (Provider.archive n).target (.member id p) = .ok (.member id p) :=
    fun _ => rfl
  cases op with
  | check modes => exact alike_openMount fun m => alike_access m h modes
  | attributes =>
    refine alike_openMount fun m => ?_
    rw [h]
    exact alike_answer (m.tree.find _) Member.attributes .attributes
  | read =>
    refine alike_openMount fun m => ?_
    rw [h]
    cases m.tree.read (.ofPathname r) with
    | error x => exact .refused x w
    | ok data => exact .same _
  | list =>
    refine alike_openMount fun m => ?_
    rw [h]
    exact alike_answer (m.tree.list _) (List.map (.ofKey id)) .paths
  | walk order =>
    refine alike_openMount fun m => ?_
    rw [h]
    exact alike_answer (m.tree.walk order _) (List.map (.ofKey id)) .paths
  | setTimes change =>
    simp only [run_eq, Provider.setTimes_member (htarget _), h]
    exact alike_changeTree w _
  | makeDirectory =>
    simp only [run_eq, Provider.makeDirectory_member (htarget _), h]
    exact alike_changeTree w.tick _
  | write data mode =>
    simp only [run_eq, Provider.write_member (htarget _), h]
    exact alike_changeTree w.tick _
  | delete =>
    simp only [run_eq, Provider.delete_member (htarget _), h]
    exact alike_changeTree w _

/-- What filters pass on depends only on what the path is to the provider beneath them. -/
theorem run_of_target {prov prov' : Provider} {p p' : Path} {op : Operation} (hop : op.Passed)
    (h : prov.target p = prov'.target p') (w : World) :
    run ⟨prov, p, op⟩ w = run ⟨prov', p', op⟩ w := by
  cases op with
  | check modes => exact hop.elim
  | walk order => exact hop.elim
  | attributes => simp only [run_eq, Provider.attributes, h]
  | setTimes change => simp only [run_eq, Provider.setTimes, h]
  | makeDirectory => simp only [run_eq, Provider.makeDirectory, h]
  | read => simp only [run_eq, Provider.read, h]
  | write data mode => simp only [run_eq, Provider.write, h]
  | delete => simp only [run_eq, Provider.delete, h]
  | list => simp only [run_eq, Provider.list, h]

/-- Nothing comes of it where the path is of another kind. -/
theorem run_of_target_error {prov : Provider} {p : Path} {op : Operation} (hop : op.Passed)
    {e : Error} (h : prov.target p = .error e) (w : World) :
    run ⟨prov, p, op⟩ w = (.error e, w) := by
  cases op with
  | check modes => exact hop.elim
  | walk order => exact hop.elim
  | attributes =>
    simp only [run_eq, Provider.attributes, h]
    rfl
  | setTimes change =>
    simp only [run_eq, Provider.setTimes, h]
    rfl
  | makeDirectory =>
    simp only [run_eq, Provider.makeDirectory, h]
    rfl
  | read =>
    simp only [run_eq, Provider.read, h]
    rfl
  | write data mode =>
    simp only [run_eq, Provider.write, h]
    rfl
  | delete =>
    simp only [run_eq, Provider.delete, h]
    rfl
  | list =>
    simp only [run_eq, Provider.list, h]
    rfl

end Call

namespace Path

variable {a b p : Path} {id : MountId} {q : Pathname}

theorem innermost_behind (p : Path) (fss : List FileSystem) :
    (p.behind fss).innermost = p.innermost := by
  induction fss with
  | nil => rfl
  | cons fs fss ih => exact ih

theorem display_innermost (p : Path) : p.innermost.display = p.display := by
  rw [display, display, pathname_innermost]

theorem display_unwrapped (p : Path) : p.unwrapped.display = p.display := by
  rw [display, display, pathname_unwrapped]

theorem innermost_path (fs : FileSystem) (text : String) :
    (fs.path text).innermost = fs.innermost.path text := by
  induction fs with
  | host => rfl
  | archive id => rfl
  | substituted number d provider ih => exact ih
  | shared number d ih => exact ih
  | stamping number d time ih => exact ih

theorem resolve_innermost (p : Path) (text : String) :
    p.resolve text = p.innermost.resolve text := by
  induction p with
  | host q => rfl
  | member id q => rfl
  | proxy d fs ih => exact ih

theorem parent?_innermost (p : Path) : p.parent? = p.innermost.parent? := by
  induction p with
  | host q => rfl
  | member id q => rfl
  | proxy d fs ih => exact ih

/-- Beneath the proxies there is a path of the archive, from its root. -/
theorem Given.exists_innermost (h : Given p) : ∃ id q, p.innermost = .member id q ∧ q.IsRooted := by
  induction h with
  | @path fs id hfs text =>
    rw [innermost_path, hfs]
    exact ⟨id, _, rfl, Pathname.isRooted_root.join text⟩
  | @resolve p _ text ih =>
    obtain ⟨id, q, hq, hrooted⟩ := ih
    rw [resolve_innermost, hq]
    exact ⟨id, _, rfl, hrooted.join text⟩
  | @parent p p' _ hparent ih =>
    obtain ⟨id, q, hq, hrooted⟩ := ih
    rw [parent?_innermost, hq] at hparent
    obtain ⟨q', hq', rfl⟩ := Option.map_eq_some_iff.mp hparent
    exact ⟨id, q', rfl, hrooted.parent hq'⟩
  | proxy _ fs ih => exact ih

/-- The provider beneath the filters gets the path of the archive, or one of another kind. -/
theorem target_of_innermost (h : p.innermost = .member id q) (prov : Provider) :
    prov.target p = .ok (.member id q) ∨
      prov.target p = .error (.providerMismatch prov.scheme p.display) := by
  induction prov generalizing p with
  | host =>
    cases p with
    | host q' => cases h
    | member id' q' => exact Or.inr rfl
    | proxy d fs => exact Or.inr rfl
  | archive registry =>
    cases p with
    | host q' => cases h
    | member id' q' =>
      cases h
      exact Or.inl rfl
    | proxy d fs => exact Or.inr rfl
  | granting allowed d ih =>
    have hd := ih ((innermost_unwrapped p).trans h)
    rw [display_unwrapped] at hd
    exact hd
  | denying denied d ih =>
    have hd := ih ((innermost_unwrapped p).trans h)
    rw [display_unwrapped] at hd
    exact hd

theorem passedOn (h : p.innermost = .member id q) {op : Operation} (hop : op.Passed) (w : World) :
    p.PassedOn op w := by
  have htarget : p.innermost.provider.target p.innermost = .ok (.member id q) := by
    rw [h]
    rfl
  rcases target_of_innermost h p.provider with hp | hp
  · refine ⟨fun _ => ?_, fun hnot => absurd ⟨_, hp⟩ hnot⟩
    exact Call.run_of_target hop (hp.trans htarget.symm) w
  · refine ⟨?_, fun _ => Call.run_of_target_error hop hp w⟩
    rintro ⟨t, ht⟩
    rw [hp] at ht
    cases ht

theorem same_iff : a.same b = true ↔ a.pathname.components = b.pathname.components ∧
    a.innermost.fileSystem.innermost = b.innermost.fileSystem.innermost := by
  rw [same, Bool.and_eq_true, Pathname.same_iff, pathname_innermost, pathname_innermost,
    FileSystem.same, beq_iff_eq]

theorem same_equivalence : Equivalence fun a b : Path => a.same b = true where
  refl _ := same_iff.mpr ⟨rfl, rfl⟩
  symm h := same_iff.mpr ⟨(same_iff.mp h).1.symm, (same_iff.mp h).2.symm⟩
  trans h h' := same_iff.mpr
    ⟨(same_iff.mp h).1.trans (same_iff.mp h').1, (same_iff.mp h).2.trans (same_iff.mp h').2⟩

theorem same_congr {a' b' : Path} (ha : a'.innermost = a.innermost)
    (hb : b'.innermost = b.innermost) : a'.same b' = a.same b := by
  rw [same, same, ha, hb]

theorem fingerprint_eq_of_same (h : a.same b = true) : a.fingerprint = b.fingerprint := by
  rw [fingerprint, fingerprint, pathname_innermost, pathname_innermost]
  exact Pathname.fingerprint_eq (same_iff.mp h).1

/-- Equal paths of archives lead to one member. -/
theorem oneMember (ha : Given a) (hb : Given b) (h : a.same b = true) : OneMember a b := by
  obtain ⟨hsteps, hfs⟩ := same_iff.mp h
  rw [← pathname_innermost a, ← pathname_innermost b] at hsteps
  obtain ⟨id, q, hq, hqroot⟩ := ha.exists_innermost
  obtain ⟨id', r, hr, hrroot⟩ := hb.exists_innermost
  rw [hq, hr] at hsteps hfs
  cases hfs
  have hkey : ofPathname q = ofPathname r := ofPathname_congr hqroot hrroot hsteps
  have hbeneath : ∀ op w, Call.Alike a.display b.display ((a.innermost.call op).run w)
      ((b.innermost.call op).run w) := by
    intro op w
    rw [← display_innermost a, ← display_innermost b, hq, hr]
    exact Call.run_alike hkey op w id.registry
  refine ⟨⟨id, _, ⟨q, hq, hkey⟩, ⟨r, hr, rfl⟩⟩, hbeneath, ?_⟩
  intro hsa hsb op hop w
  rw [(passedOn hq hop w).served hsa, (passedOn hr hop w).served hsb]
  exact hbeneath op w

/-- Equality of paths is an equivalence, proxies make no difference to it, and equal paths have the
same fingerprint. What filters pass on for a path of an archive gets to the path beneath the proxies
or is refused as it is, and equal paths of archives lead to one member. -/
theorem same_acts :
    Equivalence (fun a b : Path => a.same b = true) ∧
    (∀ (a b : Path) fss gss, (a.behind fss).same (b.behind gss) = a.same b) ∧
    (∀ a b : Path, a.unwrapped.same b.unwrapped = a.same b) ∧
    (∀ a b : Path, a.same b = true → a.fingerprint = b.fingerprint) ∧
    (∀ p, Given p → ∀ op, op.Passed → ∀ w, p.PassedOn op w) ∧
    ∀ a b, Given a → Given b → a.same b = true → OneMember a b := by
  refine ⟨same_equivalence, ?_, ?_, fun _ _ => fingerprint_eq_of_same, ?_, ?_⟩
  · exact fun a b fss gss => same_congr (innermost_behind a fss) (innermost_behind b gss)
  · exact fun a b => same_congr (innermost_unwrapped a) (innermost_unwrapped b)
  · intro p hp op hop w
    obtain ⟨id, q, hq, -⟩ := hp.exists_innermost
    exact passedOn hq hop w
  · exact fun a b => oneMember

/-- A path of a member through a filter that grants writing, -/
def grantedPath : Path := ((FileSystem.archive ⟨0, 0⟩).path "d/../e//f").assumingWritable

/-- and another, taken from one in another directory, through two filters that refuse modes. -/
def deniedPath : Path :=
  ((((FileSystem.archive ⟨0, 0⟩).path "d").resolve "../e/./f/").denied [.execute]).denied [.write]

theorem same_acts_filtered :
    (Given grantedPath ∧ Given deniedPath ∧ grantedPath.same deniedPath = true ∧
      grantedPath.display = "/d/../e//f" ∧ deniedPath.display = "/d/../e/./f/") ∧
    grantedPath.fingerprint = deniedPath.fingerprint ∧ deniedPath.Served ∧
    deniedPath.PassedOn .read World.created ∧ OneMember grantedPath deniedPath := by
  have hgranted : Given grantedPath := .proxy (.path rfl _) _
  have hdenied : Given deniedPath := .proxy (.proxy (.resolve (.path rfl _) _) _) _
  have hsame : grantedPath.same deniedPath = true := by decide
  obtain ⟨-, -, -, hhash, hpassed, hone⟩ := same_acts
  exact ⟨⟨hgranted, hdenied, hsame, by decide, by decide⟩, hhash _ _ hsame, ⟨_, rfl⟩,
    hpassed _ hdenied .read trivial _, hone _ _ hgranted hdenied hsame⟩

end Path

end ZipMount
