import ZipMount.Proofs.Mounting.Open
import ZipMount.Proofs.Rose.Simulation
import ZipMount.Proofs.Tree.Reachable

namespace ZipMount

/-- The answer as far as it does not depend on the clock. -/
def Answer.timeless : Answer → Answer
  | .attributes a => .attributes { a with times := .all .epoch }
  | a => a

namespace Node

/-- No directory holds a name twice. -/
def Distinct (n : Node) : Prop := ∀ (k : MemberKey) (c : Node), n.find? k = some c → c.names.Nodup

def attributes : Node → Attributes
  | file data => ⟨.file, data.size, .all .epoch⟩
  | directory _ => ⟨.directory, 0, .all .epoch⟩

/-- Only a directory can be searched; every other mode is granted to whatever is there. -/
def check (n : Node) (subject : String) (k : MemberKey) (modes : List AccessMode) :
    Except Error Unit :=
  match n.find? k with
  | none => .error (Refusal.missing.error subject)
  | some (directory _) => .ok ()
  | some (file _) =>
    if .execute ∈ modes then .error (.permissionDenied subject modes) else .ok ()

/-- A node that was changed, or an error and the node as it was. -/
def changed (n : Node) (subject : String) : Except Refusal Node → Except Error Answer × Node
  | .ok n' => (.ok .done, n')
  | .error r => (.error (r.error subject), n)

def told {α : Type} (n : Node) (subject : String) (f : α → Answer) :
    Except Refusal α → Except Error Answer × Node
  | .ok a => (.ok (f a), n)
  | .error r => (.error (r.error subject), n)

/-- The answer to an operation on the node at a key, and the whole node after it. Errors name the
subject, and paths are on the mount of a number. -/
def run (n : Node) (id : MountId) (subject : String) (k : MemberKey) :
    Operation → Except Error Answer × Node
  | .check modes =>
    match n.check subject k modes with
    | .ok () => (.ok .done, n)
    | .error e => (.error e, n)
  | .attributes =>
    n.told subject .attributes (((n.find? k).map attributes).elim (.error .missing) .ok)
  | .setTimes _ => n.changed subject ((n.find? k).elim (.error .missing) fun _ => .ok n)
  | .makeDirectory => n.changed subject (n.makeDirectory k)
  | .read => n.told subject .contents (n.read k)
  | .write data mode => n.changed subject (n.writeFile k data mode)
  | .delete => n.changed subject (n.remove k)
  | .list => n.told subject (fun ks => .paths (ks.map (.ofKey id))) (n.list k)
  | .walk order => n.told subject (fun ks => .paths (ks.map (.ofKey id))) (n.walk order k)

/-- The answers to operations on the nodes that texts lead to, one after the other, and the node
after them. -/
def answers (id : MountId) : Node → List (String × Operation) → List (Except Error Answer) × Node
  | n, [] => ([], n)
  | n, (text, op) :: ops =>
    let r := n.run id ((FileSystem.archive id).path text).display (.ofText text) op
    let rest := answers id r.2 ops
    (r.1 :: rest.1, rest.2)

end Node

/-- An operation on the path that a text is on a mount. -/
def MountId.call (id : MountId) (text : String) (op : Operation) : Call :=
  ⟨(FileSystem.archive id).provider, (FileSystem.archive id).path text, op⟩

namespace World

/-- The answers of a mount to operations on the paths that texts are, and the world after them. -/
def answers (id : MountId) : World → List (String × Operation) → List (Except Error Answer) × World
  | w, [] => ([], w)
  | w, (text, op) :: ops =>
    let r := (id.call text op).run w
    let rest := answers id r.2 ops
    (r.1 :: rest.1, rest.2)

/-- A mount that is open for writing, and whose members a tree of nodes stands for. -/
def Shows (w : World) (id : MountId) (n : Node) : Prop :=
  ∃ m, w.writableMount id = .ok m ∧ m.tree.Represents n

/-- The same answer but for times, and a mount whose members the nodes still stand for. -/
def Agree (id : MountId) (c : Except Error Answer × World) (r : Except Error Answer × Node) :
    Prop :=
  c.1.map Answer.timeless = r.1 ∧ c.2.Shows id r.2

variable {w v : World} {id : MountId} {m : Mount} {n : Node}

theorem Shows.nodup_names (h : w.Shows id n) {k : MemberKey} {c : Node}
    (hk : n.find? k = some c) : c.names.Nodup := by
  obtain ⟨m, -, ht⟩ := h
  exact ht.nodup_names hk

/-- Another tree in a mount that is open for writing. -/
theorem shows_setTree (hm : w.writableMount id = .ok m) {t : Tree} (h : t.Represents n) :
    (w.setTree id m t).Shows id n :=
  ⟨_, writableMount_setTree hm t, h⟩

/-- A change of the members that comes to the same as a change of the nodes. -/
theorem agree_changeTree (hw : w.Shows id n) (hm : v.writableMount id = .ok m)
    {f : Tree → Except Refusal Tree} {r : Except Refusal Node} (ha : Tree.Agree (f m.tree) r)
    (q : Pathname) :
    Agree id (Call.changed w (v.changeTree id q f)) (n.changed q.display r) := by
  rw [changeTree_eq hm]
  cases hf : f m.tree with
  | error e =>
    rw [hf] at ha
    cases ha
    exact ⟨rfl, hw⟩
  | ok t =>
    rw [hf] at ha
    cases ha with
    | done h => exact ⟨rfl, shows_setTree hm h⟩

/-- An answer of the members that is the nodes' answer. -/
theorem agree_answer (hw : w.Shows id n) {α : Type} (r : Except Refusal α) (q : Pathname)
    {f : α → Answer} (hf : ∀ a, (f a).timeless = f a) :
    Agree id ((Mount.answer q r).map f, w) (n.told q.display f r) := by
  cases r with
  | error e => exact ⟨rfl, hw⟩
  | ok a => exact ⟨congrArg Except.ok (hf a), hw⟩

/-- The modes that an open, writable mount does not grant. -/
theorem any_withholds (hr : m.readOnly = false) (x : Member) (modes : List AccessMode) :
    modes.any (m.withholds x) = (!x.isDirectory && decide (.execute ∈ modes)) := by
  induction modes with
  | nil => simp
  | cons mode modes ih =>
    rw [List.any_cons, ih]
    cases mode with
    | read => simp [Mount.withholds]
    | write => simp [Mount.withholds, hr]
    | execute => cases hx : x.isDirectory <;> simp [Mount.withholds, hx]

theorem access_of_represents (hr : m.readOnly = false) (h : m.tree.Represents n) (q : Pathname)
    (modes : List AccessMode) :
    m.access q modes = n.check q.display (.ofPathname q) modes := by
  unfold Mount.access Node.check
  rw [Tree.find_eq]
  cases hk : n.find? (.ofPathname q) with
  | none =>
    rw [h.find?_none hk]
    rfl
  | some c =>
    obtain ⟨times, hf, -⟩ := h.find?_some hk
    rw [hf]
    change (if modes.any (m.withholds ⟨c.content, times⟩) then
      throw (Error.permissionDenied q.display modes) else pure ()) = _
    rw [any_withholds hr]
    cases c with
    | directory es => rfl
    | file data =>
      by_cases he : AccessMode.execute ∈ modes
      · simp only [he, Member.isDirectory, Node.content]
        rfl
      · simp only [he, Member.isDirectory, Node.content]
        rfl

theorem map_map {α β γ : Type} (r : Except Error α) (f : α → β) (g : β → γ) :
    (r.map f).map g = r.map fun a => g (f a) := by
  cases r <;> rfl

theorem openMount_bind (hm : w.writableMount id = .ok m) {α : Type} (f : Mount → Except Error α) :
    w.openMount id >>= f = f m := by
  rw [openMount_of_writableMount hm]
  rfl

/-- One operation on a mount and on the nodes that stand for its members. -/
theorem Shows.run (hw : w.Shows id n) (q : Pathname) (hq : (MemberKey.ofPathname q).Canonical)
    (op : Operation) :
    Agree id (Call.run ⟨.archive id.registry, .member id q, op⟩ w)
      (n.run id q.display (.ofPathname q) op) := by
  obtain ⟨m, hm, ht⟩ := hw
  have hw : w.Shows id n := ⟨m, hm, ht⟩
  have hmt : w.tick.writableMount id = .ok m := hm
  have hr := (writableMount_ok.mp hm).2.2
  cases op with
  | check modes =>
    have hcheck : Provider.check (.archive id.registry) w (.member id q) modes =
        n.check q.display (.ofPathname q) modes := by
      rw [← access_of_represents hr ht]
      exact openMount_bind hm fun m => m.access q modes
    simp only [Call.run_eq, Node.run, hcheck]
    cases n.check q.display (.ofPathname q) modes with
    | error e => exact ⟨rfl, hw⟩
    | ok u => exact ⟨rfl, hw⟩
  | attributes =>
    have hattributes : Provider.attributes (.archive id.registry) w (.member id q) =
        (Mount.answer q (m.tree.find (.ofPathname q))).map Member.attributes :=
      (openMount_bind hm _).trans (bind_pure_comp Member.attributes _)
    simp only [Call.run_eq, Node.run, hattributes, Tree.find_eq]
    cases hk : n.find? (.ofPathname q) with
    | none =>
      rw [ht.find?_none hk]
      exact ⟨rfl, hw⟩
    | some c =>
      obtain ⟨times, hf, -⟩ := ht.find?_some hk
      rw [hf]
      cases c with
      | file data => exact ⟨rfl, hw⟩
      | directory es => exact ⟨rfl, hw⟩
  | setTimes change =>
    have ha : Tree.Agree (m.tree.retime (.ofPathname q) change)
        ((n.find? (.ofPathname q)).elim (.error .missing) fun _ => .ok n) := by
      cases hk : n.find? (.ofPathname q) with
      | none =>
        rw [ht.retime_none hk]
        exact .refused .missing
      | some c =>
        obtain ⟨t, heq, ht'⟩ := ht.retime hk change
        rw [heq]
        exact .done ht'
    have hset : Provider.setTimes (.archive id.registry) w (.member id q) change =
        w.changeTree id q fun t => t.retime (.ofPathname q) change := rfl
    simp only [Call.run_eq, Node.run, hset]
    exact agree_changeTree hw hm ha q
  | makeDirectory =>
    have hmake : Provider.makeDirectory (.archive id.registry) w (.member id q) =
        w.tick.changeTree id q fun t => t.makeDirectory w.now (.ofPathname q) := rfl
    simp only [Call.run_eq, Node.run, hmake]
    exact agree_changeTree hw hmt (ht.makeDirectory hq w.now) q
  | write data mode =>
    have hwrite : Provider.write (.archive id.registry) w (.member id q) data mode =
        w.tick.changeTree id q fun t => t.writeFile w.now (.ofPathname q) data mode := rfl
    simp only [Call.run_eq, Node.run, hwrite]
    exact agree_changeTree hw hmt (ht.writeFile hq w.now data mode) q
  | delete =>
    have hdelete : Provider.delete (.archive id.registry) w (.member id q) =
        w.changeTree id q fun t => t.remove (.ofPathname q) := rfl
    simp only [Call.run_eq, Node.run, hdelete]
    exact agree_changeTree hw hm (ht.remove (.ofPathname q)) q
  | read =>
    have hread : Provider.read (.archive id.registry) w (.member id q) =
        Mount.answer q (n.read (.ofPathname q)) := by
      rw [← ht.read]
      exact openMount_bind hm fun m => Mount.answer q (m.tree.read (.ofPathname q))
    simp only [Call.run_eq, Node.run, hread]
    exact agree_answer hw _ q fun _ => rfl
  | list =>
    have hlist : Provider.list (.archive id.registry) w (.member id q) =
        (Mount.answer q (n.list (.ofPathname q))).map (List.map (.ofKey id)) := by
      rw [← ht.list]
      exact (openMount_bind hm _).trans (bind_pure_comp (List.map (Path.ofKey id)) _)
    simp only [Call.run_eq, Node.run, hlist, map_map]
    exact agree_answer hw _ q fun _ => rfl
  | walk order =>
    have hwalk : Provider.walk (.archive id.registry) w order (.member id q) =
        (Mount.answer q (n.walk order (.ofPathname q))).map (List.map (.ofKey id)) := by
      rw [← ht.walk]
      exact (openMount_bind hm _).trans (bind_pure_comp (List.map (Path.ofKey id)) _)
    simp only [Call.run_eq, Node.run, hwalk, map_map]
    exact agree_answer hw _ q fun _ => rfl

/-- A mount that was just created: open for writing, and with nothing in it. -/
def Fresh (w : World) (id : MountId) : Prop :=
  ∃ m now, w.writableMount id = .ok m ∧ m.tree = .empty now

/-- Mounting a file that is not there gives such a mount. -/
theorem fresh_mount {registry : Nat} {backing : Path} {env : Env}
    {registered : Option (Nat × Pathname)} {e : Error}
    (hnone : backing.provider.check w backing [] = .error e)
    (h : w.mount registry backing env registered = .ok (id, v)) : v.Fresh id := by
  obtain ⟨options, loaded, m, -, hload, hm, hnumber, rfl⟩ := mount_ok h
  rcases load_ok hload with ⟨hthere, -⟩ | ⟨-, rfl, -⟩
  · rw [hnone] at hthere
    cases hthere
  · refine ⟨m, w.now, writableMount_ok.mpr ⟨?_, ?_, ?_⟩, ?_⟩
    · change (w.mounts ++ [m])[id.number]? = some m
      rw [hnumber, List.getElem?_concat_length]
    · rw [hm]
    · rw [hm]
    · rw [hm]

theorem Shows.answers (hw : w.Shows id n) (ops : List (String × Operation)) :
    (w.answers id ops).1.map (Except.map Answer.timeless) = (n.answers id ops).1 ∧
      (w.answers id ops).2.Shows id (n.answers id ops).2 := by
  induction ops generalizing w n with
  | nil => exact ⟨rfl, hw⟩
  | cons call ops ih =>
    obtain ⟨text, op⟩ := call
    have hkey : MemberKey.ofPathname (Pathname.join ⟨[47]⟩ (.ofString text)) = .ofText text :=
      MemberKey.ofPathname_join_root text
    have hcanonical := MemberKey.canonical_ofText text
    rw [← hkey] at hcanonical
    obtain ⟨hanswer, hafter⟩ := hw.run _ hcanonical op
    rw [hkey] at hanswer hafter
    obtain ⟨hanswers, hlast⟩ := ih hafter
    exact ⟨List.cons_eq_cons.mpr ⟨hanswer, hanswers⟩, hlast⟩

/-- A mount that was just created answers any number of operations, on paths given by any texts, as
a directory with nothing in it does, and holds in the end what that directory holds. -/
theorem answers_eq (hw : w.Fresh id) (ops : List (String × Operation)) :
    (w.answers id ops).1.map (Except.map Answer.timeless) =
        ((Node.directory []).answers id ops).1 ∧
      (w.answers id ops).2.Shows id ((Node.directory []).answers id ops).2 ∧
      ((Node.directory []).answers id ops).2.Distinct := by
  obtain ⟨m, now, hm, ht⟩ := hw
  have hshows : w.Shows id (.directory []) := ⟨m, hm, ht ▸ .empty now⟩
  obtain ⟨hanswers, hlast⟩ := hshows.answers ops
  exact ⟨hanswers, hlast, fun _ _ => hlast.nodup_names⟩

/-- A host without files, and nothing mounted. -/
def bare : World := .start (.empty .epoch) (fun _ => .epoch) ""

/-- The same after an archive was created. -/
def created : World :=
  ((Provider.archive 0).newFileSystem (.host (.ofString "/a.zip")) (Options.createEnv "") bare).2

/-- Operations that are refused for every reason there is, and others. -/
def mixedOperations : List (String × Operation) :=
  [("d", .makeDirectory), ("x/../d/", .makeDirectory), ("d/f", .write (contents [1]) .createNew),
    ("/d//f", .write (contents [2]) .createNew), ("d/f/g", .makeDirectory),
    ("e/g", .makeDirectory), ("d", .delete), ("..", .delete), ("d", .read), ("d/./f", .read),
    ("d/f", .attributes), ("d/f", .check [.execute]), ("", .list), ("d/f", .delete), ("d", .delete),
    ("", .walk .natural)]

theorem answers_eq_created :
    created.Fresh ⟨0, 0⟩ ∧
      (created.answers ⟨0, 0⟩ mixedOperations).1.map (Except.map Answer.timeless) =
        ((Node.directory []).answers ⟨0, 0⟩ mixedOperations).1 ∧
      (created.answers ⟨0, 0⟩ mixedOperations).2.Shows ⟨0, 0⟩
        ((Node.directory []).answers ⟨0, 0⟩ mixedOperations).2 := by
  have hnone : (Path.host (.ofString "/a.zip")).provider.check bare (.host (.ofString "/a.zip")) [] =
      .error (.notFound "/a.zip") := rfl
  have hmount : bare.mount 0 (.host (.ofString "/a.zip")) (Options.createEnv "") none =
      .ok (⟨0, 0⟩, created) := rfl
  have hfresh := fresh_mount hnone hmount
  obtain ⟨hanswers, hlast, -⟩ := answers_eq hfresh mixedOperations
  exact ⟨hfresh, hanswers, hlast⟩

end World

end ZipMount
