import ZipMount.Proofs.Archives.Destination
import ZipMount.Proofs.Archives.Entry
import ZipMount.Proofs.RootedPath
import ZipMount.Proofs.Tree.DefaultWalk

namespace ZipMount

open MemberKey

/-- A path on a mount that is given by texts, each taken from the one before. -/
inductive Path.Spelled (id : MountId) : Path → Prop where
  | path (text : String) : Spelled id ((FileSystem.archive id).path text)
  | resolve {p : Path} (h : Spelled id p) (text : String) : Spelled id (p.resolve text)

theorem Path.Spelled.exists_pathname {id : MountId} {p : Path} (h : Spelled id p) :
    ∃ q, p = .member id q ∧ q.IsRooted := by
  induction h with
  | path text => exact ⟨_, rfl, Pathname.isRooted_root.join text⟩
  | resolve _ text ih =>
    obtain ⟨q, rfl, hq⟩ := ih
    exact ⟨_, rfl, hq.join text⟩

namespace Path

variable {w : World} {id : MountId} {m : Mount} {p : Path} {q : Pathname} {j k r : MemberKey}

/-- The error where a path is not beneath another. -/
def notBeneath (p base : Path) : Error := .notFound s!"{p.display} is not beneath {base.display}"

theorem not_up_mem_pathname (hj : Canonical j) : Component.up ∉ j.pathname.components := by
  rw [components_pathname hj]
  simp

/-- Nothing is left of the path of a key when a path that goes up is taken off. -/
theorem relativeTo_of_up (hj : Canonical j) (hup : .up ∈ p.pathname.components) :
    (ofKey id j).relativeTo p = .error ((ofKey id j).notBeneath p) := by
  have hnone : (ofKey id j).pathname.relativeTo? p.pathname = none := by
    rw [Pathname.relativeTo?, if_neg]
    intro hpre
    exact not_up_mem_pathname hj ((List.isPrefixOf_iff_prefix.mp hpre).subset hup)
  rw [relativeTo, hnone]
  rfl

/-- When a path that never goes up is taken off, what is beneath it is left of the key. -/
theorem relativeTo_of_not_up (hq : q.IsRooted) (hup : .up ∉ q.components) (hr : Canonical r) :
    (ofKey id (ofPathname q ++ r)).relativeTo (.member id q) = .ok r.text := by
  have hkey : Canonical (ofPathname q ++ r) := canonical_append (canonical_ofText q.display) hr
  have hcomponents := components_of_rooted hq hup
  have hsteps : (MemberKey.pathname (ofPathname q ++ r)).components =
      q.components ++ r.filenames.map .name := by
    rw [components_pathname hkey, hcomponents, filenames_append, List.map_append]
    rfl
  have hrelative : (ofKey id (ofPathname q ++ r)).pathname.relativeTo? (member id q).pathname =
      some (r.filenames.map .name) := by
    change (MemberKey.pathname (ofPathname q ++ r)).relativeTo? q = _
    rw [Pathname.relativeTo?, hsteps, if_pos (List.isPrefixOf_iff_prefix.mpr (List.prefix_append _ _)),
      List.drop_left]
  rw [relativeTo, hrelative]
  exact congrArg Except.ok (stepsText_filenames r)

/-- What is left leads to the member again. -/
theorem names_resolve (hq : q.IsRooted) (hup : .up ∉ q.components) (hr : Canonical r) :
    Names id (ofPathname q ++ r)
      (if r.text = "" then .member id q else (member id q).resolve r.text) := by
  by_cases hnil : r = []
  · subst hnil
    exact ⟨q, rfl, (List.append_nil _).symm⟩
  · have htext : ¬ r.text = "" := fun h => hnil (eq_nil_of_text hr h)
    have hne : q.bytes ≠ [] := by
      intro hempty
      have hroot := hq.1
      rw [Pathname.isAbsolute, hempty] at hroot
      cases hroot
    rw [if_neg htext]
    refine ⟨q.join (.ofString r.text), rfl, ?_⟩
    apply ofPathname_of_components (canonical_append (canonical_ofText q.display) hr)
    rw [Pathname.join_text q hr hnil, Pathname.components_under hne (isSegment_of_mem hr),
      components_of_rooted hq hup, filenames_append, List.map_append]
    rfl

end Path

namespace Archives

variable {w : World} {id : MountId} {m : Mount} {p : Path} {q : Pathname} {j r : MemberKey}

/-- What is left of the path of a member when another path is taken off, what it leads to from
there, and where the member is copied to. -/
structure Beneath (id : MountId) (p : Path) (j r : MemberKey) : Prop where
  eq : j = ofPathname p.pathname ++ r
  relative : (Path.ofKey id j).relativeTo p = .ok r.text
  resolved : Path.Names id j (if r.text = "" then p else p.resolve r.text)
  copied : ∀ target, destination p target (.ofKey id j) =
    .ok (if r = [] then target else target.resolve r.text)

theorem beneath_of_not_up (hq : q.IsRooted) (hup : .up ∉ q.components) (hr : Canonical r) :
    Beneath id (.member id q) (ofPathname q ++ r) r :=
  have hrelative := Path.relativeTo_of_not_up hq hup hr
  ⟨rfl, hrelative, Path.names_resolve hq hup hr, destination_of_relativeTo hr hrelative⟩

/-- What is copied to the same place is copied alike. -/
theorem copyBeneath_congr {source source' target : Path}
    (h : destination source target p = destination source' target p) :
    copyBeneath source target p = copyBeneath source' target p := by
  unfold copyBeneath
  rw [h]

/-- Where nothing is left of a path when the source is taken off, nothing is copied. -/
theorem copyBeneath_of_relativeTo {source : Path} {e : Error} (h : p.relativeTo source = .error e)
    (target : Path) (w : World) : copyBeneath source target p w = (.error (.error e), w) := by
  have hdestination : destination source target p = .error e := by
    unfold destination
    rw [h]
    rfl
  unfold copyBeneath
  rw [Action.bind_of_error (Action.ask_of_error hdestination)]

theorem copyTree_of_walk {source : Path} {order : WalkOrder} {found : List Path}
    (h : source.walk order w = .ok found) (target : Path) :
    copyTree source target order w = found.forM (copyBeneath source target) w := by
  unfold copyTree
  rw [Action.bind_of_ok (Action.ask_of_ok h)]

/-- A walk from a path that names a member, however it is written, comes to the member and to those
beneath it. If the path never goes up, each of them is what is left of it beneath the path, and the
tree is copied as it is from the path of the key; if it does, nothing is left of any of them, and
nothing is copied. -/
theorem walk_relative (hm : w.openMount id = .ok m) (ht : m.tree.Reachable)
    (hp : Path.Spelled id p) (hk : (m.tree.find? (ofPathname p.pathname)).isSome)
    (order : WalkOrder) :
    ∃ ks, p.walk order w = .ok (ks.map (.ofKey id)) ∧
      m.tree.Visits (ofPathname p.pathname) ks ∧
      (.up ∉ p.pathname.components →
        (∀ j ∈ ks, ∃ r, Beneath id p j r) ∧
        ∀ target, copyTree p target order w =
          copyTree (.ofKey id (ofPathname p.pathname)) target order w) ∧
      (.up ∈ p.pathname.components →
        (∀ j ∈ ks, (Path.ofKey id j).relativeTo p = .error ((Path.ofKey id j).notBeneath p)) ∧
        ∀ target, copyTree p target order w =
          (.error (.error ((Path.ofKey id (ofPathname p.pathname)).notBeneath p)), w)) := by
  obtain ⟨q, rfl, hq⟩ := hp.exists_pathname
  change (m.tree.find? (ofPathname q)).isSome at hk
  obtain ⟨x, hx⟩ := Option.isSome_iff_exists.mp hk
  have hw := ht.wellFormed
  have hkey : Canonical (ofPathname q) := canonical_ofText q.display
  have hheight : m.tree.height ≤
      (ofPathname q).length + (m.tree.height - (ofPathname q).length) := by omega
  have hwalk := Path.walk_of_find hm hx order
  have hwalkKey := Path.walk_ofKey hm hkey hx order
  have hvisits := hw.visits_preorder order hheight
  generalize m.tree.preorder order (m.tree.height - (ofPathname q).length) (ofPathname q) = ks
    at hwalk hwalkKey hvisits
  have hsplit : ∀ j ∈ ks, ∃ r, j = ofPathname q ++ r ∧ Canonical r := by
    intro j hj
    rcases (hvisits.mem_iff j).mp hj with rfl | ⟨hmem, ⟨r, rfl⟩, -⟩
    · exact ⟨[], (List.append_nil _).symm, canonical_nil⟩
    · exact ⟨r, rfl, fun s hs => hw.canonical _ hmem s (List.mem_append_right _ hs)⟩
  have hup : .up ∈ q.components → ∀ j ∈ ks, (Path.ofKey id j).relativeTo (.member id q) =
      .error ((Path.ofKey id j).notBeneath (.member id q)) := by
    intro hup j hj
    obtain ⟨r, rfl, hr⟩ := hsplit j hj
    exact Path.relativeTo_of_up (canonical_append hkey hr) hup
  refine ⟨ks, hwalk, hvisits, fun hnot => ⟨?_, fun target => ?_⟩, fun h => ⟨hup h, fun target => ?_⟩⟩
  · intro j hj
    obtain ⟨r, rfl, hr⟩ := hsplit j hj
    exact ⟨r, beneath_of_not_up hq hnot hr⟩
  · change _ = copyTree (.ofKey id (ofPathname q)) target order w
    have hsame : ∀ j ∈ ks, copyBeneath (.member id q) target (.ofKey id j) =
        copyBeneath (.ofKey id (ofPathname q)) target (.ofKey id j) := by
      intro j hj
      obtain ⟨r, rfl, hr⟩ := hsplit j hj
      apply copyBeneath_congr
      rw [(beneath_of_not_up hq hnot hr).copied, destination_eq hkey hr]
    rw [copyTree_of_walk hwalk, copyTree_of_walk hwalkKey, Action.forM_map hsame,
      Action.forM_map fun _ _ => rfl]
  · obtain ⟨rest, rfl⟩ := List.head?_eq_some_iff.mp hvisits.first
    have hfirst := copyBeneath_of_relativeTo (hup h _ List.mem_cons_self) target w
    rw [copyTree_of_walk hwalk, List.map_cons, Action.forM_cons, Action.bind_of_error hfirst]
    rfl

/-- The path of a directory with something in it, written without a step up. -/
def straightPath : Path := ((FileSystem.archive ⟨0, 0⟩).path "//b/.").resolve "./"

def roundaboutPath : Path := ((FileSystem.archive ⟨0, 0⟩).path "a").resolve "../b"

theorem walk_relative_scattered :
    ∃ m, (World.created.after World.scatteringCalls).openMount ⟨0, 0⟩ = .ok m ∧
      m.tree.Reachable ∧
      (Path.Spelled ⟨0, 0⟩ straightPath ∧
        (m.tree.find? (ofPathname straightPath.pathname)).isSome ∧
        ∃ ks, m.tree.Visits ["b"] ks ∧ ∀ j ∈ ks, ∃ r, Beneath ⟨0, 0⟩ straightPath j r) ∧
      (Path.Spelled ⟨0, 0⟩ roundaboutPath ∧
        (m.tree.find? (ofPathname roundaboutPath.pathname)).isSome ∧
        ∀ target, copyTree roundaboutPath target .natural
            (World.created.after World.scatteringCalls) =
          (.error (.error ((Path.ofKey ⟨0, 0⟩ ["b"]).notBeneath roundaboutPath)),
            World.created.after World.scatteringCalls)) := by
  have hstraight : Path.Spelled ⟨0, 0⟩ straightPath := .resolve (.path _) _
  have hroundabout : Path.Spelled ⟨0, 0⟩ roundaboutPath := .resolve (.path _) _
  obtain ⟨m, hm⟩ : ∃ m, (World.created.after World.scatteringCalls).openMount ⟨0, 0⟩ = .ok m :=
    ⟨_, rfl⟩
  have hreach : m.tree.Reachable := by
    cases hm
    exact ⟨World.created, ⟨0, 0⟩, _, _, World.scatteringCalls, rfl, Or.inl ⟨.epoch, rfl⟩, rfl, rfl⟩
  have hthere : (m.tree.find? ["b"]).isSome := by
    cases hm
    rfl
  have hkey : ofPathname straightPath.pathname = ["b"] := by decide
  have hkey' : ofPathname roundaboutPath.pathname = ["b"] := by decide
  obtain ⟨ks, -, hvisits, hbeneath, -⟩ :=
    walk_relative hm hreach hstraight (hkey.symm ▸ hthere) .natural
  obtain ⟨_, -, -, -, hfails⟩ :=
    walk_relative hm hreach hroundabout (hkey'.symm ▸ hthere) .natural
  rw [hkey'] at hfails
  rw [hkey] at hvisits
  exact ⟨m, hm, hreach, ⟨hstraight, hkey.symm ▸ hthere, ks, hvisits, (hbeneath (by decide)).1⟩,
    hroundabout, hkey'.symm ▸ hthere, (hfails (by decide)).2⟩

end Archives

end ZipMount
