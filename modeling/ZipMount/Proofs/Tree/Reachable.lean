import ZipMount.Mounting.Open
import ZipMount.Proofs.Calls

namespace ZipMount

namespace World

theorem mount?_setMount {w : World} {id : MountId} {m₀ : Mount} (h : w.mount? id = some m₀)
    (m : Mount) (j : MountId) :
    (w.setMount id m).mount? j = if j.number = id.number then some m else w.mount? j := by
  obtain ⟨hlt, -⟩ := List.getElem?_eq_some_iff.mp h
  unfold setMount mount?
  by_cases hj : j.number = id.number
  · simp [hj, hlt]
  · simp [hj, Ne.symm hj]

/-- A mount that is open for writing stays so when its members change. -/
theorem writableMount_setTree {w : World} {id : MountId} {m : Mount}
    (hm : w.writableMount id = .ok m) (t : Tree) :
    (w.setTree id m t).writableMount id = .ok { m with tree := t, dirty := true } := by
  obtain ⟨hw, ho, hr⟩ := writableMount_ok.mp hm
  refine writableMount_ok.mpr ⟨?_, ho, hr⟩
  rw [setTree, mount?_setMount hw, if_pos rfl]

/-- What every step of a tree keeps, a change of the world keeps of a mount's tree. -/
theorem Changed.mount? {w w' : World} (h : w.Changed w') {P : Tree → Prop}
    (hP : ∀ t t', P t → t.Step t' → P t') {id : MountId} {m : Mount} (hm : w.mount? id = some m)
    (ht : P m.tree) : ∃ m', w'.mount? id = some m' ∧ P m'.tree := by
  cases h with
  | host v hv h =>
    exact ⟨m, (mount?_of_clock hv id).trans hm, ht⟩
  | tree v hv j m₀ t hw hs =>
    have hj := (writableMount_ok.mp hw).1
    unfold setTree
    rw [mount?_setMount ((mount?_of_clock hv j).trans hj)]
    by_cases hid : id.number = j.number
    · obtain rfl : m = m₀ := Option.some.inj (hm.symm.trans ((mount?_of_number hid).trans hj))
      exact ⟨_, if_pos hid, hP _ _ ht hs⟩
    · exact ⟨m, (if_neg hid).trans ((mount?_of_clock hv id).trans hm), ht⟩

/-- What every step of a tree keeps, any number of calls keep of a mount's tree. -/
theorem mount?_after {w : World} {P : Tree → Prop} (hP : ∀ t t', P t → t.Step t' → P t')
    {id : MountId} {m : Mount} (hm : w.mount? id = some m) (ht : P m.tree) (cs : List Call) :
    ∃ m', (w.after cs).mount? id = some m' ∧ P m'.tree := by
  induction cs generalizing w m with
  | nil => exact ⟨m, hm, ht⟩
  | cons c cs ih =>
    have hstep : ∃ m', (c.run w).2.mount? id = some m' ∧ P m'.tree := by
      rcases c.run_cases w with hsame | hchanged
      · rw [hsame]
        exact ⟨m, hm, ht⟩
      · exact hchanged.mount? hP hm ht
    obtain ⟨m', hm', ht'⟩ := hstep
    exact ih hm' ht'

end World

namespace Tree

open MemberKey

/-- A tree that a mount starts with: an empty one, or that of the entries of an archive. -/
def Starting (t : Tree) : Prop :=
  (∃ now, t = empty now) ∨ ∃ now found, ofEntries now found = .ok t

/-- A tree that a mount can come to hold: any calls lead to it from one that a mount starts with. -/
def Reachable (t : Tree) : Prop :=
  ∃ (w : World) (id : MountId) (m m' : Mount) (cs : List Call),
    w.mount? id = some m ∧ m.tree.Starting ∧ (w.after cs).mount? id = some m' ∧ m'.tree = t

theorem starting_decode {now : Instant} {b : ByteArray} {t : Tree} (h : decode now b = .ok t) :
    t.Starting := by
  obtain ⟨found, -, h⟩ := bind_eq_ok h
  exact Or.inr ⟨now, found, h⟩

theorem Starting.wellFormed {t : Tree} (h : t.Starting) : t.WellFormed := by
  rcases h with ⟨now, rfl⟩ | ⟨now, found, h⟩
  · exact wellFormed_empty now
  · exact wellFormed_ofEntries h

theorem Reachable.wellFormed {t : Tree} (h : t.Reachable) : t.WellFormed := by
  obtain ⟨w, id, m, m', cs, hm, hs, hm', rfl⟩ := h
  obtain ⟨m'', hm'', ht⟩ :=
    World.mount?_after (fun _ _ hw hstep => WellFormed.step hw hstep) hm hs.wellFormed cs
  rw [hm'] at hm''
  cases hm''
  exact ht

/-- Entries with parents listed late or not at all, names given twice, a file in the place of a
directory, and dots and slashes of every kind. -/
def tangledEntries : List (Except ZipFault Zip.Entry) :=
  ["a/b/c", "/x//./y/", "a/b/", "../z", "a", "x/y/../y", "."].map fun name =>
    .ok ⟨name, .first, none, .ok ByteArray.empty⟩

def tangledMount : Mount where
  backing := .host (.ofString "/a.zip")
  registered := none
  readOnly := false
  options := .unset
  isOpen := true
  tree := (ofEntries .epoch tangledEntries).toOption.getD (empty .epoch)
  dirty := false

def tangledWorld : World :=
  { World.start (.empty .epoch) (fun _ => .epoch) "" with mounts := [tangledMount] }

/-- Calls that add, replace and take out members of it. -/
def tangledCalls : List Call :=
  let path := fun text => (FileSystem.archive ⟨0, 0⟩).path text
  [⟨.archive 0, path "x/../d", .makeDirectory⟩,
    ⟨.archive 0, path "/d//f", .write ByteArray.empty .createNew⟩,
    ⟨.archive 0, path "a/b/c", .delete⟩,
    ⟨.archive 0, path "z", .write ByteArray.empty .replace⟩]

end Tree

end ZipMount
