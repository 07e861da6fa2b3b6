import ZipMount.Access
import ZipMount.Time.Instant

namespace ZipMount

/-- What an entry is. -/
inductive Kind where
  | file
  | directory
deriving DecidableEq, Repr

/-- Kind, size and times of an entry. A directory has size zero. -/
structure Attributes where
  kind : Kind
  size : Nat
  times : Times
deriving DecidableEq, Repr

def Attributes.isDirectory (a : Attributes) : Bool := a.kind == .directory

/-- What to do if a file to write is there already. -/
inductive WriteMode where
  | createNew
  | replace
deriving DecidableEq, Repr

/-- The order in which a walk takes the entries of a directory: as they are listed, or by name. -/
inductive WalkOrder where
  | natural
  | sorted
deriving DecidableEq, Repr

def WalkOrder.arrange {α : Type} (order : WalkOrder) (le : α → α → Bool) (listed : List α) :
    List α :=
  match order with
  | .natural => listed
  | .sorted => listed.mergeSort le

theorem WalkOrder.mem_arrange {α : Type} {order : WalkOrder} {le : α → α → Bool} {xs : List α}
    {x : α} : x ∈ order.arrange le xs ↔ x ∈ xs := by
  cases order with
  | natural => rfl
  | sorted => exact List.mem_mergeSort

theorem WalkOrder.nodup_arrange {α : Type} {order : WalkOrder} {le : α → α → Bool} {xs : List α}
    (h : xs.Nodup) : (order.arrange le xs).Nodup := by
  cases order with
  | natural => exact h
  | sorted => exact (List.mergeSort_perm xs le).nodup_iff.mpr h

end ZipMount
