import ZipMount.Proofs.Members.Decoded
import ZipMount.Proofs.Mounting.Calls

namespace ZipMount

namespace Tree

/-- What is left of a tree after a change that may be refused. -/
def kept (t : Tree) : Except Refusal Tree → Tree
  | .ok t' => t'
  | .error _ => t

theorem WellFormed.kept {t : Tree} (h : t.WellFormed) {r : Except Refusal Tree}
    (hr : ∀ t', r = .ok t' → t.Step t') : (t.kept r).WellFormed := by
  cases r with
  | error e => exact h
  | ok t' => exact h.step (hr t' rfl)

end Tree

namespace Members

open MemberKey

/-- What members are asked: an operation on the member that a path leads to, at a moment. -/
structure Asked where
  now : Instant
  path : String
  operation : Operation

/-- What members answer; their keys are texts. -/
inductive Reply where
  | done
  | attributes (a : Attributes)
  | contents (data : ByteArray)
  | keys (ks : List String)
  | walked (ks : Option (List String))

namespace Asked

/-- Looks the member up and does what is asked. Which modes a member grants is told from its
attributes. -/
def run (a : Asked) : Work Reply := do
  let key := keyOf a.path
  match a.operation with
  | .check _ => pure (.attributes (← find key).attributes)
  | .attributes => pure (.attributes (← find key).attributes)
  | .setTimes change => do setTimes key change; pure .done
  | .makeDirectory => do makeDirectory a.now key; pure .done
  | .read => pure (.contents (← read key))
  | .write data mode => do write a.now key data mode; pure .done
  | .delete => do delete key; pure .done
  | .list => pure (.keys (← list key))
  | .walk order => pure (.walked (← walk key order))

/-- The same asked of a tree: its answer, and what it is then. -/
def onTree (a : Asked) (t : Tree) : Except Refusal Reply × Tree :=
  let k := ofText a.path
  let changed (r : Except Refusal Tree) := (r.map fun _ => Reply.done, t.kept r)
  match a.operation with
  | .check _ => ((t.find k).map fun m => .attributes m.attributes, t)
  | .attributes => ((t.find k).map fun m => .attributes m.attributes, t)
  | .setTimes change => changed (t.retime k change)
  | .makeDirectory => changed (t.makeDirectory a.now k)
  | .read => ((t.read k).map .contents, t)
  | .write data mode => changed (t.writeFile a.now k data mode)
  | .delete => changed (t.remove k)
  | .list => ((t.list k).map (List.map text) |>.map .keys, t)
  | .walk order => ((t.walk order k).map (fun ks => some (ks.map text)) |>.map .walked, t)

end Asked

/-- The members after some questions, whatever they answered. -/
def after (ms : Members) (as : List Asked) : Members := as.foldl (fun ms a => (a.run ms).2) ms

variable {ms : Members} {t : Tree}

theorem Asked.wellFormed_onTree (a : Asked) (h : t.WellFormed) : (a.onTree t).2.WellFormed := by
  have hk := canonical_ofText a.path
  unfold onTree
  cases a.operation with
  | setTimes change => exact h.kept fun _ => .retime hk
  | makeDirectory => exact h.kept fun _ => .makeDirectory hk
  | write data mode => exact h.kept fun _ => .writeFile hk
  | delete => exact h.kept fun _ => .remove hk
  | _ => exact h

/-- Members and a tree answer the same, and go on to hold the same. The members remember a change
just if one was asked for and not refused. -/
structure Answers (ms : Members) (changes : Bool) (x : Except Refusal Reply × Members)
    (y : Except Refusal Reply × Tree) : Prop where
  reply : x.1 = y.1
  shows : x.2.Shows y.2
  dirty : x.2.dirty = (ms.dirty || (changes && y.1.isOk))

theorem Shows.bind_reply (h : ms.Shows t) {α : Type} {x : Work α} {r : Except Refusal α}
    (hx : x ms = (r, ms)) (f : α → Reply) :
    ms.Answers false ((x >>= fun a => pure (f a)) ms) (r.map f, t) := by
  rw [runBind_eq, hx]
  cases r with
  | error e => exact ⟨rfl, h, (Bool.or_false _).symm⟩
  | ok a => exact ⟨rfl, h, (Bool.or_false _).symm⟩

theorem Follows.bind_done {x : Work Unit} {r : Except Refusal Tree} (h : ms.Follows (x ms) r)
    (hs : ms.Shows t) :
    ms.Answers true ((x >>= fun _ => pure Reply.done) ms) (r.map fun _ => .done, t.kept r) := by
  rw [runBind_eq]
  generalize x ms = done at h ⊢
  cases h with
  | refused e => exact ⟨rfl, hs, (Bool.or_false _).symm⟩
  | done h' hd => exact ⟨rfl, h', hd.trans (Bool.or_true _).symm⟩

/-- Members answer as a tree that they show, and show what it is then. -/
theorem Shows.run (h : ms.Shows t) (hw : t.WellFormed) (a : Asked) :
    ms.Answers a.operation.changes (a.run ms) (a.onTree t) := by
  have hk := canonical_ofText a.path
  unfold Asked.run Asked.onTree
  cases a.operation with
  | check modes => exact h.bind_reply (h.find hk) _
  | attributes => exact h.bind_reply (h.find hk) _
  | setTimes change => exact (h.setTimes hk change).bind_done h
  | makeDirectory => exact (h.makeDirectory hk a.now).bind_done h
  | read => exact h.bind_reply (h.read hk) _
  | write data mode => exact (h.write hk a.now data mode).bind_done h
  | delete => exact (h.delete hw hk).bind_done h
  | list => exact h.bind_reply (h.list hw hk) _
  | walk order => exact h.bind_reply (h.walk hw hk order) _

theorem Shows.after (h : ms.Shows t) (hw : t.WellFormed) (as : List Asked) :
    ∃ t' : Tree, t'.WellFormed ∧ (ms.after as).Shows t' := by
  induction as generalizing ms t with
  | nil => exact ⟨t, hw, h⟩
  | cons a as ih => exact ih (h.run hw a).shows (a.wellFormed_onTree hw)

end Members

end ZipMount
