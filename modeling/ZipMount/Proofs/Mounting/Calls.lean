import ZipMount.Proofs.Tree.Reachable

namespace ZipMount

def Operation.changes : Operation → Bool
  | .setTimes _ => true
  | .makeDirectory => true
  | .write .. => true
  | .delete => true
  | _ => false

/-- A call that asks for a change of a member of a mount. -/
def Call.Changes (c : Call) (id : MountId) : Prop :=
  c.operation.changes = true ∧
    ∃ j q, c.provider.target c.path = .ok (.member j q) ∧ j.number = id.number

/-- A call that changes a member of a mount, and is not refused. -/
def Call.Succeeds (c : Call) (id : MountId) (w : World) : Prop :=
  c.Changes id ∧ (c.run w).1 = .ok .done

/-- What becomes of a mount when one of its members may have been changed: then it remembers that,
and it was open for writing; else it is as it was. -/
def Mount.Becomes (m : Mount) (id : MountId) (changed : Prop) (w : World) : Prop :=
  (changed ∧ m.isOpen = true ∧ m.readOnly = false ∧
      ∃ t, w.mount? id = some { m with tree := t, dirty := true }) ∨
    (¬ changed ∧ w.mount? id = some m)

/-- Some of the calls changed a member of a mount. -/
def World.ChangedBy (w : World) (cs : List Call) (id : MountId) : Prop :=
  ∃ before c rest, cs = before ++ c :: rest ∧ c.Succeeds id (w.after before)

namespace World

variable {w v : World} {id : MountId} {m : Mount}

@[simp] theorem after_nil (w : World) : w.after [] = w := rfl

@[simp] theorem after_cons (w : World) (c : Call) (cs : List Call) :
    w.after (c :: cs) = (c.run w).2.after cs := rfl

theorem changedBy_cons {c : Call} {cs : List Call} :
    w.ChangedBy (c :: cs) id ↔ c.Succeeds id w ∨ (c.run w).2.ChangedBy cs id := by
  constructor
  · rintro ⟨before, d, rest, heq, hd⟩
    cases before with
    | nil =>
      obtain ⟨rfl, rfl⟩ := List.cons_eq_cons.mp heq
      exact Or.inl hd
    | cons b before =>
      obtain ⟨rfl, rfl⟩ := List.cons_eq_cons.mp heq
      exact Or.inr ⟨before, d, rest, rfl, hd⟩
  · rintro (hc | ⟨before, d, rest, rfl, hd⟩)
    · exact ⟨[], c, cs, rfl, hc⟩
    · exact ⟨c :: before, d, rest, rfl, hd⟩

theorem not_changedBy_nil : ¬ w.ChangedBy [] id := by
  rintro ⟨before, c, rest, heq, -⟩
  cases before <;> cases heq

/-- What a change of some tree does to a mount. -/
theorem becomes_changeTree {w' : World} (hm : w.mount? id = some m) {j : MountId} {p : Pathname}
    {f : Tree → Except Refusal Tree} (h : w.changeTree j p f = .ok w') :
    m.Becomes id (j.number = id.number) w' := by
  obtain ⟨m', t, hm', -, rfl⟩ := changeTree_ok h
  obtain ⟨hj, hopen, hwritable⟩ := writableMount_ok.mp hm'
  unfold Mount.Becomes setTree
  rw [mount?_setMount hj]
  by_cases hid : j.number = id.number
  · obtain rfl : m' = m := Option.some.inj (hj.symm.trans ((mount?_of_number hid).trans hm))
    exact Or.inl ⟨hid, hopen, hwritable, t, if_pos hid.symm⟩
  · exact Or.inr ⟨hid, (if_neg (Ne.symm hid)).trans hm⟩

/-- What a change asked of a provider does to a mount. The clock may or may not have been asked
before. -/
theorem becomes_of_target {w' vh vt : World} (hm : w.mount? id = some m)
    (hh : vh = w ∨ vh = w.tick) (ht : vt = w ∨ vt = w.tick) {prov : Provider} {p : Path}
    {onHost : Pathname → Host → Except IoFault Host}
    {onTree : Pathname → Tree → Except Refusal Tree}
    (h : (do
      match ← prov.target p with
      | .host q => vh.changeHost q (onHost q)
      | .member j q => vt.changeTree j q (onTree q)) = .ok w') :
    m.Becomes id (∃ j q, prov.target p = .ok (.member j q) ∧ j.number = id.number) w' := by
  obtain ⟨target, htarget, h⟩ := bind_eq_ok h
  rw [htarget]
  cases target with
  | host q =>
    obtain ⟨host, -, rfl⟩ := changeHost_ok h
    refine Or.inr ⟨?_, ?_⟩
    · rintro ⟨j, q', hmember, -⟩
      cases hmember
    · exact (mount?_of_clock hh id).trans hm
  | member j q =>
    have hmt : vt.mount? id = some m := (mount?_of_clock ht id).trans hm
    have hiff : (∃ j' q', (Except.ok (Target.member j q) : Except Error Target) =
        .ok (.member j' q') ∧ j'.number = id.number) ↔ j.number = id.number := by
      constructor
      · rintro ⟨j', q', hmember, hid⟩
        cases hmember
        exact hid
      · exact fun hid => ⟨j, q, rfl, hid⟩
    rw [hiff]
    exact becomes_changeTree hmt h

end World

namespace Call

variable {w : World} {id : MountId} {m : Mount}

/-- A call that is no change leaves the world as it is. -/
theorem run_of_not_changes {c : Call} (hc : c.operation.changes = false) : (c.run w).2 = w := by
  rw [run_eq]
  cases hop : c.operation with
  | check modes => rfl
  | attributes => rfl
  | read => rfl
  | list => rfl
  | walk order => rfl
  | setTimes change => rw [hop] at hc; cases hc
  | makeDirectory => rw [hop] at hc; cases hc
  | write data mode => rw [hop] at hc; cases hc
  | delete => rw [hop] at hc; cases hc

/-- A call that is a change either changes the world or is refused. -/
theorem run_of_changes (hm : w.mount? id = some m) {c : Call} (hc : c.operation.changes = true) :
    ∃ r : Except Error World, c.run w = changed w r ∧ ∀ w', r = .ok w' →
      m.Becomes id (∃ j q, c.provider.target c.path = .ok (.member j q) ∧ j.number = id.number)
        w' := by
  rw [run_eq]
  cases hop : c.operation with
  | check modes => rw [hop] at hc; cases hc
  | attributes => rw [hop] at hc; cases hc
  | read => rw [hop] at hc; cases hc
  | list => rw [hop] at hc; cases hc
  | walk order => rw [hop] at hc; cases hc
  | setTimes change =>
    exact ⟨_, rfl, fun _ h => World.becomes_of_target hm (Or.inl rfl) (Or.inl rfl) h⟩
  | makeDirectory =>
    exact ⟨_, rfl, fun _ h => World.becomes_of_target hm (Or.inr rfl) (Or.inr rfl) h⟩
  | write data mode =>
    exact ⟨_, rfl, fun _ h => World.becomes_of_target hm (Or.inr rfl) (Or.inr rfl) h⟩
  | delete =>
    exact ⟨_, rfl, fun _ h => World.becomes_of_target hm (Or.inr rfl) (Or.inl rfl) h⟩

/-- A change of a member that does not succeed is refused. -/
theorem error_of_not_succeeds (hm : w.mount? id = some m) {c : Call} (hc : c.Changes id)
    (hnot : ¬ c.Succeeds id w) : ∃ e, (c.run w).1 = .error e := by
  obtain ⟨r, hrun, -⟩ := run_of_changes hm hc.1
  unfold Succeeds at hnot
  rw [hrun] at hnot ⊢
  cases r with
  | error e => exact ⟨e, rfl⟩
  | ok w' => exact absurd ⟨hc, rfl⟩ hnot

/-- What a call does to a mount. -/
theorem becomes_run (hm : w.mount? id = some m) (c : Call) :
    m.Becomes id (c.Succeeds id w) (c.run w).2 := by
  unfold Succeeds Changes
  cases hc : c.operation.changes with
  | false =>
    rw [run_of_not_changes hc]
    exact Or.inr ⟨fun h => Bool.false_ne_true h.1.1, hm⟩
  | true =>
    obtain ⟨r, hrun, hr⟩ := run_of_changes hm hc
    rw [hrun]
    cases r with
    | error e =>
      refine Or.inr ⟨?_, hm⟩
      rintro ⟨-, h⟩
      cases h
    | ok w' =>
      rcases hr w' rfl with ⟨hmember, hmount⟩ | ⟨hmember, hmount⟩
      · exact Or.inl ⟨⟨⟨rfl, hmember⟩, rfl⟩, hmount⟩
      · exact Or.inr ⟨fun h => hmember h.1.2, hmount⟩

end Call

namespace World

variable {w : World} {id : MountId} {m : Mount}

/-- A mount after some calls: what it is of does not change, nor whether it is open; its members
changed if it says so. -/
theorem mount?_after_calls (hm : w.mount? id = some m) (cs : List Call) :
    ∃ t dirty, (w.after cs).mount? id = some { m with tree := t, dirty := dirty } ∧
      (dirty = true ↔ m.dirty = true ∨ w.ChangedBy cs id) := by
  induction cs generalizing w m with
  | nil =>
    refine ⟨m.tree, m.dirty, hm, ?_⟩
    simp [not_changedBy_nil]
  | cons c cs ih =>
    rw [changedBy_cons]
    rcases c.becomes_run hm with ⟨hc, -, -, t, ht⟩ | ⟨hc, hsame⟩
    · obtain ⟨t', dirty, hafter, hiff⟩ := ih ht
      refine ⟨t', dirty, hafter, hiff.trans ?_⟩
      simp [hc]
    · obtain ⟨t', dirty, hafter, hiff⟩ := ih hsame
      refine ⟨t', dirty, hafter, hiff.trans ?_⟩
      simp [hc]

/-- A mount that is closed, or can be read only, stays as it is. -/
theorem mount?_after_of_not_writable (hm : w.mount? id = some m)
    (hw : m.isOpen = false ∨ m.readOnly = true) (cs : List Call) :
    (w.after cs).mount? id = some m := by
  induction cs generalizing w with
  | nil => exact hm
  | cons c cs ih =>
    rcases c.becomes_run hm with ⟨-, hopen, hwritable, -⟩ | ⟨-, hsame⟩
    · rcases hw with hclosed | hreadOnly
      · rw [hclosed] at hopen
        cases hopen
      · rw [hreadOnly] at hwritable
        cases hwritable
    · exact ih hsame

end World

end ZipMount
