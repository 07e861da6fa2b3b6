import ZipMount.Proofs.Changing
import ZipMount.Proofs.Tree.WellFormed

namespace ZipMount

/-- What a provider can be asked to do with a path. -/
inductive Operation where
  | check (modes : List AccessMode)
  | attributes
  | setTimes (change : TimeChange)
  | makeDirectory
  | read
  | write (data : ByteArray) (mode : WriteMode)
  | delete
  | list
  | walk (order : WalkOrder)

/-- What a provider answers. -/
inductive Answer where
  | done
  | attributes (a : Attributes)
  | contents (data : ByteArray)
  | paths (ps : List Path)
deriving DecidableEq

/-- An operation on a path, asked of a provider. -/
structure Call where
  provider : Provider
  path : Path
  operation : Operation

namespace Call

def answered (r : Except Error Unit × World) : Except Error Answer × World :=
  (r.1.map fun _ => .done, r.2)

/-- The answer to a call, and the world after it. -/
def run (c : Call) (w : World) : Except Error Answer × World :=
  match c.operation with
  | .check modes => ((c.provider.check w c.path modes).map fun _ => .done, w)
  | .attributes => ((c.provider.attributes w c.path).map .attributes, w)
  | .setTimes change => answered (Work.setTimes c.provider c.path change w)
  | .makeDirectory => answered (Work.makeDirectory c.provider c.path w)
  | .read => ((c.provider.read w c.path).map .contents, w)
  | .write data mode => answered (Work.write c.provider c.path data mode w)
  | .delete => answered (Work.delete c.provider c.path w)
  | .list => ((c.provider.list w c.path).map .paths, w)
  | .walk order => ((c.provider.walk w order c.path).map .paths, w)

/-- A world that was changed, or an error and the world as it was. -/
def changed (w : World) : Except Error World → Except Error Answer × World
  | .ok w' => (.ok .done, w')
  | .error e => (.error e, w)

theorem answered_leaving (w : World) (r : Except Error World) :
    answered (Work.leaving w r) = changed w r := by
  cases r <;> rfl

theorem run_eq (c : Call) (w : World) :
    c.run w = match c.operation with
      | .check modes => ((c.provider.check w c.path modes).map fun _ => .done, w)
      | .attributes => ((c.provider.attributes w c.path).map .attributes, w)
      | .setTimes change => changed w (c.provider.setTimes w c.path change)
      | .makeDirectory => changed w (c.provider.makeDirectory w c.path)
      | .read => ((c.provider.read w c.path).map .contents, w)
      | .write data mode => changed w (c.provider.write w c.path data mode)
      | .delete => changed w (c.provider.delete w c.path)
      | .list => ((c.provider.list w c.path).map .paths, w)
      | .walk order => ((c.provider.walk w order c.path).map .paths, w) := by
  unfold run
  cases c.operation with
  | setTimes change => simp only [Work.setTimes_eq, answered_leaving]
  | makeDirectory => simp only [Work.makeDirectory_eq, answered_leaving]
  | write data mode => simp only [Work.write_eq, answered_leaving]
  | delete => simp only [Work.delete_eq, answered_leaving]
  | _ => rfl

end Call

def World.after (w : World) (cs : List Call) : World := cs.foldl (fun w c => (c.run w).2) w

/-- A change of the world by one call: of the host, or of one mount's tree by one step. -/
inductive World.Changed (w : World) : World → Prop where
  | host (v : World) (hv : v = w ∨ v = w.tick) (h : Host) : Changed w { v with host := h }
  | tree (v : World) (hv : v = w ∨ v = w.tick) (id : MountId) (m : Mount) (t : Tree)
      (hm : w.writableMount id = .ok m) (ht : m.tree.Step t) : Changed w (v.setTree id m t)

namespace World

/-- The clock has no part in the mounts. -/
theorem mounts_of_clock {v w : World} (hv : v = w ∨ v = w.tick) : v.mounts = w.mounts := by
  rcases hv with rfl | rfl
  · rfl
  · rfl

theorem host_of_clock {v w : World} (hv : v = w ∨ v = w.tick) : v.host = w.host := by
  rcases hv with rfl | rfl
  · rfl
  · rfl

theorem mount?_of_clock {v w : World} (hv : v = w ∨ v = w.tick) (id : MountId) :
    v.mount? id = w.mount? id := by
  rw [mount?, mounts_of_clock hv, mount?]

theorem writableMount_of_clock {v w : World} (hv : v = w ∨ v = w.tick) (id : MountId) :
    v.writableMount id = w.writableMount id := by
  unfold writableMount openMount
  rw [mount?_of_clock hv]

/-- A mount is found by its number. -/
theorem mount?_of_number {w : World} {i j : MountId} (h : i.number = j.number) :
    w.mount? i = w.mount? j := by
  rw [mount?, h, mount?]

theorem openMount_ok {w : World} {id : MountId} {m : Mount} :
    w.openMount id = .ok m ↔ w.mount? id = some m ∧ m.isOpen = true := by
  unfold openMount
  cases hm : w.mount? id with
  | none => simp
  | some m' =>
    by_cases ho : m'.isOpen
    · simp only [ho, if_true, Except.ok.injEq, Option.some.injEq]
      constructor
      · rintro rfl
        exact ⟨rfl, ho⟩
      · exact And.left
    · simp only [ho, Bool.false_eq_true, if_false, Option.some.injEq, reduceCtorEq, false_iff]
      rintro ⟨rfl, h⟩
      exact ho h

theorem writableMount_ok {w : World} {id : MountId} {m : Mount} :
    w.writableMount id = .ok m ↔
      w.mount? id = some m ∧ m.isOpen = true ∧ m.readOnly = false := by
  unfold writableMount
  cases hm : w.openMount id with
  | error e =>
    simp only [bind, Except.bind, reduceCtorEq, false_iff]
    rintro ⟨h, ho, -⟩
    rw [openMount_ok.mpr ⟨h, ho⟩] at hm
    cases hm
  | ok m' =>
    obtain ⟨h, ho⟩ := openMount_ok.mp hm
    cases hr : m'.readOnly with
    | true =>
      simp only [bind, Except.bind, hr, if_true, throw, throwThe, MonadExceptOf.throw,
        reduceCtorEq, false_iff]
      rintro ⟨h', -, hr'⟩
      rw [h, Option.some.injEq] at h'
      subst h'
      rw [hr] at hr'
      cases hr'
    | false =>
      simp only [bind, Except.bind, hr, Bool.false_eq_true, if_false, pure, Except.pure,
        Except.ok.injEq]
      constructor
      · rintro rfl
        exact ⟨h, ho, hr⟩
      · rintro ⟨h', -, -⟩
        rw [h, Option.some.injEq] at h'
        exact h'

theorem openMount_of_writableMount {w : World} {id : MountId} {m : Mount}
    (hm : w.writableMount id = .ok m) : w.openMount id = .ok m := by
  obtain ⟨h, ho, -⟩ := writableMount_ok.mp hm
  exact openMount_ok.mpr ⟨h, ho⟩

theorem writableMount_of_readOnly {w : World} {id : MountId} {m : Mount}
    (hm : w.openMount id = .ok m) (hr : m.readOnly = true) :
    w.writableMount id = .error (.readOnly m.backing.display) := by
  unfold writableMount
  rw [hm]
  change (if m.readOnly = true then _ else _) = _
  rw [if_pos hr]
  rfl

theorem changeHost_eq (w : World) (p : Pathname) (f : Host → Except IoFault Host) :
    w.changeHost p f =
      match f w.host with
      | .ok h => .ok { w with host := h }
      | .error e => .error (.ofHost p.display e) := by
  unfold changeHost Host.answer
  cases f w.host <;> rfl

/-- A change of the host's files that succeeds. -/
theorem changeHost_ok {w w' : World} {p : Pathname} {f : Host → Except IoFault Host}
    (h : w.changeHost p f = .ok w') : ∃ host, f w.host = .ok host ∧ w' = { w with host := host } := by
  obtain ⟨host, hf, h⟩ := bind_eq_ok h
  cases h
  exact ⟨host, mapError_eq_ok hf, rfl⟩

theorem changeTree_eq {w : World} {id : MountId} {m : Mount} (hm : w.writableMount id = .ok m)
    (p : Pathname) (f : Tree → Except Refusal Tree) :
    w.changeTree id p f = match f m.tree with
      | .ok t => .ok (w.setTree id m t)
      | .error r => .error (r.error p.display) := by
  unfold changeTree
  rw [hm]
  change (Mount.answer p (f m.tree) >>= fun t => pure (w.setTree id m t)) = _
  cases f m.tree <;> rfl

/-- A change of a mount's tree that succeeds. -/
theorem changeTree_ok {w w' : World} {id : MountId} {p : Pathname} {f : Tree → Except Refusal Tree}
    (h : w.changeTree id p f = .ok w') :
    ∃ m t, w.writableMount id = .ok m ∧ f m.tree = .ok t ∧ w' = w.setTree id m t := by
  obtain ⟨m, hm, h⟩ := bind_eq_ok h
  obtain ⟨t, hf, h⟩ := bind_eq_ok h
  cases h
  exact ⟨m, t, hm, mapError_eq_ok hf, rfl⟩

end World

namespace Provider

/-- What a change asked of a provider comes to: a change of the host's files or of one tree. The
clock may or may not have been asked before. -/
theorem changed_of_target {w vh vt w' : World} (hh : vh = w ∨ vh = w.tick)
    (ht : vt = w ∨ vt = w.tick) {prov : Provider} {p : Path}
    {onHost : Pathname → Host → Except IoFault Host}
    {onTree : MemberKey → Tree → Except Refusal Tree}
    (hs : ∀ k t t', MemberKey.Canonical k → onTree k t = .ok t' → t.Step t')
    (h : (do
      match ← prov.target p with
      | .host q => vh.changeHost q (onHost q)
      | .member id q => vt.changeTree id q (onTree (.ofPathname q))) = .ok w') :
    w.Changed w' := by
  obtain ⟨target, -, h⟩ := bind_eq_ok h
  cases target with
  | host q =>
    obtain ⟨host, -, rfl⟩ := World.changeHost_ok h
    exact .host vh hh host
  | member id q =>
    obtain ⟨m, t, hm, hf, rfl⟩ := World.changeTree_ok h
    rw [World.writableMount_of_clock ht] at hm
    exact .tree vt ht id m t hm (hs _ _ _ (MemberKey.canonical_ofText _) hf)

theorem setTimes_changed {w w' : World} {prov : Provider} {p : Path} {change : TimeChange}
    (h : prov.setTimes w p change = .ok w') : w.Changed w' :=
  changed_of_target (Or.inl rfl) (Or.inl rfl) (fun _ _ _ hk ht => .retime hk ht) h

theorem makeDirectory_changed {w w' : World} {prov : Provider} {p : Path}
    (h : prov.makeDirectory w p = .ok w') : w.Changed w' :=
  changed_of_target (Or.inr rfl) (Or.inr rfl) (fun _ _ _ hk ht => .makeDirectory hk ht) h

theorem write_changed {w w' : World} {prov : Provider} {p : Path} {data : ByteArray}
    {mode : WriteMode} (h : prov.write w p data mode = .ok w') : w.Changed w' :=
  changed_of_target (Or.inr rfl) (Or.inr rfl) (fun _ _ _ hk ht => .writeFile hk ht) h

theorem delete_changed {w w' : World} {prov : Provider} {p : Path}
    (h : prov.delete w p = .ok w') : w.Changed w' :=
  changed_of_target (Or.inr rfl) (Or.inl rfl) (fun _ _ _ hk ht => .remove hk ht) h

end Provider

namespace Call

/-- A call that fails changes nothing. -/
theorem run_error {c : Call} {w : World} {e : Error} (h : (c.run w).1 = .error e) :
    (c.run w).2 = w := by
  have hc : ∀ r : Except Error World, (changed w r).1 = .error e → (changed w r).2 = w := by
    intro r hr
    cases r with
    | error _ => rfl
    | ok _ => cases hr
  rw [run_eq] at h ⊢
  split <;> simp_all

/-- What a call can do to the world. -/
theorem run_cases (c : Call) (w : World) : (c.run w).2 = w ∨ w.Changed (c.run w).2 := by
  have hc : ∀ r : Except Error World, (∀ w', r = .ok w' → w.Changed w') →
      (changed w r).2 = w ∨ w.Changed (changed w r).2 := by
    intro r hr
    cases r with
    | error _ => exact Or.inl rfl
    | ok w' => exact Or.inr (hr w' rfl)
  rw [run_eq]
  split
  · exact Or.inl rfl
  · exact Or.inl rfl
  · exact hc _ fun _ => Provider.setTimes_changed
  · exact hc _ fun _ => Provider.makeDirectory_changed
  · exact Or.inl rfl
  · exact hc _ fun _ => Provider.write_changed
  · exact hc _ fun _ => Provider.delete_changed
  · exact Or.inl rfl
  · exact Or.inl rfl

end Call

end ZipMount
