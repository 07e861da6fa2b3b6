import ZipMount.Proofs.Members.Run
import ZipMount.Proofs.Mounting.Calls

namespace ZipMount

open MemberKey (beforeLastSlash)

namespace Members

/-- The order and the map are in step. -/
structure InStep (ms : Members) : Prop where
  nodup : ms.order.Nodup
  mem_iff : ∀ s, s ∈ ms.order ↔ s ≠ "" ∧ (ms.entries.get? s).isSome
  root : ∃ times, ms.entries.get? "" = some ⟨.directory, times⟩
  canonical : ∀ s ∈ ms.order, s ≠ "" ∧ MemberKey.Folded s
  parent_first : ∀ (i : Nat) (s : String), ms.order[i]? = some s →
    beforeLastSlash s = "" ∨ ∃ j < i, ms.order[j]? = some (beforeLastSlash s)

/-- Members that a mount starts with: none but the root, or those of the entries of an archive. The
mount says whether they have to be written. -/
def Starting (ms : Members) : Prop :=
  (∃ now dirty, ms = { empty now with dirty := dirty }) ∨
    ∃ now found read dirty, ofEntries now found = .ok read ∧ ms = { read with dirty := dirty }

/-- Members as a mount has them: its tree shows them, and it knows of their change. -/
structure OfMount (ms : Members) (m : Mount) : Prop where
  shows : ms.Shows m.tree
  dirty : ms.dirty = m.dirty

variable {ms : Members} {t : Tree}

/-- What a well-formed tree is shown by is in step. -/
theorem Shows.inStep (h : ms.Shows t) (hw : t.WellFormed) : ms.InStep := by
  have hmem : ∀ k, MemberKey.Canonical k → (k.text ∈ ms.order ↔ k ∈ t.order) := by
    intro k hk
    rw [h.order, List.mem_map]
    constructor
    · rintro ⟨j, hj, he⟩
      exact MemberKey.text_injective (hw.canonical j hj) hk he ▸ hj
    · exact fun hj => ⟨k, hj, rfl⟩
  have htext : ∀ k, MemberKey.Canonical k → (k.text ≠ "" ↔ k ≠ []) := fun k hk =>
    not_congr ⟨MemberKey.eq_nil_of_text hk, congrArg MemberKey.text⟩
  refine ⟨?_, ?_, ?_, ?_, ?_⟩
  · rw [h.order]
    refine List.pairwise_map.mpr (hw.nodup.imp_of_mem ?_)
    intro j k hj hk hne he
    exact hne (MemberKey.text_injective (hw.canonical j hj) (hw.canonical k hk) he)
  · intro s
    constructor
    · intro hs
      rw [h.order] at hs
      obtain ⟨k, hk, rfl⟩ := List.mem_map.mp hs
      have hc := hw.canonical k hk
      have hn := hw.ne_nil k hk
      refine ⟨(htext k hc).mpr hn, ?_⟩
      rw [h.entries k hc]
      exact (Tree.mem_order_iff hn).mp hk
    · rintro ⟨hs, hsome⟩
      obtain ⟨k, hc, rfl⟩ := h.keys s hsome
      rw [h.entries k hc] at hsome
      exact (hmem k hc).mpr ((Tree.mem_order_iff ((htext k hc).mp hs)).mpr hsome)
  · exact ⟨t.root, h.entries [] MemberKey.canonical_nil⟩
  · intro s hs
    rw [h.order] at hs
    obtain ⟨k, hk, rfl⟩ := List.mem_map.mp hs
    have hc := hw.canonical k hk
    exact ⟨(htext k hc).mpr (hw.ne_nil k hk), MemberKey.folded_text hc⟩
  · intro i s hi
    rw [h.order, List.getElem?_map, Option.map_eq_some_iff] at hi
    obtain ⟨k, hk, rfl⟩ := hi
    rw [MemberKey.beforeLastSlash_text (hw.canonical k (List.mem_of_getElem? hk))]
    by_cases hp : MemberKey.parent k = []
    · exact Or.inl (congrArg MemberKey.text hp)
    · obtain ⟨j, hj, hjk⟩ := hw.parent_earlier hk hp
      refine Or.inr ⟨j, hj, ?_⟩
      rw [h.order, List.getElem?_map, hjk, Option.map_some]

theorem Shows.withDirty (h : ms.Shows t) (dirty : Bool) : { ms with dirty := dirty }.Shows t :=
  ⟨h.order, h.entries, h.keys⟩

theorem Starting.shows (h : ms.Starting) : ∃ t : Tree, t.WellFormed ∧ ms.Shows t := by
  rcases h with ⟨now, dirty, rfl⟩ | ⟨now, found, read, dirty, h, rfl⟩
  · exact ⟨.empty now, Tree.wellFormed_empty now, (shows_empty now).withDirty dirty⟩
  · have halike := alike_ofEntries now found
    rw [h] at halike
    generalize ht : Tree.ofEntries now found = r at halike
    cases halike with
    | done hshows => exact ⟨_, Tree.wellFormed_ofEntries ht, hshows.withDirty dirty⟩

/-- Every mount starts with such members. -/
theorem exists_starting {m : Mount} (h : m.tree.Starting) :
    ∃ ms : Members, ms.Starting ∧ ms.OfMount m := by
  rcases h with ⟨now, ht⟩ | ⟨now, found, h⟩
  · refine ⟨{ empty now with dirty := m.dirty }, Or.inl ⟨now, m.dirty, rfl⟩, ?_, rfl⟩
    rw [ht]
    exact (shows_empty now).withDirty m.dirty
  · have halike := alike_ofEntries now found
    rw [h] at halike
    generalize hread : ofEntries now found = x at halike
    cases halike with
    | @done read _ hshows =>
      exact ⟨{ read with dirty := m.dirty }, Or.inr ⟨now, found, read, m.dirty, hread, rfl⟩,
        hshows.withDirty m.dirty, rfl⟩

end Members

/-- Whether a mount lets an operation through to its members. -/
def Mount.admits (m : Mount) (op : Operation) : Bool := m.isOpen && !(op.changes && m.readOnly)

/-- What a call asks of the members of a mount, if it comes to them. -/
def Call.asked? (c : Call) (id : MountId) (w : World) : Option Members.Asked :=
  match c.provider.target c.path, w.mount? id with
  | .ok (.member j q), some m =>
    if j.number = id.number ∧ m.admits c.operation then some ⟨w.now, q.display, c.operation⟩
    else none
  | _, _ => none

/-- What the calls one after the other ask of the members of a mount. -/
def World.asked (w : World) (id : MountId) : List Call → List Members.Asked
  | [] => []
  | c :: cs => (c.asked? id w).toList ++ (c.run w).2.asked id cs

namespace Members.Asked

theorem onTree_of_not_changes {a : Asked} (h : a.operation.changes = false) (t : Tree) :
    (a.onTree t).2 = t := by
  unfold onTree
  cases hop : a.operation with
  | setTimes change => rw [hop] at h; cases h
  | makeDirectory => rw [hop] at h; cases h
  | write data mode => rw [hop] at h; cases h
  | delete => rw [hop] at h; cases h
  | _ => rfl

end Members.Asked

namespace World

variable {w v : World} {id : MountId} {m : Mount}

/-- A change of some tree comes to a mount if it is of its members and the mount lets it through. -/
theorem mount?_changeTree (hm : w.mount? id = some m) (hv : v = w ∨ v = w.tick) (j : MountId)
    (p : Pathname) (f : Tree → Except Refusal Tree) :
    ∃ m', (Call.changed w (v.changeTree j p f)).2.mount? id = some m' ∧
      if j.number = id.number ∧ m.isOpen = true ∧ m.readOnly = false
        then m'.tree = m.tree.kept (f m.tree) ∧ m'.dirty = (m.dirty || (f m.tree).isOk)
        else m' = m := by
  have hvw : v.writableMount j = w.writableMount j := writableMount_of_clock hv j
  have hsame : j.number = id.number → w.mount? j = some m := fun hj =>
    (mount?_of_number hj).trans hm
  cases hj : w.writableMount j with
  | error e =>
    have hfail : v.changeTree j p f = .error e := by
      rw [changeTree, hvw, hj]
      rfl
    rw [hfail]
    refine ⟨m, hm, ?_⟩
    rw [if_neg]
    rintro ⟨hid, hopen, hwritable⟩
    rw [writableMount_ok.mpr ⟨hsame hid, hopen, hwritable⟩] at hj
    cases hj
  | ok m₀ =>
    obtain ⟨h₀, hopen, hwritable⟩ := writableMount_ok.mp hj
    have hself : j.number = id.number → m₀ = m := fun hid =>
      Option.some.inj (h₀.symm.trans (hsame hid))
    rw [changeTree_eq (hvw.trans hj)]
    cases hf : f m₀.tree with
    | error r =>
      refine ⟨m, hm, ?_⟩
      split
      · next hid =>
        rw [← hself hid.1, hf]
        exact ⟨rfl, (Bool.or_false _).symm⟩
      · rfl
    | ok t =>
      have hvj : v.mount? j = some m₀ := (mount?_of_clock hv j).trans h₀
      have hvid : v.mount? id = some m := (mount?_of_clock hv id).trans hm
      by_cases hid : j.number = id.number
      · obtain rfl := hself hid
        refine ⟨{ m₀ with tree := t, dirty := true }, ?_, ?_⟩
        · exact (mount?_setMount hvj _ id).trans (if_pos hid.symm)
        · rw [if_pos ⟨hid, hopen, hwritable⟩, hf]
          exact ⟨rfl, (Bool.or_true _).symm⟩
      · refine ⟨m, ?_, ?_⟩
        · exact (mount?_setMount hvj _ id).trans ((if_neg (Ne.symm hid)).trans hvid)
        · rw [if_neg fun h => hid h.1]

end World

namespace Call

variable {w : World} {id : MountId} {m : Mount}

/-- A call for a change is a change of the host or of a tree, and this of the tree is what its
members are asked. -/
theorem run_of_changing {c : Call} (hc : c.operation.changes = true) (w : World) :
    ∃ (vh vt : World) (onHost : Pathname → Host → Except IoFault Host)
      (onTree : Pathname → Tree → Except Refusal Tree),
      (vh = w ∨ vh = w.tick) ∧ (vt = w ∨ vt = w.tick) ∧
      c.run w = changed w (do
        match ← c.provider.target c.path with
        | .host q => vh.changeHost q (onHost q)
        | .member j q => vt.changeTree j q (onTree q)) ∧
      ∀ q t, Members.Asked.onTree ⟨w.now, q.display, c.operation⟩ t =
        ((onTree q t).map fun _ => .done, t.kept (onTree q t)) := by
  rw [run_eq]
  cases hop : c.operation with
  | setTimes change => exact ⟨w, w, _, _, Or.inl rfl, Or.inl rfl, rfl, fun _ _ => rfl⟩
  | makeDirectory => exact ⟨w.tick, w.tick, _, _, Or.inr rfl, Or.inr rfl, rfl, fun _ _ => rfl⟩
  | write data mode => exact ⟨w.tick, w.tick, _, _, Or.inr rfl, Or.inr rfl, rfl, fun _ _ => rfl⟩
  | delete => exact ⟨w.tick, w, _, _, Or.inr rfl, Or.inl rfl, rfl, fun _ _ => rfl⟩
  | _ => rw [hop] at hc; cases hc

/-- A call changes a mount by what it asks of its members, and else not at all. -/
theorem mount?_run (hm : w.mount? id = some m) (c : Call) :
    ∃ m', (c.run w).2.mount? id = some m' ∧
      match c.asked? id w with
      | some a => m'.tree = (a.onTree m.tree).2 ∧
          m'.dirty = (m.dirty || (a.operation.changes && (a.onTree m.tree).1.isOk))
      | none => m' = m := by
  cases hc : c.operation.changes with
  | false =>
    refine ⟨m, (congrArg (World.mount? · id) (run_of_not_changes hc)).trans hm, ?_⟩
    cases ha : c.asked? id w with
    | none => rfl
    | some a =>
      have hop : a.operation.changes = false := by
        unfold asked? at ha
        split at ha
        · split at ha
          · cases ha
            exact hc
          · cases ha
        · cases ha
      refine ⟨(Members.Asked.onTree_of_not_changes hop _).symm, ?_⟩
      rw [hop, Bool.false_and, Bool.or_false]
  | true =>
    obtain ⟨vh, vt, onHost, onTree, hh, ht, hrun, hasked⟩ := run_of_changing hc w
    rw [hrun]
    cases htarget : c.provider.target c.path with
    | error e =>
      refine ⟨m, hm, ?_⟩
      rw [asked?, htarget]
    | ok target =>
      cases target with
      | host q =>
        refine ⟨m, ?_, by rw [asked?, htarget]⟩
        change (changed w (vh.changeHost q (onHost q))).2.mount? id = some m
        rw [World.changeHost_eq]
        cases onHost q vh.host with
        | error e => exact hm
        | ok h => exact (World.mount?_of_clock hh id).trans hm
      | member j q =>
        obtain ⟨m', hm', hchange⟩ := World.mount?_changeTree hm ht j q (onTree q)
        refine ⟨m', hm', ?_⟩
        have hadmits : m.admits c.operation = true ↔ m.isOpen = true ∧ m.readOnly = false := by
          rw [Mount.admits, hc, Bool.true_and, Bool.and_eq_true, Bool.not_eq_true']
        rw [asked?, htarget, hm]
        by_cases hthrough : j.number = id.number ∧ m.isOpen = true ∧ m.readOnly = false
        · rw [if_pos hthrough] at hchange
          simp only [hadmits, if_pos hthrough, hasked, hc, Bool.true_and]
          refine ⟨hchange.1, hchange.2.trans ?_⟩
          cases onTree q m.tree <;> rfl
        · rw [if_neg hthrough] at hchange
          simp only [hadmits, if_neg hthrough]
          exact hchange

end Call

namespace Members

variable {ms : Members} {w : World} {id : MountId} {m : Mount}

theorem Starting.inStep (h : ms.Starting) (as : List Asked) : (ms.after as).InStep := by
  obtain ⟨t, hw, hshows⟩ := h.shows
  obtain ⟨t', hw', hafter⟩ := hshows.after hw as
  exact hafter.inStep hw'

/-- The members that were a mount's are the mount's after any calls, if they were asked what came to
them. -/
theorem OfMount.after_calls (h : ms.OfMount m) (hw : m.tree.WellFormed) (hm : w.mount? id = some m)
    (cs : List Call) :
    ∃ m', (w.after cs).mount? id = some m' ∧ (ms.after (w.asked id cs)).OfMount m' := by
  induction cs generalizing w m ms with
  | nil => exact ⟨m, hm, h⟩
  | cons c cs ih =>
    obtain ⟨m₁, hm₁, hrun⟩ := c.mount?_run hm
    rw [World.asked]
    cases ha : c.asked? id w with
    | none =>
      rw [ha] at hrun
      obtain rfl : m₁ = m := hrun
      exact ih h hw hm₁
    | some a =>
      rw [ha] at hrun
      obtain ⟨htree, hdirty⟩ := hrun
      have hanswers := h.shows.run hw a
      refine ih ⟨?_, ?_⟩ (htree ▸ a.wellFormed_onTree hw) hm₁
      · exact htree ▸ hanswers.shows
      · rw [hdirty, ← h.dirty]
        exact hanswers.dirty

/-- However an archive lists its entries, and whatever the members are asked, their order and their
map stay in step. What a mount has are such members, whatever calls are made. -/
theorem inStep_after_calls (hs : ms.Starting) :
    (∀ as, (ms.after as).InStep) ∧
      ∀ (w : World) (id : MountId) (m : Mount), w.mount? id = some m → ms.OfMount m →
        m.tree.Starting → ∀ cs, ∃ m', (w.after cs).mount? id = some m' ∧
          (ms.after (w.asked id cs)).OfMount m' :=
  ⟨hs.inStep, fun _ _ _ hm h ht cs => h.after_calls ht.wellFormed hm cs⟩

theorem inStep_after_tangledCalls :
    ∃ ms, ofEntries .epoch Tree.tangledEntries = .ok ms ∧
      ms.order = ["a", "a/b", "a/b/c", "x", "x/y", "z"] ∧
      (∀ as, (ms.after as).InStep) ∧
      ∃ m', (Tree.tangledWorld.after Tree.tangledCalls).mount? ⟨0, 0⟩ = some m' ∧
        (ms.after (Tree.tangledWorld.asked ⟨0, 0⟩ Tree.tangledCalls)).OfMount m' := by
  have ht : Tree.ofEntries .epoch Tree.tangledEntries = .ok Tree.tangledMount.tree := rfl
  have halike := alike_ofEntries .epoch Tree.tangledEntries
  rw [ht] at halike
  generalize hms : ofEntries .epoch Tree.tangledEntries = x at halike
  cases halike with
  | @done ms _ hshows =>
    have hread : ms.Starting := Or.inr ⟨.epoch, Tree.tangledEntries, ms, ms.dirty, hms, rfl⟩
    have hstart : Tree.tangledMount.tree.Starting := Or.inr ⟨.epoch, Tree.tangledEntries, ht⟩
    have hmount : ms.OfMount Tree.tangledMount := ⟨hshows, dirty_ofEntries hms⟩
    obtain ⟨hin, hcalls⟩ := inStep_after_calls hread
    refine ⟨ms, rfl, ?_, hin, hcalls _ _ _ rfl hmount hstart Tree.tangledCalls⟩
    rw [hshows.order]
    decide

end Members

end ZipMount
