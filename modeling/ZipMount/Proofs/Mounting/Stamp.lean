import ZipMount.Proofs.Events
import ZipMount.Proofs.Tree.Dated
import ZipMount.Proofs.Tree.Outline
import ZipMount.Proofs.Tree.Reachable
import ZipMount.Proofs.Tree.Walk
import ZipMount.Proofs.World

namespace ZipMount

/-- The tree with one time for all its members. The root keeps its own. -/
def Tree.stamped (t : Tree) (time : Instant) : Tree :=
  { t with members := t.members.map fun km => (km.1, { km.2 with times := .all time }) }

/-- The mount with one time for all its members, which it has to remember if it has any. -/
def Mount.stamped (m : Mount) (time : Instant) : Mount :=
  { m with tree := m.tree.stamped time, dirty := m.dirty || !m.tree.members.isEmpty }

namespace Tree

variable {t : Tree} {time : Instant}

theorem stamped_of_forall {t' : Tree} (h : t'.WellFormed) (hroot : t'.root = t.root)
    (hout : t'.outline = t.outline) (hs : ∀ k ∈ t'.order, t'.Stamped time k) :
    t' = t.stamped time := by
  have hmembers : t'.members = (t.stamped time).members := by
    rw [members_of_stamped h hs, hout, outline, List.map_map]
    rfl
  cases t'
  cases t
  cases hroot
  cases hmembers
  rfl

/-- With a time on the calendar the members can be written, unless the codec refuses them. -/
theorem encode_stamped (method : Compression) (t : Tree) (ht : time.onCalendar = true)
    (t' : Instant) : (t.stamped time).encode method ≠ .error (.offCalendar t') := by
  have hdated : (t.stamped time).Dated := by
    intro km hkm
    obtain ⟨km', -, rfl⟩ := List.mem_map.mp hkm
    exact ht
  exact hdated.encode method t'

end Tree

/-- What closing a mount does that gives its members one time first. -/
structure World.ClosesStamped (w : World) (id : MountId) (m : Mount) (time : Instant) : Prop where
  /-- A mount that can be written, and has members or is out of date, writes what it holds with that
  time for every member; whether or not it succeeds, it is closed and its file is free. -/
  writes : m.readOnly = false → m.tree.members ≠ [] ∨ m.dirty = true → ∀ n,
    (FileSystem.stamping n (.archive id) (some time)).close w =
      let v := w.setMount id (m.stamped time).closed
      match (m.tree.stamped time).encode m.options.method with
      | .ok data =>
        match m.backing.provider.write v m.backing data .replace with
        | .ok u => (.ok (), (u.setMount id { (m.stamped time).closed with dirty := false }).release m)
        | .error e =>
          (.error (.error (.context s!"Could not write archive {m.backing.display}" e)), v.release m)
      | .error f => (.error (f.noted s!"Could not encode archive {m.backing.display}"), v.release m)
  /-- The time is never off the calendar then. -/
  dated : ∀ t, (m.tree.stamped time).encode m.options.method ≠ .error (.offCalendar t)
  /-- One that is read only refuses the time for a member, if it has any, and is closed as it is. -/
  refuses : m.readOnly = true → m.tree.members ≠ [] → ∃ k ∈ m.tree.order, ∀ n,
    (FileSystem.stamping n (.archive id) (some time)).close w =
      (.error (.error (.context s!"Could not set time attributes on {k.pathname.display}"
        (.readOnly m.backing.display))), (w.setMount id m.closed).release m)
  /-- Any other is closed as it is. -/
  leaves : m.tree.members = [] → m.dirty = false ∨ m.readOnly = true → ∀ n,
    (FileSystem.stamping n (.archive id) (some time)).close w =
      (.ok (), (w.setMount id m.closed).release m)
  /-- In every case it is closed. -/
  closed : ∀ n, (FileSystem.archive id).isOpen
    ((FileSystem.stamping n (.archive id) (some time)).close w).2 = false

/-- What it comes to to close any file system through one that gives members a time. -/
structure FileSystem.StampsBefore (d : FileSystem) (w : World) : Prop where
  /-- Without a time it is as if it were closed itself. -/
  timeless : ∀ n, (stamping n d none).close w = d.close w
  /-- Once it is closed nothing is done. -/
  done : d.isOpen w = false → ∀ n time, (stamping n d time).close w = (.ok (), w)
  /-- If a time is refused, that is reported, whatever comes of closing. -/
  prefers : d.isOpen w = true → ∀ n time e v, d.stampAll time w = (.error (.error e), v) →
    (∀ t, (d.close v).1 ≠ .error (.offCalendar t)) →
    (stamping n d (some time)).close w = (.error (.error e), (d.close v).2)

namespace FileSystem

variable {d : FileSystem} {w : World} {n : Nat}

theorem close_stamping_some (ho : d.isOpen w = true) {time : Instant} :
    (stamping n d (some time)).close w = andThen (d.stampAll time) d.close w := if_pos ho

theorem close_stamping_none (ho : d.isOpen w = true) : (stamping n d none).close w = d.close w :=
  if_pos ho

end FileSystem

namespace World

variable {w v : World} {id : MountId} {m : Mount} {time : Instant}

theorem setMount_setMount (w : World) (id : MountId) (m m' : Mount) :
    (w.setMount id m).setMount id m' = w.setMount id m' := by
  unfold setMount
  rw [List.set_set]

theorem setMount_self (hm : w.mount? id = some m) : w.setMount id m = w := by
  obtain ⟨hlt, hget⟩ := List.getElem?_eq_some_iff.mp hm
  unfold setMount
  rw [← hget, List.set_getElem_self]

/-- What is left after some members were given a time: they have it, and nothing else changed. -/
structure StampedTo (w : World) (id : MountId) (m : Mount) (time : Instant)
    (done : List MemberKey) (t : Tree) (v : World) : Prop where
  wellFormed : t.WellFormed
  root : t.root = m.tree.root
  outline : t.outline = m.tree.outline
  stamped : ∀ k ∈ done, t.Stamped time k
  world : v = w.setMount id { m with tree := t, dirty := m.dirty || !done.isEmpty }

theorem stamp_eq (hm : v.mount? id = some m) (ho : m.isOpen = true) (hr : m.readOnly = false)
    {k : MemberKey} (hk : MemberKey.Canonical k) {t : Tree}
    (ht : m.tree.retime k (.all time) = .ok t) :
    FileSystem.stamp time (.ofKey id k) v = (.ok (), v.setTree id m t) := by
  have hset : (Path.ofKey id k).provider.setTimes v (.ofKey id k) (.all time) =
      .ok (v.setTree id m t) := by
    change v.changeTree id k.pathname (fun t => t.retime (.ofPathname k.pathname) (.all time)) = _
    rw [changeTree_eq (writableMount_ok.mpr ⟨hm, ho, hr⟩), MemberKey.ofPathname_pathname hk, ht]
  rw [FileSystem.stamp_eq_noted]
  exact Action.noted_of_ok (Action.change_of_ok hset) _

/-- A mount that is read only refuses to give a member a time. -/
theorem stamp_of_readOnly (hm : v.mount? id = some m) (ho : m.isOpen = true)
    (hr : m.readOnly = true) (k : MemberKey) :
    FileSystem.stamp time (.ofKey id k) v =
      (.error (.error (.context s!"Could not set time attributes on {k.pathname.display}"
        (.readOnly m.backing.display))), v) := by
  have hwritable : v.writableMount id = .error (.readOnly m.backing.display) :=
    writableMount_of_readOnly (openMount_ok.mpr ⟨hm, ho⟩) hr
  have hset : (Path.ofKey id k).provider.setTimes v (.ofKey id k) (.all time) =
      .error (.readOnly m.backing.display) := by
    change v.changeTree id k.pathname (fun t => t.retime (.ofPathname k.pathname) (.all time)) = _
    unfold changeTree
    rw [hwritable]
    rfl
  rw [FileSystem.stamp_eq_noted]
  exact Action.noted_of_error (Action.change_of_error hset) _

/-- A member of a mount that can be written is given a time. -/
theorem StampedTo.stamp (hm : w.mount? id = some m) (ho : m.isOpen = true)
    (hr : m.readOnly = false) {done : List MemberKey} {t : Tree}
    (h : w.StampedTo id m time done t v) {k : MemberKey} (hk : k ∈ m.tree.order) :
    ∃ t' v', FileSystem.stamp time (.ofKey id k) v = (.ok (), v') ∧
      w.StampedTo id m time (done ++ [k]) t' v' := by
  have horder : t.order = m.tree.order := by
    rw [← Tree.keys_outline, h.outline, Tree.keys_outline]
  have hk' : k ∈ t.order := horder ▸ hk
  have hne := h.wellFormed.ne_nil k hk'
  obtain ⟨x, hx⟩ := Tree.exists_find_of_mem hne hk'
  have ht : t.retime k (.all time) = .ok (t.insert k { x with times := .all time }) := by
    rw [Tree.retime_eq, hx]
    simp only [hne, if_false, Times.changed_all]
  have hv : v.mount? id = some { m with tree := t, dirty := m.dirty || !done.isEmpty } := by
    rw [h.world, mount?_setMount hm, if_pos rfl]
  refine ⟨t.insert k { x with times := .all time }, _,
    stamp_eq hv ho hr (h.wellFormed.canonical k hk') ht, ?_, ?_, ?_, ?_, ?_⟩
  · exact Tree.wellFormed_of_order h.wellFormed (Tree.order_retime ht)
  · exact h.root
  · rw [Tree.outline_retime ht, h.outline]
  · intro j hj
    rcases List.mem_append.mp hj with hj | hj
    · exact (h.stamped j hj).retime ht
    · rw [List.mem_singleton.mp hj]
      exact Tree.stamped_retime ht
  · have hdone : (done ++ [k]).isEmpty = false := by simp
    unfold setTree
    rw [h.world, setMount_setMount, hdone, Bool.not_false, Bool.or_true]

/-- What is found on a mount, from its root. -/
theorem walk_root (hm : w.mount? id = some m) (ho : m.isOpen = true) (hw : m.tree.WellFormed) :
    ∃ ks, (∀ k, k ∈ ks ↔ k ∈ m.tree.order) ∧
      (FileSystem.archive id).root.provider.walk w .sorted (FileSystem.archive id).root =
        .ok ((([] : MemberKey) :: ks).map (Path.ofKey id)) := by
  obtain ⟨ks, hks, hmem⟩ := hw.preorder_root .sorted
  refine ⟨ks, hmem, ?_⟩
  change (do
    let m ← w.openMount id
    pure ((← Mount.answer (MemberKey.pathname []) (m.tree.walk .sorted
      (.ofPathname (MemberKey.pathname [])))).map (Path.ofKey id))) = _
  rw [openMount_ok.mpr ⟨hm, ho⟩, MemberKey.ofPathname_pathname MemberKey.canonical_nil]
  change (Mount.answer (MemberKey.pathname []) (m.tree.walk .sorted []) >>= fun ks =>
    pure (ks.map (Path.ofKey id))) = _
  rw [Tree.walk_eq, Tree.find?_nil, ← hks]
  rfl

theorem stampAll_eq (hm : w.mount? id = some m) (ho : m.isOpen = true) (hw : m.tree.WellFormed)
    (hr : m.readOnly = false) (time : Instant) :
    (FileSystem.archive id).stampAll time w = (.ok (), w.setMount id (m.stamped time)) := by
  obtain ⟨ks, hks, hwalk⟩ := walk_root hm ho hw
  have hstart : ∃ t, w.StampedTo id m time [] t w := by
    refine ⟨m.tree, hw, rfl, rfl, fun k hk => (List.not_mem_nil hk).elim, ?_⟩
    simp only [List.isEmpty_nil, Bool.not_true, Bool.or_false]
    exact (setMount_self hm).symm
  obtain ⟨v, hrun, t, ht⟩ : ∃ v, ks.forM (fun k => FileSystem.stamp time (.ofKey id k)) w =
      (.ok (), v) ∧ ∃ t, w.StampedTo id m time ks t v := by
    refine Action.forM_of_steps (P := fun done v => ∃ t, w.StampedTo id m time done t v) ?_ hstart
    rintro before k after hsplit v ⟨t, ht⟩
    have hk : k ∈ m.tree.order := (hks k).mp (hsplit ▸ List.mem_append_right _ List.mem_cons_self)
    obtain ⟨t', v', hstamp, ht'⟩ := ht.stamp hm ho hr hk
    exact ⟨v', hstamp, t', ht'⟩
  have horder : t.order = m.tree.order := by
    rw [← Tree.keys_outline, ht.outline, Tree.keys_outline]
  have htree : t = m.tree.stamped time := by
    refine Tree.stamped_of_forall ht.wellFormed ht.root ht.outline fun k hk => ?_
    exact ht.stamped k ((hks k).mpr (horder ▸ hk))
  have hempty : ks.isEmpty = m.tree.members.isEmpty := by
    rw [Bool.eq_iff_iff, List.isEmpty_iff, List.isEmpty_iff, List.eq_nil_iff_forall_not_mem]
    simp only [hks]
    rw [← List.eq_nil_iff_forall_not_mem]
    exact List.map_eq_nil_iff
  unfold FileSystem.stampAll
  rw [Action.bind_of_ok (Action.ask_of_ok hwalk), List.map_cons, List.tail_cons,
    Action.forM_map fun _ _ => rfl, hrun, ht.world, htree, hempty]
  rfl

/-- A mount without members that is read only has nothing to refuse. -/
theorem stampAll_of_empty (hm : w.mount? id = some m) (ho : m.isOpen = true)
    (hw : m.tree.WellFormed) (hempty : m.tree.members = []) (time : Instant) :
    (FileSystem.archive id).stampAll time w = (.ok (), w) := by
  obtain ⟨ks, hks, hwalk⟩ := walk_root hm ho hw
  have hnone : ks = [] := by
    rw [List.eq_nil_iff_forall_not_mem]
    intro k hk
    have hk := (hks k).mp hk
    rw [Tree.order, hempty] at hk
    cases hk
  unfold FileSystem.stampAll
  rw [Action.bind_of_ok (Action.ask_of_ok hwalk), hnone]
  rfl

/-- One that has members refuses the time for the first it comes to. -/
theorem stampAll_of_readOnly (hm : w.mount? id = some m) (ho : m.isOpen = true)
    (hw : m.tree.WellFormed) (hr : m.readOnly = true) (hmembers : m.tree.members ≠ []) :
    ∃ k ∈ m.tree.order, ∀ time, (FileSystem.archive id).stampAll time w =
      (.error (.error (.context s!"Could not set time attributes on {k.pathname.display}"
        (.readOnly m.backing.display))), w) := by
  obtain ⟨ks, hks, hwalk⟩ := walk_root hm ho hw
  cases ks with
  | nil =>
    obtain ⟨km, hkm⟩ := List.exists_mem_of_ne_nil _ hmembers
    exact absurd ((hks km.1).mpr (List.mem_map_of_mem hkm)) List.not_mem_nil
  | cons k ks =>
    refine ⟨k, (hks k).mp List.mem_cons_self, fun time => ?_⟩
    unfold FileSystem.stampAll
    rw [Action.bind_of_ok (Action.ask_of_ok hwalk), List.map_cons, List.tail_cons, List.map_cons,
      Action.forM_cons, Action.bind_of_error (stamp_of_readOnly hm ho hr k)]

/-- Members that cannot be packed are not written. -/
theorem closeMount_of_encode_error (hd : m.dirty = true) (hr : m.readOnly = false) {e : Error}
    (he : m.tree.encode m.options.method = .error (.error e)) :
    w.closeMount id m =
      (.error (.error (.context s!"Could not encode archive {m.backing.display}" e)),
        (w.setMount id m.closed).release m) := by
  have hguard : (m.closed.dirty && !m.closed.readOnly) = true := by
    change (m.dirty && !m.readOnly) = true
    rw [hd, hr]
    rfl
  have hback : (w.setMount id m.closed).writeBack id m.closed =
      .error (.error (.context s!"Could not encode archive {m.backing.display}" e)) := by
    unfold writeBack
    rw [if_pos hguard]
    change (m.tree.encode m.options.method).mapError _ >>= _ = _
    rw [he]
    rfl
  rw [closeMount_eq, hback]

/-- A mount that can be written is given the time and closed then. -/
theorem close_stamping (hm : w.mount? id = some m) (ho : m.isOpen = true) (hw : m.tree.WellFormed)
    (hr : m.readOnly = false) (n : Nat) (time : Instant) :
    (FileSystem.stamping n (.archive id) (some time)).close w =
      (w.setMount id (m.stamped time)).closeMount id (m.stamped time) := by
  have hset : (w.setMount id (m.stamped time)).mount? id = some (m.stamped time) :=
    (mount?_setMount hm _ id).trans (if_pos rfl)
  have hopen : (FileSystem.archive id).isOpen w = true := (isOpen_of_innermost rfl hm).trans ho
  rw [FileSystem.close_stamping_some hopen, FileSystem.andThen_of_ok (stampAll_eq hm ho hw hr time)]
  exact close_of_open hset ho

theorem closeStamped_writes (hm : w.mount? id = some m) (ho : m.isOpen = true)
    (hw : m.tree.WellFormed) (hr : m.readOnly = false) (ht : time.onCalendar = true)
    (hd : m.tree.members ≠ [] ∨ m.dirty = true) (n : Nat) :
    (FileSystem.stamping n (.archive id) (some time)).close w =
      let v := w.setMount id (m.stamped time).closed
      match (m.tree.stamped time).encode m.options.method with
      | .ok data =>
        match m.backing.provider.write v m.backing data .replace with
        | .ok u => (.ok (), (u.setMount id { (m.stamped time).closed with dirty := false }).release m)
        | .error e =>
          (.error (.error (.context s!"Could not write archive {m.backing.display}" e)), v.release m)
      | .error f => (.error (f.noted s!"Could not encode archive {m.backing.display}"), v.release m)
    := by
  have hdirty : (m.stamped time).dirty = true := by
    unfold Mount.stamped
    rcases hd with hd | hd
    · have hempty : m.tree.members.isEmpty = false := List.isEmpty_eq_false_iff.mpr hd
      simp only [hempty, Bool.not_false, Bool.or_true]
    · simp only [hd, Bool.true_or]
  rw [close_stamping hm ho hw hr]
  cases hencode : (m.tree.stamped time).encode m.options.method with
  | ok data =>
    rw [closeMount_writes (m := m.stamped time) hdirty hr hencode, setMount_setMount]
    rfl
  | error f =>
    cases f with
    | offCalendar t => exact absurd hencode (Tree.encode_stamped _ _ ht t)
    | error e =>
      rw [closeMount_of_encode_error (m := m.stamped time) hdirty hr hencode, setMount_setMount]
      rfl

theorem closesStamped (hm : w.mount? id = some m) (ho : m.isOpen = true) (hw : m.tree.WellFormed)
    (ht : time.onCalendar = true) : w.ClosesStamped id m time := by
  have hopen : (FileSystem.archive id).isOpen w = true := (isOpen_of_innermost rfl hm).trans ho
  have hleaves : m.tree.members = [] → m.dirty = false ∨ m.readOnly = true → ∀ n,
      (FileSystem.stamping n (.archive id) (some time)).close w =
        (.ok (), (w.setMount id m.closed).release m) := by
    intro hmembers hleaves n
    rw [FileSystem.close_stamping_some hopen,
      FileSystem.andThen_of_ok (stampAll_of_empty hm ho hw hmembers time), close_of_open hm ho,
      closeMount_leaves hleaves]
  have hrefuses : m.readOnly = true → m.tree.members ≠ [] → ∃ k ∈ m.tree.order, ∀ n,
      (FileSystem.stamping n (.archive id) (some time)).close w =
        (.error (.error (.context s!"Could not set time attributes on {k.pathname.display}"
          (.readOnly m.backing.display))), (w.setMount id m.closed).release m) := by
    intro hr hmembers
    obtain ⟨k, hk, hstamp⟩ := stampAll_of_readOnly hm ho hw hr hmembers
    have hclose : (FileSystem.archive id).close w = (.ok (), (w.setMount id m.closed).release m) := by
      rw [close_of_open hm ho, closeMount_leaves (Or.inr hr)]
    refine ⟨k, hk, fun n => ?_⟩
    rw [FileSystem.close_stamping_some hopen, FileSystem.andThen_of_error (hstamp time), hclose]
    rw [hclose]
    exact nofun
  refine ⟨?_, Tree.encode_stamped _ _ ht, hrefuses, hleaves, fun n => ?_⟩
  · exact fun hr hd n => closeStamped_writes hm ho hw hr ht hd n
  · cases hr : m.readOnly with
    | false =>
      rw [close_stamping hm ho hw hr]
      exact not_isOpen_closeMount rfl ((mount?_setMount hm _ id).trans (if_pos rfl))
    | true =>
      have hshut : (FileSystem.archive id).isOpen (w.closeMount id m).2 = false :=
        not_isOpen_closeMount rfl hm
      rw [closeMount_leaves (Or.inr hr)] at hshut
      by_cases hmembers : m.tree.members = []
      · rw [hleaves hmembers (Or.inr hr) n]
        exact hshut
      · obtain ⟨k, -, hclose⟩ := hrefuses hr hmembers
        rw [hclose n]
        exact hshut

/-- The shape of every archive's members. -/
def Shaped (w : World) : Prop := ∀ m ∈ w.mounts, m.tree.WellFormed

theorem Shaped.setMount (hw : w.Shaped) (hm : m.tree.WellFormed) : (w.setMount id m).Shaped := by
  intro m' hm'
  rcases List.mem_or_eq_of_mem_set hm' with hold | rfl
  · exact hw m' hold
  · exact hm

theorem Shaped.run (hw : w.Shaped) (c : Call) : (c.run w).2.Shaped := by
  rcases c.run_cases w with hsame | hchanged
  · rw [hsame]
    exact hw
  · exact hchanged.trees hw

theorem Shaped.release (hw : w.Shaped) (m : Mount) : (w.release m).Shaped := by
  unfold Shaped
  rw [mounts_release]
  exact hw

theorem Shaped.writeBack (hw : w.Shaped) (hm : m.tree.WellFormed)
    (h : w.writeBack id m = .ok v) : v.Shaped := by
  rcases writeBack_ok h with ⟨-, rfl⟩ | ⟨data, x, -, hwrite, rfl⟩
  · exact hw
  · have hrun := hw.run ⟨m.backing.provider, m.backing, .write data .replace⟩
    simp only [Call.run_eq, hwrite, Call.changed] at hrun
    exact hrun.setMount hm

/-- What is mounted is an archive as it was read, or an empty one. -/
theorem Shaped.mount (hw : w.Shaped) {registry : Nat} {backing : Path} {env : Env}
    {registered : Option (Nat × Pathname)}
    (h : w.mount registry backing env registered = .ok (id, v)) : v.Shaped := by
  obtain ⟨options, loaded, m, -, hload, rfl, -, rfl⟩ := mount_ok h
  have hloaded : loaded.tree.WellFormed := by
    rcases load_ok hload with ⟨-, data, -, hdecode, -⟩ | ⟨-, rfl, -⟩
    · exact (Tree.starting_decode hdecode).wellFormed
    · exact Tree.wellFormed_empty _
  intro m hm
  rcases List.mem_append.mp hm with hold | hnew
  · exact hw m hold
  · rw [List.mem_singleton.mp hnew]
    exact hloaded

theorem lasting_shaped : Lasting Shaped where
  call w c hw := hw.run c
  mount w registry backing env id v h hw := hw.mount h
  locator w registry l env id v h hw := by
    obtain ⟨file, u, -, -, hmount, rfl⟩ := mountLocator_ok h
    exact (hw.mount hmount : u.Shaped)
  close w id m hm ho hw := by
    have htree : m.closed.tree.WellFormed := hw m (List.mem_of_getElem? hm)
    have hclosed : (w.setMount id m.closed).Shaped := hw.setMount htree
    rw [closeMount_eq]
    cases hback : (w.setMount id m.closed).writeBack id m.closed with
    | ok v => exact (hclosed.writeBack htree hback).release m
    | error f =>
      cases f with
      | error e => exact hclosed.release m
      | offCalendar t => exact hclosed
  drop w id m hm ho hw := by
    have htree : m.closed.tree.WellFormed := hw m (List.mem_of_getElem? hm)
    exact (hw.setMount htree).release m

theorem shaped_start (host : Host) (clock : Nat → Instant) (principal : String) :
    (start host clock principal).Shaped := fun _ hm => (List.not_mem_nil hm).elim

end World

theorem FileSystem.stampsBefore (d : FileSystem) (w : World) : d.StampsBefore w where
  timeless n := by
    cases ho : d.isOpen w with
    | true => exact close_stamping_none ho
    | false =>
      rw [World.close_of_not_open ho]
      exact World.close_of_not_open ho
  done ho n time := World.close_of_not_open ho
  prefers ho n time e v hstamp hdated := by
    rw [close_stamping_some ho, andThen_of_error hstamp hdated]

/-- However archives came to be mounted and whatever happened since, closing an open mount through a
file system that gives its members one time writes what it holds with that time, to its file and
once, if it can be written and has members or is out of date. A mount that is read only refuses the
time for a member, and that is reported, but it is closed. Without a time it is as if the mount were
closed itself, and once it is closed nothing is done. -/
theorem World.closesStamped_later (host : Host) (clock : Nat → Instant) (principal : String)
    (es : List Event) {id : MountId} {m : Mount} {time : Instant}
    (hm : ((start host clock principal).later es).mount? id = some m) (ho : m.isOpen = true)
    (ht : time.onCalendar = true) :
    ((start host clock principal).later es).ClosesStamped id m time ∧
      ∀ (d : FileSystem) (v : World), d.StampsBefore v := by
  have hshaped := lasting_shaped.later (shaped_start host clock principal) es
  exact ⟨closesStamped hm ho (hshaped m (List.mem_of_getElem? hm)) ht,
    fun d v => d.stampsBefore v⟩

def fillingEvents : List Event :=
  [.mount (.archive 0) (.host (.ofString "/a.zip")) (Options.createEnv ""),
    .call ⟨.archive 0, (FileSystem.archive ⟨0, 0⟩).path "f", .write (contents [1]) .createNew⟩]

def filledMount : Mount where
  backing := .host (.ofString "/a.zip")
  registered := none
  readOnly := false
  options := ⟨some true, some "", some "", none⟩
  isOpen := true
  tree := ⟨.all .epoch, [(["f"], .file (contents [1]) .epoch)]⟩
  dirty := true

theorem World.closesStamped_later_filled :
    let w := (start (.empty .epoch) (fun _ => .epoch) "").later fillingEvents
    w.mount? ⟨0, 0⟩ = some filledMount ∧ filledMount.isOpen = true ∧
      (Instant.ofSeconds 1270808130).onCalendar = true ∧
      w.ClosesStamped ⟨0, 0⟩ filledMount (Instant.ofSeconds 1270808130) :=
  have hm : ((start (.empty .epoch) (fun _ => .epoch) "").later fillingEvents).mount? ⟨0, 0⟩ =
      some filledMount := rfl
  have ht : (Instant.ofSeconds 1270808130).onCalendar = true := by decide
  ⟨hm, rfl, ht, (closesStamped_later _ _ _ fillingEvents hm rfl ht).1⟩

end ZipMount
