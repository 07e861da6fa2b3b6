import Mathlib.Data.List.Chain
import ZipMount.Proofs.Host.Frame
import ZipMount.Proofs.Mounting.Kept

namespace ZipMount

/-- A file can be written under a key: there is one, or nothing is there but a directory for it. -/
def Tree.Accepts (t : Tree) (k : MemberKey) : Prop :=
  (∃ m, t.find? k = some m ∧ m.isDirectory = false) ∨
    (t.find? k = none ∧ ∃ m, t.find? k.parent = some m ∧ m.isDirectory = true)

/-- One tree is another with a file under a key. A file that was there gave it its place, otherwise
it comes last. -/
structure Tree.Stores (t : Tree) (k : MemberKey) (data : ByteArray) (t' : Tree) : Prop where
  file : ∃ times, t'.find? k = some ⟨.file data, times⟩
  others : ∀ j, j ≠ k → t'.find? j = t.find? j
  order : t'.order = if k ∈ t.order then t.order else t.order ++ [k]

/-- A path leads to the member under a key of a mount, whatever filters are before it. -/
def Path.LeadsTo (p : Path) (o : MountId) (k : MemberKey) : Prop :=
  ∃ q, p.provider.target p = .ok (.member o q) ∧ .ofPathname q = k

/-- The mount once it is closed and its file holds its members. -/
def Mount.written (m : Mount) : Mount := { m with isOpen := false, dirty := false }

namespace World

/-- A mount is of a member of another. -/
def LiesIn (w : World) (i o : MountId) : Prop :=
  ∃ m k, w.mount? i = some m ∧ m.backing.LeadsTo o k

/-- Two mounts became these; the others and the host are what they were. -/
structure Replaced (w : World) (i : MountId) (inner : Mount) (o : MountId) (outer : Mount)
    (w' : World) : Prop where
  inner : w'.mount? i = some inner
  outer : w'.mount? o = some outer
  others : ∀ j : MountId, j.number ≠ i.number → j.number ≠ o.number → w'.mount? j = w.mount? j
  host : w'.host = w.host

/-- What closing a mount does whose file is to be a member of another, with the members packed. -/
structure ClosesInto (w : World) (i : MountId) (m : Mount) (o : MountId) (outer : Mount)
    (k : MemberKey) (data : ByteArray) : Prop where
  /-- If the archive around it is open for writing and has a place for the file, that is what the
  file becomes; and whatever else is asked of that archive, what is around it does not change. -/
  stores : outer.isOpen = true → outer.readOnly = false → outer.tree.Accepts k →
    ∃ t w', outer.tree.Stores k data t ∧ FileSystem.close (.archive i) w = (.ok (), w') ∧
      w.Replaced i m.written o { outer with tree := t, dirty := true } w' ∧
      ∀ cs : List Call, (∀ c ∈ cs, ∃ q, c.provider.target c.path = .ok (.member o q)) →
        (w'.after cs).host = w.host ∧ ∀ j : MountId, j.number ≠ i.number → j.number ≠ o.number →
          (w'.after cs).mount? j = w.mount? j
  /-- Otherwise it fails, and is closed all the same. -/
  refuses : ¬ (outer.isOpen = true ∧ outer.readOnly = false ∧ outer.tree.Accepts k) →
    ∃ e w', FileSystem.close (.archive i) w =
        (.error (.error (.context s!"Could not write archive {m.backing.display}" e)), w') ∧
      w.Replaced i m.closed o outer w'

/-- From one world to another a mount was stored in the one around it, and both were closed. -/
def Stored (w w' : World) (i o : MountId) : Prop :=
  ∃ m outer k data t, w'.mount? i = some m ∧ m.isOpen = false ∧ m.dirty = false ∧
    m.backing.LeadsTo o k ∧ m.tree.encode m.options.method = .ok data ∧
    w.mount? o = some outer ∧ outer.tree.Stores k data t ∧
    w'.mount? o = some { outer with tree := t, isOpen := false, dirty := false }

/-- If a mount is of a file of the host, that file holds its members. -/
def Landed (w : World) (id : MountId) : Prop :=
  ∃ m data, w.mount? id = some m ∧ m.tree.encode m.options.method = .ok data ∧
    ∀ q, m.backing.provider.target m.backing = .ok (.host q) → w.host.read q = .ok data

/-- Mounts each of which is of a member of the next, closed in this order. -/
structure ClosedInTurn (w : World) (ids : List MountId) (w' : World) : Prop where
  stands : ∀ id ∈ ids, w.Stands id.number
  distinct : (ids.map MountId.number).Nodup
  stored : ids.IsChain (w.Stored w')
  landed : ∀ id ∈ ids.getLast?, w'.Landed id

end World

namespace Tree

variable {t t' : Tree} {now : Instant} {k : MemberKey} {data : ByteArray}

theorem stores_insert (hk : k ≠ []) (times : Times) :
    t.Stores k data (t.insert k ⟨.file data, times⟩) where
  file := ⟨times, by rw [find?_insert t hk, if_pos rfl]⟩
  others j hj := by rw [find?_insert t hk, if_neg hj]
  order := order_insert t k _

theorem Accepts.ne_nil (h : t.Accepts k) : k ≠ [] := by
  rintro rfl
  rcases h with ⟨m, hm, hd⟩ | ⟨hnone, -⟩
  · cases hm
    cases hd
  · cases hnone

theorem Accepts.writeFile (h : t.Accepts k) (now : Instant) (data : ByteArray) :
    ∃ t', t.writeFile now k data .replace = .ok t' ∧ t.Stores k data t' := by
  have hk := h.ne_nil
  rw [writeFile_eq]
  rcases h with ⟨⟨content, times⟩, hm, hd⟩ | ⟨hnone, m, hm, hd⟩
  · cases content with
    | directory => cases hd
    | file old =>
      rw [hm]
      exact ⟨_, rfl, stores_insert hk _⟩
  · rw [hnone, checkParent_ok_iff.mpr ⟨m, hm, hd⟩]
    exact ⟨_, rfl, stores_insert hk _⟩

theorem accepts_of_writeFile (h : t.writeFile now k data .replace = .ok t') : t.Accepts k := by
  rw [writeFile_eq] at h
  cases hf : t.find? k with
  | some m =>
    rw [hf] at h
    obtain ⟨content, times⟩ := m
    cases content with
    | directory => cases h
    | file old => exact Or.inl ⟨_, hf, rfl⟩
  | none =>
    rw [hf] at h
    cases hp : t.checkParent k with
    | ok u => exact Or.inr ⟨hf, checkParent_ok_iff.mp hp⟩
    | error r =>
      rw [hp] at h
      cases h

end Tree

namespace Provider

variable {prov : Provider} {p : Path} {o : MountId} {q : Pathname}

theorem setTimes_member (h : prov.target p = .ok (.member o q)) (w : World) (change : TimeChange) :
    prov.setTimes w p change = w.changeTree o q fun t => t.retime (.ofPathname q) change := by
  unfold setTimes
  rw [h]
  rfl

theorem makeDirectory_member (h : prov.target p = .ok (.member o q)) (w : World) :
    prov.makeDirectory w p =
      w.tick.changeTree o q fun t => t.makeDirectory w.now (.ofPathname q) := by
  unfold makeDirectory
  rw [h]
  rfl

theorem write_member (h : prov.target p = .ok (.member o q)) (w : World) (data : ByteArray)
    (mode : WriteMode) : prov.write w p data mode =
      w.tick.changeTree o q fun t => t.writeFile w.now (.ofPathname q) data mode := by
  unfold write
  rw [h]
  rfl

theorem delete_member (h : prov.target p = .ok (.member o q)) (w : World) :
    prov.delete w p = w.changeTree o q fun t => t.remove (.ofPathname q) := by
  unfold delete
  rw [h]
  rfl

end Provider

namespace Path.LeadsTo

variable {w v : World} {p : Path} {o : MountId} {k : MemberKey} {outer : Mount} {data : ByteArray}

theorem write_of_accepts (h : p.LeadsTo o k) (ho : w.mount? o = some outer)
    (hopen : outer.isOpen = true) (hwritable : outer.readOnly = false)
    (ha : outer.tree.Accepts k) (data : ByteArray) :
    ∃ t, outer.tree.Stores k data t ∧
      p.provider.write w p data .replace = .ok (w.tick.setTree o outer t) := by
  obtain ⟨q, hq, rfl⟩ := h
  obtain ⟨t, hwrite, hstores⟩ := ha.writeFile w.now data
  refine ⟨t, hstores, ?_⟩
  have hm : w.tick.writableMount o = .ok outer :=
    World.writableMount_ok.mpr ⟨ho, hopen, hwritable⟩
  rw [Provider.write_member hq, World.changeTree_eq hm, hwrite]

/-- What is written to a member needs a mount that is open for writing, and a place in it. -/
theorem write_ok (h : p.LeadsTo o k) (hwrite : p.provider.write w p data .replace = .ok v) :
    ∃ outer, w.mount? o = some outer ∧ outer.isOpen = true ∧ outer.readOnly = false ∧
      outer.tree.Accepts k := by
  obtain ⟨q, hq, rfl⟩ := h
  rw [Provider.write_member hq] at hwrite
  obtain ⟨outer, t, hm, ht, -⟩ := World.changeTree_ok hwrite
  obtain ⟨ho, hopen, hwritable⟩ := World.writableMount_ok.mp hm
  exact ⟨outer, ho, hopen, hwritable, Tree.accepts_of_writeFile ht⟩

end Path.LeadsTo

/-- What is asked of a member of an archive leaves the host and all other mounts as they are. -/
theorem Call.run_member {c : Call} {o : MountId} {q : Pathname}
    (h : c.provider.target c.path = .ok (.member o q)) (w : World) :
    (c.run w).2.host = w.host ∧
      ∀ j : MountId, j.number ≠ o.number → (c.run w).2.mount? j = w.mount? j := by
  have hchanged : ∀ (v : World) (f : Tree → Except Refusal Tree), v.host = w.host →
      v.mounts = w.mounts → (changed w (v.changeTree o q f)).2.host = w.host ∧
        ∀ j : MountId, j.number ≠ o.number →
          (changed w (v.changeTree o q f)).2.mount? j = w.mount? j := by
    intro v f hhost hmounts
    cases hv : v.changeTree o q f with
    | error e => exact ⟨rfl, fun _ _ => rfl⟩
    | ok v' =>
      obtain ⟨m, t, hm, -, rfl⟩ := World.changeTree_ok hv
      refine ⟨hhost, fun j hj => ?_⟩
      change (v.setMount o { m with tree := t, dirty := true }).mount? j = _
      rw [World.mount?_setMount (World.writableMount_ok.mp hm).1, if_neg hj, World.mount?, hmounts]
      rfl
  rw [run_eq]
  cases c.operation with
  | check modes => exact ⟨rfl, fun _ _ => rfl⟩
  | attributes => exact ⟨rfl, fun _ _ => rfl⟩
  | read => exact ⟨rfl, fun _ _ => rfl⟩
  | list => exact ⟨rfl, fun _ _ => rfl⟩
  | walk order => exact ⟨rfl, fun _ _ => rfl⟩
  | setTimes change =>
    simp only [Provider.setTimes_member h]
    exact hchanged w _ rfl rfl
  | makeDirectory =>
    simp only [Provider.makeDirectory_member h]
    exact hchanged w.tick _ rfl rfl
  | write data mode =>
    simp only [Provider.write_member h]
    exact hchanged w.tick _ rfl rfl
  | delete =>
    simp only [Provider.delete_member h]
    exact hchanged w _ rfl rfl

namespace World

variable {w w' v : World} {i o id j : MountId} {m outer : Mount} {k : MemberKey} {data : ByteArray}

/-- What is asked of members of one archive leaves the host and all other mounts as they are. -/
theorem after_members {cs : List Call}
    (hcs : ∀ c ∈ cs, ∃ q, c.provider.target c.path = .ok (.member o q)) (w : World) :
    (w.after cs).host = w.host ∧
      ∀ j : MountId, j.number ≠ o.number → (w.after cs).mount? j = w.mount? j := by
  induction cs generalizing w with
  | nil => exact ⟨rfl, fun _ _ => rfl⟩
  | cons c cs ih =>
    obtain ⟨q, hq⟩ := hcs c List.mem_cons_self
    obtain ⟨hhost, hothers⟩ := c.run_member hq w
    obtain ⟨hhost', hothers'⟩ := ih (fun d hd => hcs d (List.mem_cons_of_mem c hd)) (c.run w).2
    exact ⟨hhost'.trans hhost, fun j hj => (hothers' j hj).trans (hothers j hj)⟩

/-- A mount that is closed does not change when another is. -/
theorem mount?_close (hm : w.mount? id = some m) (ho : m.isOpen = false) (j : MountId) :
    ((FileSystem.archive j).close w).2.mount? id = some m := by
  unfold FileSystem.close
  cases hj : w.mount? j with
  | none => exact hm
  | some m' =>
    cases hopen : m'.isOpen with
    | false =>
      simp only [hopen, Bool.false_eq_true, if_false]
      exact hm
    | true =>
      simp only [hopen, if_true]
      have hne : id.number ≠ j.number := by
        intro hsame
        have heq : m = m' := Option.some.inj (hm.symm.trans ((mount?_of_number hsame).trans hj))
        rw [heq, hopen] at ho
        cases ho
      have hset : ∀ {u : World} {m₁ : Mount}, u.mount? j = some m₁ → u.mount? id = some m →
          ∀ m₂, (u.setMount j m₂).mount? id = some m := by
        intro u m₁ hu hid m₂
        rw [mount?_setMount hu, if_neg hne]
        exact hid
      have hclosed : (w.setMount j m'.closed).mount? j = some m'.closed :=
        (mount?_setMount hj _ j).trans (if_pos rfl)
      rw [closeMount_eq]
      cases hback : (w.setMount j m'.closed).writeBack j m'.closed with
      | ok v =>
        rw [mount?_release]
        rcases writeBack_ok hback with ⟨-, rfl⟩ | ⟨data, u, -, hwrite, rfl⟩
        · exact hset hj hm _
        · exact hset (mount?_write hclosed rfl hwrite) (mount?_write (hset hj hm _) ho hwrite) _
      | error f =>
        cases f with
        | error e =>
          rw [mount?_release]
          exact hset hj hm _
        | offCalendar t => exact hset hj hm _

/-- A mount that is out of date is closed without an error only if its members were packed and
written. -/
theorem close_ok (hm : w.mount? id = some m) (ho : m.isOpen = true) (hd : m.dirty = true)
    (hr : m.readOnly = false) (h : FileSystem.close (.archive id) w = (.ok (), w')) :
    ∃ data v, m.tree.encode m.options.method = .ok data ∧
      m.backing.provider.write (w.setMount id m.closed) m.backing data .replace = .ok v ∧
      w' = (v.setMount id m.written).release m := by
  rw [close_of_open hm ho] at h
  rcases closeMount_ok h with ⟨hleft | hleft, -⟩ | hwritten
  · rw [hd] at hleft
    cases hleft
  · rw [hr] at hleft
    cases hleft
  · exact hwritten

/-- A mount that was closed, and the tree of one that was changed. -/
theorem replaced_setTree (hi : w.mount? i = some m) (ho : w.mount? o = some outer)
    (hne : o.number ≠ i.number) (t : Tree) :
    w.Replaced i m.written o { outer with tree := t, dirty := true }
      ((((w.setMount i m.closed).tick.setTree o outer t).setMount i
        m.written).release m) := by
  have hi₁ : ∀ j : MountId, (w.setMount i m.closed).tick.mount? j =
      if j.number = i.number then some m.closed else w.mount? j := mount?_setMount hi _
  have ho₁ : (w.setMount i m.closed).tick.mount? o = some outer := by
    rw [hi₁, if_neg hne]
    exact ho
  have ho₂ : ∀ j : MountId, ((w.setMount i m.closed).tick.setTree o outer t).mount? j =
      if j.number = o.number then some { outer with tree := t, dirty := true }
      else (w.setMount i m.closed).tick.mount? j := mount?_setMount ho₁ _
  have hi₂ : ((w.setMount i m.closed).tick.setTree o outer t).mount? i = some m.closed := by
    rw [ho₂, if_neg (Ne.symm hne), hi₁, if_pos rfl]
  refine ⟨?_, ?_, fun j hj hj' => ?_, host_release _ m⟩
  · rw [mount?_release, mount?_setMount hi₂, if_pos rfl]
  · rw [mount?_release, mount?_setMount hi₂, if_neg hne, ho₂, if_pos rfl]
  · rw [mount?_release, mount?_setMount hi₂, if_neg hj, ho₂, if_neg hj', hi₁, if_neg hj]

/-- A mount that was closed and nothing else. -/
theorem replaced_closed (hi : w.mount? i = some m) (ho : w.mount? o = some outer)
    (hne : o.number ≠ i.number) :
    w.Replaced i m.closed o outer ((w.setMount i m.closed).release m) := by
  refine ⟨?_, ?_, fun j hj _ => ?_, host_release _ m⟩
  · rw [mount?_release, mount?_setMount hi, if_pos rfl]
  · rw [mount?_release, mount?_setMount hi, if_neg hne]
    exact ho
  · rw [mount?_release, mount?_setMount hi, if_neg hj]

theorem closesInto (hi : w.mount? i = some m) (ho : w.mount? o = some outer)
    (hne : o.number ≠ i.number) (hopen : m.isOpen = true) (hd : m.dirty = true)
    (hr : m.readOnly = false) (he : m.tree.encode m.options.method = .ok data)
    (hk : m.backing.LeadsTo o k) : w.ClosesInto i m o outer k data := by
  have hclose : FileSystem.close (.archive i) w = _ :=
    (close_of_open hi hopen).trans (closeMount_writes hd hr he)
  have ho₁ : (w.setMount i m.closed).mount? o = some outer := by
    rw [mount?_setMount hi, if_neg hne]
    exact ho
  refine ⟨fun hopen' hwritable ha => ?_, fun hnot => ?_⟩
  · obtain ⟨t, hstores, hwrite⟩ := hk.write_of_accepts ho₁ hopen' hwritable ha data
    have hreplaced := replaced_setTree hi ho hne t
    rw [hwrite] at hclose
    refine ⟨t, _, hstores, hclose, hreplaced, fun cs hcs => ?_⟩
    obtain ⟨hhost, hothers⟩ := after_members hcs
      ((((w.setMount i m.closed).tick.setTree o outer t).setMount i
        m.written).release m)
    exact ⟨hhost.trans hreplaced.host,
      fun j hj hj' => (hothers j hj').trans (hreplaced.others j hj hj')⟩
  · cases hwrite : m.backing.provider.write (w.setMount i m.closed) m.backing data .replace with
    | ok v =>
      obtain ⟨outer', ho', hoc⟩ := hk.write_ok hwrite
      rw [ho₁] at ho'
      cases ho'
      exact absurd hoc hnot
    | error e =>
      rw [hwrite] at hclose
      exact ⟨e, _, hclose, replaced_closed hi ho hne⟩

/-- Writing a file of the host that succeeds leaves it with what was written. -/
theorem read_of_write {prov : Provider} {p : Path} {q : Pathname}
    (hq : prov.target p = .ok (.host q)) (h : prov.write w p data .replace = .ok v) :
    v.host.read q = .ok data := by
  obtain ⟨target, htarget, h⟩ := bind_eq_ok h
  rw [hq] at htarget
  cases htarget
  obtain ⟨host, hhost, rfl⟩ := changeHost_ok h
  exact Host.read_of_write hhost

theorem LiesIn.of_mounts (h : w.LiesIn i o)
    (hsame : ∀ j m, w.mount? j = some m → ∃ m', v.mount? j = some m' ∧ m'.backing = m.backing) :
    v.LiesIn i o := by
  obtain ⟨m, k, hm, hk⟩ := h
  obtain ⟨m', hm', hbacking⟩ := hsame i m hm
  exact ⟨m', k, hm', hbacking ▸ hk⟩

/-- Mounts that were replaced by mounts of the same files leave each mount of the file it is of. -/
theorem Replaced.backing {inner outer' : Mount} (h : w.Replaced i inner o outer' v)
    (hi : w.mount? i = some m) (ho : w.mount? o = some outer) (hib : inner.backing = m.backing)
    (hob : outer'.backing = outer.backing) (j : MountId) (m₀ : Mount)
    (hj : w.mount? j = some m₀) : ∃ m', v.mount? j = some m' ∧ m'.backing = m₀.backing := by
  by_cases hji : j.number = i.number
  · rw [mount?_of_number hji] at hj ⊢
    cases hj.symm.trans hi
    exact ⟨inner, h.inner, hib⟩
  · by_cases hjo : j.number = o.number
    · rw [mount?_of_number hjo] at hj ⊢
      cases hj.symm.trans ho
      exact ⟨outer', h.outer, hob⟩
    · exact ⟨m₀, (h.others j hji hjo).trans hj, rfl⟩

/-- Closing a mount of a file of the host leaves its members in that file. -/
theorem landed_of_close (hi : w.mount? i = some m) (hopen : m.isOpen = true)
    (hd : m.dirty = true) (hr : m.readOnly = false)
    (h : FileSystem.close (.archive i) w = (.ok (), w')) :
    w'.mount? i = some m.written ∧ w'.Landed i := by
  obtain ⟨data, v, hdata, hwrite, rfl⟩ := close_ok hi hopen hd hr h
  have hclosed : (w.setMount i m.closed).mount? i = some m.closed :=
    (mount?_setMount hi _ i).trans (if_pos rfl)
  have hv := mount?_write hclosed rfl hwrite
  have hlast : ((v.setMount i m.written).release m).mount? i =
      some m.written := by
    rw [mount?_release, mount?_setMount hv, if_pos rfl]
  refine ⟨hlast, m.written, data, hlast, hdata, fun q hq => ?_⟩
  rw [host_release]
  change v.host.read q = .ok data
  exact read_of_write hq hwrite

/-- Closing a mount without an error that is out of date and of a member of another. -/
theorem close_ok_of_liesIn (hi : w.mount? i = some m) (hopen : m.isOpen = true)
    (hd : m.dirty = true) (hr : m.readOnly = false) (hk : m.backing.LeadsTo o k)
    (h : FileSystem.close (.archive i) w = (.ok (), v)) :
    ∃ outer data t, w.mount? o = some outer ∧ o.number ≠ i.number ∧ outer.isOpen = true ∧
      outer.readOnly = false ∧ m.tree.encode m.options.method = .ok data ∧
      outer.tree.Stores k data t ∧
      w.Replaced i m.written o { outer with tree := t, dirty := true } v := by
  obtain ⟨data, u, hdata, hwrite, -⟩ := close_ok hi hopen hd hr h
  obtain ⟨outer, ho, hopen', hwritable, ha⟩ := hk.write_ok hwrite
  have hne : o.number ≠ i.number := by
    intro hsame
    rw [mount?_setMount hi, if_pos hsame] at ho
    cases ho
    cases hopen'
  rw [mount?_setMount hi, if_neg hne] at ho
  obtain ⟨t, v', hstores, hv', hreplaced, -⟩ :=
    (closesInto hi ho hne hopen hd hr hdata hk).stores hopen' hwritable ha
  rw [h] at hv'
  cases hv'
  exact ⟨outer, data, t, ho, hne, hopen', hwritable, hdata, hstores, hreplaced⟩

/-- A mount that is closed does not change when any number of mounts are. -/
theorem mount?_closings (hm : w.mount? id = some m) (ho : m.isOpen = false) {ids : List MountId}
    (h : (ids.forM fun id => FileSystem.close (.archive id)) w = (.ok (), w')) :
    w'.mount? id = some m := by
  have hkept : ((ids.forM fun id => FileSystem.close (.archive id)) w).2.mount? id = some m :=
    Action.forM_world (P := fun w => w.mount? id = some m) (fun j _ _ hv => mount?_close hv ho j) hm
  rw [h] at hkept
  exact hkept

/-- One mount is closed before those around it. It is none of them, since they were open then. -/
theorem ClosedInTurn.cons {rest : List MountId} {t : Tree} (hi : w.mount? i = some m)
    (hopen : m.isOpen = true) (ho : w.mount? o = some outer) (hopen' : outer.isOpen = true)
    (hk : m.backing.LeadsTo o k) (hdata : m.tree.encode m.options.method = .ok data)
    (hstores : outer.tree.Stores k data t)
    (hv : w.Replaced i m.written o { outer with tree := t, dirty := true } v)
    (hturn : v.ClosedInTurn (o :: rest) w') (hinner : w'.mount? i = some m.written)
    (houter : w'.mount? o = some { outer with tree := t, isOpen := false, dirty := false }) :
    w.ClosedInTurn (i :: o :: rest) w' := by
  have hdiff : ∀ j ∈ o :: rest, j.number ≠ i.number := by
    intro j hj hsame
    obtain ⟨m', hm', hopened⟩ := hturn.stands j hj
    rw [hsame] at hm'
    cases hm'.symm.trans hv.inner
    cases hopened
  have hothers : ∀ j ∈ rest, v.mount? j = w.mount? j := by
    intro j hj
    refine hv.others j (hdiff j (List.mem_cons_of_mem o hj)) fun hsame => ?_
    exact (List.nodup_cons.mp hturn.distinct).1 (hsame ▸ List.mem_map_of_mem hj)
  refine ⟨?_, ?_, ?_, hturn.landed⟩
  · intro id hid
    rcases List.mem_cons.mp hid with rfl | hid
    · exact ⟨m, hi, hopen⟩
    · rcases List.mem_cons.mp hid with rfl | hrest
      · exact ⟨outer, ho, hopen'⟩
      · obtain ⟨m', hm', hopened⟩ := hturn.stands id hid
        exact ⟨m', (hothers id hrest).symm.trans hm', hopened⟩
  · refine List.nodup_cons.mpr ⟨fun hmem => ?_, hturn.distinct⟩
    obtain ⟨j, hj, hsame⟩ := List.mem_map.mp hmem
    exact hdiff j hj hsame
  · refine List.isChain_cons_cons.mpr ⟨?_, hturn.stored.imp_of_mem_tail_imp ?_⟩
    · exact ⟨m.written, outer, k, data, t, hinner, rfl, rfl, hk, hdata, ho, hstores, houter⟩
    · rintro a b - hb ⟨m', outer', k', data', t', hm', ho', hd', hk', hdata', houter', hlast⟩
      rw [hothers b hb] at houter'
      exact ⟨m', outer', k', data', t', hm', ho', hd', hk', hdata', houter', hlast⟩

/-- Closing the innermost mount first makes those around it be written one by one. -/
theorem closedInTurn (rest : List MountId) (hi : w.mount? i = some m) (hopen : m.isOpen = true)
    (hd : m.dirty = true) (hr : m.readOnly = false) (hchain : (i :: rest).IsChain w.LiesIn)
    (h : ((i :: rest).forM fun id => FileSystem.close (.archive id)) w = (.ok (), w')) :
    w.ClosedInTurn (i :: rest) w' ∧ w'.mount? i = some m.written := by
  induction rest generalizing w i m with
  | nil =>
    obtain ⟨u, v, hclose, hdone⟩ := Action.bind_ok h
    obtain ⟨-, rfl⟩ := Action.pure_ok hdone
    obtain ⟨hlast, hlanded⟩ := landed_of_close hi hopen hd hr hclose
    refine ⟨⟨?_, List.pairwise_singleton _ _, List.isChain_singleton i, ?_⟩, hlast⟩
    · intro id hid
      rw [List.mem_singleton.mp hid]
      exact ⟨m, hi, hopen⟩
    · intro id hid
      cases hid
      exact hlanded
  | cons o rest ih =>
    obtain ⟨⟨m', k, hm', hk⟩, houter⟩ := List.isChain_cons_cons.mp hchain
    rw [hi] at hm'
    cases hm'
    obtain ⟨u, v, hclose, hrest⟩ := Action.bind_ok h
    obtain ⟨outer, data, t, ho, hne, hopen', hwritable, hdata, hstores, hv⟩ :=
      close_ok_of_liesIn hi hopen hd hr hk hclose
    -- The write made the archive around it out of date, so it is the head of what remains.
    have hlies : (o :: rest).IsChain v.LiesIn :=
      houter.imp fun _ _ hab => hab.of_mounts (hv.backing hi ho rfl rfl)
    obtain ⟨hturn, hlast⟩ := ih hv.outer hopen' rfl hwritable hlies hrest
    have hinner : w'.mount? i = some m.written := mount?_closings hv.inner rfl hrest
    exact ⟨.cons hi hopen ho hopen' hk hdata hstores hv hturn hinner hlast, hinner⟩

/-- For every mount of a member of an archive that is mounted itself, out of date, not read only and
with members that can be packed: if that archive is open for writing and has a place for the file,
closing the mount makes the member a file that holds its members, in its old place or else as the
last; nothing else changes, and whatever is asked of that archive then, nothing around it does.
Otherwise closing fails and changes nothing. The mount is closed in either case. So if mounts each
of which is of a member of the next are closed in this order without an error, each is left in the
next, and the last in its file if it is of one of the host. -/
theorem closes_nested (hi : w.mount? i = some m) (ho : w.mount? o = some outer)
    (hne : o.number ≠ i.number) (hk : m.backing.LeadsTo o k) (hopen : m.isOpen = true)
    (hd : m.dirty = true) (hr : m.readOnly = false)
    (he : m.tree.encode m.options.method = .ok data) :
    w.ClosesInto i m o outer k data ∧ ∀ rest w', (i :: o :: rest).IsChain w.LiesIn →
      ((i :: o :: rest).forM fun id => FileSystem.close (.archive id)) w = (.ok (), w') →
        w.ClosedInTurn (i :: o :: rest) w' ∧ w'.mount? i = some m.written :=
  ⟨closesInto hi ho hne hopen hd hr he hk,
    fun rest _ hchain h => closedInTurn (o :: rest) hi hopen hd hr hchain h⟩

/-- Archives that are created, the second in the first and the third in the second. -/
def boxingEvents : List Event :=
  [.mount (.archive 0) (.host (.ofString "/a.zip")) (Options.createEnv ""),
    .mount (.archive 0) (.member ⟨0, 0⟩ (.ofString "/b.zip")) (Options.createEnv ""),
    .mount (.archive 0) (.member ⟨1, 0⟩ (.ofString "/c.zip")) (Options.createEnv "")]

/-- The mount of an archive that was just created. -/
def createdMount (backing : Path) : Mount where
  backing := backing
  registered := none
  readOnly := false
  options := ⟨some true, some "", some "", none⟩
  isOpen := true
  tree := .empty .epoch
  dirty := true

theorem closes_nested_boxed :
    let w := bare.later boxingEvents
    let inner := createdMount (.member ⟨1, 0⟩ (.ofString "/c.zip"))
    let outer := createdMount (.member ⟨0, 0⟩ (.ofString "/b.zip"))
    w.mount? ⟨2, 0⟩ = some inner ∧ w.mount? ⟨1, 0⟩ = some outer ∧
      inner.backing.LeadsTo ⟨1, 0⟩ ["c.zip"] ∧ outer.tree.Accepts ["c.zip"] ∧
      ∃ data w', inner.tree.encode inner.options.method = .ok data ∧
        w.ClosesInto ⟨2, 0⟩ inner ⟨1, 0⟩ outer ["c.zip"] data ∧
        w.ClosedInTurn [⟨2, 0⟩, ⟨1, 0⟩, ⟨0, 0⟩] w' := by
  intro w inner outer
  have hi : w.mount? ⟨2, 0⟩ = some inner := rfl
  have ho : w.mount? ⟨1, 0⟩ = some outer := rfl
  have hk : inner.backing.LeadsTo ⟨1, 0⟩ ["c.zip"] := ⟨.ofString "/c.zip", rfl, by decide⟩
  have ha : outer.tree.Accepts ["c.zip"] := Or.inr ⟨rfl, _, rfl, rfl⟩
  have hchain : ([⟨2, 0⟩, ⟨1, 0⟩, ⟨0, 0⟩] : List MountId).IsChain w.LiesIn := by
    refine List.isChain_cons_cons.mpr ⟨⟨inner, _, hi, hk⟩, List.isChain_cons_cons.mpr
      ⟨⟨outer, ["b.zip"], ho, .ofString "/b.zip", rfl, by decide⟩, List.isChain_singleton _⟩⟩
  have he : ∃ data, inner.tree.encode inner.options.method = .ok data := ⟨_, rfl⟩
  obtain ⟨data, he⟩ := he
  obtain ⟨hcloses, hturn⟩ := closes_nested hi ho (by decide) hk rfl rfl rfl he
  have hclosed : ∃ w', (([⟨2, 0⟩, ⟨1, 0⟩, ⟨0, 0⟩] : List MountId).forM
      fun id => FileSystem.close (.archive id)) w = (.ok (), w') := ⟨_, rfl⟩
  obtain ⟨w', hclosed⟩ := hclosed
  exact ⟨hi, ho, hk, ha, data, w', he, hcloses, (hturn [⟨0, 0⟩] w' hchain hclosed).1⟩

end World

end ZipMount
