import Mathlib.Data.List.Induction
import ZipMount.Proofs.Archives.Entry
import ZipMount.Proofs.Tree.Parents

namespace ZipMount

open MemberKey

namespace Tree

variable {t t' : Tree} {j k : MemberKey} {s : String}

def HasFile (t : Tree) (k : MemberKey) : Prop :=
  ∃ x, t.find? k = some x ∧ x.isDirectory = false

def HasDirectory (t : Tree) (k : MemberKey) : Prop :=
  ∃ x, t.find? k = some x ∧ x.isDirectory = true

/-- The keys that are missing on the way to a key and at its end, the shortest first. -/
def missing (t : Tree) (k : MemberKey) : List MemberKey :=
  (starts k).filter fun j => (t.find? j).isNone

/-- From one tree to another, whatever was missing on the way to a key became a directory. -/
structure Furnished (t : Tree) (k : MemberKey) (t' : Tree) : Prop where
  directories : ∀ j, j <+: k → t'.HasDirectory j
  kept : ∀ j x, t.find? j = some x → t'.find? j = some x
  others : ∀ j, ¬ j <+: k → t'.find? j = t.find? j
  order : t'.order = t.order ++ t.missing k

theorem HasDirectory.not_hasFile (h : t.HasDirectory k) : ¬ t.HasFile k := by
  rintro ⟨y, hy, hfile⟩
  obtain ⟨x, hx, hdirectory⟩ := h
  cases hx.symm.trans hy
  rw [hfile] at hdirectory
  cases hdirectory

theorem HasDirectory.isSome (h : t.HasDirectory k) : (t.find? k).isSome := by
  obtain ⟨x, hx, -⟩ := h
  rw [hx]
  rfl

theorem hasDirectory_nil (t : Tree) : t.HasDirectory [] := ⟨_, find?_nil t, rfl⟩

/-- Above what is there everything is a directory. -/
theorem Tidy.hasDirectory_of_prefix (h : t.Tidy) (hk : (t.find? k).isSome) (hjk : j <+: k)
    (hne : j ≠ k) : t.HasDirectory j := by
  induction k using List.reverseRecOn generalizing j with
  | nil => exact absurd (List.prefix_nil.mp hjk) hne
  | append_singleton k s ih =>
    have hparent : t.HasDirectory k := by
      have hmem := (mem_order_iff (by simp)).mpr hk
      have hin := h _ hmem
      rwa [parent_concat] at hin
    have hj : j <+: k := (List.prefix_concat_iff.mp hjk).resolve_left hne
    by_cases hsame : j = k
    · rw [hsame]
      exact hparent
    · exact ih hparent.isSome hj hsame

theorem missing_concat_of_none (hnone : t.find? (k ++ [s]) = none) :
    t.missing (k ++ [s]) = t.missing k ++ [k ++ [s]] := by
  rw [missing, starts_concat, List.filter_append, missing]
  congr
  refine List.filter_eq_self.mpr fun j hj => ?_
  rw [List.mem_singleton.mp hj, hnone]
  rfl

/-- Where a directory is, nothing is missing. -/
theorem Tidy.missing_eq_nil (h : t.Tidy) (hk : t.HasDirectory k) : t.missing k = [] := by
  refine List.filter_eq_nil_iff.mpr fun j hj => ?_
  obtain ⟨x, hx, -⟩ : t.HasDirectory j := by
    by_cases hjk : j = k
    · rw [hjk]
      exact hk
    · exact h.hasDirectory_of_prefix hk.isSome (mem_starts hj).2 hjk
  rw [hx]
  exact Bool.false_ne_true

theorem Tidy.furnished (h : t.Tidy) (hk : t.HasDirectory k) : t.Furnished k t where
  directories j hj := by
    by_cases hjk : j = k
    · rw [hjk]
      exact hk
    · exact h.hasDirectory_of_prefix hk.isSome hj hjk
  kept _ _ hx := hx
  others _ _ := rfl
  order := by rw [h.missing_eq_nil hk, List.append_nil]

theorem Furnished.insert (h : t.Furnished k t') (hnone : t.find? (k ++ [s]) = none)
    (now : Instant) : t.Furnished (k ++ [s]) (t'.insert (k ++ [s]) (.directory now)) := by
  have hne : k ++ [s] ≠ [] := by simp
  have hlonger : ¬ k ++ [s] <+: k := by
    intro hprefix
    have hlength := hprefix.length_le
    rw [List.length_append, List.length_singleton] at hlength
    omega
  have hnone' : t'.find? (k ++ [s]) = none := (h.others _ hlonger).trans hnone
  have hother : ∀ j ≠ k ++ [s], (t'.insert (k ++ [s]) (.directory now)).find? j = t'.find? j :=
    fun j hj => by rw [find?_insert t' hne, if_neg hj]
  refine ⟨fun j hj => ?_, fun j x hx => ?_, fun j hj => ?_, ?_⟩
  · by_cases hjk : j = k ++ [s]
    · exact ⟨.directory now, by rw [find?_insert t' hne, if_pos hjk], rfl⟩
    · obtain ⟨x, hx, hd⟩ := h.directories j ((List.prefix_concat_iff.mp hj).resolve_left hjk)
      exact ⟨x, (hother j hjk).trans hx, hd⟩
  · have hjk : j ≠ k ++ [s] := by
      rintro rfl
      rw [hnone] at hx
      cases hx
    exact (hother j hjk).trans (h.kept j x hx)
  · have hjk : j ≠ k ++ [s] := by
      rintro rfl
      exact hj List.prefix_rfl
    exact (hother j hjk).trans (h.others j fun hk => hj (hk.trans (List.prefix_append k [s])))
  · rw [order_insert_new (notMem_order hnone'), h.order, missing_concat_of_none hnone,
      List.append_assoc]

end Tree

namespace World

/-- A world in which a mount has other members, for which the clock was asked so many times. With
no times nothing changed. -/
def withTree (w : World) (id : MountId) (m : Mount) (t : Tree) (times : Nat) : World :=
  if times = 0 then w else { w with ticks := w.ticks + times }.setTree id m t

variable {w : World} {id : MountId} {m : Mount} {t : Tree}

theorem setTree_setTree (w : World) (id : MountId) (m : Mount) (t t' : Tree) :
    (w.setTree id m t).tick.setTree id { m with tree := t, dirty := true } t' =
      w.tick.setTree id m t' := by
  unfold setTree setMount tick
  rw [List.set_set]

/-- The mount in such a world, and what one more change of its members comes to. -/
theorem writableMount_withTree (hm : w.writableMount id = .ok m) (times : Nat)
    (ht : times = 0 → t = m.tree) :
    ∃ m', (w.withTree id m t times).writableMount id = .ok m' ∧ m'.tree = t ∧
      ∀ t', (w.withTree id m t times).tick.setTree id m' t' = w.withTree id m t' (times + 1) := by
  cases times with
  | zero => exact ⟨m, hm, (ht rfl).symm, fun _ => rfl⟩
  | succ n =>
    let v : World := { w with ticks := w.ticks + (n + 1) }
    have hv : v.writableMount id = .ok m := hm
    exact ⟨_, writableMount_setTree hv t, rfl, fun t' => setTree_setTree v id m t t'⟩

end World

namespace Path

variable {w w' : World} {p : Path} {id : MountId} {m : Mount} {k : MemberKey} {s : String}

theorem length_parent? {above : Path} (h : p.parent? = some above) :
    above.pathname.bytes.length < p.pathname.bytes.length := by
  induction p with
  | host q =>
    obtain ⟨r, hr, rfl⟩ := Option.map_eq_some_iff.mp h
    exact Pathname.length_parent hr
  | member id q =>
    obtain ⟨r, hr, rfl⟩ := Option.map_eq_some_iff.mp h
    exact Pathname.length_parent hr
  | proxy d fs ih => exact ih h

/-- No way up has more steps than the path has bytes, so a larger bound makes no difference. -/
theorem makeDirectoriesUpTo_eq {n : Nat} (h : p.pathname.bytes.length < n) :
    p.makeDirectoriesUpTo n = p.makeDirectories := by
  have hsame : ∀ i j (p : Path), p.pathname.bytes.length < i → p.pathname.bytes.length < j →
      p.makeDirectoriesUpTo i = p.makeDirectoriesUpTo j := by
    intro i
    induction i with
    | zero => intro j p hi; omega
    | succ i ih =>
      intro j p hi hj
      obtain ⟨j, rfl⟩ := Nat.exists_eq_succ_of_ne_zero (Nat.ne_zero_of_lt hj)
      funext w
      rw [Nat.succ_eq_add_one, makeDirectoriesUpTo_succ, makeDirectoriesUpTo_succ]
      cases habove : p.parent? with
      | none => rfl
      | some above =>
        have hlt := length_parent? habove
        simp only [ih j above (by omega) (by omega)]
  exact hsame n _ p h (Nat.lt_succ_self _)

theorem makeDirectories_concat (hk : Canonical (k ++ [s])) (w : World) :
    (ofKey id (k ++ [s])).makeDirectories w =
      if (ofKey id (k ++ [s])).isDirectory w then (.ok (), w)
      else ((ofKey id k).makeDirectories >>= fun _ => (ofKey id (k ++ [s])).ensureDirectory) w := by
  have hparent : (ofKey id (k ++ [s])).parent? = some (ofKey id k) := by
    rw [parent?_ofKey hk (by simp) id, parent_concat]
  have hne : (ofKey id k).pathname.bytes ≠ [] := pathname_ne_nil k
  rw [makeDirectories, makeDirectoriesUpTo_succ, hparent]
  simp only [if_pos hne, makeDirectoriesUpTo_eq (length_parent? hparent)]

theorem isDirectory_ofKey_iff (hm : w.openMount id = .ok m) (hk : Canonical k) :
    (ofKey id k).isDirectory w = true ↔ m.tree.HasDirectory k := by
  rw [← content?_directory, content?_ofKey hk]
  constructor
  · rintro ⟨m', ⟨content, times⟩, hm', hx, rfl⟩
    cases hm.symm.trans hm'
    exact ⟨_, hx, rfl⟩
  · rintro ⟨⟨content, times⟩, hx, hd⟩
    cases content with
    | directory => exact ⟨m, _, hm, hx, rfl⟩
    | file data => cases hd

theorem makeDirectories_of_hasDirectory (hm : w.openMount id = .ok m) (hk : Canonical k)
    (hd : m.tree.HasDirectory k) : (ofKey id k).makeDirectories w = (.ok (), w) :=
  makeDirectoriesUpTo_of_isDirectory ((isDirectory_ofKey_iff hm hk).mpr hd) _

/-- Where no file is on the way, what is missing is made. -/
theorem makeDirectories_furnishes (hm : w.writableMount id = .ok m) (ht : m.tree.Tidy)
    (hk : Canonical k) (hfree : ∀ j, j <+: k → ¬ m.tree.HasFile j) :
    ∃ t, m.tree.Furnished k t ∧ (m.tree.missing k = [] → t = m.tree) ∧
      (ofKey id k).makeDirectories w = (.ok (), w.withTree id m t (m.tree.missing k).length) := by
  have hopen := World.openMount_of_writableMount hm
  have hthere : ∀ {k}, Canonical k → m.tree.HasDirectory k →
      ∃ t, m.tree.Furnished k t ∧ (m.tree.missing k = [] → t = m.tree) ∧
        (ofKey id k).makeDirectories w =
          (.ok (), w.withTree id m t (m.tree.missing k).length) := by
    intro k hk hd
    refine ⟨m.tree, ht.furnished hd, fun _ => rfl, ?_⟩
    rw [ht.missing_eq_nil hd]
    exact makeDirectories_of_hasDirectory hopen hk hd
  induction k using List.reverseRecOn with
  | nil => exact hthere hk m.tree.hasDirectory_nil
  | append_singleton k s ih =>
    by_cases hd : m.tree.HasDirectory (k ++ [s])
    · exact hthere hk hd
    have hk' : Canonical k := fun n hn => hk n (List.mem_append_left _ hn)
    obtain ⟨t, hfurnished, hsame, hrun⟩ :=
      ih hk' fun j hj => hfree j (hj.trans (List.prefix_append k [s]))
    have hnone : m.tree.find? (k ++ [s]) = none := by
      cases hx : m.tree.find? (k ++ [s]) with
      | none => rfl
      | some x =>
        cases hkind : x.isDirectory with
        | true => exact absurd ⟨x, hx, hkind⟩ hd
        | false => exact absurd ⟨x, hx, hkind⟩ (hfree _ List.prefix_rfl)
    obtain ⟨m', hm', rfl, hset⟩ := World.writableMount_withTree (t := t) hm
      (m.tree.missing k).length fun h => hsame (List.length_eq_zero_iff.mp h)
    have hnone' : m'.tree.find? (k ++ [s]) = none := by
      rw [hfurnished.others _ (fun h => absurd h.length_le (by simp))]
      exact hnone
    have hparent : m'.tree.checkParent (k ++ [s]) = .ok () := by
      rw [Tree.checkParent_ok_iff, parent_concat]
      exact hfurnished.directories k List.prefix_rfl
    have hmissing : (m.tree.missing (k ++ [s])).length = (m.tree.missing k).length + 1 := by
      rw [Tree.missing_concat_of_none hnone, List.length_append, List.length_singleton]
    refine ⟨_, hfurnished.insert hnone (w.withTree id m m'.tree (m.tree.missing k).length).now,
      fun h => ?_, ?_⟩
    · rw [h] at hmissing
      cases hmissing
    · have hnot := mt (isDirectory_ofKey_iff hopen hk).mp hd
      rw [makeDirectories_concat hk, if_neg hnot, Action.bind_of_ok hrun,
        ensureDirectory_ofKey hm' hk, hnone', hparent, hmissing]
      exact congrArg (Prod.mk _) (hset _)

/-- A file on the way is found before anything is made: all that is above it is there. -/
theorem makeDirectories_of_hasFile (hm : w.writableMount id = .ok m) (ht : m.tree.Tidy)
    (hk : Canonical k) {j : MemberKey} (hjk : j <+: k) (hj : m.tree.HasFile j) :
    (ofKey id k).makeDirectories w = (.error (.error (.alreadyExists j.pathname.display)), w) := by
  have hopen := World.openMount_of_writableMount hm
  induction k using List.reverseRecOn with
  | nil =>
    rw [List.prefix_nil.mp hjk] at hj
    exact absurd hj m.tree.hasDirectory_nil.not_hasFile
  | append_singleton k s ih =>
    have hk' : Canonical k := fun n hn => hk n (List.mem_append_left _ hn)
    have hnot : ¬ m.tree.HasDirectory (k ++ [s]) := by
      intro hd
      by_cases hsame : j = k ++ [s]
      · rw [hsame] at hj
        exact hd.not_hasFile hj
      · exact (ht.hasDirectory_of_prefix hd.isSome hjk hsame).not_hasFile hj
    rw [makeDirectories_concat hk, if_neg (mt (isDirectory_ofKey_iff hopen hk).mp hnot)]
    by_cases hsame : j = k ++ [s]
    · subst hsame
      obtain ⟨⟨content, times⟩, hx, hfile⟩ := hj
      have habove : m.tree.HasDirectory k :=
        ht.hasDirectory_of_prefix (by rw [hx]; rfl) (List.prefix_append k [s]) (by simp)
      rw [Action.bind_of_ok (makeDirectories_of_hasDirectory hopen hk' habove),
        ensureDirectory_ofKey hm hk, hx]
      cases content with
      | directory => cases hfile
      | file data => rfl
    · have hj' : j <+: k := (List.prefix_concat_iff.mp hjk).resolve_left hsame
      exact Action.bind_of_error (ih hk' hj') _

theorem makeDirectory_of_readOnly (hm : w.openMount id = .ok m) (hr : m.readOnly = true)
    (k : MemberKey) :
    (ofKey id k).provider.makeDirectory w (ofKey id k) = .error (.readOnly m.backing.display) := by
  have hmake : (ofKey id k).provider.makeDirectory w (ofKey id k) =
      w.tick.changeTree id k.pathname fun t => t.makeDirectory w.now (ofPathname k.pathname) := rfl
  have hrefused : w.tick.writableMount id = .error (.readOnly m.backing.display) :=
    World.writableMount_of_readOnly hm hr
  rw [hmake, World.changeTree, hrefused]
  rfl

/-- On a mount that is only read, nothing is made. -/
theorem makeDirectories_readOnly (hm : w.openMount id = .ok m) (hr : m.readOnly = true)
    (hk : Canonical k) :
    ∃ r, (ofKey id k).makeDirectories w = (r, w) ∧ (r = .ok () ↔ m.tree.HasDirectory k) := by
  induction k using List.reverseRecOn with
  | nil =>
    have hroot := m.tree.hasDirectory_nil
    exact ⟨_, makeDirectories_of_hasDirectory hm hk hroot, iff_of_true rfl hroot⟩
  | append_singleton k s ih =>
    by_cases hd : m.tree.HasDirectory (k ++ [s])
    · exact ⟨_, makeDirectories_of_hasDirectory hm hk hd, iff_of_true rfl hd⟩
    · rw [makeDirectories_concat hk, if_neg (mt (isDirectory_ofKey_iff hm hk).mp hd)]
      obtain ⟨r, hrun, -⟩ := ih fun n hn => hk n (List.mem_append_left _ hn)
      cases r with
      | error f => exact ⟨_, Action.bind_of_error hrun _, iff_of_false nofun hd⟩
      | ok u =>
        have hmake := makeDirectory_of_readOnly hm hr (k ++ [s])
        refine ⟨.error (.error (.readOnly m.backing.display)), ?_, iff_of_false nofun hd⟩
        rw [Action.bind_of_ok hrun, ensureDirectory_of_error hmake]
        rfl

/-- Making a directory with all that is missing above it. However far up it may go, it ends. Where no
file is on the way what is missing is made, the topmost first, and a second time nothing is left to
do; a file on the way is found before anything is made. On a mount that is only read nothing is made,
which is well if the directory is there. -/
theorem makeDirectories_ofKey (hm : w.openMount id = .ok m) (hk : Canonical k) :
    (∀ n, (ofKey id k).pathname.bytes.length < n →
      (ofKey id k).makeDirectoriesUpTo n = (ofKey id k).makeDirectories) ∧
    (m.readOnly = false → m.tree.Tidy →
      ((∀ j, j <+: k → ¬ m.tree.HasFile j) → ∃ t,
        let w' := w.withTree id m t (m.tree.missing k).length
        m.tree.Furnished k t ∧ (m.tree.missing k = [] → t = m.tree) ∧
          (ofKey id k).makeDirectories w = (.ok (), w') ∧
          (ofKey id k).makeDirectories w' = (.ok (), w')) ∧
      (∀ j : MemberKey, j <+: k → m.tree.HasFile j → (ofKey id k).makeDirectories w =
        (.error (.error (.alreadyExists j.pathname.display)), w))) ∧
    (m.readOnly = true → ∃ r, (ofKey id k).makeDirectories w = (r, w) ∧
      (r = .ok () ↔ (ofKey id k).isDirectory w = true)) := by
  refine ⟨fun n hn => makeDirectoriesUpTo_eq hn, fun hr ht => ⟨fun hfree => ?_, ?_⟩, fun hr => ?_⟩
  · obtain ⟨hmount, hopen⟩ := World.openMount_ok.mp hm
    have hwritable := World.writableMount_ok.mpr ⟨hmount, hopen, hr⟩
    obtain ⟨t, hfurnished, hsame, hrun⟩ := makeDirectories_furnishes hwritable ht hk hfree
    obtain ⟨m', hm', rfl, -⟩ := World.writableMount_withTree (t := t) hwritable
      (m.tree.missing k).length fun h => hsame (List.length_eq_zero_iff.mp h)
    exact ⟨m'.tree, hfurnished, hsame, hrun, makeDirectories_of_hasDirectory
      (World.openMount_of_writableMount hm') hk (hfurnished.directories k List.prefix_rfl)⟩
  · obtain ⟨hmount, hopen⟩ := World.openMount_ok.mp hm
    intro j hjk hj
    exact makeDirectories_of_hasFile (World.writableMount_ok.mpr ⟨hmount, hopen, hr⟩) ht hk hjk hj
  · rw [isDirectory_ofKey_iff hm hk]
    exact makeDirectories_readOnly hm hr hk

/-- A mount of an archive with a directory and a file in it. -/
def sparseMount (readOnly : Bool) : Mount where
  backing := .host (.ofString "/a.zip")
  registered := none
  readOnly := readOnly
  options := .unset
  isOpen := true
  tree := ⟨.all .epoch, [(["d"], .directory .epoch), (["f"], .file ByteArray.empty .epoch)]⟩
  dirty := false

/-- A world with two such mounts, the second of which is only read. -/
def sparseWorld : World :=
  { World.start (.empty .epoch) (fun _ => .epoch) "" with
    mounts := [sparseMount false, sparseMount true] }

theorem tidy_sparseMount : (sparseMount false).tree.Tidy := by
  intro k hk
  have horder : (sparseMount false).tree.order = [["d"], ["f"]] := rfl
  rw [horder, List.mem_cons, List.mem_singleton] at hk
  rcases hk with rfl | rfl
  · exact Tree.hasDirectory_nil _
  · exact Tree.hasDirectory_nil _

theorem makeDirectories_ofKey_sparse :
    sparseWorld.openMount ⟨0, 0⟩ = .ok (sparseMount false) ∧ (sparseMount false).tree.Tidy ∧
    sparseWorld.openMount ⟨1, 0⟩ = .ok (sparseMount true) ∧
    (∃ t, t.order = [["d"], ["f"], ["d", "e"], ["d", "e", "g"]] ∧
      (ofKey ⟨0, 0⟩ ["d", "e", "g"]).makeDirectories sparseWorld =
        (.ok (), sparseWorld.withTree ⟨0, 0⟩ (sparseMount false) t 2)) ∧
    (ofKey ⟨0, 0⟩ ["f", "e", "g"]).makeDirectories sparseWorld =
      (.error (.error (.alreadyExists (MemberKey.pathname ["f"]).display)), sparseWorld) ∧
    ∃ r, (ofKey ⟨1, 0⟩ ["d"]).makeDirectories sparseWorld = (r, sparseWorld) ∧ r = .ok () := by
  have hopen : sparseWorld.openMount ⟨0, 0⟩ = .ok (sparseMount false) := rfl
  have hread : sparseWorld.openMount ⟨1, 0⟩ = .ok (sparseMount true) := rfl
  refine ⟨hopen, tidy_sparseMount, hread, ?_, ?_, ?_⟩
  · have hfree : ∀ j, j <+: ["d", "e", "g"] → ¬ (sparseMount false).tree.HasFile j := by
      rintro j hj ⟨x, hx, hfile⟩
      by_cases hn : j = []
      · subst hn
        cases hx
        cases hfile
      have hmem : j ∈ [["d"], ["f"]] := Tree.mem_order_of_find hn hx
      rw [List.mem_cons, List.mem_singleton] at hmem
      rcases hmem with rfl | rfl
      · cases hx
        cases hfile
      · exact absurd hj (by decide)
    obtain ⟨t, hfurnished, -, hrun, -⟩ :=
      ((makeDirectories_ofKey hopen (by decide)).2.1 rfl tidy_sparseMount).1 hfree
    exact ⟨t, hfurnished.order, hrun⟩
  · exact ((makeDirectories_ofKey hopen (by decide)).2.1 rfl tidy_sparseMount).2 ["f"]
      (by decide) ⟨_, rfl, rfl⟩
  · obtain ⟨r, hrun, hdirectory⟩ := (makeDirectories_ofKey hread (k := ["d"]) (by decide)).2.2 rfl
    exact ⟨r, hrun, hdirectory.mpr rfl⟩

end Path

end ZipMount
