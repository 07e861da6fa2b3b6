import ZipMount.Proofs.MemberPath
import ZipMount.Proofs.Tree.Reachable

namespace ZipMount

namespace Tree

open MemberKey

/-- A member in a file. -/
def Stray (t : Tree) (k : MemberKey) : Prop :=
  k ∈ t.order ∧ ∃ m, t.find? (parent k) = some m ∧ m.isDirectory = false

/-- Every member is in a directory. -/
def Tidy (t : Tree) : Prop :=
  ∀ k ∈ t.order, ∃ m, t.find? (parent k) = some m ∧ m.isDirectory = true

variable {t t' : Tree} {k j : MemberKey}

theorem WellFormed.exists_parent (h : t.WellFormed) (hk : k ∈ t.order) :
    ∃ m, t.find? (parent k) = some m := by
  by_cases hp : parent k = []
  · rw [hp]
    exact ⟨_, find?_nil t⟩
  · exact exists_find_of_mem hp (h.closed k hk hp)

theorem WellFormed.tidy_iff (h : t.WellFormed) : t.Tidy ↔ ∀ k, ¬ t.Stray k := by
  constructor
  · rintro htidy k ⟨hk, m, hm, hfile⟩
    obtain ⟨m', hm', hdirectory⟩ := htidy k hk
    rw [hm] at hm'
    cases hm'
    rw [hfile] at hdirectory
    cases hdirectory
  · intro hnone k hk
    obtain ⟨m, hm⟩ := h.exists_parent hk
    refine ⟨m, hm, ?_⟩
    cases hd : m.isDirectory with
    | true => rfl
    | false => exact absurd ⟨hk, m, hm, hd⟩ (hnone k)

theorem Stray.of_insert_new {m : Member} (hk : (t.insert j m).Stray k) (h : t.WellFormed)
    (hj : t.find? j = none) (hp : t.checkParent j = .ok ()) : t.Stray k := by
  have hn : j ≠ [] := by
    rintro rfl
    cases hj
  obtain ⟨hmem, p, hparent, hfile⟩ := hk
  rw [find?_insert t hn] at hparent
  rcases mem_order_insert.mp hmem with hold | rfl
  · -- nothing is in what is not there
    have hne : parent k ≠ j := by
      rintro rfl
      exact notMem_order hj (h.closed k hold hn)
    rw [if_neg hne] at hparent
    exact ⟨hold, p, hparent, hfile⟩
  · rw [if_neg (parent_ne_self hn)] at hparent
    obtain ⟨p', hparent', hdirectory⟩ := checkParent_ok_iff.mp hp
    cases hparent.symm.trans hparent'
    rw [hfile] at hdirectory
    cases hdirectory

theorem Stray.of_insert {m old : Member} (hk : (t.insert j m).Stray k) (hn : j ≠ [])
    (hj : t.find? j = some old) (hsame : m.isDirectory = old.isDirectory) : t.Stray k := by
  obtain ⟨hmem, p, hparent, hfile⟩ := hk
  rw [order_insert_mem (mem_order_of_find hn hj)] at hmem
  rw [find?_insert t hn] at hparent
  by_cases hat : parent k = j
  · rw [if_pos hat] at hparent
    cases hparent
    exact ⟨hmem, old, hat ▸ hj, hsame ▸ hfile⟩
  · rw [if_neg hat] at hparent
    exact ⟨hmem, p, hparent, hfile⟩

/-- What is in a file after an operation was in it before. -/
theorem Stray.of_step (h : t.WellFormed) (hs : t.Step t') (hk : t'.Stray k) : t.Stray k := by
  cases hs with
  | makeDirectory hc hm =>
    obtain ⟨hnone, hp, rfl⟩ := makeDirectory_ok hm
    exact hk.of_insert_new h hnone hp
  | @writeFile now j data mode _ hc hm =>
    have hn : j ≠ [] := (writeFile_ok hm).elim fun _ hm => hm.2.2.1
    rw [writeFile_eq] at hm
    split at hm
    · cases hm
    · cases hm
    · next old times hfind =>
      cases hm
      exact hk.of_insert hn hfind rfl
    · next hfind =>
      obtain ⟨u, hp, hm⟩ := bind_eq_ok hm
      cases hm
      exact hk.of_insert_new h hfind hp
  | @remove j _ hc hm =>
    obtain ⟨hmem, p, hparent, hfile⟩ := hk
    rw [order_remove hm] at hmem
    obtain ⟨hn, rfl⟩ := remove_ok hm
    rw [find?_erase t hn] at hparent
    split at hparent
    · cases hparent
    · exact ⟨(List.mem_filter.mp hmem).1, p, hparent, hfile⟩
  | @retime j change _ hc hm =>
    obtain ⟨m, hfind, rfl⟩ := retime_ok hm
    by_cases hroot : j = []
    · rw [if_pos hroot] at hk
      obtain ⟨hmem, p, hparent, hfile⟩ := hk
      have hn : parent k ≠ [] := by
        intro hp
        rw [hp] at hparent
        cases hparent
        cases hfile
      rw [find?_of_ne_nil _ hn] at hparent
      exact ⟨hmem, p, (find?_of_ne_nil t hn).trans hparent, hfile⟩
    · rw [if_neg hroot] at hk
      exact hk.of_insert hroot hfind rfl

/-- The entries that could be read. -/
def entriesIn (found : List (Except ZipFault Zip.Entry)) : List Zip.Entry :=
  found.filterMap Except.toOption

/-- The last entry of a key. -/
def lastOf? (es : List Zip.Entry) (k : MemberKey) : Option Zip.Entry :=
  es.reverse.find? fun e => ofText e.name = k

/-- No entry is beneath a key whose last entry is of a file. -/
def FilesApart (es : List Zip.Entry) : Prop :=
  ∀ e ∈ es, ∀ p ∈ starts (parent (ofText e.name)), ∀ d ∈ lastOf? es p, d.isDirectory = true

instance (es : List Zip.Entry) : Decidable (FilesApart es) :=
  inferInstanceAs (Decidable (∀ e ∈ es, ∀ p ∈ starts (parent (ofText e.name)),
    ∀ d ∈ lastOf? es p, d.isDirectory = true))

/-- A tree holds the keys of some entries and what these are in; the last entry of a key says
whether the member is a directory, and without one it is. -/
structure Reads (es : List Zip.Entry) (t : Tree) : Prop where
  isSome_iff : ∀ k ≠ [], (t.find? k).isSome ↔ ∃ e ∈ es, k <+: ofText e.name
  isDirectory : ∀ k ≠ [], ∀ m, t.find? k = some m →
    m.isDirectory = (lastOf? es k).elim true Zip.Entry.isDirectory

variable {es : List Zip.Entry} {e : Zip.Entry}

theorem lastOf?_concat (es : List Zip.Entry) (e : Zip.Entry) (k : MemberKey) :
    lastOf? (es ++ [e]) k = if ofText e.name = k then some e else lastOf? es k := by
  rw [lastOf?, List.reverse_append, List.reverse_singleton, List.singleton_append,
    List.find?_cons]
  by_cases hk : ofText e.name = k
  · rw [if_pos hk, decide_eq_true hk]
  · rw [if_neg hk, decide_eq_false hk, lastOf?]

theorem find?_ensure (t : Tree) (time : Instant) {p : MemberKey} (hp : p ≠ []) (k : MemberKey) :
    (ensure time t p).find? k =
      (t.find? k).or (if k = p then some (.directory time) else none) := by
  unfold ensure
  by_cases hthere : (t.find? p).isSome
  · rw [if_pos hthere]
    split
    · next hk =>
      subst hk
      rw [Option.or_of_isSome hthere]
    · exact Option.or_none.symm
  · rw [if_neg hthere, find?_insert t hp]
    split
    · next hk =>
      subst hk
      rw [Option.not_isSome_iff_eq_none.mp hthere]
      rfl
    · exact Option.or_none.symm

/-- What is missing above a key is added as directories, and nothing else changes. -/
theorem find?_ensureParents (t : Tree) (j : MemberKey) (time : Instant) (k : MemberKey) :
    (t.ensureParents j time).find? k =
      (t.find? k).or (if k ∈ starts (parent j) then some (.directory time) else none) := by
  have hfold : ∀ (ps : List MemberKey) (s : Tree), (∀ p ∈ ps, p ≠ []) →
      (ps.foldl (ensure time) s).find? k =
        (s.find? k).or (if k ∈ ps then some (.directory time) else none) := by
    intro ps
    induction ps with
    | nil =>
      intro s _
      exact Option.or_none.symm
    | cons p ps ih =>
      intro s hps
      rw [List.foldl_cons, ih _ fun q hq => hps q (List.mem_cons_of_mem _ hq),
        find?_ensure s time (hps p List.mem_cons_self), Option.or_assoc]
      by_cases hk : k = p
      · simp [hk]
      · simp [hk]
  exact hfold _ t fun p hp => (mem_starts hp).1

theorem isDirectory_entryMember {m : Member} (h : entryMember e = .ok m) :
    m.isDirectory = e.isDirectory := by
  unfold entryMember at h
  split at h
  · next hd =>
    cases h
    exact hd.symm
  · next hd =>
    obtain ⟨data, -, h⟩ := bind_eq_ok h
    cases h
    exact (Bool.eq_false_iff.mpr hd).symm

theorem mem_of_lastOf? {d : Zip.Entry} (h : lastOf? es k = some d) :
    d ∈ es ∧ ofText d.name = k := by
  unfold lastOf? at h
  have hkey := List.find?_some h
  exact ⟨List.mem_reverse.mp (List.mem_of_find?_eq_some h), by simpa using hkey⟩

theorem Reads.lastOf?_eq_none (h : Reads es t) (hn : k ≠ []) (hk : t.find? k = none) :
    lastOf? es k = none := by
  cases hlast : lastOf? es k with
  | none => rfl
  | some d =>
    obtain ⟨hd, hkey⟩ := mem_of_lastOf? hlast
    have hsome := (h.isSome_iff k hn).mpr ⟨d, hd, hkey ▸ List.prefix_rfl⟩
    rw [hk] at hsome
    cases hsome

theorem mem_starts_parent_iff (hn : k ≠ []) (hne : k ≠ j) : k ∈ starts (parent j) ↔ k <+: j := by
  constructor
  · exact fun h => (mem_starts h).2.trans (parent_isPrefix j)
  · exact fun h => starts_of_prefix hn (prefix_parent h hne)

theorem Reads.concat_root (h : Reads es t) (he : ofText e.name = []) : Reads (es ++ [e]) t := by
  refine ⟨fun k hn => ?_, fun k hn m hm => ?_⟩
  · rw [h.isSome_iff k hn]
    constructor
    · rintro ⟨d, hd, hpre⟩
      exact ⟨d, List.mem_append_left _ hd, hpre⟩
    · rintro ⟨d, hd, hpre⟩
      rcases List.mem_append.mp hd with hd | hd
      · exact ⟨d, hd, hpre⟩
      · rw [List.mem_singleton.mp hd, he] at hpre
        exact absurd (List.prefix_nil.mp hpre) hn
  · rw [lastOf?_concat, he, if_neg (Ne.symm hn)]
    exact h.isDirectory k hn m hm

/-- Any other comes in the place of what was there, and what is missing above it is added. -/
theorem Reads.concat (h : Reads es t) (hj : ofText e.name = j) (hn : j ≠ []) {m : Member}
    (hm : m.isDirectory = e.isDirectory) (time : Instant) :
    Reads (es ++ [e]) ((t.ensureParents j time).insert j m) := by
  have hfind : ∀ k, ((t.ensureParents j time).insert j m).find? k =
      if k = j then some m
      else (t.find? k).or (if k ∈ starts (parent j) then some (.directory time) else none) := by
    intro k
    rw [find?_insert _ hn, find?_ensureParents]
  refine ⟨fun k hk => ?_, fun k hk x hx => ?_⟩
  · have hentries : (∃ d ∈ es ++ [e], k <+: ofText d.name) ↔
        (∃ d ∈ es, k <+: ofText d.name) ∨ k <+: j := by
      simp only [List.mem_append, List.mem_singleton, or_and_right, exists_or, exists_eq_left, hj]
    rw [hfind, hentries, ← h.isSome_iff k hk]
    split
    · next hkj => simp [hkj]
    · next hne =>
      rw [← mem_starts_parent_iff hk hne, Option.isSome_or, Bool.or_eq_true]
      split <;> simp [*]
  · rw [lastOf?_concat, hj]
    rw [hfind] at hx
    split at hx
    · next hkj =>
      cases hx
      rw [if_pos hkj.symm]
      exact hm
    · next hne =>
      rw [if_neg (Ne.symm hne)]
      cases hold : t.find? k with
      | some _ =>
        rw [hold] at hx
        cases hx
        exact h.isDirectory k hk x hold
      | none =>
        rw [h.lastOf?_eq_none hk hold]
        rw [hold, Option.none_or] at hx
        split at hx
        · cases hx
          rfl
        · cases hx

theorem Reads.addEntry (h : Reads es t) (ha : t.addEntry (.ok e) = .ok t') :
    Reads (es ++ [e]) t' := by
  rw [addEntry_eq] at ha
  split at ha
  · next he =>
    cases ha
    exact h.concat_root he
  · next hn =>
    split at ha
    · cases ha
    · next m hm =>
      cases ha
      exact h.concat rfl hn (isDirectory_entryMember hm) m.times.modified

theorem reads_empty (now : Instant) : Reads [] (empty now) := by
  refine ⟨fun k hn => ?_, fun k hn m hm => ?_⟩
  · rw [find?_empty now hn]
    simp
  · rw [find?_empty now hn] at hm
    cases hm

/-- The tree of an archive is what its entries come to, one after the other. -/
theorem reads_ofEntries {now : Instant} {found : List (Except ZipFault Zip.Entry)}
    (h : ofEntries now found = .ok t) : Reads (entriesIn found) t := by
  suffices hfold : ∀ (rest : List (Except ZipFault Zip.Entry)) (es : List Zip.Entry) (s : Tree),
      Reads es s → rest.foldlM Tree.addEntry s = .ok t → Reads (es ++ entriesIn rest) t from
    hfold found [] (empty now) (reads_empty now) h
  intro rest
  induction rest with
  | nil =>
    intro es s hs hrest
    cases hrest
    rw [entriesIn, List.filterMap_nil, List.append_nil]
    exact hs
  | cons entry rest ih =>
    intro es s hs hrest
    rw [List.foldlM_cons] at hrest
    cases entry with
    | error f => cases hrest
    | ok e =>
      obtain ⟨s', ha, hrest⟩ := bind_eq_ok hrest
      have hread := ih (es ++ [e]) s' (hs.addEntry ha) hrest
      rw [List.append_assoc] at hread
      exact hread

theorem exists_child {p l : MemberKey} (h : p <+: l) (hne : p ≠ l) : ∃ s, p ++ [s] <+: l := by
  obtain ⟨rest, rfl⟩ := h
  cases rest with
  | nil => exact absurd (List.append_nil p).symm hne
  | cons s rest => exact ⟨s, rest, by simp⟩

theorem Reads.filesApart (h : Reads es t) (htidy : t.Tidy) : FilesApart es := by
  intro e he p hp d hd
  obtain ⟨hn, hpre⟩ := mem_starts hp
  have hne : p ≠ ofText e.name := by
    rintro rfl
    have hlt := parent_length_lt hn
    have hle := hpre.length_le
    omega
  -- something in the key is a member because of the entry
  obtain ⟨s, hchild⟩ := exists_child (hpre.trans (parent_isPrefix _)) hne
  have hs : p ++ [s] ≠ [] := by simp
  have hmem : p ++ [s] ∈ t.order :=
    (mem_order_iff hs).mpr ((h.isSome_iff _ hs).mpr ⟨e, he, hchild⟩)
  obtain ⟨m, hm, hdirectory⟩ := htidy _ hmem
  rw [parent_concat] at hm
  have hlast := h.isDirectory p hn m hm
  rw [Option.mem_def.mp hd, hdirectory] at hlast
  exact hlast.symm

theorem Reads.not_stray (h : Reads es t) (hapart : FilesApart es) (hk : k ≠ []) : ¬ t.Stray k := by
  rintro ⟨hmem, m, hm, hfile⟩
  have hn : parent k ≠ [] := by
    intro hp
    rw [hp] at hm
    cases hm
    cases hfile
  -- the member is there because of an entry, which is beneath its parent
  obtain ⟨e, he, hpre⟩ := (h.isSome_iff k hk).mp ((mem_order_iff hk).mp hmem)
  have hne : parent k ≠ ofText e.name := by
    intro hp
    have hlt := parent_length_lt hk
    have hle := hpre.length_le
    rw [← hp] at hle
    omega
  have hstart := (mem_starts_parent_iff hn hne).mpr ((parent_isPrefix k).trans hpre)
  have hkind := h.isDirectory (parent k) hn m hm
  rw [hfile] at hkind
  cases hlast : lastOf? es (parent k) with
  | none =>
    rw [hlast] at hkind
    cases hkind
  | some d =>
    have hdirectory := hapart e he (parent k) hstart d hlast
    rw [hlast, Option.elim_some, hdirectory] at hkind
    cases hkind

theorem Reads.tidy_iff (h : Reads es t) (hw : t.WellFormed) : t.Tidy ↔ FilesApart es := by
  refine ⟨h.filesApart, fun hapart => hw.tidy_iff.mpr fun k hk => ?_⟩
  exact h.not_stray hapart (hw.ne_nil k hk.1) hk

/-- Every member of a mount is in a directory. As long as the mount is open, listing the directory
that the member's path lies in, however that is written, goes well and gives the member. -/
structure Housed (w : World) (id : MountId) (m : Mount) : Prop where
  tidy : m.tree.Tidy
  listed : m.isOpen = true → ∀ k ∈ m.tree.order, ∃ ps, Path.ofKey id k ∈ ps ∧
    (∃ p, (Path.ofKey id k).parent? = some p ∧ p.provider.list w p = .ok ps) ∧
    ∀ q, ofPathname q = parent k → (Provider.archive id.registry).list w (.member id q) = .ok ps

variable {w : World} {id : MountId} {m : Mount}

theorem list_directory (hm : w.mount? id = some m) (ho : m.isOpen = true) {q : Pathname} {x : Member}
    (hx : m.tree.find? (ofPathname q) = some x) (hd : x.isDirectory = true) :
    (Provider.archive id.registry).list w (.member id q) =
      .ok ((m.tree.below (ofPathname q)).map (Path.ofKey id)) := by
  have hopen : w.openMount id = .ok m := World.openMount_ok.mpr ⟨hm, ho⟩
  have hlist : m.tree.list (ofPathname q) = .ok (m.tree.below (ofPathname q)) := by
    rw [list_eq, hx]
    exact if_pos hd
  change (w.openMount id >>= fun m => (Mount.answer q (m.tree.list (ofPathname q))) >>=
    fun ks => pure (ks.map (Path.ofKey id))) = _
  rw [hopen]
  change ((Mount.answer q (m.tree.list (ofPathname q))) >>= fun ks =>
    pure (ks.map (Path.ofKey id))) = _
  rw [hlist]
  rfl

theorem Tidy.housed (ht : m.tree.Tidy) (hw : m.tree.WellFormed) (hm : w.mount? id = some m) :
    Housed w id m := by
  refine ⟨ht, fun ho k hk => ?_⟩
  have hn := hw.ne_nil k hk
  have hc := hw.canonical k hk
  have hcp : Canonical (parent k) := canonical_parent hc
  obtain ⟨x, hx, hd⟩ := ht k hk
  have hlist : ∀ q, ofPathname q = parent k →
      (Provider.archive id.registry).list w (.member id q) =
        .ok ((m.tree.below (parent k)).map (Path.ofKey id)) := by
    intro q hq
    rw [← hq] at hx ⊢
    exact list_directory hm ho hx hd
  refine ⟨_, List.mem_map_of_mem (mem_below.mpr ⟨hk, hn, rfl⟩), ?_, hlist⟩
  exact ⟨_, Path.parent?_ofKey hc hn id, hlist _ (ofPathname_pathname hcp)⟩

/-- An archive's members are all in directories, whatever the mount is asked to do, just if no entry
is beneath a key whose last entry is of a file. An empty archive has no entries. -/
theorem housed_after_calls_iff {now : Instant} {found : List (Except ZipFault Zip.Entry)}
    (hm : w.mount? id = some m) (hd : ofEntries now found = .ok m.tree) :
    (∀ cs, ∃ m', (w.after cs).mount? id = some m' ∧ Housed (w.after cs) id m') ↔
      FilesApart (entriesIn found) := by
  have hw := wellFormed_ofEntries hd
  rw [← (reads_ofEntries hd).tidy_iff hw]
  constructor
  · intro hall
    obtain ⟨m', hm', hhoused⟩ := hall []
    have hsame : some m = some m' := hm.symm.trans hm'
    cases hsame
    exact hhoused.tidy
  · intro htidy cs
    -- along the calls the shape is kept, and nothing gets into a file
    have hstep : ∀ t t' : Tree, t.WellFormed ∧ t.Tidy → t.Step t' → t'.WellFormed ∧ t'.Tidy := by
      rintro t t' ⟨hwell, htidy⟩ hs
      have hwell' := hwell.step hs
      refine ⟨hwell', hwell'.tidy_iff.mpr fun k hk => ?_⟩
      exact hwell.tidy_iff.mp htidy k (hk.of_step hwell hs)
    obtain ⟨m', hm', hwell', htidy'⟩ := World.mount?_after hstep hm ⟨hw, htidy⟩ cs
    exact ⟨m', hm', htidy'.housed hwell' hm'⟩

def namedEntries (names : List String) : List (Except ZipFault Zip.Entry) :=
  names.map fun name => .ok ⟨name, .first, none, .ok ByteArray.empty⟩

-- a file, and something in it
example : ¬ FilesApart (entriesIn (namedEntries ["a", "a/b"])) := by decide

/-- A file, something in it, and later a directory in the file's place; and a directory whose place
a file takes while nothing is in it. -/
def replacedEntries : List (Except ZipFault Zip.Entry) :=
  namedEntries ["a", "a/b", "a/", "c/", "c", "d/e/../f/g"]

def replacedMount : Mount :=
  { tangledMount with tree := (ofEntries .epoch replacedEntries).toOption.getD (empty .epoch) }

def replacedWorld : World := { tangledWorld with mounts := [replacedMount] }

theorem housed_after_calls_replacedEntries :
    replacedWorld.mount? ⟨0, 0⟩ = some replacedMount ∧
      ofEntries .epoch replacedEntries = .ok replacedMount.tree ∧
      ∀ cs, ∃ m', (replacedWorld.after cs).mount? ⟨0, 0⟩ = some m' ∧
        Housed (replacedWorld.after cs) ⟨0, 0⟩ m' :=
  have hd : ofEntries .epoch replacedEntries = .ok replacedMount.tree := rfl
  ⟨rfl, hd, (housed_after_calls_iff rfl hd).mpr (by decide)⟩

end Tree

end ZipMount
