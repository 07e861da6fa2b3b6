import Mathlib.Data.Set.Card
import ZipMount.Proofs.Cache.Closing
import ZipMount.Proofs.Cache.Requests

namespace ZipMount

namespace Cache

def kept (c : Cache) : List FileSystem := c.mounts.map Prod.snd

/-- Closes the mounts in some order, and forgets them. -/
def closeIn (order : List FileSystem) (c : Cache) (w : World) :
    Except Failure Unit × Cache × World :=
  ((closeAll order w).1, { c with mounts := [] }, (closeAll order w).2)

/-- A turn of a run: an event, or the cache closed, its mounts in some order. -/
inductive Turn where
  | event (e : Event)
  | closing (order : List FileSystem)

/-- The cache and the world after a turn, whether or not it went well. -/
def Turn.run : Turn → Cache × World → Cache × World
  | .event e, s => e.run s
  | .closing order, (c, w) => (c.closeIn order w).2

def through (s : Cache × World) (ts : List Turn) : Cache × World := ts.foldl (fun s t => t.run s) s

namespace Turn

/-- The cache is closed. -/
def Closes : Turn → Prop
  | .event .close => True
  | .event _ => False
  | .closing _ => True

/-- The mounts that are kept are not closed but by the cache, and then each once. -/
def Respects (s : Cache × World) : Turn → Prop
  | .event (.elsewhere e) =>
    ∀ fs ∈ s.1.kept, ∀ id, fs.innermost = .archive id → ¬ e.Shuts id.number
  | .event _ => True
  | .closing order => order.Perm s.1.kept

/-- A request of a key is granted with a mount. -/
def Grants (key : String) (fs : FileSystem) (t : Turn) (s : Cache × World) : Prop :=
  ∃ provider backing env, t = .event (.request provider backing env) ∧ keyOf backing = key ∧
    (s.1.getOrCreate provider backing env s.2).1 = .ok fs

/-- A key is requested under which no mount is kept. -/
def Misses (key : String) (t : Turn) (s : Cache × World) : Prop :=
  ∃ provider backing env, t = .event (.request provider backing env) ∧ keyOf backing = key ∧
    s.1.mounts.get? key = none

end Turn

/-- All turns of a run leave to the cache the mounts that are kept. -/
def Respected : Cache × World → List Turn → Prop
  | _, [] => True
  | s, t :: ts => t.Respects s ∧ Respected (t.run s) ts

/-- Some turn of a run is of a kind. -/
def Ever (P : Turn → Cache × World → Prop) : Cache × World → List Turn → Prop
  | _, [] => False
  | s, t :: ts => P t s ∨ Ever P (t.run s) ts

/-- Some turn of a run is of a kind, and the cache is not closed after it. -/
def Lately (P : Turn → Cache × World → Prop) : Cache × World → List Turn → Prop
  | _, [] => False
  | s, t :: ts => P t s ∧ (∀ u ∈ ts, ¬ u.Closes) ∨ Lately P (t.run s) ts

/-- Members were modified on days of the calendar, and the clock says such days. -/
def Dated (c : Cache) (w : World) : Prop :=
  ∀ fs ∈ c.kept, ∀ id, fs.innermost = .archive id → w.Dated id.number

/-- What it comes to to close a cache. -/
structure Closes (c : Cache) (w : World) (order : List FileSystem) : Prop where
  /-- Every mount that was kept is closed then, -/
  closed : ∀ fs ∈ c.kept, fs.isOpen (c.closeIn order w).2.2 = false
  /-- and nothing is kept any more. -/
  emptied : (c.closeIn order w).2.1 = { c with mounts := [] }
  /-- It goes well if each of them is closed well, -/
  ok_iff : (c.closeIn order w).1 = .ok () ↔ ∀ r ∈ closings order w, r = .ok ()
  /-- and otherwise it fails as one of them did. -/
  error : ∀ f, (c.closeIn order w).1 = .error f → .error f ∈ closings order w
  /-- What can be mounted then is granted to whoever asks for it, as a mount of its own. -/
  again : ∀ provider backing env fs v,
    provider.newFileSystem backing env (c.closeIn order w).2.2 = (.ok fs, v) →
    ∃ number s, (c.closeIn order w).2.1.getOrCreate provider backing env (c.closeIn order w).2.2 =
        (.ok (.shared number fs), s) ∧
      s.1.mounts = [(keyOf backing, .shared number fs)] ∧
      (FileSystem.shared number fs).isOpen s.2 = true ∧
      ∀ old ∈ c.kept, old.same fs = false

/-- What a cache is to those who use it in a run. -/
structure Served (s : Cache × World) (ts : List Turn) : Prop where
  /-- A mount that was handed out may be closed any number of times, which does nothing. -/
  idle : ∀ key fs, Ever (Turn.Grants key fs) s ts → ∀ n w,
    (List.replicate n fs).forM FileSystem.close w = (.ok (), w)
  /-- One that was handed out since the cache was closed last is open, -/
  isOpen : ∀ key fs, Lately (Turn.Grants key fs) s ts → fs.isOpen (through s ts).2 = true
  /-- and whoever asks for its key gets it, whatever else is asked for. -/
  shared : ∀ key fs, Lately (Turn.Grants key fs) s ts → ∀ provider backing env,
    keyOf backing = key →
    (through s ts).1.getOrCreate provider backing env (through s ts).2 = (.ok fs, through s ts)
  /-- As many mounts are kept as keys were granted since then, -/
  size : (through s ts).1.size = {key | ∃ fs, Lately (Turn.Grants key fs) s ts}.ncard
  /-- and there are as many locks as keys were ever missed. -/
  locks : (through s ts).1.locks.length = {key | Ever (Turn.Misses key) s ts}.ncard
  /-- Locks are never taken away. -/
  remain : ∀ more, (through s ts).1.locks <+: (through s (ts ++ more)).1.locks
  /-- The cache may be closed, in whatever order its mounts are. -/
  closes : ∀ order, order.Perm (through s ts).1.kept → (through s ts).1.Dated (through s ts).2 →
    (through s ts).1.Closes (through s ts).2 order

variable {c : Cache} {w v : World} {s : Cache × World} {t : Turn} {ts : List Turn} {key : String}
  {fs : FileSystem} {provider : Provider} {backing : Path} {env : Env}

theorem mem_kept (h : c.mounts.get? key = some fs) : fs ∈ c.kept :=
  List.mem_map_of_mem (Table.mem_of_get? h)

theorem exists_of_mem_kept (hkeys : c.mounts.keys.Nodup) (hfs : fs ∈ c.kept) :
    ∃ key, c.mounts.get? key = some fs := by
  obtain ⟨kv, hkv, rfl⟩ := List.mem_map.mp hfs
  exact ⟨kv.1, Table.get?_of_mem hkeys hkv⟩

/-- What is kept after a turn: what was, unless the cache was closed, and what was granted. -/
theorem get?_run_iff : (t.run s).1.mounts.get? key = some fs ↔
    s.1.mounts.get? key = some fs ∧ ¬ t.Closes ∨ t.Grants key fs s := by
  have hclosed : (∀ e, t ≠ .event e) → ¬ t.Grants key fs s := by
    rintro hne ⟨provider, backing, env, rfl, -⟩
    exact hne _ rfl
  obtain ⟨c, w⟩ := s
  constructor
  · intro h
    cases t with
    | closing order => cases h
    | event e =>
      cases e with
      | close => cases h
      | number => exact Or.inl ⟨h, id⟩
      | elsewhere e => exact Or.inl ⟨h, id⟩
      | request provider backing env =>
        change (c.getOrCreate provider backing env w).2.1.mounts.get? key = some fs at h
        rcases c.getOrCreate_cases provider backing env w with
          ⟨_, -, heq⟩ | ⟨fs', _, _, -, -, hput, heq⟩ | ⟨_, _, -, hsame, heq⟩
        · rw [heq] at h
          exact Or.inl ⟨h, id⟩
        · rw [heq, hput, Table.get?_put] at h
          split at h
          · next hkey =>
            cases h
            refine Or.inr ⟨provider, backing, env, rfl, (keyOf_eq backing).trans hkey.symm, ?_⟩
            rw [heq]
          · exact Or.inl ⟨h, id⟩
        · rw [heq, hsame] at h
          exact Or.inl ⟨h, id⟩
  · rintro (⟨h, hopen⟩ | ⟨provider, backing, env, rfl, rfl, hgranted⟩)
    · cases t with
      | closing order => exact absurd trivial hopen
      | event e =>
        refine get?_run h ?_
        rintro rfl
        exact hopen trivial
    · rw [keyOf_eq]
      exact get?_of_getOrCreate (s := (c.getOrCreate provider backing env w).2)
        (Prod.ext hgranted rfl)

theorem get?_through_iff : (through s ts).1.mounts.get? key = some fs ↔
    s.1.mounts.get? key = some fs ∧ (∀ u ∈ ts, ¬ u.Closes) ∨ Lately (Turn.Grants key fs) s ts := by
  induction ts generalizing s with
  | nil => simp [through, Lately]
  | cons t ts ih =>
    change (through (t.run s) ts).1.mounts.get? key = some fs ↔ _
    rw [ih, get?_run_iff, List.forall_mem_cons, Lately]
    tauto

theorem get?_through_empty_iff : (through (Cache.empty, w) ts).1.mounts.get? key = some fs ↔
    Lately (Turn.Grants key fs) (Cache.empty, w) ts := by
  rw [get?_through_iff, or_iff_right]
  rintro ⟨h, -⟩
  cases h

/-- The locks after a turn: those there were, and one for the key that was missed. -/
theorem locks_run_cases (t : Turn) (s : Cache × World) :
    (∃ key, (∀ k, t.Misses k s ↔ k = key) ∧ (t.run s).1.locks = (s.1.withLock key).locks) ∨
      (∀ k, ¬ t.Misses k s) ∧ (t.run s).1.locks = s.1.locks := by
  have hother : (∀ provider backing env, t ≠ .event (.request provider backing env)) →
      ∀ k, ¬ t.Misses k s := by
    rintro hne k ⟨provider, backing, env, rfl, -⟩
    exact hne _ _ _ rfl
  obtain ⟨c, w⟩ := s
  cases t with
  | closing order => exact Or.inr ⟨hother nofun, rfl⟩
  | event e =>
    cases e with
    | close => exact Or.inr ⟨hother nofun, rfl⟩
    | number => exact Or.inr ⟨hother nofun, rfl⟩
    | elsewhere e => exact Or.inr ⟨hother nofun, rfl⟩
    | request provider backing env =>
      have hmisses : ∀ k, (Turn.event (.request provider backing env)).Misses k (c, w) ↔
          k = keyOf backing ∧ c.mounts.get? (keyOf backing) = none := by
        intro k
        constructor
        · rintro ⟨provider, backing, env, heq, rfl, hnone⟩
          cases heq
          exact ⟨rfl, hnone⟩
        · rintro ⟨rfl, hnone⟩
          exact ⟨provider, backing, env, rfl, rfl, hnone⟩
      change (∃ key, _ ∧ (c.getOrCreate provider backing env w).2.1.locks = _) ∨
        _ ∧ (c.getOrCreate provider backing env w).2.1.locks = _
      unfold getOrCreate
      cases hget : c.mounts.get? (keyOf backing) with
      | some fs =>
        refine Or.inr ⟨fun k hk => ?_, by simp only [hget]⟩
        have hnone := ((hmisses k).mp hk).2
        rw [hget] at hnone
        cases hnone
      | none =>
        refine Or.inl ⟨keyOf backing, fun k => (hmisses k).trans (and_iff_left hget), ?_⟩
        simp only [hget]
        cases openShared provider backing env w with
        | mk r v => cases r <;> rfl

theorem mem_locks_withLock {k : String} : k ∈ (c.withLock key).locks ↔ k ∈ c.locks ∨ k = key := by
  unfold withLock
  split
  · next hmem =>
    refine (or_iff_left_of_imp ?_).symm
    rintro rfl
    exact hmem
  · simp

theorem mem_locks_run {k : String} :
    k ∈ (t.run s).1.locks ↔ k ∈ s.1.locks ∨ t.Misses k s := by
  rcases locks_run_cases t s with ⟨key, hmisses, hlocks⟩ | ⟨hmisses, hlocks⟩
  · rw [hlocks, mem_locks_withLock, hmisses]
  · rw [hlocks, or_iff_left (hmisses k)]

theorem nodup_locks_run (h : s.1.locks.Nodup) (t : Turn) : (t.run s).1.locks.Nodup := by
  rcases locks_run_cases t s with ⟨key, -, hlocks⟩ | ⟨-, hlocks⟩
  · rw [hlocks]
    unfold withLock
    split
    · exact h
    · next hnot => exact List.concat_eq_append ▸ List.Nodup.concat hnot h
  · rw [hlocks]
    exact h

theorem locks_prefix_run (t : Turn) (s : Cache × World) : s.1.locks <+: (t.run s).1.locks := by
  rcases locks_run_cases t s with ⟨key, -, hlocks⟩ | ⟨-, hlocks⟩
  · rw [hlocks]
    unfold withLock
    split
    · exact List.prefix_refl _
    · exact List.prefix_append _ _
  · rw [hlocks]

theorem mem_locks_through {k : String} :
    k ∈ (through s ts).1.locks ↔ k ∈ s.1.locks ∨ Ever (Turn.Misses k) s ts := by
  induction ts generalizing s with
  | nil => exact (or_false _).to_iff.symm
  | cons t ts ih =>
    change k ∈ (through (t.run s) ts).1.locks ↔ _
    rw [ih, mem_locks_run, or_assoc]
    rfl

theorem nodup_locks_through (h : s.1.locks.Nodup) (ts : List Turn) :
    (through s ts).1.locks.Nodup := by
  induction ts generalizing s with
  | nil => exact h
  | cons t ts ih => exact ih (nodup_locks_run h t)

theorem locks_prefix_through (ts : List Turn) (s : Cache × World) :
    s.1.locks <+: (through s ts).1.locks := by
  induction ts generalizing s with
  | nil => exact List.prefix_refl _
  | cons t ts ih => exact (locks_prefix_run t s).trans (ih (t.run s))

/-- What a run from a cache that was never asked for anything comes to. -/
structure Tidy (s : Cache × World) : Prop extends Sound s.1 s.2 where
  keys : s.1.mounts.keys.Nodup
  isOpen : ∀ fs ∈ s.1.kept, fs.isOpen s.2 = true

theorem openShared_of_ok (h : provider.newFileSystem backing env w = (.ok fs, v)) :
    openShared provider backing env w =
      (.ok (.shared (v.proxies + 1) fs), { v with proxies := v.proxies + 1 }) := by
  unfold openShared
  rw [Action.bind_of_ok h]
  rfl

/-- What is made to be kept is one more mount, which is open. -/
theorem openShared_adds (h : openShared provider backing env w = (.ok fs, v)) :
    fs.isOpen v = true ∧ ∃ m, v.mounts = w.mounts ++ [m] := by
  unfold openShared at h
  obtain ⟨d, u, hnew, h⟩ := Action.bind_ok h
  cases h
  obtain ⟨registry, q, id, rfl, hmount⟩ := World.newFileSystem_ok hnew
  obtain ⟨m, hadded, hstanding, -, hnumber⟩ := World.mounts_mount hmount
  have hm : u.mounts[id.number]? = some m := by
    rw [hadded, hnumber, List.getElem?_concat_length]
  have hstands : u.Stands id.number := ⟨m, hm, congrArg (fun s => s.2.2) hstanding⟩
  exact ⟨(World.isOpen_iff_stands rfl).mpr hstands, m, hadded⟩

/-- A cache that keeps nothing grants what can be mounted. -/
theorem getOrCreate_of_nil (hc : c.mounts = [])
    (h : openShared provider backing env w = (.ok fs, v)) :
    ∃ c', c.getOrCreate provider backing env w = (.ok fs, c', v) ∧
      c'.mounts = [(keyOf backing, fs)] := by
  rw [getOrCreate_eq, hc, Table.get?_nil, h]
  refine ⟨_, rfl, ?_⟩
  change (c.withLock backing.display).mounts.put backing.display fs = _
  rw [mounts_withLock, hc, keyOf_eq]
  rfl

namespace Tidy

theorem exists_mount (h : Tidy s) (hfs : fs ∈ s.1.kept) :
    ∃ number id, fs = .shared number (.archive id) ∧ id.number < s.2.mounts.length := by
  obtain ⟨key, hget⟩ := exists_of_mem_kept h.keys hfs
  exact h.mounted key fs hget

/-- The mounts that are kept are open after what leaves each of them open. -/
theorem isOpen_of_stands (h : Tidy s) (hv : ∀ id : MountId, FileSystem.archive id ∈
    s.1.kept.map FileSystem.innermost → s.2.Stands id.number → v.Stands id.number)
    (hfs : fs ∈ s.1.kept) : fs.isOpen v = true := by
  have hopen := h.isOpen fs hfs
  obtain ⟨number, id, rfl, -⟩ := h.exists_mount hfs
  have hid : (FileSystem.shared number (.archive id)).innermost = .archive id := rfl
  rw [World.isOpen_iff_stands hid] at hopen ⊢
  exact hv id (List.mem_map.mpr ⟨_, hfs, rfl⟩) hopen

theorem run (h : Tidy s) (ht : t.Respects s) : Tidy (t.run s) := by
  obtain ⟨c, w⟩ := s
  cases t with
  | closing order => exact ⟨Sound.of_nil rfl _, List.nodup_nil, nofun⟩
  | event e =>
    refine ⟨h.toSound.run e, ?_, ?_⟩
    · cases e with
      | close => exact List.nodup_nil
      | number => exact h.keys
      | elsewhere e => exact h.keys
      | request provider backing env =>
        change (c.getOrCreate provider backing env w).2.1.mounts.keys.Nodup
        rcases c.getOrCreate_cases provider backing env w with
          ⟨_, -, heq⟩ | ⟨_, _, _, -, -, hput, heq⟩ | ⟨_, _, -, hsame, heq⟩
        · rw [heq]
          exact h.keys
        · rw [heq, hput]
          exact Table.nodup_keys_put h.keys _ _
        · rw [heq, hsame]
          exact h.keys
    · cases e with
      | close => exact nofun
      | number => exact fun _ hfs => h.isOpen_of_stands (fun id _ hstands => hstands) hfs
      | elsewhere e =>
        refine fun fs hfs => h.isOpen_of_stands (fun id hid hstands => ?_) hfs
        obtain ⟨fs', hfs', hinner⟩ := List.mem_map.mp hid
        exact hstands.run (ht fs' hfs' id hinner)
      | request provider backing env =>
        change ∀ fs ∈ (c.getOrCreate provider backing env w).2.1.mounts.map Prod.snd,
          fs.isOpen (c.getOrCreate provider backing env w).2.2 = true
        rcases c.getOrCreate_cases provider backing env w with
          ⟨_, -, heq⟩ | ⟨fs', v, _, -, hopen, hput, heq⟩ | ⟨_, _, -, hsame, heq⟩
        · rw [heq]
          exact h.isOpen
        · obtain ⟨hnew, m, hadded⟩ := openShared_adds hopen
          rw [heq, hput]
          intro fs hfs
          obtain ⟨kv, hkv, rfl⟩ := List.mem_map.mp hfs
          rcases Table.mem_put hkv with rfl | hkv
          · exact hnew
          · exact h.isOpen_of_stands (fun id _ hstands => hstands.append hadded)
              (List.mem_map_of_mem hkv)
        · rw [heq, hsame]
          exact h.isOpen

theorem through (h : Tidy s) (hts : Respected s ts) : Tidy (through s ts) := by
  induction ts generalizing s with
  | nil => exact h
  | cons t ts ih => exact ih (h.run hts.1) hts.2

theorem closable (h : Tidy s) {order : List FileSystem} (horder : order.Perm s.1.kept)
    (hdated : s.1.Dated s.2) : Closable order s.2 where
  mounted _ hfs := h.exists_mount (horder.mem_iff.mp hfs)
  dated fs hfs := hdated fs (horder.mem_iff.mp hfs)

theorem closes (h : Tidy s) {order : List FileSystem} (horder : order.Perm s.1.kept)
    (hdated : s.1.Dated s.2) : s.1.Closes s.2 order where
  closed _ hfs := isOpen_closeAll (h.closable horder hdated) (horder.mem_iff.mpr hfs)
  emptied := rfl
  ok_iff := closeAll_ok_iff (h.closable horder hdated)
  error f hf := mem_closings (h.closable horder hdated) hf
  again provider backing env fs v hnew := by
    have hshared := openShared_of_ok hnew
    obtain ⟨c', hgranted, hmounts⟩ :=
      getOrCreate_of_nil (c := (closeIn order s.1 s.2).2.1) rfl hshared
    refine ⟨v.proxies + 1, (c', _), hgranted, hmounts, (openShared_adds hshared).1, ?_⟩
    intro old hold
    obtain ⟨number, id, rfl, hlt⟩ := h.exists_mount hold
    obtain ⟨registry, q, id', rfl, hmount⟩ := World.newFileSystem_ok hnew
    obtain ⟨-, -, -, -, hnumber⟩ := World.mounts_mount hmount
    have hlater : s.2.mounts.length ≤ (closeAll order s.2).2.mounts.length :=
      lasting_closeAll (World.lasting_length _) (Nat.le_refl _) order
    rw [Bool.eq_false_iff]
    intro hsame
    have hid : FileSystem.archive id = .archive id' := beq_iff_eq.mp hsame
    cases hid
    exact absurd (Nat.lt_of_lt_of_le hlt hlater) (by rw [hnumber]; exact Nat.lt_irrefl _)

end Tidy

theorem tidy_empty (w : World) : Tidy (Cache.empty, w) :=
  ⟨Sound.of_nil rfl w, List.nodup_nil, nofun⟩

/-- What was ever handed out stays open when it is closed. -/
theorem exists_shared_of_ever (h : Tidy s) (hts : Respected s ts)
    (hfs : Ever (Turn.Grants key fs) s ts) : ∃ number d, fs = .shared number d := by
  induction ts generalizing s with
  | nil => exact hfs.elim
  | cons t ts ih =>
    have hrun := h.run hts.1
    rcases hfs with hgranted | hlater
    · obtain ⟨number, id, hshared, -⟩ := hrun.mounted key fs (get?_run_iff.mpr (Or.inr hgranted))
      exact ⟨number, _, hshared⟩
    · exact ih hrun hts.2 hlater

theorem forM_close_shared (number : Nat) (d : FileSystem) (n : Nat) (w : World) :
    (List.replicate n (FileSystem.shared number d)).forM FileSystem.close w = (.ok (), w) := by
  induction n with
  | zero => rfl
  | succ n ih => exact ih

/-- A list without repetitions is as long as there are members of it. -/
theorem length_eq_ncard {α : Type} {l : List α} (h : l.Nodup) {P : α → Prop}
    (hP : ∀ a, a ∈ l ↔ P a) : l.length = {a | P a}.ncard := by
  classical
  have hset : {a | P a} = ↑l.toFinset := by
    ext a
    rw [List.coe_toFinset]
    exact (hP a).symm
  rw [hset, Set.ncard_coe_finset, List.toFinset_card_of_nodup h]

/-- However a cache is used, unless others close what it keeps: what it hands out stays open however
often it is closed, and is what whoever asks for the same key gets, until the cache is closed. That
closes all mounts, in whatever order and whether or not some fail, and reports a failure if there
was one; then what can be mounted can be had again. Meanwhile it keeps one mount for each key that
was granted since it was closed last, and one lock for each that was ever missed. -/
theorem served_through (w : World) {ts : List Turn} (h : Respected (Cache.empty, w) ts) :
    Served (Cache.empty, w) ts := by
  have htidy := (tidy_empty w).through h
  refine ⟨?_, ?_, ?_, ?_, ?_, ?_, fun order => htidy.closes⟩
  · intro key fs hfs n v
    obtain ⟨number, d, rfl⟩ := exists_shared_of_ever (tidy_empty w) h hfs
    exact forM_close_shared number d n v
  · intro key fs hfs
    exact htidy.isOpen fs (mem_kept (get?_through_empty_iff.mpr hfs))
  · rintro key fs hfs provider backing env rfl
    refine getOrCreate_of_some ?_ provider env
    rw [← keyOf_eq]
    exact get?_through_empty_iff.mpr hfs
  · have hlength := length_eq_ncard htidy.keys fun key =>
      Table.mem_keys_iff.trans (exists_congr fun fs => get?_through_empty_iff)
    rw [← hlength]
    exact (List.length_map Prod.fst).symm
  · refine length_eq_ncard (nodup_locks_through List.nodup_nil ts) fun key => ?_
    rw [mem_locks_through]
    exact or_iff_right List.not_mem_nil
  · intro more
    have happend : through (Cache.empty, w) (ts ++ more) = through (through (Cache.empty, w) ts) more :=
      List.foldl_append
    rw [happend]
    exact locks_prefix_through more _

/-- Two archives are made, and something else cannot be mounted. One of them gets a file and is
closed by whoever it was handed to, in vain. Then the directory it is to be in is deleted. -/
def inUse : List Turn :=
  [.event (.elsewhere (.call ⟨.host, hostFile "/d", .makeDirectory⟩)),
    .event (requestNew "/d/a.zip"), .event (requestNew "/b.zip"),
    .event (.request .host (hostFile "/c.zip") (Options.createEnv "")),
    .event (.elsewhere (.call ⟨.archive 0, (FileSystem.archive ⟨0, 0⟩).path "f",
      .write (contents [1]) .createNew⟩)),
    .event (.elsewhere (.close (.shared 1 (.archive ⟨0, 0⟩)))),
    .event (.elsewhere (.call ⟨.host, hostFile "/d", .delete⟩))]

/-- The cache is closed, where one archive is lost and the other is written, which is opened again.
-/
def reuse : List Turn :=
  [.closing [.shared 2 (.archive ⟨1, 0⟩), .shared 1 (.archive ⟨0, 0⟩)], .event (requestNew "/b.zip")]

/-- The cache and the world before it is closed, -/
def used : Cache × World := through (Cache.empty, World.bare) inUse

/-- and at last. -/
def reused : Cache × World := through (Cache.empty, World.bare) (inUse ++ reuse)

theorem respected_reuse : Respected (Cache.empty, World.bare) (inUse ++ reuse) := by
  have hcall : ∀ (c : Call) (s : Cache × World), (Turn.event (.elsewhere (.call c))).Respects s :=
    fun c s fs _ id _ => Event.not_shuts_call c id.number
  have hclose : ∀ s, (Turn.event (.elsewhere (.close (.shared 1 (.archive ⟨0, 0⟩))))).Respects s :=
    fun s fs _ id _ => Event.not_shuts_close rfl id.number
  exact ⟨hcall _ _, trivial, trivial, trivial, hcall _ _, hclose _, hcall _ _,
    List.Perm.swap _ _ [], trivial, trivial⟩

theorem dated_used : used.1.Dated used.2 := by
  have hall : ∀ m ∈ used.2.mounts, m.tree.Dated := by
    unfold Tree.Dated
    decide
  have hclock : ∀ i, (used.2.clock i).onCalendar = true := by
    intro i
    change Instant.epoch.onCalendar = true
    decide
  exact fun fs _ id _ => ⟨hclock, fun m hm => hall m (List.mem_of_getElem? hm)⟩

theorem served_through_reuse :
    Respected (Cache.empty, World.bare) (inUse ++ reuse) ∧
      Served (Cache.empty, World.bare) (inUse ++ reuse) ∧
      used.1.Dated used.2 ∧
      (used.1.close used.2).1 =
        .error (.error (.context "Could not write archive /d/a.zip" (.notFound "/d/a.zip"))) ∧
      reused.1.mounts = [("/b.zip", .shared 3 (.archive ⟨2, 0⟩))] ∧
      reused.1.locks = ["/d/a.zip", "/b.zip", "/c.zip"] :=
  ⟨respected_reuse, served_through World.bare respected_reuse, dated_used, by rfl, by rfl, by rfl⟩

end Cache

end ZipMount
