import ZipMount.Proofs.Cache.Callers
import ZipMount.Proofs.Events

namespace ZipMount

/-- A path as it comes out when it is put together of its steps, and that is a text. -/
structure Pathname.Plain (p : Pathname) : Prop where
  text : Pathname.ofString p.display = p
  steps : p.components.foldl (fun q c => q.join ⟨c.bytes⟩) .empty = p

instance (p : Pathname) : Decidable p.Plain :=
  decidable_of_iff (Pathname.ofString p.display = p ∧
    p.components.foldl (fun q c => q.join ⟨c.bytes⟩) .empty = p)
    ⟨fun h => ⟨h.1, h.2⟩, fun h => ⟨h.text, h.steps⟩⟩

theorem Pathname.Plain.display_eq_iff {p q : Pathname} (hp : p.Plain) (hq : q.Plain) :
    p.display = q.display ↔ p.same q = true := by
  have hsame : p.same q = true ↔ p.components = q.components := beq_iff_eq
  rw [hsame]
  constructor
  · intro h
    rw [← hp.text, ← hq.text, h]
  · intro h
    rw [← hp.steps, ← hq.steps, h]

namespace Cache

/-- A request of a cache, the cache closed, a proxy numbered, or anything that happens to mounts
elsewhere. -/
inductive Event where
  | request (provider : Provider) (backing : Path) (env : Env)
  | close
  | number
  | elsewhere (e : ZipMount.Event)

/-- The cache and the world after an event, whether or not it went well. -/
def Event.run : Event → Cache × World → Cache × World
  | .request provider backing env, (c, w) => (c.getOrCreate provider backing env w).2
  | .close, (c, w) => (c.close w).2
  | .number, (c, w) => (c, (Action.newNumber w).2)
  | .elsewhere e, (c, w) => (c, e.run w)

def after (s : Cache × World) (es : List Event) : Cache × World := es.foldl (fun s e => e.run s) s

/-- What a cache keeps are shared mounts, each under one text only. -/
structure Sound (c : Cache) (w : World) : Prop where
  mounted : ∀ key fs, c.mounts.get? key = some fs →
    ∃ number id, fs = .shared number (.archive id) ∧ id.number < w.mounts.length
  apart : ∀ key key' fs fs', c.mounts.get? key = some fs → c.mounts.get? key' = some fs' →
    fs.same fs' = true → key = key'

variable {c c' : Cache} {w v : World} {provider : Provider} {backing : Path} {env : Env}
  {fs : FileSystem} {key : String}

theorem keyOf_eq (backing : Path) : keyOf backing = backing.display := by
  rw [keyOf, Path.display, Path.pathname_unwrapped, Path.display]

/-- A file that is mounted gets the next number. -/
theorem openShared_ok (h : openShared provider backing env w = (.ok fs, v)) :
    ∃ number id, fs = .shared number (.archive id) ∧ id.number = w.mounts.length ∧
      id.number < v.mounts.length := by
  unfold openShared at h
  obtain ⟨d, u, hnew, h⟩ := Action.bind_ok h
  cases h
  obtain ⟨registry, q, id, rfl, hmount⟩ := World.newFileSystem_ok hnew
  obtain ⟨m, hmounts, -, -, hnumber⟩ := World.mounts_mount hmount
  refine ⟨_, id, rfl, hnumber, ?_⟩
  change id.number < u.mounts.length
  rw [hmounts, hnumber, List.length_append]
  exact Nat.lt_succ_self _

theorem openShared_error {f : Failure} (h : openShared provider backing env w = (.error f, v)) :
    v = w := by
  unfold openShared at h
  cases hnew : provider.newFileSystem backing env w with
  | mk r u =>
    cases r with
    | ok d =>
      rw [Action.bind_of_ok hnew] at h
      cases h
    | error f =>
      rw [Action.bind_of_error hnew] at h
      cases h
      exact World.newFileSystem_error hnew

theorem getOrCreate_eq (c : Cache) (provider : Provider) (backing : Path) (env : Env) (w : World) :
    c.getOrCreate provider backing env w =
      match c.mounts.get? backing.display with
      | some fs => (.ok fs, c, w)
      | none =>
        match openShared provider backing env w with
        | (.ok fs, v) =>
          (.ok fs, { c.withLock backing.display with
            mounts := (c.withLock backing.display).mounts.put backing.display fs }, v)
        | (.error f, v) => (.error f, c.withLock backing.display, v) := by
  rw [← keyOf_eq]
  rfl

/-- What a request comes to: there is a mount, one is made, or none can be made. -/
theorem getOrCreate_cases (c : Cache) (provider : Provider) (backing : Path) (env : Env)
    (w : World) :
    (∃ fs, c.mounts.get? backing.display = some fs ∧
      c.getOrCreate provider backing env w = (.ok fs, c, w)) ∨
    (∃ fs v c', c.mounts.get? backing.display = none ∧
      openShared provider backing env w = (.ok fs, v) ∧
      c'.mounts = c.mounts.put backing.display fs ∧
      c.getOrCreate provider backing env w = (.ok fs, c', v)) ∨
    ∃ f c', c.mounts.get? backing.display = none ∧ c'.mounts = c.mounts ∧
      c.getOrCreate provider backing env w = (.error f, c', w) := by
  rw [getOrCreate_eq]
  cases c.mounts.get? backing.display with
  | some fs => exact Or.inl ⟨fs, rfl, rfl⟩
  | none =>
    cases hopen : openShared provider backing env w with
    | mk r v =>
      cases r with
      | ok fs =>
        refine Or.inr (Or.inl ⟨fs, v, _, rfl, rfl, ?_, rfl⟩)
        rw [mounts_withLock]
      | error f =>
        rw [openShared_error hopen]
        exact Or.inr (Or.inr ⟨f, _, rfl, mounts_withLock c _, rfl⟩)

theorem get?_of_getOrCreate {s : Cache × World}
    (h : c.getOrCreate provider backing env w = (.ok fs, s)) :
    s.1.mounts.get? backing.display = some fs := by
  rcases c.getOrCreate_cases provider backing env w with
    ⟨_, hget, heq⟩ | ⟨_, _, c', -, -, hput, heq⟩ | ⟨_, _, -, -, heq⟩
  · rw [h] at heq
    cases heq
    exact hget
  · rw [h] at heq
    cases heq
    change Table.get? c'.mounts _ = _
    rw [hput, Table.get?_put, if_pos rfl]
  · rw [h] at heq
    cases heq

/-- A file that is mounted is not mounted again, by whatever provider. -/
theorem getOrCreate_of_some {s : Cache × World} (h : s.1.mounts.get? backing.display = some fs)
    (provider : Provider) (env : Env) :
    s.1.getOrCreate provider backing env s.2 = (.ok fs, s) := by
  rw [getOrCreate_eq, h]

namespace Sound

theorem later (h : c.Sound w) (hlength : w.mounts.length ≤ v.mounts.length) : c.Sound v := by
  refine ⟨fun key fs hget => ?_, h.apart⟩
  obtain ⟨number, id, rfl, hlt⟩ := h.mounted key fs hget
  exact ⟨number, id, rfl, Nat.lt_of_lt_of_le hlt hlength⟩

theorem of_mounts (h : c.Sound w) (hsame : c'.mounts = c.mounts) : c'.Sound w := by
  refine ⟨?_, ?_⟩
  · rw [hsame]
    exact h.mounted
  · rw [hsame]
    exact h.apart

theorem put (h : c.Sound w) (hopen : openShared provider backing env w = (.ok fs, v))
    (hput : c'.mounts = c.mounts.put key fs) : c'.Sound v := by
  obtain ⟨number, id, rfl, hnew, hlt⟩ := openShared_ok hopen
  have hlength : w.mounts.length ≤ v.mounts.length := by omega
  -- the new mount has a number that none of those kept has
  have hother : ∀ key' fs', c.mounts.get? key' = some fs' →
      fs'.same (.shared number (.archive id)) = false := by
    intro key' fs' hget
    obtain ⟨number', id', rfl, hlt'⟩ := h.mounted key' fs' hget
    rw [Bool.eq_false_iff]
    intro hsame
    have hid : FileSystem.archive id' = .archive id := beq_iff_eq.mp hsame
    cases hid
    omega
  have hget : ∀ key', c'.mounts.get? key' =
      if key' = key then some (.shared number (.archive id)) else c.mounts.get? key' := by
    intro key'
    rw [hput, Table.get?_put]
  refine ⟨fun key' fs' hfs' => ?_, fun key₁ key₂ fs₁ fs₂ h₁ h₂ hsame => ?_⟩
  · rw [hget] at hfs'
    split at hfs'
    · cases hfs'
      exact ⟨number, id, rfl, hlt⟩
    · exact (h.later hlength).mounted key' fs' hfs'
  · rw [hget] at h₁ h₂
    split at h₁
    · next hkey₁ =>
      split at h₂
      · next hkey₂ => rw [hkey₁, hkey₂]
      · cases h₁
        have hback : fs₂.same (.shared number (.archive id)) = true := by
          rw [← hsame]
          exact Bool.beq_comm
        rw [hother key₂ fs₂ h₂] at hback
        cases hback
    · split at h₂
      · cases h₂
        rw [hother key₁ fs₁ h₁] at hsame
        cases hsame
      · exact h.apart key₁ key₂ fs₁ fs₂ h₁ h₂ hsame

theorem of_nil (hc : c.mounts = []) (w : World) : c.Sound w := by
  refine ⟨fun key fs hget => ?_, fun key key' fs fs' hget => ?_⟩
  · rw [hc] at hget
    cases hget
  · rw [hc] at hget
    cases hget

end Sound

variable {s : Cache × World}

theorem Sound.run (h : s.1.Sound s.2) (e : Event) : (e.run s).1.Sound (e.run s).2 := by
  obtain ⟨c, w⟩ := s
  cases e with
  | request provider backing env =>
    change (c.getOrCreate provider backing env w).2.1.Sound (c.getOrCreate provider backing env w).2.2
    rcases c.getOrCreate_cases provider backing env w with
      ⟨_, -, heq⟩ | ⟨_, _, _, -, hopen, hput, heq⟩ | ⟨_, _, -, hsame, heq⟩
    · rw [heq]
      exact h
    · rw [heq]
      exact h.put hopen hput
    · rw [heq]
      exact h.of_mounts hsame
  | close => exact Sound.of_nil rfl _
  | number => exact h.later (Nat.le_refl _)
  | elsewhere e => exact h.later ((World.lasting_length _).run (Nat.le_refl _) e)

theorem Sound.after (h : s.1.Sound s.2) (es : List Event) :
    (after s es).1.Sound (after s es).2 := by
  induction es generalizing s with
  | nil => exact h
  | cons e es ih => exact ih (h.run e)

theorem get?_run (h : s.1.mounts.get? key = some fs) {e : Event} (he : e ≠ .close) :
    (e.run s).1.mounts.get? key = some fs := by
  obtain ⟨c, w⟩ := s
  cases e with
  | request provider backing env =>
    change (c.getOrCreate provider backing env w).2.1.mounts.get? key = some fs
    rcases c.getOrCreate_cases provider backing env w with
      ⟨_, -, heq⟩ | ⟨_, _, _, hnone, -, hput, heq⟩ | ⟨_, _, -, hsame, heq⟩
    · rw [heq]
      exact h
    · have hne : key ≠ backing.display := by
        rintro rfl
        rw [hnone] at h
        cases h
      rw [heq, hput, Table.get?_put, if_neg hne]
      exact h
    · rw [heq, hsame]
      exact h
  | close => exact absurd rfl he
  | number => exact h
  | elsewhere e => exact h

theorem get?_after (h : s.1.mounts.get? key = some fs) {es : List Event}
    (hes : Event.close ∉ es) : (after s es).1.mounts.get? key = some fs := by
  induction es generalizing s with
  | nil => exact h
  | cons e es ih =>
    rw [List.mem_cons, not_or] at hes
    exact ih (get?_run h (Ne.symm hes.1)) hes.2

/-- How the mounts that two requests got are to each other. -/
structure Matched (p q : Path) (fs₁ fs₂ : FileSystem) : Prop where
  /-- They are the same handle if the backing paths read the same, whatever proxies they are under,
  -/
  handle : fs₁ = fs₂ ↔ p.display = q.display
  /-- and no other handle is of the same archive. -/
  mount : fs₁.same fs₂ = true ↔ p.display = q.display
  /-- For plain paths that is to say that they are equal, unless they read the same on different
  file systems. -/
  plain : p.pathname.Plain → q.pathname.Plain →
    ((fs₁ = fs₂ ↔ p.same q = true) ↔
      (p.display = q.display → p.innermost.fileSystem.same q.innermost.fileSystem = true))

variable {p q : Path} {provider' : Provider} {env' : Env} {fs₁ fs₂ : FileSystem}
  {s₁ s₂ : Cache × World}

theorem Sound.matched (h : c.Sound w) (h₁ : c.mounts.get? p.display = some fs₁)
    (h₂ : c.mounts.get? q.display = some fs₂) : Matched p q fs₁ fs₂ := by
  have hrefl : ∀ fs : FileSystem, fs.same fs = true := fun fs => beq_iff_eq.mpr rfl
  have hhandle : fs₁ = fs₂ ↔ p.display = q.display := by
    constructor
    · rintro rfl
      exact h.apart _ _ _ _ h₁ h₂ (hrefl fs₁)
    · intro hkey
      rw [hkey, h₂] at h₁
      exact (Option.some.inj h₁).symm
  refine ⟨hhandle, ⟨h.apart _ _ _ _ h₁ h₂, fun hkey => ?_⟩, fun hp hq => ?_⟩
  · rw [hhandle.mpr hkey]
    exact hrefl fs₂
  · rw [hhandle, Path.same, Bool.and_eq_true, Path.pathname_innermost, Path.pathname_innermost,
      ← hp.display_eq_iff hq]
    exact iff_self_and

/-- Whatever happens before the first of two requests, and between them but for the cache being
closed: they get one mount just if their backing paths read the same, and then the second opens
nothing. -/
theorem matched_requests {w₀ : World} {before between : List Event}
    (h₁ : (after (Cache.empty, w₀) before).1.getOrCreate provider p env
      (after (Cache.empty, w₀) before).2 = (.ok fs₁, s₁))
    (hbetween : Event.close ∉ between)
    (h₂ : (after s₁ between).1.getOrCreate provider' q env' (after s₁ between).2 = (.ok fs₂, s₂)) :
    Matched p q fs₁ fs₂ ∧ (p.display = q.display → s₂ = after s₁ between) := by
  have hrun₁ : Event.run (.request provider p env) (after (Cache.empty, w₀) before) = s₁ :=
    congrArg Prod.snd h₁
  have hrun₂ : Event.run (.request provider' q env') (after s₁ between) = s₂ :=
    congrArg Prod.snd h₂
  have hstart : (Cache.empty, w₀).1.Sound (Cache.empty, w₀).2 := Sound.of_nil rfl w₀
  have hsound := (hstart.after before).run (.request provider p env)
  rw [hrun₁] at hsound
  have hsound₂ := (hsound.after between).run (.request provider' q env')
  have hget := get?_after (get?_of_getOrCreate h₁) hbetween
  have hget₂ := get?_run hget (e := .request provider' q env') Event.noConfusion
  rw [hrun₂] at hsound₂ hget₂
  refine ⟨hsound₂.matched hget₂ (get?_of_getOrCreate h₂), fun hkey => ?_⟩
  rw [hkey] at hget
  rw [getOrCreate_of_some hget provider' env'] at h₂
  exact (congrArg Prod.snd h₂).symm

def hostFile (text : String) : Path := .host (.ofString text)

def requestNew (text : String) : Event :=
  .request (.archive 0) (hostFile text) (Options.createEnv "")

/-- The cache and the world before a file is requested, -/
def earlier : Cache × World := after (Cache.empty, World.bare) [requestNew "/b.zip"]

/-- after it was, -/
def requested : Cache × World := (requestNew "/a.zip").run earlier

/-- and what happens until it is requested again. -/
def meanwhile : List Event :=
  [requestNew "/c.zip", .number, requestNew "/no/d.zip",
    .elsewhere (.close (.shared 2 (.archive ⟨1, 0⟩)))]

theorem matched_requests_wrapped :
    earlier.1.getOrCreate (.archive 0) (hostFile "/a.zip") (Options.createEnv "") earlier.2 =
        (.ok (.shared 2 (.archive ⟨1, 0⟩)), requested) ∧
      Event.close ∉ meanwhile ∧
      (after requested meanwhile).1.getOrCreate (.archive 0) (hostFile "/a.zip").assumingWritable
          (Options.createEnv "") (after requested meanwhile).2 =
        (.ok (.shared 2 (.archive ⟨1, 0⟩)), after requested meanwhile) ∧
      Matched (hostFile "/a.zip") (hostFile "/a.zip").assumingWritable
        (.shared 2 (.archive ⟨1, 0⟩)) (.shared 2 (.archive ⟨1, 0⟩)) ∧
      (hostFile "/a.zip").pathname.Plain := by
  have h₁ : earlier.1.getOrCreate (.archive 0) (hostFile "/a.zip") (Options.createEnv "")
      earlier.2 = (.ok (.shared 2 (.archive ⟨1, 0⟩)), requested) := rfl
  have hbetween : Event.close ∉ meanwhile := by simp [meanwhile, requestNew]
  have hkept : (after requested meanwhile).1.mounts.get? (hostFile "/a.zip").assumingWritable.display =
      some (.shared 2 (.archive ⟨1, 0⟩)) :=
    get?_after (get?_of_getOrCreate h₁) hbetween
  have h₂ := getOrCreate_of_some hkept (.archive 0) (Options.createEnv "")
  exact ⟨h₁, hbetween, h₂, (matched_requests h₁ hbetween h₂).1, by decide⟩

end Cache

end ZipMount
