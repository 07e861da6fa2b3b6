import ZipMount.Cache.Callers

namespace ZipMount.Cache

/-- An opening: who made it, for which key, and how it turned out. -/
structure Opening (H E : Type) where
  caller : Nat
  key : String
  outcome : Except E H

namespace Phase

variable {H E : Type}

def holdsLock : Phase H E → Bool
  | .holding => true
  | .opening => true
  | .opened _ => true
  | .leaving _ => true
  | _ => false

/-- Whether a caller opens, or has opened and not yet put what it has in the table. -/
def isFilling : Phase H E → Bool
  | .opening => true
  | .opened _ => true
  | _ => false

/-- How it turned out for a caller, as soon as that is known. -/
def told : Phase H E → Option (Except E H)
  | .opened h => some (.ok h)
  | .leaving r => some r
  | .done r => some r
  | _ => none

def handle? : Phase H E → Option H
  | .leaving (.ok h) => some h
  | .done (.ok h) => some h
  | _ => none

theorem holdsLock_of_isFilling {p : Phase H E} (h : p.isFilling = true) : p.holdsLock = true := by
  cases p with
  | opening => rfl
  | opened x => rfl
  | _ => cases h

theorem handle?_eq_some {p : Phase H E} {h : H} :
    p.handle? = some h ↔ p = .leaving (.ok h) ∨ p = .done (.ok h) := by
  cases p with
  | leaving r => cases r <;> simp [handle?]
  | done r => cases r <;> simp [handle?]
  | _ => simp [handle?]

theorem told_eq_ok {p : Phase H E} {h : H} (hp : p.told = some (.ok h)) :
    p = .opened h ∨ p.handle? = some h := by
  cases p with
  | opened x =>
    cases hp
    exact Or.inl rfl
  | leaving r =>
    cases hp
    exact Or.inr rfl
  | done r =>
    cases hp
    exact Or.inr rfl
  | _ => cases hp

theorem told_eq_error {p : Phase H E} {e : E} :
    p.told = some (.error e) ↔ p = .leaving (.error e) ∨ p = .done (.error e) := by
  cases p <;> simp [told]

end Phase

namespace Crowd

variable {H E : Type}

/-- The steps of callers one after the other, each with how it turns out if it is an opening. -/
def run (s : Crowd H E) (schedule : List (Nat × Except E H)) : Crowd H E :=
  schedule.foldl (fun s turn => s.step turn.1 turn.2) s

/-- The opening that the next step of a caller is, if it is one. -/
def opening? (s : Crowd H E) (i : Nat) (outcome : Except E H) : Option (Opening H E) :=
  match s.callers[i]? with
  | some ⟨key, .opening⟩ => some ⟨i, key, outcome⟩
  | _ => none

/-- The openings among the steps of callers, in their order. -/
def openings (s : Crowd H E) : List (Nat × Except E H) → List (Opening H E)
  | [] => []
  | (i, outcome) :: rest => (s.opening? i outcome).toList ++ (s.step i outcome).openings rest

/-- What a step of a caller makes of the table, of the locks and of where the caller is. -/
inductive Takes (key : String) (outcome : Except E H) (t : Table String H) (l : List String) :
    Phase H E → Table String H → List String → Phase H E → Prop
  | finds {h : H} (hget : t.get? key = some h) :
      Takes key outcome t l .arriving t l (.done (.ok h))
  | misses (hget : t.get? key = none) : Takes key outcome t l .arriving t l .waiting
  | locks (hfree : key ∉ l) : Takes key outcome t l .waiting t (key :: l) .holding
  | findsAgain {h : H} (hget : t.get? key = some h) :
      Takes key outcome t l .holding t l (.leaving (.ok h))
  | missesAgain (hget : t.get? key = none) : Takes key outcome t l .holding t l .opening
  | opens {h : H} (hout : outcome = .ok h) : Takes key outcome t l .opening t l (.opened h)
  | fails {e : E} (hout : outcome = .error e) :
      Takes key outcome t l .opening t l (.leaving (.error e))
  | puts (h : H) : Takes key outcome t l (.opened h) (t.put key h) l (.leaving (.ok h))
  | leaves (r : Except E H) :
      Takes key outcome t l (.leaving r) t (l.filter (· ≠ key)) (.done r)

/-- A caller that is not there, waits for a lock or is done stays where it is; any other takes one
of these steps. -/
theorem step_cases (s : Crowd H E) (i : Nat) (outcome : Except E H) :
    (s.step i outcome = s ∧ s.opening? i outcome = none) ∨
      ∃ key p t l p', s.callers[i]? = some ⟨key, p⟩ ∧ Takes key outcome s.table s.locked p t l p' ∧
        s.step i outcome = ⟨t, l, s.callers.set i ⟨key, p'⟩⟩ := by
  unfold step opening?
  cases hi : s.callers[i]? with
  | none => exact Or.inl ⟨rfl, rfl⟩
  | some c =>
    obtain ⟨key, p⟩ := c
    cases p with
    | arriving =>
      right
      cases hget : s.table.get? key with
      | some h => exact ⟨key, _, _, _, _, rfl, .finds hget, by simp only [hget]; rfl⟩
      | none => exact ⟨key, _, _, _, _, rfl, .misses hget, by simp only [hget]; rfl⟩
    | waiting =>
      by_cases hlocked : key ∈ s.locked
      · simp only [if_pos hlocked]
        exact Or.inl ⟨trivial, trivial⟩
      · simp only [if_neg hlocked]
        exact Or.inr ⟨key, _, _, _, _, rfl, .locks hlocked, rfl⟩
    | holding =>
      right
      cases hget : s.table.get? key with
      | some h => exact ⟨key, _, _, _, _, rfl, .findsAgain hget, by simp only [hget]; rfl⟩
      | none => exact ⟨key, _, _, _, _, rfl, .missesAgain hget, by simp only [hget]; rfl⟩
    | opening =>
      right
      cases outcome with
      | ok h => exact ⟨key, _, _, _, _, rfl, .opens rfl, rfl⟩
      | error e => exact ⟨key, _, _, _, _, rfl, .fails rfl, rfl⟩
    | opened h => exact Or.inr ⟨key, _, _, _, _, rfl, .puts h, rfl⟩
    | leaving r => exact Or.inr ⟨key, _, _, _, _, rfl, .leaves r, rfl⟩
    | done r => exact Or.inl ⟨rfl, rfl⟩

namespace Takes

variable {key : String} {outcome : Except E H} {t t' : Table String H} {l l' : List String}
  {p p' : Phase H E}

theorem holdsLock_cases (ht : Takes key outcome t l p t' l' p') (hp' : p'.holdsLock = true) :
    p.holdsLock = true ∨ key ∉ l := by
  cases ht with
  | locks hfree => exact Or.inr hfree
  | finds _ => cases hp'
  | misses _ => cases hp'
  | leaves _ => cases hp'
  | _ => exact Or.inl rfl

theorem mem_locked (ht : Takes key outcome t l p t' l' p') (hp : p.holdsLock = true → key ∈ l)
    (hp' : p'.holdsLock = true) : key ∈ l' := by
  cases ht with
  | locks _ => exact List.mem_cons_self
  | finds _ => cases hp'
  | misses _ => cases hp'
  | leaves _ => cases hp'
  | _ => exact hp rfl

/-- A step gives back no lock but the caller's own. -/
theorem mem_locked_other (ht : Takes key outcome t l p t' l' p') {k : String} (hk : k ∈ l)
    (hne : p.holdsLock = true → k ≠ key) : k ∈ l' := by
  cases ht with
  | locks _ => exact List.mem_cons_of_mem key hk
  | leaves _ => exact List.mem_filter.mpr ⟨hk, decide_eq_true (hne rfl)⟩
  | _ => exact hk

/-- The table stays, or what the caller opened is put in it. -/
theorem table_cases (ht : Takes key outcome t l p t' l' p') :
    t' = t ∨ ∃ h, p = .opened h ∧ p' = .leaving (.ok h) ∧ t' = t.put key h := by
  cases ht with
  | puts h => exact Or.inr ⟨h, rfl, rfl, rfl⟩
  | _ => exact Or.inl rfl

theorem get?_other (ht : Takes key outcome t l p t' l' p') {k : String}
    (hne : p.isFilling = true → k ≠ key) : t'.get? k = t.get? k := by
  rcases ht.table_cases with rfl | ⟨h, rfl, -, rfl⟩
  · rfl
  · rw [Table.get?_put, if_neg (hne rfl)]

theorem get?_mono (ht : Takes key outcome t l p t' l' p')
    (hp : p.isFilling = true → t.get? key = none) {k : String} {h : H} (hk : t.get? k = some h) :
    t'.get? k = some h := by
  rw [ht.get?_other fun hfill => ?_, hk]
  rintro rfl
  rw [hp hfill] at hk
  cases hk

theorem get?_filling (ht : Takes key outcome t l p t' l' p')
    (hp : p.isFilling = true → t.get? key = none) (hp' : p'.isFilling = true) :
    t'.get? key = none := by
  cases ht with
  | missesAgain hget => exact hget
  | opens _ => exact hp rfl
  | _ => cases hp'

theorem get?_handle (ht : Takes key outcome t l p t' l' p')
    (hp : ∀ h, p.handle? = some h → t.get? key = some h) {h : H} (hp' : p'.handle? = some h) :
    t'.get? key = some h := by
  cases ht with
  | finds hget =>
    cases hp'
    exact hget
  | findsAgain hget =>
    cases hp'
    exact hget
  | puts x =>
    cases hp'
    rw [Table.get?_put, if_pos rfl]
  | leaves r =>
    apply hp
    cases r with
    | ok x => exact hp'
    | error e => cases hp'
  | _ => cases hp'

theorem told_mono (ht : Takes key outcome t l p t' l' p') {r : Except E H}
    (hp : p.told = some r) : p'.told = some r := by
  cases ht with
  | puts h => exact hp
  | leaves r => exact hp
  | _ => cases hp

theorem handle?_mono (ht : Takes key outcome t l p t' l' p') {h : H} (hp : p.handle? = some h) :
    p'.handle? = some h := by
  cases ht with
  | leaves r =>
    cases r with
    | ok x => exact hp
    | error e => cases hp
  | _ => cases hp

/-- Only an opening that failed tells a caller of an error. -/
theorem told_error (ht : Takes key outcome t l p t' l' p') {e : E}
    (hp' : p'.told = some (.error e)) :
    p.told = some (.error e) ∨ p = .opening ∧ outcome = .error e := by
  cases ht with
  | fails hout =>
    cases hp'
    exact Or.inr ⟨rfl, hout⟩
  | leaves r => exact Or.inl hp'
  | _ => cases hp'

theorem opened_cases (ht : Takes key outcome t l p t' l' p') {h : H} (hp' : p' = .opened h) :
    p = .opening ∧ outcome = .ok h := by
  cases ht with
  | opens hout =>
    cases hp'
    exact ⟨rfl, hout⟩
  | _ => cases hp'

theorem told_opening (ht : Takes key outcome t l p t' l' p') (hp : p = .opening) :
    p'.told = some outcome := by
  cases ht with
  | opens hout => exact congrArg some hout.symm
  | fails hout => exact congrArg some hout.symm
  | _ => cases hp

end Takes

/-- How the callers, the table and the openings so far go together: who has a lock has it alone; the
key of one who fills the table is not yet in it, and what a caller has is; every opening told its
caller how it turned out, and who was told otherwise found it in the table. -/
structure Orderly (table : Table String H) (s : Crowd H E) (log : List (Opening H E)) : Prop where
  nodup : s.table.keys.Nodup
  locked : ∀ (i : Nat) (c : Caller H E), s.callers[i]? = some c → c.phase.holdsLock = true →
    c.key ∈ s.locked
  alone : ∀ (i j : Nat) (c d : Caller H E), s.callers[i]? = some c → s.callers[j]? = some d →
    c.phase.holdsLock = true → d.phase.holdsLock = true → c.key = d.key → i = j
  vacant : ∀ (i : Nat) (c : Caller H E), s.callers[i]? = some c → c.phase.isFilling = true →
    s.table.get? c.key = none
  found : ∀ (i : Nat) (c : Caller H E) (h : H), s.callers[i]? = some c →
    c.phase.handle? = some h → s.table.get? c.key = some h
  told : ∀ o ∈ log, ∃ p, s.callers[o.caller]? = some ⟨o.key, p⟩ ∧ p.told = some o.outcome
  opened : ∀ i key h, s.callers[i]? = some ⟨key, .opened h⟩ → ⟨i, key, .ok h⟩ ∈ log
  failed : ∀ i key p e, s.callers[i]? = some ⟨key, p⟩ → p.told = some (.error e) →
    ⟨i, key, .error e⟩ ∈ log
  entries : ∀ key h, s.table.get? key = some h → table.get? key = some h ∨
    ∃ i p, ⟨i, key, .ok h⟩ ∈ log ∧ s.callers[i]? = some ⟨key, p⟩ ∧ p.handle? = some h
  kept : ∀ key h, table.get? key = some h → s.table.get? key = some h
  needed : ∀ o ∈ log, table.get? o.key = none
  once : log.Pairwise fun a b => a.caller ≠ b.caller
  single : log.Pairwise fun a b => a.key = b.key →
    ∀ h h', ¬ (a.outcome = .ok h ∧ b.outcome = .ok h')

variable {table t : Table String H} {s : Crowd H E} {log : List (Opening H E)} {i : Nat}
  {key : String} {outcome : Except E H} {l : List String} {p p' : Phase H E}

theorem set_cases {cs : List (Caller H E)} {c d : Caller H E} {j : Nat}
    (h : (cs.set i c)[j]? = some d) : (j = i ∧ d = c) ∨ (j ≠ i ∧ cs[j]? = some d) := by
  by_cases hj : i = j
  · subst hj
    rw [List.getElem?_set_self'] at h
    cases hi : cs[i]? with
    | none => rw [hi] at h; cases h
    | some c₀ =>
      rw [hi] at h
      cases h
      exact Or.inl ⟨rfl, rfl⟩
  · rw [List.getElem?_set_ne hj] at h
    exact Or.inr ⟨Ne.symm hj, h⟩

theorem set_self {cs : List (Caller H E)} {c : Caller H E} (hi : cs[i]? = some c)
    (d : Caller H E) : (cs.set i d)[i]? = some d := by
  rw [List.getElem?_set_self', hi]
  rfl

theorem mem_opening? (hi : s.callers[i]? = some ⟨key, p⟩) {o : Opening H E} :
    o ∈ (s.opening? i outcome).toList ↔ p = .opening ∧ o = ⟨i, key, outcome⟩ := by
  unfold opening?
  rw [hi]
  cases p <;> simp

/-- What holds between the openings so far, and between them and the one that is made, if one is. -/
theorem pairwise_opening? (hi : s.callers[i]? = some ⟨key, p⟩)
    {R : Opening H E → Opening H E → Prop} (hlog : log.Pairwise R)
    (hnew : p = .opening → ∀ o ∈ log, R o ⟨i, key, outcome⟩) :
    (log ++ (s.opening? i outcome).toList).Pairwise R := by
  refine List.pairwise_append.mpr ⟨hlog, ?_, ?_⟩
  · cases s.opening? i outcome with
    | none => exact .nil
    | some o => exact List.pairwise_singleton _ o
  · intro o ho o' ho'
    obtain ⟨hp, rfl⟩ := (mem_opening? hi).mp ho'
    exact hnew hp o ho

/-- All who have just come, and no opening so far. -/
theorem orderly_arrive (hnodup : table.keys.Nodup) (keys : List String) :
    Orderly table (arrive table keys : Crowd H E) [] := by
  have harriving : ∀ (i : Nat) (c : Caller H E),
      (arrive table keys : Crowd H E).callers[i]? = some c → c.phase = .arriving := by
    intro i c hc
    obtain ⟨key, -, rfl⟩ := List.mem_map.mp (List.mem_of_getElem? hc)
    rfl
  refine ⟨hnodup, ?_, ?_, ?_, ?_, nofun, ?_, ?_, ?_, fun _ _ h => h, nofun, .nil, .nil⟩
  · intro i c hc hp
    rw [harriving i c hc] at hp
    cases hp
  · intro i j c d hc hd hp
    rw [harriving i c hc] at hp
    cases hp
  · intro i c hc hp
    rw [harriving i c hc] at hp
    cases hp
  · intro i c h hc hp
    rw [harriving i c hc] at hp
    cases hp
  · intro i key h hc
    cases harriving i _ hc
  · intro i key p e hc hp
    cases harriving i _ hc
    cases hp
  · exact fun _ _ h => Or.inl h

namespace Orderly

theorem ne_of_holdsLock (hs : Orderly table s log) (hi : s.callers[i]? = some ⟨key, p⟩)
    (hp : p.holdsLock = true) {j : Nat} {c : Caller H E} (hj : s.callers[j]? = some c)
    (hc : c.phase.holdsLock = true) (hne : j ≠ i) : c.key ≠ key :=
  fun hkey => hne (hs.alone j i c ⟨key, p⟩ hj hi hc hp hkey)

variable (hs : Orderly table s log) (hi : s.callers[i]? = some ⟨key, p⟩)
  (ht : Takes key outcome s.table s.locked p t l p')

include hs hi ht

theorem locked_step {j : Nat} {c : Caller H E} (hj : (s.callers.set i ⟨key, p'⟩)[j]? = some c)
    (hc : c.phase.holdsLock = true) : c.key ∈ l := by
  rcases set_cases hj with ⟨rfl, rfl⟩ | ⟨hne, hj⟩
  · exact ht.mem_locked (hs.locked j _ hi) hc
  · exact ht.mem_locked_other (hs.locked j c hj hc) fun hp => hs.ne_of_holdsLock hi hp hj hc hne

theorem alone_step {j : Nat} {c : Caller H E} (hp' : p'.holdsLock = true)
    (hj : s.callers[j]? = some c) (hc : c.phase.holdsLock = true) (hne : j ≠ i) :
    c.key ≠ key := by
  rcases ht.holdsLock_cases hp' with hp | hfree
  · exact hs.ne_of_holdsLock hi hp hj hc hne
  · rintro rfl
    exact hfree (hs.locked j c hj hc)

theorem vacant_step {j : Nat} {c : Caller H E} (hj : (s.callers.set i ⟨key, p'⟩)[j]? = some c)
    (hc : c.phase.isFilling = true) : t.get? c.key = none := by
  rcases set_cases hj with ⟨rfl, rfl⟩ | ⟨hne, hj⟩
  · exact ht.get?_filling (hs.vacant j _ hi) hc
  · rw [ht.get?_other fun hp => ?_]
    · exact hs.vacant j c hj hc
    · exact hs.ne_of_holdsLock hi (Phase.holdsLock_of_isFilling hp) hj
        (Phase.holdsLock_of_isFilling hc) hne

theorem found_step {j : Nat} {c : Caller H E} {h : H}
    (hj : (s.callers.set i ⟨key, p'⟩)[j]? = some c) (hc : c.phase.handle? = some h) :
    t.get? c.key = some h := by
  rcases set_cases hj with ⟨rfl, rfl⟩ | ⟨-, hj⟩
  · exact ht.get?_handle (fun h => hs.found j _ h hi) hc
  · exact ht.get?_mono (hs.vacant i _ hi) (hs.found j c h hj hc)

theorem told_step {o : Opening H E} (ho : o ∈ log) :
    ∃ q, (s.callers.set i ⟨key, p'⟩)[o.caller]? = some ⟨o.key, q⟩ ∧ q.told = some o.outcome := by
  obtain ⟨q, hq, htold⟩ := hs.told o ho
  by_cases hcaller : o.caller = i
  · rw [hcaller, hi] at hq
    cases hq
    refine ⟨p', ?_, ht.told_mono htold⟩
    rw [hcaller]
    exact set_self hi _
  · refine ⟨q, ?_, htold⟩
    rw [List.getElem?_set_ne (Ne.symm hcaller)]
    exact hq

theorem entries_step {k : String} {h : H} (hk : t.get? k = some h) :
    table.get? k = some h ∨ ∃ j q, ⟨j, k, .ok h⟩ ∈ log ∧
      (s.callers.set i ⟨key, p'⟩)[j]? = some ⟨k, q⟩ ∧ q.handle? = some h := by
  have hold : s.table.get? k = some h → table.get? k = some h ∨ ∃ j q, ⟨j, k, .ok h⟩ ∈ log ∧
      (s.callers.set i ⟨key, p'⟩)[j]? = some ⟨k, q⟩ ∧ q.handle? = some h := by
    intro hk
    rcases hs.entries k h hk with htable | ⟨j, q, hlog, hj, hq⟩
    · exact Or.inl htable
    · right
      by_cases hne : j = i
      · subst hne
        rw [hi] at hj
        cases hj
        exact ⟨j, p', hlog, set_self hi _, ht.handle?_mono hq⟩
      · refine ⟨j, q, hlog, ?_, hq⟩
        rw [List.getElem?_set_ne (Ne.symm hne)]
        exact hj
  rcases ht.table_cases with rfl | ⟨x, rfl, rfl, rfl⟩
  · exact hold hk
  · rw [Table.get?_put] at hk
    split at hk
    · next hkey =>
      cases hk
      subst hkey
      exact Or.inr ⟨i, _, hs.opened i k h hi, set_self hi _, rfl⟩
    · exact hold hk

omit ht in
theorem needed_step (hp : p = .opening) : table.get? key = none := by
  subst hp
  have hvacant := hs.vacant i _ hi rfl
  cases hget : table.get? key with
  | none => rfl
  | some h =>
    rw [hs.kept key h hget] at hvacant
    cases hvacant

omit ht in
/-- An opening is the first of its caller, and none for its key succeeded before. -/
theorem single_step (hp : p = .opening) {o : Opening H E} (ho : o ∈ log) :
    o.caller ≠ i ∧ (o.key = key → ∀ h, o.outcome ≠ .ok h) := by
  subst hp
  obtain ⟨q, hq, htold⟩ := hs.told o ho
  have hcaller : o.caller ≠ i := by
    intro hcaller
    rw [hcaller, hi] at hq
    cases hq
    cases htold
  refine ⟨hcaller, ?_⟩
  rintro rfl h hout
  rw [hout] at htold
  rcases Phase.told_eq_ok htold with rfl | hhandle
  · exact hs.ne_of_holdsLock hi rfl hq rfl hcaller rfl
  · have hvacant := hs.vacant i _ hi rfl
    have hfound := hs.found o.caller _ h hq hhandle
    rw [hvacant] at hfound
    cases hfound

theorem alone_set {j k : Nat} {c d : Caller H E} (hj : (s.callers.set i ⟨key, p'⟩)[j]? = some c)
    (hk : (s.callers.set i ⟨key, p'⟩)[k]? = some d) (hc : c.phase.holdsLock = true)
    (hd : d.phase.holdsLock = true) (hkey : c.key = d.key) : j = k := by
  rcases set_cases hj with ⟨rfl, rfl⟩ | ⟨hjne, hjold⟩
  · rcases set_cases hk with ⟨rfl, rfl⟩ | ⟨hkne, hkold⟩
    · rfl
    · exact absurd hkey.symm (hs.alone_step hi ht hc hkold hd hkne)
  · rcases set_cases hk with ⟨rfl, rfl⟩ | ⟨-, hkold⟩
    · exact absurd hkey (hs.alone_step hi ht hd hjold hc hjne)
    · exact hs.alone j k c d hjold hkold hc hd hkey

theorem opened_step {j : Nat} {k : String} {h : H}
    (hj : (s.callers.set i ⟨key, p'⟩)[j]? = some ⟨k, .opened h⟩) :
    ⟨j, k, .ok h⟩ ∈ log ++ (s.opening? i outcome).toList := by
  rcases set_cases hj with ⟨rfl, hc⟩ | ⟨-, hj⟩
  · obtain ⟨rfl, hp'⟩ := Caller.mk.inj hc
    obtain ⟨hp, rfl⟩ := ht.opened_cases hp'.symm
    exact List.mem_append_right _ ((mem_opening? hi).mpr ⟨hp, rfl⟩)
  · exact List.mem_append_left _ (hs.opened j k h hj)

theorem failed_step {j : Nat} {k : String} {q : Phase H E} {e : E}
    (hj : (s.callers.set i ⟨key, p'⟩)[j]? = some ⟨k, q⟩) (hq : q.told = some (.error e)) :
    ⟨j, k, .error e⟩ ∈ log ++ (s.opening? i outcome).toList := by
  rcases set_cases hj with ⟨rfl, hc⟩ | ⟨-, hj⟩
  · obtain ⟨rfl, rfl⟩ := Caller.mk.inj hc
    rcases ht.told_error hq with hold | ⟨hp, rfl⟩
    · exact List.mem_append_left _ (hs.failed j k p e hi hold)
    · exact List.mem_append_right _ ((mem_opening? hi).mpr ⟨hp, rfl⟩)
  · exact List.mem_append_left _ (hs.failed j k q e hj hq)

omit hs hi ht in
/-- Every step keeps it, and the opening that it is goes on record. -/
theorem step (hs : Orderly table s log) (i : Nat) (outcome : Except E H) :
    Orderly table (s.step i outcome) (log ++ (s.opening? i outcome).toList) := by
  rcases s.step_cases i outcome with ⟨hstep, hnone⟩ | ⟨key, p, t, l, p', hi, ht, hstep⟩
  · rw [hstep, hnone, Option.toList_none, List.append_nil]
    exact hs
  · rw [hstep]
    refine ⟨?_, fun j c => hs.locked_step hi ht, fun j k c d => hs.alone_set hi ht,
      fun j c => hs.vacant_step hi ht, fun j c h => hs.found_step hi ht, ?_,
      fun j k h => hs.opened_step hi ht, fun j k q e => hs.failed_step hi ht, ?_, ?_, ?_, ?_, ?_⟩
    · rcases ht.table_cases with rfl | ⟨h, -, -, rfl⟩
      · exact hs.nodup
      · exact Table.nodup_keys_put hs.nodup key h
    · intro o ho
      rcases List.mem_append.mp ho with ho | ho
      · exact hs.told_step hi ht ho
      · obtain ⟨hp, rfl⟩ := (mem_opening? hi).mp ho
        exact ⟨p', set_self hi _, ht.told_opening hp⟩
    · intro k h hk
      rcases hs.entries_step hi ht hk with htable | ⟨j, q, hlog, hj, hq⟩
      · exact Or.inl htable
      · exact Or.inr ⟨j, q, List.mem_append_left _ hlog, hj, hq⟩
    · exact fun k h hk => ht.get?_mono (hs.vacant i _ hi) (hs.kept k h hk)
    · intro o ho
      rcases List.mem_append.mp ho with ho | ho
      · exact hs.needed o ho
      · obtain ⟨hp, rfl⟩ := (mem_opening? hi).mp ho
        exact hs.needed_step hi hp
    · apply pairwise_opening? hi hs.once
      exact fun hp o ho => (hs.single_step hi hp ho).1
    · apply pairwise_opening? hi hs.single
      exact fun hp o ho hkey h h' hok => (hs.single_step hi hp ho).2 hkey h hok.1

omit hs hi ht in
theorem run (hs : Orderly table s log) (schedule : List (Nat × Except E H)) :
    Orderly table (s.run schedule) (log ++ s.openings schedule) := by
  induction schedule generalizing s log with
  | nil =>
    rw [openings, List.append_nil]
    exact hs
  | cons turn rest ih =>
    have hrest := ih (hs.step turn.1 turn.2)
    rw [List.append_assoc] at hrest
    exact hrest

end Orderly

theorem keys_step (s : Crowd H E) (i : Nat) (outcome : Except E H) :
    (s.step i outcome).callers.map Caller.key = s.callers.map Caller.key := by
  rcases s.step_cases i outcome with ⟨hstep, -⟩ | ⟨key, p, t, l, p', hi, -, hstep⟩
  · rw [hstep]
  · have hkey : (s.callers.map Caller.key)[i]? = some key := by
      rw [List.getElem?_map, hi]
      rfl
    obtain ⟨hlt, hget⟩ := List.getElem?_eq_some_iff.mp hkey
    rw [hstep, List.map_set, ← hget]
    exact List.set_getElem_self hlt

theorem keys_run (s : Crowd H E) (schedule : List (Nat × Except E H)) :
    (s.run schedule).callers.map Caller.key = s.callers.map Caller.key := by
  induction schedule generalizing s with
  | nil => rfl
  | cons turn rest ih => exact (ih _).trans (s.keys_step turn.1 turn.2)

/-- A step of a caller whose opening fails, or has failed, leaves the table as it is. -/
theorem table_of_error {e : E} (hi : s.callers[i]? = some ⟨key, p⟩)
    (hp : p = .opening ∧ outcome = .error e ∨ p.told = some (.error e)) :
    (s.step i outcome).table = s.table := by
  rcases s.step_cases i outcome with ⟨hstep, -⟩ | ⟨k, q, t, l, p', hq, ht, hstep⟩
  · rw [hstep]
  · rw [hi] at hq
    cases hq
    rw [hstep]
    rcases ht.table_cases with hsame | ⟨h, hopened, -, -⟩
    · exact hsame
    · subst hopened
      rcases hp with ⟨hopening, -⟩ | htold
      · cases hopening
      · cases htold

/-- What callers who ask for some keys come to, given the table they found and the openings they
made. -/
structure SingleFlight (table : Table String H) (keys : List String) (s : Crowd H E)
    (log : List (Opening H E)) : Prop where
  keys : s.callers.map Caller.key = keys
  /-- Nobody opens a key while another does, -/
  apart : ∀ (key : String) (i j : Nat), s.callers[i]? = some ⟨key, .opening⟩ →
    s.callers[j]? = some ⟨key, .opening⟩ → i = j
  /-- no more than one opening of a key succeeds, -/
  single : log.Pairwise fun a b => a.key = b.key →
    ∀ h h', ¬ (a.outcome = .ok h ∧ b.outcome = .ok h')
  /-- nothing is opened that was there at first, -/
  needed : ∀ o ∈ log, table.get? o.key = none
  /-- and nobody opens twice. -/
  once : log.Pairwise fun a b => a.caller ≠ b.caller
  /-- Whoever asked for a key and got a mount got the same one. -/
  same : ∀ (key : String) (i j : Nat) (h h' : H), s.callers[i]? = some ⟨key, .done (.ok h)⟩ →
    s.callers[j]? = some ⟨key, .done (.ok h')⟩ → h = h'
  nodup : s.table.keys.Nodup
  /-- The table holds what it held at first, and what was opened by a caller who has put it there.
  -/
  holds : ∀ (key : String) (h : H), s.table.get? key = some h ↔ table.get? key = some h ∨
    ∃ i : Nat, ⟨i, key, .ok h⟩ ∈ log ∧ (s.callers[i]? = some ⟨key, .leaving (.ok h)⟩ ∨
      s.callers[i]? = some ⟨key, .done (.ok h)⟩)
  /-- An opening that fails does not change the table, nor does its caller afterwards. -/
  failed : ∀ (i : Nat) (key : String) (p : Phase H E) (e : E) (outcome : Except E H),
    s.callers[i]? = some ⟨key, p⟩ →
    p = .opening ∧ outcome = .error e ∨ p.told = some (.error e) →
    (s.step i outcome).table = s.table
  /-- Callers get the errors of the openings they made, and no others. -/
  told : ∀ (i : Nat) (key : String) (e : E), ⟨i, key, .error e⟩ ∈ log ↔
    s.callers[i]? = some ⟨key, .leaving (.error e)⟩ ∨
      s.callers[i]? = some ⟨key, .done (.error e)⟩

/-- Callers may take their turns in any order, and openings may turn out in any way: of each key
there is one opening at a time and one that succeeds at most, whose mount all who get one share. -/
theorem singleFlight_run {table : Table String H} (hnodup : table.keys.Nodup) (keys : List String)
    (schedule : List (Nat × Except E H)) :
    SingleFlight table keys ((arrive table keys).run schedule)
      ((arrive table keys).openings schedule) := by
  have hs := (orderly_arrive (E := E) hnodup keys).run schedule
  rw [List.nil_append] at hs
  refine ⟨?_, ?_, hs.single, hs.needed, hs.once, ?_, hs.nodup, ?_, ?_, ?_⟩
  · rw [keys_run, arrive, List.map_map]
    exact List.map_id keys
  · exact fun key i j hi hj => hs.alone i j _ _ hi hj rfl rfl rfl
  · intro key i j h h' hi hj
    have hfound := hs.found i _ h hi rfl
    rw [hs.found j _ h' hj rfl] at hfound
    exact (Option.some.inj hfound).symm
  · intro key h
    constructor
    · intro hget
      rcases hs.entries key h hget with htable | ⟨i, p, hlog, hi, hp⟩
      · exact Or.inl htable
      · refine Or.inr ⟨i, hlog, ?_⟩
        rcases Phase.handle?_eq_some.mp hp with rfl | rfl
        · exact Or.inl hi
        · exact Or.inr hi
    · rintro (htable | ⟨i, -, hi | hi⟩)
      · exact hs.kept key h htable
      · exact hs.found i _ h hi rfl
      · exact hs.found i _ h hi rfl
  · exact fun i key p e outcome hi hp => table_of_error hi hp
  · intro i key e
    constructor
    · intro hlog
      obtain ⟨p, hi, hp⟩ := hs.told _ hlog
      rcases Phase.told_eq_error.mp hp with rfl | rfl
      · exact Or.inl hi
      · exact Or.inr hi
    · rintro (hi | hi)
      · exact hs.failed i key _ e hi rfl
      · exact hs.failed i key _ e hi rfl

/-- Turns of four callers: the first opens in vain while the second waits, who then opens as well;
the third finds its key in the table, and the last comes when the second has gone. -/
def fourTurns : List (Nat × Except String Nat) :=
  [0, 1, 0, 0, 1, 2].map (·, .ok 0) ++ [(0, .error "damaged")] ++ [0, 1, 1].map (·, .ok 0) ++
    [(1, .ok 5)] ++ [1, 1, 3].map (·, .ok 0)

theorem singleFlight_fourTurns :
    (Table.keys [("b", 7)]).Nodup ∧
      SingleFlight [("b", 7)] ["a", "a", "b", "a"]
        ((arrive [("b", 7)] ["a", "a", "b", "a"]).run fourTurns)
        ((arrive [("b", 7)] ["a", "a", "b", "a"]).openings fourTurns) :=
  ⟨by decide, singleFlight_run (by decide) _ _⟩

example : ((arrive [("b", 7)] ["a", "a", "b", "a"]).run fourTurns).results =
    [.error "damaged", .ok 5, .ok 7, .ok 5] := rfl

end Crowd

theorem mounts_withLock (c : Cache) (key : String) : (c.withLock key).mounts = c.mounts := by
  unfold withLock
  split <;> rfl

/-- A caller who is alone comes to what the cache does in one go. -/
theorem runIn_alone (c : Cache) (provider : Provider) (backing : Path) (env : Env) (w : World) :
    let (r, c', w') := c.getOrCreate provider backing env w
    let (s, v) := runIn (openShared provider backing env)
      (Crowd.arrive c.mounts [keyOf backing]) w (List.replicate 6 0)
    s.results = [r] ∧ s.table = c'.mounts ∧ v = w' := by
  have hstart : (Crowd.arrive c.mounts [keyOf backing] : Crowd FileSystem Failure) =
      ⟨c.mounts, [], [⟨keyOf backing, .arriving⟩]⟩ := rfl
  rw [hstart]
  unfold getOrCreate
  cases hget : c.mounts.get? (keyOf backing) with
  | some fs =>
    simp [runIn, stepIn, Crowd.isOpening, Crowd.step, Crowd.moveTo, Crowd.results, hget]
  | none =>
    cases hopen : openShared provider backing env w with
    | mk r v =>
      cases r <;> simp [runIn, stepIn, Crowd.isOpening, Crowd.step, Crowd.moveTo, Crowd.results,
        hget, hopen, mounts_withLock]

end ZipMount.Cache
