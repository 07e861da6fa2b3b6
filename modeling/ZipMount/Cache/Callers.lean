import ZipMount.Cache.Basic

namespace ZipMount.Cache

/-- Where a caller is on its way. -/
inductive Phase (H E : Type) where
  | arriving
  | waiting
  | holding
  | opening
  | opened (h : H)
  | leaving (r : Except E H)
  | done (r : Except E H)

/-- A caller and the key it asks for. -/
structure Caller (H E : Type) where
  key : String
  phase : Phase H E

/-- What the callers share, and where each of them is. -/
structure Crowd (H E : Type) where
  table : Table String H
  locked : List String
  callers : List (Caller H E)

namespace Crowd

variable {H E : Type}

def arrive (table : Table String H) (keys : List String) : Crowd H E :=
  ⟨table, [], keys.map fun key => ⟨key, .arriving⟩⟩

/-- The crowd with a caller gone on to another phase. -/
def moveTo (s : Crowd H E) (i : Nat) (key : String) (phase : Phase H E) : Crowd H E :=
  { s with callers := s.callers.set i ⟨key, phase⟩ }

/-- One step of a caller; `outcome` is how its opening turns out if it is opening. A caller that
waits for a lock somebody holds, or is done, stays where it is. -/
def step (s : Crowd H E) (i : Nat) (outcome : Except E H) : Crowd H E :=
  match s.callers[i]? with
  | none => s
  | some ⟨key, .arriving⟩ =>
    match s.table.get? key with
    | some h => s.moveTo i key (.done (.ok h))
    | none => s.moveTo i key .waiting
  | some ⟨key, .waiting⟩ =>
    if key ∈ s.locked then s
    else { s with locked := key :: s.locked }.moveTo i key .holding
  | some ⟨key, .holding⟩ =>
    match s.table.get? key with
    | some h => s.moveTo i key (.leaving (.ok h))
    | none => s.moveTo i key .opening
  | some ⟨key, .opening⟩ =>
    match outcome with
    | .ok h => s.moveTo i key (.opened h)
    | .error e => s.moveTo i key (.leaving (.error e))
  | some ⟨key, .opened h⟩ => { s with table := s.table.put key h }.moveTo i key (.leaving (.ok h))
  | some ⟨key, .leaving r⟩ =>
    { s with locked := s.locked.filter (· ≠ key) }.moveTo i key (.done r)
  | some ⟨_, .done _⟩ => s

/-- Whether the next step of a caller is to open. -/
def isOpening (s : Crowd H E) (i : Nat) : Bool :=
  match s.callers[i]? with
  | some ⟨_, .opening⟩ => true
  | _ => false

def results (s : Crowd H E) : List (Except E H) :=
  s.callers.filterMap fun c =>
    match c.phase with
    | .done r => some r
    | _ => none

end Crowd

/-- The next step of a caller who opens by an action, if opening is what the step is. -/
def stepIn (act : Action FileSystem) (s : Crowd FileSystem Failure) (w : World) (i : Nat) :
    Crowd FileSystem Failure × World :=
  if s.isOpening i then
    let (outcome, w) := act w
    (s.step i outcome, w)
  else (s.step i (.ok .host), w)

/-- The steps of callers one after the other, as a schedule has them. -/
def runIn (act : Action FileSystem) (s : Crowd FileSystem Failure) (w : World)
    (schedule : List Nat) : Crowd FileSystem Failure × World :=
  schedule.foldl (fun (s, w) i => stepIn act s w i) (s, w)

/-- A schedule in which so many callers take turns until all are done: each of them holds the lock
for five steps at most. -/
def turns (callers : Nat) : List Nat :=
  (List.replicate (5 * callers + 3) (List.range callers)).flatten

/-- So many callers ask for the mount of one backing file, taking turns. -/
def race (c : Cache) (callers : Nat) (provider : Provider) (backing : Path) (env : Env)
    (w : World) : List (Except Failure FileSystem) × Cache × World :=
  let key := keyOf backing
  let start := Crowd.arrive c.mounts (List.replicate callers key)
  let (s, w) := runIn (openShared provider backing env) start w (turns callers)
  let c := if (c.mounts.get? key).isSome then c else c.withLock key
  (s.results, { c with mounts := s.table }, w)

end ZipMount.Cache
