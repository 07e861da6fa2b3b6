import ZipMount.Proofs.Calls
import ZipMount.Proofs.Listing

namespace ZipMount

/-- A file, or a directory with its entries in order. -/
inductive Node where
  | file (data : ByteArray)
  | directory (entries : List (String × Node))

namespace Node

open MemberKey

def isDirectory : Node → Bool
  | file _ => false
  | directory _ => true

def content : Node → Content
  | file data => .file data
  | directory _ => .directory

def names : Node → List String
  | file _ => []
  | directory es => es.map Prod.fst

/-- The entry under a name. -/
def entry? : Node → String → Option Node
  | file _, _ => none
  | directory es, s => es.lookup s

def find? : Node → MemberKey → Option Node
  | n, [] => some n
  | n, s :: k => (n.entry? s).bind fun c => c.find? k

/-- Changes the node that some names lead to. -/
def alter (f : Node → Node) : Node → MemberKey → Node
  | n, [] => f n
  | file data, _ :: _ => file data
  | directory es, s :: k =>
    directory (es.map fun e => if e.1 = s then (s, e.2.alter f k) else e)

def append (s : String) (leaf : Node) : Node → Node
  | file data => file data
  | directory es => directory (es ++ [(s, leaf)])

/-- Takes an entry out of a directory. -/
def without (s : String) : Node → Node
  | file data => file data
  | directory es => directory (es.filter fun e => e.1 ≠ s)

/-- A new node needs a parent that is a directory, and comes last in it. -/
def add (n : Node) (k : MemberKey) (leaf : Node) : Except Refusal Node :=
  match n.find? (parent k) with
  | none => .error .missing
  | some (file _) => .error .notADirectory
  | some (directory _) => .ok (n.alter (append (k.getLastD "") leaf) (parent k))

def makeDirectory (n : Node) (k : MemberKey) : Except Refusal Node :=
  match n.find? k with
  | some _ => .error .present
  | none => n.add k (directory [])

def writeFile (n : Node) (k : MemberKey) (data : ByteArray) (mode : WriteMode) :
    Except Refusal Node :=
  match n.find? k, mode with
  | some (directory _), _ => .error .isADirectory
  | some (file _), .createNew => .error .present
  | some (file _), .replace => .ok (n.alter (fun _ => file data) k)
  | none, _ => n.add k (file data)

def remove (n : Node) (k : MemberKey) : Except Refusal Node :=
  if k = [] then .error .root
  else match n.find? k with
    | none => .error .missing
    | some (directory (_ :: _)) => .error .notEmpty
    | some _ => .ok (n.alter (without (k.getLastD "")) (parent k))

def read (n : Node) (k : MemberKey) : Except Refusal ByteArray :=
  match n.find? k with
  | none => .error .missing
  | some (directory _) => .error .isADirectory
  | some (file data) => .ok data

def list (n : Node) (k : MemberKey) : Except Refusal (List MemberKey) :=
  match n.find? k with
  | none => .error .missing
  | some (file _) => .error .notADirectory
  | some (directory es) => .ok (es.map fun e => k ++ [e.1])

/-- The keys of a node and of all that is in it, each before what is in it; `k` is its own. -/
def preorder (order : WalkOrder) : Node → MemberKey → List MemberKey
  | file _, k => [k]
  | directory es, k =>
    k :: (order.arrange (fun a b => nameLe a.1 b.1)
      (es.attach.map fun e => (e.1.1, e.1.2.preorder order (k ++ [e.1.1])))).flatMap Prod.snd
termination_by n => sizeOf n
decreasing_by
  obtain ⟨⟨s, c⟩, he⟩ := e
  have h := List.sizeOf_lt_of_mem he
  simp only [Prod.mk.sizeOf_spec] at h
  simp only [directory.sizeOf_spec]
  omega

def walk (n : Node) (order : WalkOrder) (k : MemberKey) : Except Refusal (List MemberKey) :=
  match n.find? k with
  | none => .error .missing
  | some c => .ok (c.preorder order k)

def shown (n : Node) (k : MemberKey) : Option (Content × List String) :=
  (n.find? k).map fun c => (c.content, c.names)

theorem shown_nil (n : Node) : n.shown [] = some (n.content, n.names) := rfl

theorem shown_cons (n : Node) (s : String) (k : MemberKey) :
    n.shown (s :: k) = (n.entry? s).bind fun c => c.shown k := by
  simp only [shown, find?]
  cases n.entry? s <;> rfl

theorem find?_append (n : Node) (j k : MemberKey) :
    n.find? (j ++ k) = (n.find? j).bind fun c => c.find? k := by
  induction j generalizing n with
  | nil => rfl
  | cons s j ih =>
    simp only [List.cons_append, find?]
    cases n.entry? s with
    | none => rfl
    | some c => exact ih c

theorem find?_concat (n : Node) (p : MemberKey) (s : String) :
    n.find? (p ++ [s]) = (n.find? p).bind fun c => c.entry? s := by
  rw [find?_append]
  cases n.find? p with
  | none => rfl
  | some c =>
    change (c.entry? s).bind (fun d => some d) = c.entry? s
    exact Option.bind_fun_some (c.entry? s)

/-- An entry is in a directory. -/
theorem exists_entries_of_find? {n c : Node} {p : MemberKey} {s : String}
    (hk : n.find? (p ++ [s]) = some c) :
    ∃ es, n.find? p = some (directory es) ∧ es.lookup s = some c := by
  rw [find?_concat] at hk
  cases hp : n.find? p with
  | none => rw [hp] at hk; cases hk
  | some x =>
    rw [hp] at hk
    cases x with
    | file data => cases hk
    | directory es => exact ⟨es, rfl, hk⟩

theorem shown_append (n : Node) (j k : MemberKey) :
    n.shown (j ++ k) = (n.find? j).bind fun c => c.shown k := by
  simp only [shown, find?_append]
  cases n.find? j <;> rfl

theorem lookup_map_alter (f : Node → Node) (es : List (String × Node)) (a s : String)
    (k : MemberKey) :
    (es.map fun e => if e.1 = a then (a, e.2.alter f k) else e).lookup s =
      if s = a then (es.lookup a).map fun c => c.alter f k else es.lookup s := by
  induction es with
  | nil => simp
  | cons e es ih =>
    obtain ⟨b, c⟩ := e
    by_cases hb : b = a
    · subst hb
      by_cases hs : s = b
      · simp [hs]
      · have hs' : (s == b) = false := beq_eq_false_iff_ne.mpr hs
        simpa [List.lookup_cons, hs, hs'] using ih
    · by_cases hsb : s = b
      · subst hsb
        simp [hb]
      · have hs' : (s == b) = false := beq_eq_false_iff_ne.mpr hsb
        have ha' : (a == b) = false := beq_eq_false_iff_ne.mpr (Ne.symm hb)
        simpa [List.lookup_cons, hb, hs', ha'] using ih

/-- Changing the node at a key changes what is shown there and beneath, and nowhere else. -/
theorem shown_alter {f : Node → Node} {n x : Node} {p : MemberKey} (hp : n.find? p = some x)
    (j : MemberKey) :
    (n.alter f p).shown j =
      if p <+: j then (f x).shown (j.drop p.length) else n.shown j := by
  induction p generalizing n j with
  | nil =>
    cases hp
    simp [alter]
  | cons a p ih =>
    cases n with
    | file data => cases hp
    | directory es =>
      cases hc : es.lookup a with
      | none => simp [find?, entry?, hc] at hp
      | some c =>
        have hcp : c.find? p = some x := by simpa [find?, entry?, hc] using hp
        cases j with
        | nil =>
          have hnames : (es.map fun e => if e.1 = a then (a, e.2.alter f p) else e).map Prod.fst =
              es.map Prod.fst := by
            rw [List.map_map]
            apply List.map_congr_left
            intro e _
            by_cases he : e.1 = a
            · simp [he]
            · simp [he]
          simp [alter, shown_nil, content, names, hnames]
        | cons b j =>
          rw [alter, shown_cons, shown_cons, entry?, entry?, lookup_map_alter]
          by_cases hb : b = a
          · subst hb
            simpa [hc, List.prefix_cons_inj] using ih hcp j
          · have hpre : ¬ (a :: p <+: b :: j) := by
              intro h
              exact hb (List.cons_prefix_cons.mp h).1.symm
            rw [if_neg hb, if_neg hpre]

theorem shown_of_find? {n c : Node} {k : MemberKey} (hk : n.find? k = some c) :
    n.shown k = some (c.content, c.names) := by
  rw [shown, hk]
  rfl

/-- A node without entries shows itself only. -/
theorem shown_cons_of_names {n : Node} (hn : n.names = []) (s : String) (k : MemberKey) :
    n.shown (s :: k) = none := by
  rw [shown_cons]
  cases n with
  | file data => rfl
  | directory es =>
    have hes : es = [] := List.map_eq_nil_iff.mp hn
    subst hes
    rfl

/-- Giving a directory one more entry shows that entry, and its name last in the directory. -/
theorem shown_alter_append {n leaf : Node} {p : MemberKey} {es : List (String × Node)} {s : String}
    (hp : n.find? p = some (directory es)) (hs : es.lookup s = none) (hleaf : leaf.names = [])
    (j : MemberKey) :
    (n.alter (append s leaf) p).shown j =
      if j = p ++ [s] then some (leaf.content, [])
      else if j = p then some (.directory, es.map Prod.fst ++ [s])
      else n.shown j := by
  rw [shown_alter hp]
  by_cases hpre : p <+: j
  · obtain ⟨r, rfl⟩ := hpre
    rw [if_pos (List.prefix_append p r), List.drop_left]
    cases r with
    | nil => simp [append, shown_nil, content, names]
    | cons b r =>
      have hne : p ++ b :: r ≠ p := by simp
      have hsame : p ++ b :: r = p ++ [s] ↔ b = s ∧ r = [] := by simp
      have hold : n.shown (p ++ b :: r) = (es.lookup b).bind fun c => c.shown r := by
        rw [shown_append, hp, Option.bind_some, shown_cons, entry?]
      have hnew : (append s leaf (directory es)).shown (b :: r) =
          ((es ++ [(s, leaf)]).lookup b).bind fun c => c.shown r := shown_cons _ b r
      rw [if_neg hne, hold, hnew, List.lookup_append]
      by_cases hb : b = s
      · subst hb
        rw [hs]
        cases r with
        | nil => simp [shown_nil, hleaf]
        | cons c r => simp [shown_cons_of_names hleaf]
      · have hb' : (b == s) = false := beq_eq_false_iff_ne.mpr hb
        have hnot : ¬ (p ++ b :: r = p ++ [s]) := fun h => hb (hsame.mp h).1
        simp [hnot, List.lookup_cons, hb']
  · have hne : j ≠ p := by
      rintro rfl
      exact hpre (List.prefix_refl j)
    have hnot : j ≠ p ++ [s] := by
      rintro rfl
      exact hpre (List.prefix_append p [s])
    rw [if_neg hpre, if_neg hnot, if_neg hne]

/-- Giving a file other contents shows them in its place. -/
theorem shown_alter_file {n : Node} {k : MemberKey} {old : ByteArray}
    (hk : n.find? k = some (file old)) (data : ByteArray) (j : MemberKey) :
    (n.alter (fun _ => file data) k).shown j =
      if j = k then some (.file data, []) else n.shown j := by
  rw [shown_alter hk]
  by_cases hpre : k <+: j
  · obtain ⟨r, rfl⟩ := hpre
    rw [if_pos (List.prefix_append k r), List.drop_left]
    cases r with
    | nil => simp [shown_nil, content, names]
    | cons b r =>
      have hne : k ++ b :: r ≠ k := by simp
      rw [if_neg hne, shown_append, hk, Option.bind_some, shown_cons_of_names rfl,
        shown_cons_of_names rfl]
  · have hne : j ≠ k := by
      rintro rfl
      exact hpre (List.prefix_refl j)
    rw [if_neg hpre, if_neg hne]

theorem lookup_filter_ne (es : List (String × Node)) (s b : String) :
    (es.filter fun e => e.1 ≠ s).lookup b = if b = s then none else es.lookup b :=
  Table.get?_erase es s b

/-- Taking an entry without entries out of a directory shows neither it nor its name any more. -/
theorem shown_alter_without {n c : Node} {p : MemberKey} {es : List (String × Node)} {s : String}
    (hp : n.find? p = some (directory es)) (hs : es.lookup s = some c) (hc : c.names = [])
    (j : MemberKey) :
    (n.alter (without s) p).shown j =
      if j = p ++ [s] then none
      else if j = p then some (.directory, (es.map Prod.fst).filter (· ≠ s))
      else n.shown j := by
  rw [shown_alter hp]
  by_cases hpre : p <+: j
  · obtain ⟨r, rfl⟩ := hpre
    rw [if_pos (List.prefix_append p r), List.drop_left]
    cases r with
    | nil =>
      have hnames : (es.filter fun e => e.1 ≠ s).map Prod.fst =
          (es.map Prod.fst).filter (· ≠ s) := Table.keys_erase es s
      rw [if_neg (by simp), if_pos (List.append_nil p), shown_nil]
      rw [without, content, names, hnames]
    | cons b r =>
      have hne : p ++ b :: r ≠ p := by simp
      have hold : n.shown (p ++ b :: r) = (es.lookup b).bind fun c => c.shown r := by
        rw [shown_append, hp, Option.bind_some, shown_cons, entry?]
      have hnew : (without s (directory es)).shown (b :: r) =
          ((es.filter fun e => e.1 ≠ s).lookup b).bind fun c => c.shown r := shown_cons _ b r
      rw [if_neg hne, hold, hnew, lookup_filter_ne]
      by_cases hb : b = s
      · subst hb
        rw [if_pos rfl, hs]
        cases r with
        | nil => simp
        | cons d r => simp [shown_cons_of_names hc]
      · have hnot : ¬ (p ++ b :: r = p ++ [s]) := by simp [hb]
        rw [if_neg hb, if_neg hnot]
  · have hne : j ≠ p := by
      rintro rfl
      exact hpre (List.prefix_refl j)
    have hnot : j ≠ p ++ [s] := by
      rintro rfl
      exact hpre (List.prefix_append p [s])
    rw [if_neg hpre, if_neg hnot, if_neg hne]

/-- The keys of a directory and what is in it, entry by entry. -/
theorem preorder_directory (order : WalkOrder) (es : List (String × Node)) (k : MemberKey) :
    (directory es).preorder order k =
      k :: (order.arrange (fun a b => nameLe a.1 b.1) es).flatMap fun e =>
        e.2.preorder order (k ++ [e.1]) := by
  have hpairs : (es.attach.map fun e => (e.1.1, e.1.2.preorder order (k ++ [e.1.1]))) =
      es.map fun e => (e.1, e.2.preorder order (k ++ [e.1])) :=
    List.attach_map_val (f := fun e : String × Node => (e.1, e.2.preorder order (k ++ [e.1])))
  rw [preorder, hpairs, WalkOrder.arrange_map, List.flatMap_map]

end Node

end ZipMount
