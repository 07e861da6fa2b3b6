import ZipMount.Pathname

namespace ZipMount

/-- The names on the way to a member; none for the root. -/
abbrev MemberKey := List String

namespace MemberKey

/-- A segment put to the names before it. -/
def push (names : List String) (segment : String) : List String :=
  if segment = "" ∨ segment = "." then names
  else if segment = ".." then names.dropLast
  else names ++ [segment]

def segments (text : String) : List String :=
  (Text.pieces '/' text.toList).map String.ofList

def ofText (text : String) : MemberKey := (segments text).foldl push []

def text (k : MemberKey) : String := String.ofList (Text.joined '/' (k.map String.toList))

def ofPathname (p : Pathname) : MemberKey := ofText p.display

def pathname (k : MemberKey) : Pathname := Pathname.ofString ("/" ++ k.text)

def parent (k : MemberKey) : MemberKey := k.dropLast

/-- The text before the last slash of a text; nothing if it has none. -/
def beforeLastSlash (text : String) : String :=
  String.ofList ((text.toList.reverse.dropWhile (· ≠ '/')).drop 1).reverse

/-- A name is not empty, no dot or pair of dots, and holds no slash. -/
def IsName (s : String) : Prop := s ≠ "" ∧ s ≠ "." ∧ s ≠ ".." ∧ '/' ∉ s.toList

instance (s : String) : Decidable (IsName s) := inferInstanceAs (Decidable (_ ∧ _ ∧ _ ∧ _))

def Canonical (k : MemberKey) : Prop := ∀ s ∈ k, IsName s

instance (k : MemberKey) : Decidable (Canonical k) :=
  inferInstanceAs (Decidable (∀ s ∈ k, IsName s))

/-- The order of names: by their bytes. -/
def nameLe (a b : String) : Bool := decide (Text.bytes a ≤ Text.bytes b)

/-- The order of the members of one directory: by their last names. -/
def siblingLe (a b : MemberKey) : Bool := nameLe (a.getLastD "") (b.getLastD "")

theorem length_beforeLastSlash {t : String} (h : beforeLastSlash t ≠ "") :
    (beforeLastSlash t).length < t.length := by
  have hne : t.toList.reverse.dropWhile (· ≠ '/') ≠ [] := by
    intro hnil
    rw [beforeLastSlash, hnil] at h
    exact h rfl
  have hpos := List.length_pos_iff.mpr hne
  have hle := (List.dropWhile_sublist (l := t.toList.reverse) (· ≠ '/')).length_le
  rw [List.length_reverse] at hle
  rw [beforeLastSlash, String.length_ofList, List.length_reverse, List.length_drop,
    ← String.length_toList]
  omega

theorem slash_notMem_segments {s t : String} (h : s ∈ segments t) : '/' ∉ s.toList := by
  obtain ⟨p, hp, rfl⟩ := List.mem_map.1 h
  rw [String.toList_ofList]
  exact Text.not_mem_pieces hp

theorem canonical_nil : Canonical [] := by simp [Canonical]

theorem canonical_parent {k : MemberKey} (hk : Canonical k) : Canonical (parent k) :=
  fun s hs => hk s (List.dropLast_subset k hs)

theorem canonical_push {names : List String} {s : String} (hn : Canonical names)
    (hs : '/' ∉ s.toList) : Canonical (push names s) := by
  unfold push
  split
  · exact hn
  · split
    · exact canonical_parent hn
    · intro x hx
      rcases List.mem_append.1 hx with hx | hx
      · exact hn x hx
      · simp only [List.mem_singleton] at hx
        subst hx
        simp_all [IsName]

theorem canonical_foldl {names ss : List String} (hn : Canonical names)
    (hs : ∀ s ∈ ss, '/' ∉ s.toList) : Canonical (ss.foldl push names) := by
  induction ss generalizing names with
  | nil => exact hn
  | cons s ss ih =>
    exact ih (canonical_push hn (hs s List.mem_cons_self))
      fun t ht => hs t (List.mem_cons_of_mem _ ht)

theorem canonical_ofText (t : String) : Canonical (ofText t) :=
  canonical_foldl canonical_nil fun _ => slash_notMem_segments

theorem foldl_push_of_canonical (names : List String) {k : MemberKey} (hk : Canonical k) :
    k.foldl push names = names ++ k := by
  induction k generalizing names with
  | nil => simp
  | cons s k ih =>
    have hs := hk s List.mem_cons_self
    rw [List.foldl_cons, ih _ fun t ht => hk t (List.mem_cons_of_mem _ ht)]
    simp [push, hs.1, hs.2.1, hs.2.2.1]

theorem segments_text {k : MemberKey} (hne : k ≠ []) (hk : Canonical k) :
    segments k.text = k := by
  have h : ∀ p ∈ k.map String.toList, '/' ∉ p := by
    intro p hp
    obtain ⟨s, hs, rfl⟩ := List.mem_map.1 hp
    exact (hk s hs).2.2.2
  rw [segments, text, String.toList_ofList, Text.pieces_joined (by simpa using hne) h]
  simp [Function.comp_def]

theorem ofText_text {k : MemberKey} (hk : Canonical k) : ofText k.text = k := by
  by_cases hne : k = []
  · subst hne; rfl
  · rw [ofText, segments_text hne hk, foldl_push_of_canonical _ hk]; rfl

end MemberKey

end ZipMount
