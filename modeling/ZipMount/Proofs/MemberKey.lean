import ZipMount.Archive.Image
import ZipMount.Proofs.Text

namespace ZipMount.MemberKey

theorem parent_length_lt {k : MemberKey} (hk : k ≠ []) : (parent k).length < k.length := by
  have h := List.length_pos_iff.mpr hk
  rw [parent, List.length_dropLast]
  omega

theorem parent_ne_self {k : MemberKey} (hk : k ≠ []) : parent k ≠ k := by
  intro h
  have hl := parent_length_lt hk
  rw [h] at hl
  exact Nat.lt_irrefl _ hl

theorem parent_concat (k : MemberKey) (s : String) : parent (k ++ [s]) = k :=
  List.dropLast_concat

theorem parent_isPrefix (k : MemberKey) : parent k <+: k := List.dropLast_prefix k

theorem canonical_append {j k : MemberKey} (hj : Canonical j) (hk : Canonical k) :
    Canonical (j ++ k) := by
  intro s hs
  rcases List.mem_append.mp hs with h | h
  · exact hj s h
  · exact hk s h

theorem prefix_parent {p k : MemberKey} (h : p <+: k) (hne : p ≠ k) : p <+: parent k := by
  obtain ⟨s, rfl⟩ := h
  have hs : s ≠ [] := by
    rintro rfl
    exact hne (List.append_nil p).symm
  rw [parent, List.dropLast_append_of_ne_nil hs]
  exact List.prefix_append p s.dropLast

theorem mem_starts {α : Type} {p l : List α} (h : p ∈ starts l) : p ≠ [] ∧ p <+: l := by
  induction l generalizing p with
  | nil => cases h
  | cons x xs ih =>
    rcases List.mem_cons.mp h with rfl | h
    · exact ⟨by simp, by simp⟩
    · obtain ⟨q, hq, rfl⟩ := List.mem_map.mp h
      obtain ⟨-, hpre⟩ := ih hq
      exact ⟨by simp, (List.prefix_cons_inj x).mpr hpre⟩

theorem starts_of_prefix {α : Type} {p l : List α} (hp : p ≠ []) (h : p <+: l) :
    p ∈ starts l := by
  induction l generalizing p with
  | nil => exact absurd (List.prefix_nil.mp h) hp
  | cons x xs ih =>
    obtain ⟨y, q, rfl⟩ := List.exists_cons_of_ne_nil hp
    obtain ⟨rfl, hq⟩ := List.cons_prefix_cons.mp h
    by_cases hnil : q = []
    · subst hnil
      exact List.mem_cons_self
    · exact List.mem_cons_of_mem _ (List.mem_map_of_mem (ih hnil hq))

theorem starts_concat {α : Type} (l : List α) (x : α) :
    starts (l ++ [x]) = starts l ++ [l ++ [x]] := by
  induction l with
  | nil => rfl
  | cons y l ih =>
    change [y] :: (starts (l ++ [x])).map (y :: ·) = _
    rw [ih, List.map_append]
    rfl

/-- A text that neither starts nor ends in a slash. -/
def Bare (text : List Char) : Prop := text.head? ≠ some '/' ∧ text.getLast? ≠ some '/'

theorem bare_name {s : String} (hs : IsName s) : Bare s.toList ∧ s.toList ≠ [] := by
  obtain ⟨hne, -, -, hslash⟩ := hs
  refine ⟨⟨?_, ?_⟩, ?_⟩
  · exact fun h => hslash (List.mem_of_mem_head? h)
  · exact fun h => hslash (List.mem_of_getLast? h)
  · exact fun h => hne (String.toList_eq_nil_iff.mp h)

theorem bare_joined {ps : List (List Char)} (hne : ps ≠ []) (h : ∀ p ∈ ps, Bare p ∧ p ≠ []) :
    Bare (Text.joined '/' ps) ∧ Text.joined '/' ps ≠ [] := by
  induction ps with
  | nil => exact absurd rfl hne
  | cons p ps ih =>
    obtain ⟨hp, hpn⟩ := h p List.mem_cons_self
    cases ps with
    | nil => exact ⟨hp, hpn⟩
    | cons q qs =>
      obtain ⟨hrest, hrestn⟩ := ih (by simp) fun r hr => h r (List.mem_cons_of_mem _ hr)
      rw [Text.joined_cons (by simp)]
      refine ⟨⟨?_, ?_⟩, by simp [hpn]⟩
      · obtain ⟨c, cs, rfl⟩ := List.exists_cons_of_ne_nil hpn
        exact hp.1
      · rw [List.getLast?_append, List.getLast?_cons_of_ne_nil hrestn,
          List.getLast?_eq_some_getLast hrestn, Option.some_or]
        rw [← List.getLast?_eq_some_getLast hrestn]
        exact hrest.2

/-- A key made of names is written without a slash at either end. -/
theorem text_bare {k : MemberKey} (hk : Canonical k) : Bare k.text.toList := by
  by_cases hne : k = []
  · subst hne
    simp [text, Text.joined, Bare]
  · rw [text, String.toList_ofList]
    refine (bare_joined (by simpa using hne) ?_).1
    intro p hp
    obtain ⟨s, hs, rfl⟩ := List.mem_map.mp hp
    exact bare_name (hk s hs)

theorem text_singleton (s : String) : text [s] = s := String.ofList_toList

theorem text_cons {k : MemberKey} (hk : k ≠ []) (s : String) :
    text (s :: k) = s ++ ("/" ++ k.text) := by
  apply String.toList_inj.mp
  rw [text, String.toList_ofList, List.map_cons, Text.joined_cons (by simpa using hk), text]
  simp

theorem text_concat {k : MemberKey} (hk : k ≠ []) (s : String) :
    text (k ++ [s]) = k.text ++ "/" ++ s := by
  apply String.toList_inj.mp
  rw [text, text, List.map_append, Text.joined_append (by simpa using hk) (by simp)]
  simp [Text.joined]

theorem eq_nil_of_text {k : MemberKey} (hk : Canonical k) (h : k.text = "") : k = [] := by
  rw [← ofText_text hk, h]
  rfl

theorem segments_append_slash (a b : String) :
    segments (a ++ "/" ++ b) = segments a ++ segments b := by
  have hl : (a ++ "/" ++ b).toList = a.toList ++ '/' :: b.toList := by simp
  rw [segments, hl, Text.pieces_append_sep, List.map_append]
  rfl

/-- A slash at the end of a text means nothing. -/
theorem ofText_append_slash (s : String) : ofText (s ++ "/") = ofText s := by
  have h := segments_append_slash s ""
  rw [String.append_empty] at h
  rw [ofText, h, List.foldl_append]
  rfl

/-- Nor does one at the start. -/
theorem ofText_slash_append (s : String) : ofText ("/" ++ s) = ofText s := by
  have h := segments_append_slash "" s
  rw [String.empty_append] at h
  rw [ofText, h, List.foldl_append]
  rfl

/-- A text taken from the root is a text with a slash at its start. -/
theorem join_root (text : String) : Pathname.join ⟨[47]⟩ (.ofString text) =
    .ofString (if (Pathname.ofString text).isAbsolute then text else "/" ++ text) := by
  have hslash : Text.bytes "/" = [47] := by decide
  rw [Pathname.join]
  split
  · rfl
  · rw [Pathname.ofString, Pathname.ofString, Text.bytes_append, hslash]
    rfl

/-- A text names the same member whether or not it is taken from the root. -/
theorem ofPathname_join_root (text : String) :
    ofPathname (Pathname.join ⟨[47]⟩ (.ofString text)) = ofText text := by
  rw [join_root, ofPathname, Pathname.display_ofString]
  split
  · rfl
  · exact ofText_slash_append text

end ZipMount.MemberKey
