import ZipMount.Text.Pieces
import ZipMount.Text.Utf8

namespace ZipMount.Text

theorem bytes_append (s t : String) : bytes (s ++ t) = bytes s ++ bytes t := by
  simp [bytes]

theorem bytes_ofList (cs : List Char) :
    bytes (String.ofList cs) = cs.flatMap String.utf8EncodeChar := by
  change (cs.flatMap String.utf8EncodeChar).toByteArray.data.toList = _
  simp

theorem bytes_eq_flatMap (s : String) : bytes s = s.toList.flatMap String.utf8EncodeChar := by
  have h := bytes_ofList s.toList
  rw [String.ofList_toList] at h
  exact h

theorem ascii_of_all {s : String} (h : (s.toList.all fun c => c.toNat < 128) = true) :
    ∀ c ∈ s.toList, c.toNat < 128 :=
  fun c hc => of_decide_eq_true (List.all_eq_true.mp h c hc)

/-- A byte below 128 stands for the character of that number. -/
theorem toNat_of_mem_utf8EncodeChar {c : Char} {b : UInt8} (hb : b ∈ String.utf8EncodeChar c)
    (hlt : b.toNat < 128) : b.toNat = c.toNat := by
  unfold String.utf8EncodeChar at hb
  simp only at hb
  split at hb
  · next hle =>
    rw [List.mem_singleton] at hb
    subst hb
    change (UInt8.ofNat c.toNat).toNat = c.toNat
    have hle : c.toNat ≤ 127 := hle
    rw [UInt8.toNat_ofNat']
    omega
  · split at hb
    · simp only [List.mem_cons, List.not_mem_nil, or_false] at hb
      rcases hb with rfl | rfl <;> simp only [UInt8.toNat_ofNat'] at hlt <;> omega
    · split at hb
      · simp only [List.mem_cons, List.not_mem_nil, or_false] at hb
        rcases hb with rfl | rfl | rfl <;> simp only [UInt8.toNat_ofNat'] at hlt <;> omega
      · simp only [List.mem_cons, List.not_mem_nil, or_false] at hb
        rcases hb with rfl | rfl | rfl | rfl <;> simp only [UInt8.toNat_ofNat'] at hlt <;> omega

/-- An ASCII byte is in the code of its character only. -/
theorem eq_of_mem_utf8EncodeChar {c d : Char} (hd : d.toNat < 128)
    (h : UInt8.ofNat d.toNat ∈ String.utf8EncodeChar c) : c = d := by
  have hbyte : (UInt8.ofNat d.toNat).toNat = d.toNat := by
    rw [UInt8.toNat_ofNat']
    omega
  have hn := toNat_of_mem_utf8EncodeChar h (by rw [hbyte]; exact hd)
  apply Char.ext
  apply UInt32.toNat_inj.mp
  exact hn.symm.trans hbyte

theorem slash_mem_bytes {s : String} : 47 ∈ bytes s ↔ '/' ∈ s.toList := by
  rw [bytes_eq_flatMap, List.mem_flatMap]
  constructor
  · rintro ⟨c, hc, hb⟩
    have hslash : c = '/' := eq_of_mem_utf8EncodeChar (by decide) hb
    rw [← hslash]
    exact hc
  · intro hc
    exact ⟨'/', hc, by decide⟩

/-- A text whose bytes end in a slash ends in one. -/
theorem getLast?_of_bytes {s : String} (hs : (bytes s).getLast? = some 47) :
    s.toList.getLast? = some '/' := by
  rw [bytes_eq_flatMap] at hs
  cases hlast : s.toList.getLast? with
  | none =>
    rw [List.getLast?_eq_none_iff.mp hlast] at hs
    cases hs
  | some c =>
    obtain ⟨cs, hcs⟩ := List.getLast?_eq_some_iff.mp hlast
    rw [hcs, List.flatMap_append, List.flatMap_singleton, List.getLast?_append,
      List.getLast?_eq_some_getLast String.utf8EncodeChar_ne_nil, Option.some_or,
      ← List.getLast?_eq_some_getLast] at hs
    have hslash : c = '/' := eq_of_mem_utf8EncodeChar (by decide) (List.mem_of_getLast? hs)
    rw [hslash]

theorem utf8EncodeChar_of_ascii {d : Char} (hd : d.toNat < 128) :
    String.utf8EncodeChar d = [UInt8.ofNat d.toNat] := by
  have hle : d.val.toNat ≤ 127 := Nat.le_of_lt_succ hd
  unfold String.utf8EncodeChar
  exact if_pos hle

/-- Characters whose code starts with that of ASCII characters start with those. -/
theorem prefix_of_flatMap_prefix {as cs : List Char} (ha : ∀ c ∈ as, c.toNat < 128)
    (h : as.flatMap String.utf8EncodeChar <+: cs.flatMap String.utf8EncodeChar) : as <+: cs := by
  induction as generalizing cs with
  | nil => exact List.nil_prefix
  | cons d as ih =>
    have hd := ha d List.mem_cons_self
    have hcode := utf8EncodeChar_of_ascii hd
    rw [List.flatMap_cons, hcode, List.singleton_append] at h
    cases cs with
    | nil => exact absurd h (by simp)
    | cons c cs =>
      obtain ⟨b, bs, hc⟩ := List.exists_cons_of_ne_nil (String.utf8EncodeChar_ne_nil (c := c))
      have hfirst := h
      rw [List.flatMap_cons, hc, List.cons_append] at hfirst
      obtain ⟨rfl, -⟩ := List.cons_prefix_cons.mp hfirst
      have hsame : c = d := eq_of_mem_utf8EncodeChar hd (hc ▸ List.mem_cons_self)
      rw [List.flatMap_cons, hsame, hcode, List.singleton_append] at h
      have hrest := ih (fun c hc => ha c (List.mem_cons_of_mem d hc)) (List.cons_prefix_cons.mp h).2
      rw [hsame]
      exact (List.prefix_cons_inj d).mpr hrest

/-- A text whose bytes start with those of an ASCII text starts with that text. -/
theorem exists_append_of_prefix {a u : String} (ha : ∀ c ∈ a.toList, c.toNat < 128)
    (h : bytes a <+: bytes u) : ∃ s, u = a ++ s := by
  rw [bytes_eq_flatMap, bytes_eq_flatMap] at h
  obtain ⟨cs, hcs⟩ := prefix_of_flatMap_prefix ha h
  refine ⟨String.ofList cs, String.toList_inj.mp ?_⟩
  rw [String.toList_append, String.toList_ofList, hcs]

/-- A text that ends in a backslash does so in bytes. -/
theorem getLast?_bytes {s : String} (hs : s.toList.getLast? = some '\\') :
    (bytes s).getLast? = some 92 := by
  obtain ⟨cs, hcs⟩ := List.getLast?_eq_some_iff.mp hs
  have hback : String.utf8EncodeChar '\\' = [92] := by decide
  rw [bytes_eq_flatMap, hcs, List.flatMap_append, List.flatMap_singleton, hback,
    List.getLast?_concat]

theorem bytes_joined (ps : List (List Char)) :
    bytes (String.ofList (joined '/' ps)) = joined 47 (ps.map fun p => bytes (String.ofList p)) := by
  have hslash : bytes "/" = [47] := by decide
  induction ps with
  | nil => rfl
  | cons p ps ih =>
    by_cases hne : ps = []
    · subst hne
      rfl
    · have hsplit : String.ofList (p ++ '/' :: joined '/' ps) =
          String.ofList p ++ ("/" ++ String.ofList (joined '/' ps)) := by
        apply String.toList_inj.mp
        simp
      have hmap : (ps.map fun p => bytes (String.ofList p)) ≠ [] := by simpa using hne
      rw [joined_cons hne, hsplit, bytes_append, bytes_append, hslash, ih, List.map_cons,
        joined_cons hmap]
      rfl

/-- Cutting a text at its slashes and cutting its bytes come to the same. -/
theorem pieces_bytes (cs : List Char) :
    pieces 47 (bytes (String.ofList cs)) =
      (pieces '/' cs).map fun p => bytes (String.ofList p) := by
  have hbytes : ∀ b ∈ (pieces '/' cs).map fun p => bytes (String.ofList p), (47 : UInt8) ∉ b := by
    intro b hb hmem
    obtain ⟨p, hp, rfl⟩ := List.mem_map.mp hb
    have hc := slash_mem_bytes.mp hmem
    rw [String.toList_ofList] at hc
    exact not_mem_pieces hp hc
  have hne := pieces_ne_nil '/' cs
  have hjoined := bytes_joined (pieces '/' cs)
  rw [joined_pieces] at hjoined
  rw [hjoined, pieces_joined (by simpa using hne) hbytes]

theorem pieces_append_sep {α : Type} [DecidableEq α] (sep : α) (xs ys : List α) :
    pieces sep (xs ++ sep :: ys) = pieces sep xs ++ pieces sep ys := by
  induction xs with
  | nil => simp [pieces]
  | cons x xs ih =>
    simp only [List.cons_append, pieces, ih]
    split
    · rfl
    · cases hp : pieces sep xs with
      | nil => exact absurd hp (pieces_ne_nil sep xs)
      | cons p ps => rfl

theorem joined_append {α : Type} {sep : α} {xs ys : List (List α)} (hx : xs ≠ []) (hy : ys ≠ []) :
    joined sep (xs ++ ys) = joined sep xs ++ sep :: joined sep ys := by
  induction xs with
  | nil => exact absurd rfl hx
  | cons x xs ih =>
    rw [List.cons_append]
    by_cases hnil : xs = []
    · subst hnil
      rw [List.nil_append, joined_cons hy]
      rfl
    · rw [joined_cons (by simp [hnil]), joined_cons hnil, ih hnil]
      simp

end ZipMount.Text
