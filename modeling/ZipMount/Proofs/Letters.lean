import Mathlib.Data.List.Chain
import ZipMount.Proofs.Text
import ZipMount.Text.Letters

namespace ZipMount.Text

/-- The text is the word but for the case of ASCII letters. -/
def CaseVariant (word s : String) : Prop :=
  s.toList.map Char.toLower = word.toList.map Char.toLower

/-- The ASCII letters that a long s or a ligature of small letters stands for; any other character
stands for itself. -/
def asciiLetters (c : Char) : List Char :=
  match c.toNat with
  | 0x017F => ['s']
  | 0xFB02 => ['f', 'l']
  | 0xFB05 => ['s', 't']
  | 0xFB06 => ['s', 't']
  | _ => [c]

/-- The text with such letters spelled out. -/
def spelledOut (s : String) : String := String.ofList (s.toList.flatMap asciiLetters)

theorem ascii_forall {P : Char → Prop} (h : ∀ n < 128, P (Char.ofNat n)) {c : Char}
    (hc : c.toNat < 128) : P c := by
  have hself := h c.toNat hc
  rwa [Char.ofNat_toNat] at hself

theorem toNat_lt_of_isLower {c : Char} (hc : c.isLower = true) : c.toNat < 128 := by
  delta Char.isLower at hc
  rw [Bool.and_eq_true, decide_eq_true_eq, decide_eq_true_eq] at hc
  exact Nat.lt_of_le_of_lt (UInt32.le_iff_toNat_le.mp hc.2) (by decide)

theorem toNat_lt_of_isUpper {c : Char} (hc : c.isUpper = true) : c.toNat < 128 :=
  Nat.lt_of_le_of_lt (UInt32.le_iff_toNat_le.mp (of_decide_eq_true hc).2) (by decide)

theorem toUpper_of_not_isLower {c : Char} (hc : c.isLower = false) : c.toUpper = c := by
  delta Char.isLower at hc
  rw [Bool.and_eq_false_iff, decide_eq_false_iff_not, decide_eq_false_iff_not] at hc
  unfold Char.toUpper
  rw [dif_neg]
  rintro ⟨hge, hle⟩
  exact hc.elim (absurd hge) (absurd hle)

theorem toLower_of_not_isUpper {c : Char} (hc : c.isUpper = false) : c.toLower = c := by
  unfold Char.toLower
  rw [dif_neg (of_decide_eq_false hc)]

theorem toUpper_of_not_ascii {c : Char} (hc : 128 ≤ c.toNat) : c.toUpper = c := by
  apply toUpper_of_not_isLower
  rw [Bool.eq_false_iff]
  exact fun hlower => absurd (toNat_lt_of_isLower hlower) (Nat.not_lt.mpr hc)

theorem toLower_of_not_ascii {c : Char} (hc : 128 ≤ c.toNat) : c.toLower = c := by
  apply toLower_of_not_isUpper
  rw [Bool.eq_false_iff]
  exact fun hupper => absurd (toNat_lt_of_isUpper hupper) (Nat.not_lt.mpr hc)

theorem asciiLetters_of_ascii {c : Char} (hc : c.toNat < 128) : asciiLetters c = [c] := by
  unfold asciiLetters
  split <;> first | omega | rfl

theorem toUpper_toLower (c : Char) : c.toLower.toUpper = c.toUpper := by
  rcases Nat.lt_or_ge c.toNat 128 with hc | hc
  · exact ascii_forall (P := fun c => c.toLower.toUpper = c.toUpper) (by decide +kernel) hc
  · rw [toLower_of_not_ascii hc]

theorem toLower_toUpper (c : Char) : c.toUpper.toLower = c.toLower := by
  rcases Nat.lt_or_ge c.toNat 128 with hc | hc
  · exact ascii_forall (P := fun c => c.toUpper.toLower = c.toLower) (by decide +kernel) hc
  · rw [toUpper_of_not_ascii hc]

theorem map_toUpper_iff {cs ds : List Char} :
    cs.map Char.toUpper = ds.map Char.toUpper ↔ cs.map Char.toLower = ds.map Char.toLower := by
  have hupper : ∀ es : List Char, (es.map Char.toLower).map Char.toUpper = es.map Char.toUpper := by
    intro es
    rw [List.map_map]
    exact List.map_congr_left fun c _ => toUpper_toLower c
  have hlower : ∀ es : List Char, (es.map Char.toUpper).map Char.toLower = es.map Char.toLower := by
    intro es
    rw [List.map_map]
    exact List.map_congr_left fun c _ => toLower_toUpper c
  constructor
  · intro h
    rw [← hlower cs, h, hlower]
  · intro h
    rw [← hupper cs, h, hupper]

/-- Nothing is to be spelled out in what is an ASCII word but for case. -/
theorem CaseVariant.spelledOut_eq {word s : String} (hascii : ∀ c ∈ word.toList, c.toNat < 128)
    (h : CaseVariant word s) : spelledOut s = s := by
  have hplain : ∀ c ∈ s.toList, asciiLetters c = [c] := by
    intro c hc
    have hlower : c.toLower ∈ word.toList.map Char.toLower := by
      rw [← h]
      exact List.mem_map_of_mem hc
    obtain ⟨d, hd, hdc⟩ := List.mem_map.mp hlower
    have hlt : c.toNat < 128 := by
      by_contra hge
      rw [toLower_of_not_ascii (Nat.not_lt.mp hge)] at hdc
      have hlow : d.toLower.toNat < 128 :=
        ascii_forall (P := fun d => d.toLower.toNat < 128) (by decide +kernel) (hascii d hd)
      rw [hdc] at hlow
      exact hge hlow
    exact asciiLetters_of_ascii hlt
  rw [spelledOut, List.flatMap_congr hplain, ← List.map_eq_flatMap, List.map_id',
    String.ofList_toList]

/-- Two ways to write a text give a word alike, if they differ in nothing that is in the word. -/
theorem flatMap_eq_iff {α β : Type} {f g : α → List β} {xs : List α} {word : List β}
    (h : ∀ x, f x <:+: word ∨ g x <:+: word → f x = g x) :
    xs.flatMap f = word ↔ xs.flatMap g = word := by
  have hpart : ∀ (f : α → List β), ∀ x ∈ xs, f x <:+: xs.flatMap f := fun f x hx =>
    List.infix_of_mem_flatten (List.mem_map_of_mem hx)
  constructor
  · rintro rfl
    exact List.flatMap_congr fun x hx => (h x (Or.inl (hpart f x hx))).symm
  · rintro rfl
    exact List.flatMap_congr fun x hx => h x (Or.inr (hpart g x hx))

/-- What becomes of a character in capitals is what it is spelled out as, in capitals, unless it is
one of those that stand for an I or for a letter twice. -/
theorem capitals_eq (c : Char) : capitals c = (asciiLetters c).map Char.toUpper ∨
    128 ≤ c.toNat ∧ asciiLetters c = [c] ∧
      ('I' ∈ capitals c ∨ ∃ d rest, capitals c = d :: d :: rest) := by
  cases hlower : c.isLower with
  | true =>
    left
    rw [asciiLetters_of_ascii (toNat_lt_of_isLower hlower), capitals, if_pos hlower]
    rfl
  | false =>
    have hself := toUpper_of_not_isLower hlower
    unfold capitals asciiLetters
    rw [hlower]
    simp only [Bool.false_eq_true, if_false]
    split <;> simp_all

/-- What becomes of a character in small letters is the small letter, unless it is a Kelvin sign or
a capital I with a dot. -/
theorem smalls_eq (c : Char) : smalls c = [c.toLower] ∨
    128 ≤ c.toNat ∧ ('i' ∈ smalls c ∨ 'k' ∈ smalls c) := by
  cases hupper : c.isUpper with
  | true =>
    left
    rw [smalls, if_pos hupper]
  | false =>
    have hself := toLower_of_not_isUpper hupper
    unfold smalls
    rw [hupper]
    simp only [Bool.false_eq_true, if_false]
    split <;> simp_all

/-- A text is put into a word in capitals just if it is the word but for case, with the letters
outside ASCII spelled out that stand for ASCII letters. -/
theorem inCapitals_eq_iff {word : String} (hword : word.toList.map Char.toUpper = word.toList)
    (hascii : ∀ c ∈ word.toList, c.toNat < 128) (hi : 'I' ∉ word.toList)
    (htwice : word.toList.IsChain (· ≠ ·)) (s : String) :
    inCapitals s = word ↔ CaseVariant word (spelledOut s) := by
  rw [CaseVariant, ← map_toUpper_iff, hword, ← String.toList_inj, inCapitals, String.toList_ofList,
    spelledOut, String.toList_ofList, List.map_flatMap]
  apply flatMap_eq_iff
  intro c hc
  rcases capitals_eq c with heq | ⟨hge, hself, hnone⟩
  · exact heq
  · exfalso
    rcases hc with hc | hc
    · rcases hnone with h | ⟨d, rest, h⟩
      · exact hi (hc.subset h)
      · have hpart : (capitals c).IsChain (· ≠ ·) := List.IsChain.infix htwice hc
        rw [h] at hpart
        exact (List.isChain_cons_cons.mp hpart).1 rfl
    · rw [hself, List.map_singleton, toUpper_of_not_ascii hge] at hc
      exact absurd (hascii c (hc.subset List.mem_cons_self)) (Nat.not_lt.mpr hge)

/-- A text is put into a word in small letters just if it is the word but for case. -/
theorem inSmalls_eq_iff {word : String} (hword : word.toList.map Char.toLower = word.toList)
    (hascii : ∀ c ∈ word.toList, c.toNat < 128) (hi : 'i' ∉ word.toList) (hk : 'k' ∉ word.toList)
    (s : String) : inSmalls s = word ↔ CaseVariant word s := by
  rw [CaseVariant, hword, ← String.toList_inj, inSmalls, String.toList_ofList, List.map_eq_flatMap]
  apply flatMap_eq_iff
  intro c hc
  rcases smalls_eq c with heq | ⟨hge, hnone⟩
  · exact heq
  · exfalso
    rcases hc with hc | hc
    · rcases hnone with h | h
      · exact hi (hc.subset h)
      · exact hk (hc.subset h)
    · rw [toLower_of_not_ascii hge] at hc
      exact absurd (hascii c (hc.subset List.mem_cons_self)) (Nat.not_lt.mpr hge)

end ZipMount.Text
