import ZipMount.Proofs.Locator

namespace ZipMount.FileUri

/-- The digits of hexadecimal numbers in their order, -/
def capitalDigits : List UInt8 := Text.bytes "0123456789ABCDEF"

/-- and with small letters. -/
def smallDigits : List UInt8 := Text.bytes "0123456789abcdef"

def HexDigit (b : UInt8) (n : Nat) : Prop := capitalDigits[n]? = some b ∨ smallDigits[n]? = some b

/-- A digit of a value, or a plus sign, which counts as a zero. -/
def DigitOrPlus (b : UInt8) (n : Nat) : Prop := HexDigit b n ∨ (b = 43 ∧ n = 0)

section

variable (Lead : UInt8 → Nat → Prop)

/-- Every percent sign has the two digits of a number after it. What the first of them may be is
left open. -/
def WellEscaped (part : List UInt8) : Prop :=
  ∀ before after, part = before ++ 37 :: after →
    ∃ h l rest m n, after = h :: l :: rest ∧ Lead h m ∧ HexDigit l n

/-- The bytes that are denoted: for a percent sign with its number the byte of that number, and
otherwise each byte itself. -/
inductive Denotes : List UInt8 → List UInt8 → Prop where
  | nil : Denotes [] []
  | kept {b : UInt8} {part bs : List UInt8} (hb : b ≠ 37) (hrest : Denotes part bs) :
      Denotes (b :: part) (b :: bs)
  | number {h l : UInt8} {m n : Nat} {part bs : List UInt8} (hh : Lead h m) (hl : HexDigit l n)
      (hrest : Denotes part bs) : Denotes (37 :: h :: l :: part) (UInt8.ofNat (16 * m + n) :: bs)

/-- How a text is taken: as a URI just if a part that starts with a slash and is well escaped comes
after the scheme, and then as the path that the part denotes. -/
structure ReadWith (uri : String) : Prop where
  accepted : (toPathname? uri).isSome ↔ ∃ part, uri = "file://" ++ part ∧
    (∃ rest, part = "/" ++ rest) ∧ WellEscaped Lead (Text.bytes part)
  denoted : ∀ part p, uri = "file://" ++ part → toPathname? uri = some p →
    Denotes Lead (Text.bytes part) p.bytes

end

theorem HexDigit.lt {b : UInt8} {n : Nat} (h : HexDigit b n) : n < 16 := by
  rcases h with h | h
  · exact (List.getElem?_eq_some_iff.mp h).1
  · exact (List.getElem?_eq_some_iff.mp h).1

theorem digitValue?_of_hexDigit {b : UInt8} {n : Nat} (h : HexDigit b n) :
    digitValue? b = some (UInt8.ofNat n) := by
  have hcapital : ∀ n < 16, (capitalDigits[n]?).bind digitValue? = some (UInt8.ofNat n) := by decide
  have hsmall : ∀ n < 16, (smallDigits[n]?).bind digitValue? = some (UInt8.ofNat n) := by decide
  have hlt := h.lt
  rcases h with h | h
  · have hn := hcapital n hlt
    rw [h] at hn
    exact hn
  · have hn := hsmall n hlt
    rw [h] at hn
    exact hn

theorem hexDigit_of_digitValue? {b v : UInt8} (h : digitValue? b = some v) :
    HexDigit b v.toNat := by
  have hall : ∀ m < 256, ∀ v ∈ digitValue? (UInt8.ofNat m),
      capitalDigits[v.toNat]? = some (UInt8.ofNat m) ∨
        smallDigits[v.toNat]? = some (UInt8.ofNat m) := by
    decide +kernel
  have hb := hall b.toNat b.toNat_lt
  rw [UInt8.ofNat_toNat] at hb
  exact hb v h

theorem not_hexDigit_percent (n : Nat) : ¬ HexDigit 37 n := by
  intro h
  cases digitValue?_of_hexDigit h

theorem not_hexDigit_plus (n : Nat) : ¬ HexDigit 43 n := by
  intro h
  cases digitValue?_of_hexDigit h

theorem not_digitOrPlus_percent (n : Nat) : ¬ DigitOrPlus 37 n := by
  rintro (h | ⟨h, -⟩)
  · exact not_hexDigit_percent n h
  · cases h

/-- The two bytes after a percent sign are a number just if they are digits, or a digit after a plus
sign. -/
theorem numberValue?_eq_some {h l v : UInt8} : numberValue? h l = some v ↔
    ∃ m n, DigitOrPlus h m ∧ HexDigit l n ∧ v = UInt8.ofNat (16 * m + n) := by
  unfold numberValue?
  constructor
  · intro hv
    split at hv
    · next hplus =>
      refine ⟨0, v.toNat, Or.inr ⟨hplus, rfl⟩, hexDigit_of_digitValue? hv, ?_⟩
      rw [Nat.mul_zero, Nat.zero_add, UInt8.ofNat_toNat]
    · obtain ⟨a, ha, hv⟩ := Option.bind_eq_some_iff.mp hv
      obtain ⟨b, hb, hv⟩ := Option.bind_eq_some_iff.mp hv
      cases hv
      refine ⟨a.toNat, b.toNat, Or.inl (hexDigit_of_digitValue? ha), hexDigit_of_digitValue? hb, ?_⟩
      rw [UInt8.ofNat_add, UInt8.ofNat_mul, UInt8.ofNat_toNat, UInt8.ofNat_toNat]
      rfl
  · rintro ⟨m, n, hm, hn, rfl⟩
    have hl := digitValue?_of_hexDigit hn
    rcases hm with hm | ⟨rfl, rfl⟩
    · have hh := digitValue?_of_hexDigit hm
      have hne : h ≠ 43 := by
        rintro rfl
        exact not_hexDigit_plus m hm
      rw [if_neg hne, hh, hl, UInt8.ofNat_add, UInt8.ofNat_mul]
      rfl
    · rw [if_pos rfl, hl, Nat.mul_zero, Nat.zero_add]

section

variable {Lead Lead' : UInt8 → Nat → Prop} {part bs : List UInt8}

theorem Denotes.mono (hlead : ∀ b n, Lead b n → Lead' b n) (h : Denotes Lead part bs) :
    Denotes Lead' part bs := by
  induction h with
  | nil => exact .nil
  | kept hb _ ih => exact .kept hb ih
  | number hh hl _ ih => exact .number (hlead _ _ hh) hl ih

theorem WellEscaped.mono (hlead : ∀ b n, Lead b n → Lead' b n) (h : WellEscaped Lead part) :
    WellEscaped Lead' part := by
  intro before after heq
  obtain ⟨h, l, rest, m, n, hafter, hh, hl⟩ := h before after heq
  exact ⟨h, l, rest, m, n, hafter, hlead h m hh, hl⟩

/-- What comes at the end of a well escaped part is well escaped. -/
theorem WellEscaped.of_append (start : List UInt8) (h : WellEscaped Lead (start ++ part)) :
    WellEscaped Lead part := by
  intro before after heq
  refine h (start ++ before) after ?_
  rw [heq, List.append_assoc]

theorem Denotes.wellEscaped (hlead : ∀ n, ¬ Lead 37 n) (h : Denotes Lead part bs) :
    WellEscaped Lead part := by
  induction h with
  | nil =>
    intro before after heq
    exact absurd heq.symm (List.append_ne_nil_of_right_ne_nil before (List.cons_ne_nil 37 after))
  | @kept b part bs hb _ ih =>
    intro before after heq
    cases before with
    | nil => exact absurd (List.cons.inj heq).1 hb
    | cons c before => exact ih before after (List.cons.inj heq).2
  | @number h l m n part bs hh hl _ ih =>
    intro before after heq
    -- a percent sign is neither of the digits
    match before, heq with
    | [], heq =>
      cases heq
      exact ⟨h, l, part, m, n, rfl, hh, hl⟩
    | [_], heq =>
      cases heq
      exact absurd hh (hlead m)
    | [_, _], heq =>
      cases heq
      exact absurd hl (not_hexDigit_percent n)
    | _ :: _ :: _ :: before, heq =>
      cases heq
      exact ih before after rfl

theorem WellEscaped.exists_denotes (h : WellEscaped Lead part) : ∃ bs, Denotes Lead part bs := by
  induction hn : part.length using Nat.strongRecOn generalizing part with
  | ind n ih =>
    subst hn
    cases part with
    | nil => exact ⟨[], .nil⟩
    | cons b part =>
      by_cases hb : b = 37
      · subst hb
        obtain ⟨h', l, rest, m, n, rfl, hh, hl⟩ := h [] part rfl
        have hrest : WellEscaped Lead rest := h.of_append [37, h', l]
        obtain ⟨bs, hbs⟩ := ih rest.length (by simp; omega) hrest rfl
        exact ⟨_, .number hh hl hbs⟩
      · have hrest : WellEscaped Lead part := h.of_append [b]
        obtain ⟨bs, hbs⟩ := ih part.length (by simp) hrest rfl
        exact ⟨_, .kept hb hbs⟩

end

/-- The bytes of a part are what it denotes, with a plus sign for a first digit. -/
theorem unescape?_eq_some {part bs : List UInt8} :
    unescape? part = some bs ↔ Denotes DigitOrPlus part bs := by
  constructor
  · intro h
    fun_induction unescape? part generalizing bs with
    | case1 =>
      cases h
      exact .nil
    | case2 h' l rest ih =>
      obtain ⟨v, hv, h⟩ := Option.bind_eq_some_iff.mp h
      obtain ⟨vs, hvs, h⟩ := Option.bind_eq_some_iff.mp h
      cases h
      obtain ⟨m, n, hh, hl, rfl⟩ := numberValue?_eq_some.mp hv
      exact .number hh hl (ih hvs)
    | case3 => cases h
    | case4 b rest hb ih =>
      obtain ⟨vs, hvs, rfl⟩ := Option.map_eq_some_iff.mp h
      exact .kept hb (ih hvs)
  · intro h
    induction h with
    | nil => rfl
    | kept hb _ ih =>
      rw [unescape?_cons hb, ih]
      rfl
    | number hh hl _ ih =>
      rw [unescape?_percent (numberValue?_eq_some.mpr ⟨_, _, hh, hl, rfl⟩), ih]
      rfl

/-- Well escaped parts are those that are so with a plus sign for a first digit, but have none. -/
theorem wellEscaped_iff {part : List UInt8} : WellEscaped HexDigit part ↔
    WellEscaped DigitOrPlus part ∧ ¬ [37, 43] <:+: part := by
  constructor
  · intro h
    refine ⟨h.mono fun _ _ => Or.inl, ?_⟩
    rintro ⟨before, after, rfl⟩
    obtain ⟨h', l, rest, m, n, hafter, hh, -⟩ := h before (43 :: after) (by simp)
    cases hafter
    exact not_hexDigit_plus m hh
  · rintro ⟨h, hplus⟩ before after heq
    obtain ⟨h', l, rest, m, n, rfl, hh, hl⟩ := h before after heq
    rcases hh with hh | ⟨rfl, -⟩
    · exact ⟨h', l, rest, m, n, rfl, hh, hl⟩
    · exact absurd ⟨before, l :: rest, by rw [heq]; simp⟩ hplus

theorem pathPart?_eq_some {uri : String} {bs : List UInt8} :
    pathPart? uri = some bs ↔ ∃ part, uri = "file://" ++ part ∧ Text.bytes part = bs := by
  have hascii : ∀ c ∈ "file://".toList, c.toNat < 128 := Text.ascii_of_all (by decide)
  unfold pathPart?
  constructor
  · intro h
    simp only at h
    split at h
    · next hpre =>
      cases h
      obtain ⟨part, rfl⟩ := Text.exists_append_of_prefix hascii (List.isPrefixOf_iff_prefix.mp hpre)
      refine ⟨part, rfl, ?_⟩
      rw [Text.bytes_append, List.drop_left]
    · cases h
  · rintro ⟨part, rfl, rfl⟩
    have hpre : (Text.bytes "file://").isPrefixOf (Text.bytes "file://" ++ Text.bytes part) :=
      List.isPrefixOf_iff_prefix.mpr (List.prefix_append _ _)
    simp only [Text.bytes_append, hpre, if_true, List.drop_left]

theorem head?_bytes_eq_slash {part : String} :
    (Text.bytes part).head? = some 47 ↔ ∃ rest, part = "/" ++ rest := by
  have hslash : Text.bytes "/" = [47] := by decide
  constructor
  · intro h
    obtain ⟨bs, hbs⟩ := List.head?_eq_some_iff.mp h
    refine Text.exists_append_of_prefix (Text.ascii_of_all (by decide)) ?_
    rw [hslash, hbs]
    exact ⟨bs, rfl⟩
  · rintro ⟨rest, rfl⟩
    rw [Text.bytes_append, hslash]
    rfl

theorem toPathname?_eq_some {uri : String} {p : Pathname} : toPathname? uri = some p ↔
    ∃ part, uri = "file://" ++ part ∧ (∃ rest, part = "/" ++ rest) ∧
      Denotes DigitOrPlus (Text.bytes part) p.bytes := by
  unfold toPathname?
  constructor
  · intro h
    obtain ⟨bs, hbs, h⟩ := Option.bind_eq_some_iff.mp h
    obtain ⟨part, rfl, rfl⟩ := pathPart?_eq_some.mp hbs
    split at h
    · next hhead =>
      obtain ⟨vs, hvs, rfl⟩ := Option.map_eq_some_iff.mp h
      exact ⟨part, rfl, head?_bytes_eq_slash.mp hhead, unescape?_eq_some.mp hvs⟩
    · cases h
  · rintro ⟨part, rfl, hslash, hdenotes⟩
    rw [pathPart?_eq_some.mpr ⟨part, rfl, rfl⟩]
    change (if (Text.bytes part).head? = some 47 then _ else none) = _
    rw [if_pos (head?_bytes_eq_slash.mpr hslash), unescape?_eq_some.mpr hdenotes]
    rfl

theorem readWith_digitOrPlus (uri : String) : ReadWith DigitOrPlus uri := by
  constructor
  · constructor
    · intro h
      obtain ⟨p, hp⟩ := Option.isSome_iff_exists.mp h
      obtain ⟨part, huri, hslash, hdenotes⟩ := toPathname?_eq_some.mp hp
      exact ⟨part, huri, hslash, hdenotes.wellEscaped not_digitOrPlus_percent⟩
    · rintro ⟨part, huri, hslash, hescaped⟩
      obtain ⟨bs, hbs⟩ := hescaped.exists_denotes
      have hp : toPathname? uri = some ⟨bs⟩ := toPathname?_eq_some.mpr ⟨part, huri, hslash, hbs⟩
      rw [hp]
      rfl
  · rintro part p rfl hp
    obtain ⟨part', hpart, -, hdenotes⟩ := toPathname?_eq_some.mp hp
    rw [(String.append_right_inj _).mp hpart]
    exact hdenotes

/-- Where no plus sign is in a text that is taken, only digits are in its numbers. -/
theorem readWith_hexDigit_iff (uri : String) : ReadWith HexDigit uri ↔
    ¬ ∃ part, uri = "file://" ++ part ∧ [37, 43] <:+: Text.bytes part ∧
      (toPathname? uri).isSome := by
  have hread := readWith_digitOrPlus uri
  constructor
  · rintro ⟨haccepted, -⟩ ⟨part, huri, hplus, hsome⟩
    obtain ⟨part', hpart, -, hescaped⟩ := haccepted.mp hsome
    rw [huri] at hpart
    rw [← (String.append_right_inj _).mp hpart] at hescaped
    exact (wellEscaped_iff.mp hescaped).2 hplus
  · intro hnone
    have hplain : ∀ part, uri = "file://" ++ part → (toPathname? uri).isSome →
        WellEscaped DigitOrPlus (Text.bytes part) → WellEscaped HexDigit (Text.bytes part) :=
      fun part huri hsome hescaped =>
        wellEscaped_iff.mpr ⟨hescaped, fun hplus => hnone ⟨part, huri, hplus, hsome⟩⟩
    constructor
    · rw [hread.accepted]
      constructor
      · rintro ⟨part, huri, hslash, hescaped⟩
        have hsome := hread.accepted.mpr ⟨part, huri, hslash, hescaped⟩
        exact ⟨part, huri, hslash, hplain part huri hsome hescaped⟩
      · rintro ⟨part, huri, hslash, hescaped⟩
        exact ⟨part, huri, hslash, (wellEscaped_iff.mp hescaped).1⟩
    · intro part p huri hp
      have hdenotes := hread.denoted part p huri hp
      have hescaped := hplain part huri (Option.isSome_of_eq_some hp)
        (hdenotes.wellEscaped not_digitOrPlus_percent)
      obtain ⟨bs, hbs⟩ := hescaped.exists_denotes
      -- the bytes are the same, because there are no others that the part denotes
      have hsame := (unescape?_eq_some.mpr hdenotes).symm.trans
        (unescape?_eq_some.mpr (hbs.mono fun _ _ => Or.inl))
      rw [Option.some.inj hsame]
      exact hbs

/-- Every text is taken as one where a plus sign passes for the first digit of a number. It is taken
as a URI is to be, unless there is such a plus sign in it and the text is taken all the same. -/
theorem toPathname?_readWith (uri : String) :
    ReadWith DigitOrPlus uri ∧
      (ReadWith HexDigit uri ↔ ¬ ∃ part, uri = "file://" ++ part ∧ [37, 43] <:+: Text.bytes part ∧
        (toPathname? uri).isSome) :=
  ⟨readWith_digitOrPlus uri, readWith_hexDigit_iff uri⟩

theorem toPathname?_readWith_plus :
    toPathname? "file:///%+5" = some ⟨[47, 5]⟩ ∧ ¬ ReadWith HexDigit "file:///%+5" := by
  have hread : toPathname? "file:///%+5" = some ⟨[47, 5]⟩ := by decide
  refine ⟨hread, fun h => (toPathname?_readWith _).2.mp h ⟨"/%+5", by decide, ?_, ?_⟩⟩
  · exact ⟨[47], [53], by decide⟩
  · rw [hread]
    rfl

end ZipMount.FileUri
