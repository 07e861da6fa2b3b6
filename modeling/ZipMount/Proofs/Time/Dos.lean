import ZipMount.Time.Dos

namespace ZipMount.DosTime

/-- A calendar reading in the years there are, its second rounded down to an even one. -/
def moved (c : CivilTime) : CivilTime where
  date := { c.date with year := max 1980 (min 2107 c.date.year) }
  hour := c.hour
  minute := c.minute
  second := c.second / 2 * 2

/-- The moment that stands for a day the moved year does not have. -/
def firstMoment : CivilTime := ⟨⟨1980, 1, 1⟩, 0, 0, 0⟩

/-- The moment that the words for a calendar reading name. -/
def reading (c : CivilTime) : CivilTime := if (moved c).date.isValid then moved c else firstMoment

theorem daysInMonth_le (year : Int) (month : Nat) : Date.daysInMonth year month ≤ 31 := by
  unfold Date.daysInMonth
  split
  · split <;> omega
  · split <;> omega

theorem isValid_bounds {d : Date} (h : d.isValid = true) :
    1 ≤ d.month ∧ d.month ≤ 12 ∧ 1 ≤ d.day ∧ d.day ≤ 31 := by
  simp only [Date.isValid, Bool.and_eq_true, decide_eq_true_eq] at h
  have hd := daysInMonth_le d.year d.month
  omega

theorem toNat_ofNat {n : Nat} (h : n < 65536) : (UInt16.ofNat n).toNat = n := by
  rw [UInt16.toNat_ofNat']
  exact Nat.mod_eq_of_lt h

/-- Fields that fit their bits are found again. -/
theorem fields_pack {c : CivilTime} (hlow : 1980 ≤ c.date.year) (hhigh : c.date.year ≤ 2107)
    (hmonth : c.date.month ≤ 12) (hday : c.date.day ≤ 31) (hhour : c.hour ≤ 23)
    (hminute : c.minute ≤ 59) (hsecond : c.second ≤ 59) (heven : c.second % 2 = 0) :
    (pack c).fields = c := by
  obtain ⟨⟨year, month, day⟩, hour, minute, second⟩ := c
  simp only at hlow hhigh hmonth hday hhour hminute hsecond heven
  have hdate := toNat_ofNat (n := (year - 1980).toNat * 512 + month * 32 + day) (by omega)
  have htime := toNat_ofNat (n := hour * 2048 + minute * 32 + second / 2) (by omega)
  simp only [pack, fields, hdate, htime, CivilTime.mk.injEq, Date.mk.injEq]
  refine ⟨⟨?_, ?_, ?_⟩, ?_, ?_, ?_⟩ <;> omega

theorem toCivil?_pack {c : CivilTime} (hvalid : c.date.isValid = true)
    (hlow : 1980 ≤ c.date.year) (hhigh : c.date.year ≤ 2107) (hhour : c.hour ≤ 23)
    (hminute : c.minute ≤ 59) (hsecond : c.second ≤ 58) (heven : c.second % 2 = 0) :
    (pack c).toCivil? = some c := by
  obtain ⟨-, hmonth, -, hday⟩ := isValid_bounds hvalid
  have hf := fields_pack hlow hhigh hmonth hday hhour hminute (by omega) heven
  have hs : c.second ≤ 60 := by omega
  rw [toCivil?, hf]
  simp [hvalid, hhour, hminute, hs, Nat.min_eq_left hsecond]

/-- The words for a time of day name its reading. -/
theorem toCivil?_ofCivil {c : CivilTime} (hhour : c.hour ≤ 23) (hminute : c.minute ≤ 59)
    (hsecond : c.second ≤ 59) : (ofCivil c).toCivil? = some (reading c) := by
  change (if (moved c).date.isValid then pack (moved c) else first).toCivil? = _
  unfold reading
  split
  · next hvalid =>
    refine toCivil?_pack hvalid ?_ ?_ hhour hminute ?_ ?_
    · simp only [moved]; omega
    · simp only [moved]; omega
    · simp only [moved]; omega
    · simp only [moved]; omega
  · decide

theorem ofInstant_bounds (t : Instant) :
    (CivilTime.ofInstant t).hour ≤ 23 ∧ (CivilTime.ofInstant t).minute ≤ 59 ∧
      (CivilTime.ofInstant t).second ≤ 59 := by
  simp only [CivilTime.ofInstant]
  omega

/-- Whatever the instant, the words for it name a moment. -/
theorem toCivil?_ofInstant (t : Instant) :
    (ofInstant t).toCivil? = some (reading (.ofInstant t)) := by
  obtain ⟨hhour, hminute, hsecond⟩ := ofInstant_bounds t
  exact toCivil?_ofCivil hhour hminute hsecond

theorem toInstant?_ofInstant (t : Instant) :
    (ofInstant t).toInstant? = some (reading (.ofInstant t)).toInstant := by
  rw [toInstant?, toCivil?_ofInstant]
  rfl

end ZipMount.DosTime
