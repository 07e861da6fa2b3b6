import Mathlib.Tactic.IntervalCases
import ZipMount.Time.Calendar

namespace ZipMount

namespace Date

/-- The days from 1 March of year 0 to 1 March of a year. -/
def daysBefore (year : Int) : Int := 365 * year + year / 4 - year / 100 + year / 400

/-- The days of a year counted from March that are before a month of it; March is month 0. -/
def daysBeforeMonth (month : Int) : Int := (153 * month + 2) / 5

theorem isLeap_iff {year : Int} :
    isLeap year = true ↔ year % 4 = 0 ∧ (year % 100 ≠ 0 ∨ year % 400 = 0) := by
  simp [isLeap]

theorem isValid_iff {d : Date} : d.isValid = true ↔
    1 ≤ d.month ∧ d.month ≤ 12 ∧ 1 ≤ d.day ∧ d.day ≤ daysInMonth d.year d.month := by
  simp [isValid, and_assoc]

/-- A year counted from March ends with the leap day of the next, if that has one. -/
theorem daysBefore_succ (year : Int) :
    daysBefore (year + 1) = daysBefore year + if isLeap (year + 1) then 366 else 365 := by
  unfold daysBefore
  split
  · next h =>
    rw [isLeap_iff] at h
    omega
  · next h =>
    rw [isLeap_iff] at h
    omega

/-- A month counted from March is as long as it is till the next one, but for the last. -/
theorem daysInMonth_march (year month : Int) (hlow : 0 ≤ month) (hhigh : month < 10) :
    (daysInMonth year (month + 3).toNat : Int) =
      daysBeforeMonth (month + 1) - daysBeforeMonth month := by
  interval_cases month <;> rfl

/-- The last month counted from March ends with the year. -/
theorem daysInMonth_february (year : Int) :
    (daysInMonth (year + 1) 2 : Int) =
      daysBefore (year + 1) - daysBefore year - daysBeforeMonth 11 := by
  have hmonth : daysBeforeMonth 11 = 337 := rfl
  rw [daysBefore_succ, daysInMonth, if_pos rfl]
  split
  · omega
  · omega

theorem toDay_of_march (year : Int) {month : Nat} (day : Nat) (h : 2 < month) :
    (⟨year, month, day⟩ : Date).toDay =
      daysBefore year + daysBeforeMonth (month - 3) + day - 1 - epochShift := by
  unfold toDay
  rw [if_pos h, if_pos h]
  rfl

theorem toDay_of_turn (year : Int) {month : Nat} (day : Nat) (h : month ≤ 2) :
    (⟨year, month, day⟩ : Date).toDay =
      daysBefore (year - 1) + daysBeforeMonth (month + 9) + day - 1 - epochShift := by
  unfold toDay
  rw [if_neg (Nat.not_lt.mpr h), if_neg (Nat.not_lt.mpr h)]
  rfl

/-- The date of a day by its year and month counted from March. The cycles of four hundred, one
hundred and four years are taken off one after the other; the last year of a cycle may be longer. -/
theorem ofDay_eq (n : Int) :
    ∃ year month day : Int, 0 ≤ month ∧ month < 12 ∧ 1 ≤ day ∧
      day ≤ daysBeforeMonth (month + 1) - daysBeforeMonth month ∧
      day ≤ daysBefore (year + 1) - daysBefore year - daysBeforeMonth month ∧
      n = daysBefore year + daysBeforeMonth month + day - 1 - epochShift ∧
      ofDay n = if month < 10 then ⟨year, (month + 3).toNat, day.toNat⟩
        else ⟨year + 1, (month - 9).toNat, day.toNat⟩ := by
  set shifted := n + epochShift with hshifted
  set inCycle := shifted % 146097 with hinCycle
  set centuries := min (inCycle / 36524) 3 with hcenturies
  set inCentury := inCycle - 36524 * centuries with hinCentury
  set fours := inCentury / 1461 with hfours
  set inFours := inCentury % 1461 with hinFours
  set ones := min (inFours / 365) 3 with hones
  set inYear := inFours - 365 * ones with hinYear
  set year := 400 * (shifted / 146097) + 100 * centuries + 4 * fours + ones with hyear
  set month := (5 * inYear + 2) / 153 with hmonth
  have hcentury : 0 ≤ centuries ∧ centuries ≤ 3 ∧ 0 ≤ inCentury ∧ inCentury ≤ 36524 ∧
      (inCentury = 36524 → centuries = 3) := by omega
  have hfour : 0 ≤ fours ∧ fours ≤ 24 ∧ 0 ≤ inFours ∧ inFours ≤ 1460 := by omega
  have hone : 0 ≤ ones ∧ ones ≤ 3 ∧ 0 ≤ inYear ∧ inYear ≤ 365 := by omega
  have hquarter : year / 4 = 100 * (shifted / 146097) + 25 * centuries + fours := by omega
  have hhundredth : year / 100 = 4 * (shifted / 146097) + centuries := by omega
  have hcycle : year / 400 = shifted / 146097 := by omega
  refine ⟨year, month, inYear - daysBeforeMonth month + 1, ?_, ?_, ?_, ?_, ?_, ?_, rfl⟩
  · omega
  · omega
  · unfold daysBeforeMonth
    omega
  · unfold daysBeforeMonth
    omega
  · rw [daysBefore_succ]
    split
    · omega
    · next h =>
      rw [isLeap_iff] at h
      omega
  · unfold daysBefore
    omega

/-- Every day has a date of the calendar. -/
theorem isValid_ofDay (n : Int) : (ofDay n).isValid = true := by
  obtain ⟨year, month, day, hlow, hhigh, hday, hmonth, hyear, -, heq⟩ := ofDay_eq n
  rw [heq, isValid_iff]
  by_cases h : month < 10
  · have hlength := daysInMonth_march year month hlow h
    simp only [h, if_true]
    omega
  · simp only [h, if_false]
    obtain rfl | rfl : month = 10 ∨ month = 11 := by omega
    · change day ≤ 31 at hmonth
      change 1 ≤ 1 ∧ 1 ≤ 12 ∧ 1 ≤ day.toNat ∧ day.toNat ≤ 31
      omega
    · have hlength := daysInMonth_february year
      change 1 ≤ 2 ∧ 2 ≤ 12 ∧ 1 ≤ day.toNat ∧ day.toNat ≤ daysInMonth (year + 1) 2
      omega

/-- A day is that of its date. -/
theorem toDay_ofDay (n : Int) : (ofDay n).toDay = n := by
  obtain ⟨year, month, day, hlow, hhigh, hday, -, -, hcount, heq⟩ := ofDay_eq n
  rw [heq]
  by_cases h : month < 10
  · have hmonth : ((month + 3).toNat : Int) - 3 = month := by omega
    rw [if_pos h, toDay_of_march _ _ (by omega), hmonth, Int.toNat_of_nonneg (by omega)]
    exact hcount.symm
  · have hmonth : ((month - 9).toNat : Int) + 9 = month := by omega
    rw [if_neg h, toDay_of_turn _ _ (by omega), hmonth, Int.toNat_of_nonneg (by omega),
      Int.add_sub_cancel]
    exact hcount.symm

/-- The days of a month lie one after another. -/
theorem toDay_eq (d : Date) : d.toDay = (⟨d.year, d.month, 1⟩ : Date).toDay + d.day - 1 := by
  obtain ⟨year, month, day⟩ := d
  change (⟨year, month, day⟩ : Date).toDay = (⟨year, month, 1⟩ : Date).toDay + day - 1
  rcases Nat.lt_or_ge 2 month with h | h
  · rw [toDay_of_march year day h, toDay_of_march year 1 h]
    omega
  · rw [toDay_of_turn year day h, toDay_of_turn year 1 h]
    omega

/-- A month starts after the last day of the one before it. -/
theorem toDay_month (year : Int) {month : Nat} (hlow : 1 ≤ month) (hhigh : month < 12) :
    (⟨year, month + 1, 1⟩ : Date).toDay =
      (⟨year, month, 1⟩ : Date).toDay + daysInMonth year month := by
  obtain rfl | rfl | h : month = 1 ∨ month = 2 ∨ 2 < month := by omega
  · have hlength : daysInMonth year 1 = 31 := rfl
    rw [toDay_of_turn year 1 (by omega), toDay_of_turn year 1 (by omega), hlength]
    unfold daysBeforeMonth
    omega
  · have hlength := daysInMonth_february (year - 1)
    rw [Int.sub_add_cancel] at hlength
    rw [toDay_of_march year 1 (by omega), toDay_of_turn year 1 (by omega), hlength]
    unfold daysBeforeMonth
    omega
  · have hlength := daysInMonth_march year (month - 3) (by omega) (by omega)
    have hsame : ((month : Int) - 3 + 3).toNat = month := by omega
    have hnext : ((month + 1 : Nat) : Int) - 3 = month - 3 + 1 := by omega
    rw [hsame] at hlength
    rw [toDay_of_march year 1 (by omega), toDay_of_march year 1 h, hnext, hlength]
    omega

/-- A year starts after the last day of the December before it. -/
theorem toDay_year (year : Int) :
    (⟨year + 1, 1, 1⟩ : Date).toDay = (⟨year, 12, 1⟩ : Date).toDay + daysInMonth year 12 := by
  have hlength : daysInMonth year 12 = 31 := rfl
  rw [toDay_of_turn _ 1 (by omega), toDay_of_march _ 1 (by omega), Int.add_sub_cancel, hlength]
  unfold daysBeforeMonth
  omega

/-- The date that follows: after the last day of a month comes the first of the next. -/
def next (d : Date) : Date :=
  if d.day < daysInMonth d.year d.month then { d with day := d.day + 1 }
  else if d.month < 12 then ⟨d.year, d.month + 1, 1⟩
  else ⟨d.year + 1, 1, 1⟩

theorem daysInMonth_pos (year : Int) (month : Nat) : 0 < daysInMonth year month := by
  unfold daysInMonth
  split
  · split <;> omega
  · split <;> omega

theorem isValid_next {d : Date} (h : d.isValid = true) : d.next.isValid = true := by
  rw [isValid_iff] at h ⊢
  unfold next
  split
  · simp only
    omega
  · split
    · have hpos := daysInMonth_pos d.year (d.month + 1)
      simp only
      omega
    · have hpos := daysInMonth_pos (d.year + 1) 1
      simp only
      omega

theorem toDay_next {d : Date} (h : d.isValid = true) : d.next.toDay = d.toDay + 1 := by
  rw [isValid_iff] at h
  have hday := toDay_eq d
  unfold next
  split
  · rw [toDay_eq]
    simp only
    omega
  · split
    · next hmonth =>
      rw [toDay_month d.year h.1 hmonth]
      omega
    · next hday' hmonth =>
      have hlast : d.month = 12 := by omega
      rw [hlast] at hday hday' h
      rw [toDay_year]
      omega

/-- The months of a year come in order. -/
theorem toDay_month_le (year : Int) {m n : Nat} (hlow : 1 ≤ m) (h : m ≤ n) (hhigh : n ≤ 12) :
    (⟨year, m, 1⟩ : Date).toDay ≤ (⟨year, n, 1⟩ : Date).toDay := by
  induction n, h using Nat.le_induction with
  | base => exact Int.le_refl _
  | succ n h ih =>
    rw [toDay_month year (by omega) (by omega)]
    have := ih (by omega)
    omega

theorem toDay_year_le {a b : Int} (h : a ≤ b) :
    (⟨a, 1, 1⟩ : Date).toDay ≤ (⟨b, 1, 1⟩ : Date).toDay := by
  rw [toDay_of_turn a 1 (by omega), toDay_of_turn b 1 (by omega)]
  unfold daysBefore
  omega

/-- By year, then month, then day. -/
def Before (d e : Date) : Prop :=
  d.year < e.year ∨ d.year = e.year ∧ (d.month < e.month ∨ d.month = e.month ∧ d.day < e.day)

/-- A date lies within its month, and that within its year. -/
theorem toDay_lt_of_month {d : Date} (hd : d.isValid = true) {n : Nat} (h : d.month < n)
    (hhigh : n ≤ 12) : d.toDay < (⟨d.year, n, 1⟩ : Date).toDay := by
  rw [isValid_iff] at hd
  have hnext := toDay_month d.year hd.1 (by omega)
  have hle := toDay_month_le d.year (m := d.month + 1) (by omega) h hhigh
  rw [toDay_eq d]
  omega

theorem toDay_lt_of_year {d : Date} (hd : d.isValid = true) :
    d.toDay < (⟨d.year + 1, 1, 1⟩ : Date).toDay := by
  rw [toDay_year]
  obtain h | h : d.month < 12 ∨ d.month = 12 := by
    rw [isValid_iff] at hd
    omega
  · have hlt := toDay_lt_of_month hd h (Nat.le_refl _)
    omega
  · rw [isValid_iff, h] at hd
    rw [toDay_eq d, h]
    omega

theorem le_toDay {d : Date} (hd : d.isValid = true) : (⟨d.year, 1, 1⟩ : Date).toDay ≤ d.toDay := by
  rw [isValid_iff] at hd
  have hle := toDay_month_le d.year (Nat.le_refl 1) hd.1 hd.2.1
  rw [toDay_eq d]
  omega

/-- Dates are in the order of their days. -/
theorem toDay_lt_toDay {d e : Date} (hd : d.isValid = true) (he : e.isValid = true)
    (h : d.Before e) : d.toDay < e.toDay := by
  rcases h with hyear | ⟨hyear, hmonth | ⟨hmonth, hday⟩⟩
  · calc d.toDay < (⟨d.year + 1, 1, 1⟩ : Date).toDay := toDay_lt_of_year hd
      _ ≤ (⟨e.year, 1, 1⟩ : Date).toDay := toDay_year_le hyear
      _ ≤ e.toDay := le_toDay he
  · have hlt := toDay_lt_of_month hd hmonth (isValid_iff.mp he).2.1
    have hpos := (isValid_iff.mp he).2.2.1
    rw [toDay_eq e, ← hyear]
    omega
  · rw [toDay_eq d, toDay_eq e, hyear, hmonth]
    omega

theorem toDay_inj {d e : Date} (hd : d.isValid = true) (he : e.isValid = true)
    (h : d.toDay = e.toDay) : d = e := by
  by_contra hne
  have hor : d.Before e ∨ e.Before d := by
    obtain ⟨year, month, day⟩ := d
    obtain ⟨year', month', day'⟩ := e
    simp only [Date.mk.injEq] at hne
    simp only [Before]
    omega
  rcases hor with hbefore | hbefore
  · exact absurd h (Int.ne_of_lt (toDay_lt_toDay hd he hbefore))
  · exact absurd h.symm (Int.ne_of_lt (toDay_lt_toDay he hd hbefore))

/-- The day after has the date that follows. -/
theorem ofDay_succ (n : Int) : ofDay (n + 1) = (ofDay n).next := by
  have hvalid := isValid_ofDay n
  apply toDay_inj (isValid_ofDay _) (isValid_next hvalid)
  rw [toDay_next hvalid, toDay_ofDay, toDay_ofDay]

/-- A year has begun by the days from its first on. -/
theorem le_year_ofDay {year n : Int} :
    year ≤ (ofDay n).year ↔ (⟨year, 1, 1⟩ : Date).toDay ≤ n := by
  have hvalid := isValid_ofDay n
  have hday := toDay_ofDay n
  constructor
  · intro h
    have hle := toDay_year_le h
    have hfirst := le_toDay hvalid
    omega
  · intro h
    by_contra hlt
    have hle := toDay_year_le (a := (ofDay n).year + 1) (b := year) (by omega)
    have hlast := toDay_lt_of_year hvalid
    omega

end Date

end ZipMount
