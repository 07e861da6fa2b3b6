import ZipMount.Archive.Image
import ZipMount.Proofs.Time.Calendar
import ZipMount.Proofs.Time.Dos

namespace ZipMount

namespace DosTime

/-- The first moment after the years there are. -/
def pastMoment : CivilTime := ⟨⟨2108, 1, 1⟩, 0, 0, 0⟩

/-- The instants of the years there are. -/
def Reached (t : Instant) : Prop :=
  firstMoment.toInstant.nanoseconds ≤ t.nanoseconds ∧
    t.nanoseconds < pastMoment.toInstant.nanoseconds

instance (t : Instant) : Decidable (Reached t) := inferInstanceAs (Decidable (_ ∧ _))

example : firstMoment.toInstant = .ofSeconds 315532800 ∧
    pastMoment.toInstant = .ofSeconds 4354819200 := by decide

theorem le_year_iff (year : Int) (t : Instant) : year ≤ (CivilTime.ofInstant t).date.year ↔
    (CivilTime.toInstant ⟨⟨year, 1, 1⟩, 0, 0, 0⟩).nanoseconds ≤ t.nanoseconds := by
  rw [CivilTime.ofInstant, Date.le_year_ofDay]
  simp only [CivilTime.toInstant, Instant.ofSeconds, Instant.ofParts, Instant.seconds,
    Instant.perSecond]
  omega

theorem reached_iff {t : Instant} : Reached t ↔
    1980 ≤ (CivilTime.ofInstant t).date.year ∧ (CivilTime.ofInstant t).date.year ≤ 2107 := by
  have hfirst := le_year_iff 1980 t
  have hpast := le_year_iff 2108 t
  unfold Reached firstMoment pastMoment
  omega

/-- A date of the years there are stays as it is. -/
theorem reading_of_reached {t : Instant} (h : Reached t) :
    reading (.ofInstant t) =
      { CivilTime.ofInstant t with second := (CivilTime.ofInstant t).second / 2 * 2 } := by
  obtain ⟨hlow, hhigh⟩ := reached_iff.mp h
  have hmoved : moved (.ofInstant t) =
      { CivilTime.ofInstant t with second := (CivilTime.ofInstant t).second / 2 * 2 } := by
    rw [moved, min_eq_right hhigh, max_eq_right hlow]
  rw [reading, hmoved, if_pos]
  exact Date.isValid_ofDay _

/-- The even second before an instant. -/
def evenSecond (t : Instant) : Instant := .ofSeconds (t.seconds / 2 * 2)

theorem toInstant?_of_reached {t : Instant} (h : Reached t) :
    (ofInstant t).toInstant? = some (evenSecond t) := by
  rw [toInstant?_ofInstant, reading_of_reached h]
  simp only [CivilTime.toInstant, CivilTime.ofInstant, Date.toDay_ofDay, evenSecond]
  congr 2
  omega

theorem evenSecond_bounds (t : Instant) :
    (evenSecond t).nanoseconds ≤ t.nanoseconds ∧
      t.nanoseconds < (evenSecond t).nanoseconds + 2 * Instant.perSecond := by
  simp only [evenSecond, Instant.ofSeconds, Instant.ofParts, Instant.seconds, Instant.perSecond]
  omega

theorem evenSecond_mono {s t : Instant} (h : s.nanoseconds ≤ t.nanoseconds) :
    (evenSecond s).nanoseconds ≤ (evenSecond t).nanoseconds := by
  simp only [evenSecond, Instant.ofSeconds, Instant.ofParts, Instant.seconds, Instant.perSecond]
  omega

/-- An instant of the years there are is read back as the even second before it; so the words lose
less than two seconds, and read back in order. -/
theorem toInstant?_ofInstant_of_reached {t : Instant} (h : Reached t) :
    ∃ b, (ofInstant t).toInstant? = some b ∧ b = .ofSeconds (t.seconds / 2 * 2) ∧
      b.nanoseconds ≤ t.nanoseconds ∧ t.nanoseconds < b.nanoseconds + 2 * Instant.perSecond ∧
      ∀ s, Reached s → s.nanoseconds ≤ t.nanoseconds →
        ∃ a, (ofInstant s).toInstant? = some a ∧ a.nanoseconds ≤ b.nanoseconds := by
  obtain ⟨hle, hlt⟩ := evenSecond_bounds t
  refine ⟨evenSecond t, toInstant?_of_reached h, rfl, hle, hlt, ?_⟩
  intro s hs hst
  exact ⟨evenSecond s, toInstant?_of_reached hs, evenSecond_mono hst⟩

/-- The last instant that the years reach, and the last of a leap day. -/
theorem toInstant?_ofInstant_lastReached :
    Reached (.ofParts 4354819199 999999999) ∧ Reached (.ofParts 951868799 5) ∧
      ∃ a b, (ofInstant (.ofParts 4354819199 999999999)).toInstant? = some b ∧
        b = .ofSeconds 4354819198 ∧ (ofInstant (.ofParts 951868799 5)).toInstant? = some a ∧
        a.nanoseconds ≤ b.nanoseconds := by
  have hlast : Reached (.ofParts 4354819199 999999999) := by decide
  have hleap : Reached (.ofParts 951868799 5) := by decide
  obtain ⟨b, hb, heven, -, -, hmono⟩ := toInstant?_ofInstant_of_reached hlast
  obtain ⟨a, ha, hle⟩ := hmono _ hleap (by decide)
  exact ⟨hlast, hleap, a, b, hb, heven, ha, hle⟩

/-- A leap day after the years there are. The last of them has none. -/
def LateLeapDay (d : Date) : Prop := 2107 < d.year ∧ d.month = 2 ∧ d.day = 29

instance (d : Date) : Decidable (LateLeapDay d) := inferInstanceAs (Decidable (_ ∧ _))

/-- Words with a year of their own that keep the rest of a calendar reading, the second rounded down
to an even one, and are read back as the moment they name. -/
structure Keeps (w : DosTime) (year : Int) (c : CivilTime) : Prop where
  year : w.fields.date.year = year
  month : w.fields.date.month = c.date.month
  day : w.fields.date.day = c.date.day
  hour : w.fields.hour = c.hour
  minute : w.fields.minute = c.minute
  second : w.fields.second = c.second / 2 * 2
  readBack : w.toInstant? = some w.fields.toInstant

/-- The year nearest to one outside those there are. -/
def nearestYear (year : Int) : Int := if year < 1980 then 1980 else 2107

theorem year_moved {c : CivilTime} (h : c.date.year < 1980 ∨ 2107 < c.date.year) :
    (moved c).date.year = nearestYear c.date.year := by
  simp only [moved, nearestYear]
  split
  · omega
  · omega

/-- No month is longer than that of a leap year, and in another only February is shorter. -/
theorem daysInMonth_le_iff {year year' : Int} {month day : Nat}
    (h : day ≤ Date.daysInMonth year month) : day ≤ Date.daysInMonth year' month ↔
      ¬ (Date.isLeap year' = false ∧ month = 2 ∧ day = 29) := by
  unfold Date.daysInMonth at h ⊢
  by_cases hmonth : month = 2
  · rw [if_pos hmonth] at h ⊢
    have hday : day ≤ 29 := by
      split at h
      · exact h
      · omega
    split
    · simp_all
    · simp_all
      omega
  · rw [if_neg hmonth] at h ⊢
    simp [h, hmonth]

/-- Of the dates outside the years there are, just the late leap days are none in the nearest year. -/
theorem isValid_moved {c : CivilTime} (hc : c.date.isValid = true)
    (hout : c.date.year < 1980 ∨ 2107 < c.date.year) :
    (moved c).date.isValid = true ↔ ¬ LateLeapDay c.date := by
  have hyear := year_moved hout
  rw [Date.isValid_iff] at hc ⊢
  rw [hyear]
  change 1 ≤ c.date.month ∧ c.date.month ≤ 12 ∧ 1 ≤ c.date.day ∧
    c.date.day ≤ Date.daysInMonth (nearestYear c.date.year) c.date.month ↔ _
  rw [daysInMonth_le_iff hc.2.2.2, LateLeapDay, nearestYear]
  have hleap : Date.isLeap 1980 = true := by decide
  have hcommon : Date.isLeap 2107 = false := by decide
  split
  · next h =>
    simp only [hleap, Bool.true_eq_false, false_and, not_false_eq_true, and_true]
    omega
  · next h =>
    simp only [hcommon, true_and]
    omega

theorem keeps_of_not_late {t : Instant} (hout : ¬ Reached t)
    (hday : ¬ LateLeapDay (CivilTime.ofInstant t).date) :
    Keeps (ofInstant t) (nearestYear (CivilTime.ofInstant t).date.year) (.ofInstant t) := by
  rw [reached_iff] at hout
  have hyear := year_moved (c := .ofInstant t) (by omega)
  have hvalid := (isValid_moved (Date.isValid_ofDay _) (by omega)).mpr hday
  obtain ⟨hhour, hminute, hsecond⟩ := ofInstant_bounds t
  obtain ⟨-, hmonth, -, hdays⟩ := isValid_bounds hvalid
  have hwords : ofInstant t = pack (moved (.ofInstant t)) := if_pos hvalid
  have hfields : (ofInstant t).fields = moved (.ofInstant t) := by
    rw [hwords]
    apply fields_pack _ _ hmonth hdays hhour hminute _ _
    all_goals
      simp only [moved]
      omega
  have hback : (ofInstant t).toInstant? = some (moved (.ofInstant t)).toInstant := by
    rw [toInstant?_ofInstant, reading, if_pos hvalid]
  exact {
    year := by rw [hfields, hyear]
    month := congrArg (·.date.month) hfields
    day := congrArg (·.date.day) hfields
    hour := congrArg (·.hour) hfields
    minute := congrArg (·.minute) hfields
    second := congrArg (·.second) hfields
    readBack := by rw [hfields, hback] }

theorem ofInstant_of_late {t : Instant} (h : LateLeapDay (CivilTime.ofInstant t).date) :
    ofInstant t = first := by
  have hvalid := (isValid_moved (Date.isValid_ofDay _) (Or.inr h.1)).not.mpr (not_not.mpr h)
  exact if_neg hvalid

/-- Of an instant of the calendar outside the years there are, all is written but the year, in whose
place the nearest one is; a leap day after them is written as the first moment there is. -/
theorem draft_of_not_reached {t : Instant} (hc : t.onCalendar = true) (hout : ¬ Reached t) :
    (∀ method k m, m.times.modified = t →
      ∃ d, Tree.draft method k m = .ok d ∧ d.dos = ofInstant t) ∧
    (¬ LateLeapDay (CivilTime.ofInstant t).date →
      Keeps (ofInstant t) (nearestYear (CivilTime.ofInstant t).date.year) (.ofInstant t)) ∧
    (LateLeapDay (CivilTime.ofInstant t).date →
      ofInstant t = first ∧ (ofInstant t).toInstant? = some firstMoment.toInstant) := by
  refine ⟨?_, keeps_of_not_late hout, ?_⟩
  · rintro method k m rfl
    rw [Tree.draft, if_pos hc]
    exact ⟨_, rfl, rfl⟩
  · intro hlate
    rw [ofInstant_of_late hlate]
    exact ⟨rfl, by decide⟩

/-- A leap day before the years there are, and one after them. -/
theorem draft_of_not_reached_leapDays :
    ((Instant.ofSeconds (-310492799)).onCalendar = true ∧
      ¬ Reached (.ofSeconds (-310492799)) ∧
      Keeps (ofInstant (.ofSeconds (-310492799))) 1980 ⟨⟨1960, 2, 29⟩, 8, 0, 1⟩) ∧
    ((Instant.ofSeconds 4359961845).onCalendar = true ∧ ¬ Reached (.ofSeconds 4359961845) ∧
      LateLeapDay (CivilTime.ofInstant (.ofSeconds 4359961845)).date ∧
      (ofInstant (.ofSeconds 4359961845)).toInstant? = some firstMoment.toInstant) := by
  have hearly : ¬ Reached (.ofSeconds (-310492799)) := by decide
  have hlate : ¬ Reached (.ofSeconds 4359961845) := by decide
  have hday : LateLeapDay (CivilTime.ofInstant (.ofSeconds 4359961845)).date := by decide
  obtain ⟨-, hkeeps, -⟩ := draft_of_not_reached (by decide) hearly
  obtain ⟨-, -, hfirst⟩ := draft_of_not_reached (by decide) hlate
  exact ⟨⟨by decide, hearly, hkeeps (by decide)⟩, by decide, hlate, hday, (hfirst hday).2⟩

end DosTime

end ZipMount
