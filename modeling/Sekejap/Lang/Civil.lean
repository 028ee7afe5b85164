import Sekejap.Lib.Calendar

/-!
# Days and civil dates

The day count of the date functions (`lang/src/functions.rs`): eras of 400 years that start on 1 March, the
year in the era by division, the day in the year, and from it the month and the day.

* **`civilFromDays_eq`** — the date of a day is that of the calendar.
* **`daysFromCivil_onDay`**, **`onDay_daysFromCivil`** — the day of a date is the one that has it.
-/

open Calendar

namespace Lang

/-- Days since 1 January 1970 of a date. -/
def daysFromCivil (year : ℤ) (month day : ℕ) : ℤ :=
  let y := if month ≤ 2 then year - 1 else year
  let era := (if 0 ≤ y then y else y - 399).tdiv 400
  let yoe := y - era * 400
  let m : ℤ := month
  let doy := (153 * (if 2 < m then m - 3 else m + 9) + 2).tdiv 5 + day - 1
  let doe := yoe * 365 + yoe.tdiv 4 - yoe.tdiv 100 + doy
  era * 146097 + doe - 719468

/-- The date of a day. -/
def civilFromDays (days : ℤ) : ℤ × ℕ × ℕ :=
  let z := days + 719468
  let era := (if 0 ≤ z then z else z - 146096).tdiv 146097
  let doe := z - era * 146097
  let yoe := (doe - doe.tdiv 1460 + doe.tdiv 36524 - doe.tdiv 146096).tdiv 365
  let y := yoe + era * 400
  let doy := doe - (365 * yoe + yoe.tdiv 4 - yoe.tdiv 100)
  let mp := (5 * doy + 2).tdiv 153
  let d := doy - (153 * mp + 2).tdiv 5 + 1
  let m := if mp < 10 then mp + 3 else mp - 9
  (if m ≤ 2 then y + 1 else y, m.toNat, d.toNat)

/-! ## The parts of a day -/

/-- The days of an era before its year `y`, which starts on 1 March. -/
def yearStart (y : ℕ) : ℤ := 365 * y + y / 4 - y / 100

/-- The days of a year that starts on 1 March: the February it ends with is that of the next year. -/
def yearLength (y : ℤ) : ℤ := if isLeap (y + 1) then 366 else 365

/-- The days without those that leap years add. -/
def evened (doe : ℤ) : ℤ := doe - doe / 1460 + doe / 36524 - doe / 146096

lemma year_table : ∀ y : ℕ, y < 400 → 365 * (y : ℤ) ≤ evened (yearStart y)
    ∧ evened (yearStart y + yearLength y - 1) < 365 * (y + 1)
    ∧ yearStart y + yearLength y = if y = 399 then 146097 else yearStart (y + 1) := by
  decide +kernel

lemma yearStart_nonneg (y : ℕ) : 0 ≤ yearStart y := by
  rw [yearStart]
  omega

lemma yearLength_mem (y : ℤ) : 365 ≤ yearLength y ∧ yearLength y ≤ 366 := by
  rw [yearLength]
  split_ifs <;> omega

lemma evened_mono {a b : ℤ} (h : a ≤ b) : evened a ≤ evened b := by
  induction b, h using Int.leInduction with
  | base => exact le_rfl
  | succ b _ ih =>
      refine ih.trans ?_
      rw [evened, evened]
      omega

/-- The year that has a day is found by division. -/
lemma evened_div {y : ℕ} (hy : y < 400) {doe : ℤ} (h : yearStart y ≤ doe) (h' : doe < yearStart y + yearLength y) :
    evened doe / 365 = y := by
  obtain ⟨hlow, hhigh, -⟩ := year_table y hy
  have h1 := evened_mono h
  have h2 := evened_mono (Int.le_sub_one_of_lt h')
  omega

/-- Every day of an era is in a year. -/
lemma exists_year {doe : ℤ} (h : 0 ≤ doe) (h' : doe < 146097) :
    ∃ y < 400, yearStart y ≤ doe ∧ doe < yearStart y + yearLength y := by
  have hbefore : ∀ n ≤ 400, doe < (if n = 400 then 146097 else yearStart n) →
      ∃ y < n, yearStart y ≤ doe ∧ doe < yearStart y + yearLength y := by
    intro n
    induction n with
    | zero =>
        intro _ hlt
        have : yearStart 0 = 0 := rfl
        rw [if_neg (by omega)] at hlt
        omega
    | succ n ih =>
        intro hn hlt
        by_cases hstart : yearStart n ≤ doe
        · refine ⟨n, Nat.lt_succ_self n, hstart, ?_⟩
          rw [(year_table n hn).2.2]
          simpa using hlt
        · obtain ⟨y, hy, hin⟩ := ih (by omega) (by rw [if_neg (by omega)]; exact not_le.1 hstart)
          exact ⟨y, Nat.lt_succ_of_lt hy, hin⟩
  exact hbefore 400 le_rfl h'

/-- The month and the day, from the day of a year that starts on 1 March. -/
def monthDay (doy : ℤ) : ℕ × ℕ :=
  let mp := (5 * doy + 2) / 153
  ((if mp < 10 then mp + 3 else mp - 9).toNat, (doy - (153 * mp + 2) / 5 + 1).toNat)

/-- The date of a day of a year that starts on 1 March. -/
def dateOf (y doy : ℤ) : ℤ × ℕ × ℕ :=
  (if (monthDay doy).1 ≤ 2 then y + 1 else y, (monthDay doy).1, (monthDay doy).2)

/-- The day of so many days into a year, of so many years into an era. -/
def dayAt (era : ℤ) (yoe : ℕ) (doy : ℤ) : ℤ := era * 146097 + yearStart yoe + doy - 719468

lemma exists_dayAt (days : ℤ) :
    ∃ era, ∃ yoe : ℕ, yoe < 400 ∧ ∃ doy, 0 ≤ doy ∧ doy < yearLength yoe ∧ days = dayAt era yoe doy := by
  obtain ⟨yoe, hyoe, hlow, hhigh⟩ := @exists_year ((days + 719468) % 146097)
    (Int.emod_nonneg _ (by decide)) (Int.emod_lt_of_pos _ (by decide))
  refine ⟨(days + 719468) / 146097, yoe, hyoe, (days + 719468) % 146097 - yearStart yoe, by omega, by omega, ?_⟩
  have := Int.mul_ediv_add_emod (days + 719468) 146097
  rw [dayAt]
  omega

/-- Division toward zero, after a shift that makes it division downward. -/
lemma tdiv_shifted {a b c : ℤ} (hb : 0 < b) (hc : c = b - 1) : (if 0 ≤ a then a else a - c).tdiv b = a / b := by
  split_ifs with h
  · exact Int.tdiv_eq_ediv_of_nonneg h
  · have hdown : (c - a) / b = -(a / b) := by
      have hself := Int.mul_ediv_add_emod a b
      have hlow := Int.emod_nonneg a hb.ne'
      have hhigh := Int.emod_lt_of_pos a hb
      rw [Int.ediv_eq_iff_of_pos hb, neg_mul, mul_comm]
      constructor <;> linarith
    rw [← neg_sub c a, Int.neg_tdiv, Int.tdiv_eq_ediv_of_nonneg (by omega), hdown, neg_neg]

lemma monthDay_eq {doy : ℤ} (hdoy : 0 ≤ doy) :
    monthDay doy = ((if (5 * doy + 2).tdiv 153 < 10 then (5 * doy + 2).tdiv 153 + 3
        else (5 * doy + 2).tdiv 153 - 9).toNat,
      (doy - (153 * (5 * doy + 2).tdiv 153 + 2).tdiv 5 + 1).toNat) := by
  have hmonth : (5 * doy + 2).tdiv 153 = (5 * doy + 2) / 153 := Int.tdiv_eq_ediv_of_nonneg (by omega)
  rw [hmonth, Int.tdiv_eq_ediv_of_nonneg (by omega)]
  rfl

/-- **The date of a day** by its parts. -/
lemma civilFromDays_dayAt {era doy : ℤ} {yoe : ℕ} (hyoe : yoe < 400) (hdoy : 0 ≤ doy)
    (hlen : doy < yearLength yoe) : civilFromDays (dayAt era yoe doy) = dateOf (yoe + era * 400) doy := by
  have hstart := yearStart_nonneg yoe
  have hend : yearStart yoe + doy < 146097 := by
    have hnext := (year_table yoe hyoe).2.2
    rw [yearStart, yearStart] at *
    split_ifs at hnext <;> omega
  have hera : (if 0 ≤ dayAt era yoe doy + 719468 then dayAt era yoe doy + 719468
      else dayAt era yoe doy + 719468 - 146096).tdiv 146097 = era := by
    rw [tdiv_shifted (by decide) (by decide), dayAt]
    omega
  have hdoe : dayAt era yoe doy + 719468 - era * 146097 = yearStart yoe + doy := by
    rw [dayAt]
    ring
  obtain ⟨doe, hdoe'⟩ : ∃ doe, doe = yearStart yoe + doy := ⟨_, rfl⟩
  have hyear : (doe - doe.tdiv 1460 + doe.tdiv 36524 - doe.tdiv 146096).tdiv 365 = yoe := by
    have hdiv := evened_div hyoe (by omega : yearStart yoe ≤ doe) (by omega)
    have hpos : evened 0 ≤ evened doe := evened_mono (by omega)
    have heven : doe - doe.tdiv 1460 + doe.tdiv 36524 - doe.tdiv 146096 = evened doe := by
      rw [Int.tdiv_eq_ediv_of_nonneg (by omega), Int.tdiv_eq_ediv_of_nonneg (by omega),
        Int.tdiv_eq_ediv_of_nonneg (by omega), evened]
    rw [heven, Int.tdiv_eq_ediv_of_nonneg hpos]
    exact hdiv
  have hday : doe - (365 * (yoe : ℤ) + (yoe : ℤ).tdiv 4 - (yoe : ℤ).tdiv 100) = doy := by
    rw [Int.tdiv_eq_ediv_of_nonneg (by omega), Int.tdiv_eq_ediv_of_nonneg (by omega), hdoe', yearStart]
    omega
  simp only [civilFromDays]
  rw [hera, hdoe, ← hdoe', hyear, hday, dateOf, monthDay_eq hdoy]
  have hmonth : 0 ≤ (5 * doy + 2).tdiv 153 := Int.tdiv_nonneg (by omega) (by decide)
  refine Prod.ext ?_ rfl
  refine if_congr ?_ rfl rfl
  split_ifs <;> omega

/-! ## Dates by the parts of their days -/

lemma yearLength_era (yoe era : ℤ) : yearLength (yoe + era * 400) = yearLength yoe := by
  have hleap : isLeap (yoe + era * 400 + 1) = isLeap (yoe + 1) := by
    rw [isLeap, isLeap, decide_eq_decide]
    omega
  rw [yearLength, yearLength, hleap]

/-- The day of a year that starts on 1 March, from its month and day. -/
def dayOf (month day : ℕ) : ℤ :=
  (153 * (if 2 < (month : ℤ) then (month : ℤ) - 3 else (month : ℤ) + 9) + 2) / 5 + day - 1

/-- Months and days of a year with no leap day at its end. -/
lemma monthDay_table : ∀ doy : ℕ, doy < 365 → (1 ≤ (monthDay doy).1 ∧ (monthDay doy).1 ≤ 12)
    ∧ 1 ≤ (monthDay doy).2 ∧ (monthDay doy).2 ≤ monthLength 1 (monthDay doy).1
    ∧ dayOf (monthDay doy).1 (monthDay doy).2 = doy := by
  decide +kernel

/-- The day after, in a year with no leap day at its end. -/
lemma monthDay_next : ∀ doy : ℕ, doy < 364 → monthDay (doy + 1) =
    if (monthDay doy).2 < monthLength 1 (monthDay doy).1 then ((monthDay doy).1, (monthDay doy).2 + 1)
    else if (monthDay doy).1 < 12 then ((monthDay doy).1 + 1, 1) else (1, 1) := by
  decide +kernel

lemma dayOf_table : ∀ month : ℕ, month < 13 → ∀ day : ℕ, day < 32 →
    1 ≤ month ∧ 1 ≤ day ∧ day ≤ monthLength 1 month → (0 ≤ dayOf month day ∧ dayOf month day < 365)
      ∧ monthDay (dayOf month day) = (month, day) := by
  decide +kernel

lemma monthLength_one_le (year : ℤ) (month : ℕ) : monthLength 1 month ≤ monthLength year month := by
  rw [monthLength, monthLength]
  split_ifs <;> first | omega | exact absurd ‹isLeap 1 = true› (by decide)

lemma monthLength_of_ne (year : ℤ) {month : ℕ} (h : month ≠ 2) : monthLength 1 month = monthLength year month := by
  rw [monthLength, monthLength, if_neg h, if_neg h]

lemma february_leap {y : ℤ} (h : 365 < yearLength y) : monthLength (y + 1) 2 = 29 := by
  rw [monthLength, if_pos rfl, if_pos]
  by_contra hnot
  rw [yearLength, if_neg hnot] at h
  exact lt_irrefl _ h

lemma february_common {y : ℤ} (h : ¬ 365 < yearLength y) : monthLength (y + 1) 2 = 28 := by
  rw [monthLength, if_pos rfl, if_neg]
  intro hleap
  rw [yearLength, if_pos hleap] at h
  exact h (by decide)

/-- A month and a day of the calendar. -/
def Valid (date : ℤ × ℕ × ℕ) : Prop :=
  (1 ≤ date.2.1 ∧ date.2.1 ≤ 12) ∧ 1 ≤ date.2.2 ∧ date.2.2 ≤ monthLength date.1 date.2.1

instance (date : ℤ × ℕ × ℕ) : Decidable (Valid date) := inferInstanceAs (Decidable (_ ∧ _))

/-- The date after. -/
def nextDate (date : ℤ × ℕ × ℕ) : ℤ × ℕ × ℕ :=
  if date.2.2 < monthLength date.1 date.2.1 then (date.1, date.2.1, date.2.2 + 1)
  else if date.2.1 < 12 then (date.1, date.2.1 + 1, 1) else (date.1 + 1, 1, 1)

/-- The leap day. -/
lemma dateOf_leapDay (y : ℤ) : dateOf y 365 = (y + 1, 2, 29) := rfl

lemma dateOf_marchFirst (y : ℤ) : dateOf y 0 = (y, 3, 1) := rfl

lemma dateOf_valid {y doy : ℤ} (hdoy : 0 ≤ doy) (hlen : doy < yearLength y) : Valid (dateOf y doy) := by
  by_cases hleap : doy = 365
  · rw [hleap, dateOf_leapDay]
    have hfeb := february_leap (by omega : 365 < yearLength y)
    exact ⟨by simp, by simp, hfeb.ge⟩
  · have hlt : doy < 365 := by
      have := (yearLength_mem y).2
      omega
    lift doy to ℕ using hdoy
    obtain ⟨hmonth, hday, hday', -⟩ := monthDay_table doy (by exact_mod_cast hlt)
    exact ⟨hmonth, hday, hday'.trans (monthLength_one_le _ _)⟩

/-- The next day of a year. -/
lemma nextDate_dateOf {y doy : ℤ} (hdoy : 0 ≤ doy) (hlen : doy + 1 < yearLength y) :
    nextDate (dateOf y doy) = dateOf y (doy + 1) := by
  by_cases hleap : doy = 364
  · subst hleap
    have hfeb := february_leap (by omega : 365 < yearLength y)
    have hdate : dateOf y 364 = (y + 1, 2, 28) := rfl
    rw [hdate, nextDate, hfeb, if_pos (by simp)]
    rfl
  · have hlt : doy < 364 := by
      have := (yearLength_mem y).2
      omega
    lift doy to ℕ using hdoy
    obtain ⟨hmonth, hday, hday', hback⟩ := monthDay_table doy (by omega)
    have hnext := monthDay_next doy (by exact_mod_cast hlt)
    rw [dateOf, dateOf, hnext, nextDate]
    generalize monthDay doy = date at *
    obtain ⟨month, day⟩ := date
    dsimp only at *
    -- 28 February is the last day but one, or the last
    have hfeb : month = 2 → day < 28 := by
      rintro rfl
      by_contra hnot
      obtain rfl : day = 28 := le_antisymm hday' (not_lt.1 hnot)
      have : dayOf 2 28 = 364 := by decide
      omega
    have hlen' : day < monthLength 1 month ↔ day < monthLength (if month ≤ 2 then y + 1 else y) month := by
      by_cases hmonth2 : month = 2
      · have h28 := hfeb hmonth2
        rw [hmonth2]
        exact iff_of_true (h28.trans_le (monthLength_pos _ _)) (h28.trans_le (monthLength_pos _ _))
      · rw [monthLength_of_ne _ hmonth2]
    by_cases hfull : day < monthLength 1 month
    · rw [if_pos hfull, if_pos (hlen'.1 hfull)]
    · have hmonth2 : month ≠ 2 := by
        rintro rfl
        exact hfull ((hfeb rfl).trans_le (monthLength_pos _ _))
      rw [if_neg hfull, if_neg (mt hlen'.2 hfull)]
      by_cases hyear : month < 12
      · rw [if_pos hyear, if_pos hyear]
        refine Prod.ext ?_ rfl
        refine if_congr ?_ rfl rfl
        omega
      · rw [if_neg hyear, if_neg hyear, if_neg (by omega)]
        rfl

/-- The last day of a year. -/
lemma nextDate_dateOf_last {y doy : ℤ} (hlen : doy + 1 = yearLength y) :
    nextDate (dateOf y doy) = dateOf (y + 1) 0 := by
  rw [dateOf_marchFirst]
  by_cases hleap : 365 < yearLength y
  · obtain rfl : doy = 365 := by
      have := (yearLength_mem y).2
      omega
    rw [dateOf_leapDay, nextDate, february_leap hleap, if_neg (by simp), if_pos (by simp)]
  · obtain rfl : doy = 364 := by
      have := (yearLength_mem y).1
      omega
    have hdate : dateOf y 364 = (y + 1, 2, 28) := rfl
    rw [hdate, nextDate, february_common hleap, if_neg (by simp), if_pos (by simp)]

/-! ## The date of every day -/

lemma civilFromDays_valid (days : ℤ) : Valid (civilFromDays days) := by
  obtain ⟨era, yoe, hyoe, doy, hdoy, hlen, rfl⟩ := exists_dayAt days
  rw [civilFromDays_dayAt hyoe hdoy hlen]
  exact dateOf_valid hdoy (by rwa [yearLength_era])

lemma civilFromDays_succ (days : ℤ) : civilFromDays (days + 1) = nextDate (civilFromDays days) := by
  obtain ⟨era, yoe, hyoe, doy, hdoy, hlen, rfl⟩ := exists_dayAt days
  rw [civilFromDays_dayAt hyoe hdoy hlen]
  by_cases hlast : doy + 1 < yearLength yoe
  · have hday : dayAt era yoe doy + 1 = dayAt era yoe (doy + 1) := by
      rw [dayAt, dayAt]
      ring
    rw [hday, civilFromDays_dayAt hyoe (by omega) hlast, nextDate_dateOf hdoy (by rwa [yearLength_era])]
  · have hpos : ∀ yoe : ℤ, 0 < yearLength yoe := fun yoe => by
      have := (yearLength_mem yoe).1
      omega
    have hnext := (year_table yoe hyoe).2.2
    rw [nextDate_dateOf_last (by rw [yearLength_era]; omega)]
    by_cases hera : yoe = 399
    · have hday : dayAt era yoe doy + 1 = dayAt (era + 1) 0 0 := by
        have hzero : yearStart 0 = 0 := rfl
        rw [if_pos hera] at hnext
        rw [dayAt, dayAt]
        omega
      rw [hday, civilFromDays_dayAt (by decide) le_rfl (hpos _), hera]
      congr 1
      push_cast
      ring
    · have hday : dayAt era yoe doy + 1 = dayAt era (yoe + 1) 0 := by
        rw [if_neg hera] at hnext
        rw [dayAt, dayAt]
        omega
      rw [hday, civilFromDays_dayAt (by omega) le_rfl (hpos _)]
      congr 1
      push_cast
      ring

/-- The date of a day, among those of the calendar. -/
def civilDate (days : ℤ) : Date :=
  ⟨(civilFromDays days).1, (civilFromDays days).2.1, (civilFromDays days).2.2, (civilFromDays_valid days).1,
    (civilFromDays_valid days).2⟩

/-- The year, the month and the day. -/
def fields (d : Date) : ℤ × ℕ × ℕ := (d.year, d.month, d.day)

lemma fields_injective : Function.Injective fields := by
  intro d d' h
  obtain ⟨hyear, hrest⟩ := Prod.ext_iff.1 h
  obtain ⟨hmonth, hday⟩ := Prod.ext_iff.1 hrest
  exact Date.ext hyear hmonth hday

lemma fields_next (d : Date) : fields d.next = nextDate (fields d) := by
  rw [Date.next, nextDate]
  split_ifs with h h' h'' <;> first | rfl | contradiction

/-- **The date of a day** is that of the calendar. -/
theorem civilFromDays_eq (days : ℤ) : civilFromDays days = fields (onDay days) := by
  have hdate : civilDate days = onDay days := by
    refine eq_onDay (by decide) (fun n => fields_injective ?_) days
    rw [fields_next]
    exact civilFromDays_succ n
  rw [← hdate]
  rfl

lemma year_onDay (days : ℤ) : (onDay days).year = (civilFromDays days).1 := by
  rw [civilFromDays_eq]
  rfl

/-! ## The day of a date -/

/-- The year, from 1 March, that a month is in. -/
def marchYear (year : ℤ) (month : ℕ) : ℤ := if month ≤ 2 then year - 1 else year

lemma daysFromCivil_eq {year : ℤ} {month : ℕ} (hmonth : 1 ≤ month) (day : ℕ) : daysFromCivil year month day =
    dayAt (marchYear year month / 400) (marchYear year month % 400).toNat (dayOf month day) := by
  have hera : (if 0 ≤ marchYear year month then marchYear year month
      else marchYear year month - 399).tdiv 400 = marchYear year month / 400 :=
    tdiv_shifted (by decide) (by decide)
  have hyoe : marchYear year month - marchYear year month / 400 * 400
      = ((marchYear year month % 400).toNat : ℤ) := by omega
  have hday : (153 * (if 2 < (month : ℤ) then (month : ℤ) - 3 else (month : ℤ) + 9) + 2).tdiv 5 + (day : ℤ) - 1
      = dayOf month day := by
    rw [dayOf, Int.tdiv_eq_ediv_of_nonneg]
    split_ifs <;> omega
  simp only [daysFromCivil]
  rw [← marchYear, hera, hyoe, hday, Int.tdiv_eq_ediv_of_nonneg (by omega),
    Int.tdiv_eq_ediv_of_nonneg (by omega), dayAt, yearStart]
  ring

lemma dayOf_monthDay {doy : ℤ} (hdoy : 0 ≤ doy) (hlen : doy ≤ 365) :
    1 ≤ (monthDay doy).1 ∧ dayOf (monthDay doy).1 (monthDay doy).2 = doy := by
  lift doy to ℕ using hdoy
  by_cases hleap : doy = 365
  · rw [hleap]
    decide
  · obtain ⟨hmonth, -, -, hback⟩ := monthDay_table doy (by omega)
    exact ⟨hmonth.1, hback⟩

lemma marchYear_dateOf (y doy : ℤ) : marchYear (dateOf y doy).1 (dateOf y doy).2.1 = y := by
  rw [marchYear, dateOf]
  split_ifs with h
  · exact Int.add_sub_cancel y 1
  · rfl

/-- **The day of the date of a day.** -/
theorem daysFromCivil_onDay (days : ℤ) :
    daysFromCivil (onDay days).year (onDay days).month (onDay days).day = days := by
  obtain ⟨era, yoe, hyoe, doy, hdoy, hlen, rfl⟩ := exists_dayAt days
  have hdate : fields (onDay (dayAt era yoe doy)) = dateOf (yoe + era * 400) doy := by
    rw [← civilFromDays_eq, civilFromDays_dayAt hyoe hdoy hlen]
  obtain ⟨hmonth, hback⟩ := dayOf_monthDay hdoy (by have := (yearLength_mem yoe).2; omega)
  have hday : daysFromCivil (dateOf (yoe + era * 400) doy).1 (dateOf (yoe + era * 400) doy).2.1
      (dateOf (yoe + era * 400) doy).2.2 = dayAt era yoe doy := by
    have hmonth' : 1 ≤ (dateOf (yoe + era * 400) doy).2.1 := hmonth
    rw [daysFromCivil_eq hmonth', marchYear_dateOf]
    have hera : ((yoe : ℤ) + era * 400) / 400 = era := by omega
    have hrest : (((yoe : ℤ) + era * 400) % 400).toNat = yoe := by omega
    rw [hera, hrest]
    exact congrArg _ hback
  rw [← hdate] at hday
  exact hday

/-- A date, by the day of its year. -/
lemma dateOf_dayOf (d : Date) : 0 ≤ dayOf d.month d.day
    ∧ dayOf d.month d.day < yearLength (marchYear d.year d.month)
    ∧ dateOf (marchYear d.year d.month) (dayOf d.month d.day) = fields d := by
  obtain ⟨year, month, day, hmonth, hday⟩ := d
  dsimp only
  by_cases hleap : day ≤ monthLength 1 month
  · have hshort : monthLength 1 month ≤ 31 := by
      rw [monthLength]
      split_ifs <;> omega
    obtain ⟨⟨hpos, hlt⟩, hback⟩ := dayOf_table month (by omega) day (by omega) ⟨hmonth.1, hday.1, hleap⟩
    refine ⟨hpos, hlt.trans_le (yearLength_mem _).1, ?_⟩
    rw [dateOf, hback, marchYear]
    refine Prod.ext ?_ rfl
    dsimp only [fields]
    split_ifs <;> omega
  · obtain rfl : month = 2 := by
      by_contra hmonth2
      rw [monthLength_of_ne year hmonth2] at hleap
      exact hleap hday.2
    have h29 : monthLength year 2 ≤ 29 := by
      rw [monthLength]
      split_ifs <;> omega
    have h28 : monthLength 1 2 = 28 := by decide
    obtain rfl : day = 29 := by omega
    have hyear : isLeap year := by
      by_contra hnot
      have : monthLength year 2 = 28 := by rw [monthLength, if_pos rfl, if_neg hnot]
      omega
    have hday365 : dayOf 2 29 = 365 := by decide
    rw [hday365]
    refine ⟨by decide, ?_, ?_⟩
    · rw [yearLength, marchYear, if_pos le_rfl, Int.sub_add_cancel, if_pos hyear]
      decide
    · rw [dateOf_leapDay, marchYear, if_pos le_rfl, Int.sub_add_cancel]
      rfl

/-- **The day of a date** has it. -/
theorem onDay_daysFromCivil (d : Date) : onDay (daysFromCivil d.year d.month d.day) = d := by
  obtain ⟨hpos, hlen, hback⟩ := dateOf_dayOf d
  have hyoe : ((marchYear d.year d.month % 400).toNat : ℤ) = marchYear d.year d.month % 400 := by omega
  have hyear : (marchYear d.year d.month % 400).toNat + marchYear d.year d.month / 400 * 400
      = marchYear d.year d.month := by omega
  rw [daysFromCivil_eq d.month_mem.1]
  refine fields_injective ?_
  rw [← civilFromDays_eq, civilFromDays_dayAt (by omega) hpos, hyear, hback]
  rw [← yearLength_era _ (marchYear d.year d.month / 400), hyear]
  exact hlen

end Lang
