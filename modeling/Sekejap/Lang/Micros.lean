import Sekejap.Lang.Civil
import Sekejap.Lib.Outcome

/-!
# Instants and their parts

An instant is a count of microseconds, a 64-bit integer (`lang/src/functions.rs`).  Its civil date and time,
the unit it falls in, and the unit after that one.

* **`civilFromMicros_eq`** — the date and time of an instant, from the first whole day on.
* **`dateTrunc_eq`**, **`nextUnit_eq`** — where they stay in range, the two cut at the boundaries of the calendar:
  **`isGreatest_floorOf`**, **`isLeast_ceilOf`**.
-/

open Calendar Machine

namespace Lang

def microsPerSecond : ℤ := 1000000
def microsPerMinute : ℤ := 60000000
def microsPerHour : ℤ := 3600000000
def microsPerDay : ℤ := 86400000000

/-- The tier of a construct that is refused: it is to be built, or refused for good. -/
inductive Tier where
  | two
  | three
  deriving DecidableEq, Repr

/-- An error of a statement. -/
inductive SqlError where
  | refused (keyword : String) (tier : Tier) (reason : String)
  | syntaxAt (message : String) (position : ℕ)
  | unsupported (message : String)
  | parameter (message : String)
  | engine (message : String)
  | coded (sqlstate message : String)
  deriving DecidableEq, Repr

/-- The unit a `date_trunc` or an `EXTRACT` names. -/
inductive TimeUnit where
  | year
  | month
  | day
  | hour
  | minute
  | second
  | dow
  | epoch
  deriving DecidableEq, Repr

namespace TimeUnit

def written : TimeUnit → String
  | year => "year"
  | month => "month"
  | day => "day"
  | hour => "hour"
  | minute => "minute"
  | second => "second"
  | dow => "dow"
  | epoch => "epoch"

/-- It can be truncated to. -/
def truncates (unit : TimeUnit) : Bool := !(unit == dow || unit == epoch)

end TimeUnit

/-- A civil date and time, in UTC. -/
structure Civil where
  year : ℤ
  month : ℕ
  day : ℕ
  hour : ℕ
  minute : ℕ
  second : ℕ
  micro : ℕ
  deriving DecidableEq, Repr

variable {checked : Bool}

/-- Floor division and the remainder. -/
def floorDivRem (checked : Bool) (a b : ℤ) : Outcome SqlError (ℤ × ℤ) := do
  let q := a / b
  let back ← fit checked (q * b)
  let rest ← fit checked (a - back)
  return (q, rest)

def civilFromMicros (checked : Bool) (micros : ℤ) : Outcome SqlError Civil := do
  let (days, rest) ← floorDivRem checked micros microsPerDay
  let (year, month, day) := civilFromDays days
  return {
    year, month, day
    hour := (rest.tdiv microsPerHour).toNat
    minute := ((rest.tmod microsPerHour).tdiv microsPerMinute).toNat
    second := ((rest.tmod microsPerMinute).tdiv microsPerSecond).toNat
    micro := (rest.tmod microsPerSecond).toNat }

def microsFromCivil (checked : Bool) (c : Civil) : Outcome SqlError ℤ := do
  let days ← fit checked (daysFromCivil c.year c.month c.day * microsPerDay)
  let hours ← fit checked (c.hour * microsPerHour)
  let toHour ← fit checked (days + hours)
  let minutes ← fit checked (c.minute * microsPerMinute)
  let toMinute ← fit checked (toHour + minutes)
  let seconds ← fit checked (c.second * microsPerSecond)
  let toSecond ← fit checked (toMinute + seconds)
  fit checked (toSecond + c.micro)

/-- `date_trunc(unit, t)`: the first instant of the unit `t` falls in. -/
def dateTrunc (checked : Bool) (unit : TimeUnit) (micros : ℤ) : Outcome SqlError ℤ := do
  let c ← civilFromMicros checked micros
  match unit with
  | .year =>
      microsFromCivil checked { c with month := 1, day := 1, hour := 0, minute := 0, second := 0, micro := 0 }
  | .month => microsFromCivil checked { c with day := 1, hour := 0, minute := 0, second := 0, micro := 0 }
  | .day => microsFromCivil checked { c with hour := 0, minute := 0, second := 0, micro := 0 }
  | .hour => fit checked (micros - micros % microsPerHour)
  | .minute => fit checked (micros - micros % microsPerMinute)
  | .second => fit checked (micros - micros % microsPerSecond)
  | .dow | .epoch =>
      .error (.unsupported (s!"date_trunc('{unit.written}', t): `{unit.written}` is an EXTRACT field, "
        ++ "not a truncation unit"))

/-- The first instant after the unit that starts at `start`. -/
def nextUnit (checked : Bool) (unit : TimeUnit) (start : ℤ) : Outcome SqlError ℤ := do
  let c ← civilFromMicros checked start
  match unit with
  | .year => do
      let year ← fit checked (c.year + 1)
      microsFromCivil checked { year, month := 1, day := 1, hour := 0, minute := 0, second := 0, micro := 0 }
  | .month =>
      if c.month = 12 then do
        let year ← fit checked (c.year + 1)
        microsFromCivil checked { year, month := 1, day := 1, hour := 0, minute := 0, second := 0, micro := 0 }
      else
        microsFromCivil checked
          { year := c.year, month := c.month + 1, day := 1, hour := 0, minute := 0, second := 0, micro := 0 }
  | .day => fit checked (start + microsPerDay)
  | .hour => fit checked (start + microsPerHour)
  | .minute => fit checked (start + microsPerMinute)
  | .second => fit checked (start + microsPerSecond)
  | .dow | .epoch =>
      .error (.unsupported s!"`{unit.written}` is an EXTRACT field, not a truncation unit")

/-- `EXTRACT(unit FROM t)`. -/
def extract (checked : Bool) (unit : TimeUnit) (micros : ℤ) : Outcome SqlError ℤ := do
  let c ← civilFromMicros checked micros
  match unit with
  | .year => return c.year
  | .month => return c.month
  | .day => return c.day
  | .hour => return c.hour
  | .minute => return c.minute
  | .second => return c.second
  -- 1 January 1970 was a Thursday, and Sunday is 0
  | .dow => return (micros / microsPerDay + 4) % 7
  | .epoch => return micros / microsPerSecond

/-! ## The date and time of an instant -/

/-- The date and time of an instant, by the calendar. -/
def civilAt (m : ℤ) : Civil where
  year := (onDay (m / microsPerDay)).year
  month := (onDay (m / microsPerDay)).month
  day := (onDay (m / microsPerDay)).day
  hour := (m % microsPerDay / microsPerHour).toNat
  minute := (m % microsPerHour / microsPerMinute).toNat
  second := (m % microsPerMinute / microsPerSecond).toNat
  micro := (m % microsPerSecond).toNat

/-- The civil date and time of an instant: a date of the calendar, a time of the day, and together that instant. -/
structure Civil.Of (c : Civil) (m : ℤ) : Prop where
  date : (c.year, c.month, c.day) = fields (onDay (m / microsPerDay))
  time : c.hour < 24 ∧ c.minute < 60 ∧ c.second < 60 ∧ c.micro < 1000000
  micros : c.hour * microsPerHour + c.minute * microsPerMinute + c.second * microsPerSecond + c.micro
    = m % microsPerDay

lemma civilAt_of (m : ℤ) : (civilAt m).Of m := by
  refine ⟨rfl, ?_, ?_⟩
  · dsimp only [civilAt, microsPerDay, microsPerHour, microsPerMinute, microsPerSecond]
    omega
  · dsimp only [civilAt, microsPerDay, microsPerHour, microsPerMinute, microsPerSecond]
    omega

/-- The first instant of the first day that is whole. -/
def firstDay : ℤ := -9223372022400000000

/-- A day whose start fits is after the first. -/
lemma firstDay_le_iff {n : ℤ} : firstDay ≤ n * microsPerDay ↔ i64Min ≤ n * microsPerDay := by
  dsimp only [firstDay, i64Min, microsPerDay]
  omega

lemma firstDay_le_iff_day {m : ℤ} : firstDay ≤ m ↔ i64Min ≤ m / microsPerDay * microsPerDay := by
  dsimp only [firstDay, i64Min, microsPerDay]
  omega

/-- **The date and time of an instant** from the first whole day on. -/
lemma civilFromMicros_eq {m : ℤ} (h : firstDay ≤ m) (h' : m ≤ i64Max) :
    civilFromMicros checked m = .ok (civilAt m) := by
  have hback : Fits (m / microsPerDay * microsPerDay) := by
    refine ⟨firstDay_le_iff_day.1 h, ?_⟩
    dsimp only [i64Max, microsPerDay] at *
    omega
  have hrest : m - m / microsPerDay * microsPerDay = m % microsPerDay := by
    dsimp only [microsPerDay]
    omega
  have hfits : Fits (m % microsPerDay) := by
    rw [fits_iff]
    dsimp only [microsPerDay]
    omega
  have hpos : 0 ≤ m % microsPerDay := by
    dsimp only [microsPerDay]
    omega
  rw [civilFromMicros, floorDivRem, fit_of_fits hback]
  simp only [Outcome.ok_bind, hrest, fit_of_fits hfits, Outcome.pure_eq, civilFromDays_eq]
  rw [Int.tmod_eq_emod_of_nonneg hpos, Int.tmod_eq_emod_of_nonneg hpos, Int.tmod_eq_emod_of_nonneg hpos,
    Int.tdiv_eq_ediv_of_nonneg hpos, Int.tdiv_eq_ediv_of_nonneg, Int.tdiv_eq_ediv_of_nonneg]
  · rw [civilAt]
    congr 3 <;> (dsimp only [microsPerDay, microsPerHour, microsPerMinute, microsPerSecond]; omega)
  · exact Int.emod_nonneg _ (by decide)
  · exact Int.emod_nonneg _ (by decide)

lemma civilFromMicros_abort {m : ℤ} (h : m < firstDay) : civilFromMicros true m = .abort := by
  have hback : ¬ Fits (m / microsPerDay * microsPerDay) := by
    intro hfits
    exact absurd (firstDay_le_iff_day.2 hfits.1) (not_le.2 h)
  rw [civilFromMicros, floorDivRem, fit_of_not_fits hback]
  rfl

/-- An instant from its date and time. -/
lemma microsFromCivil_civilAt {m : ℤ} (h : firstDay ≤ m) (h' : m ≤ i64Max) :
    microsFromCivil checked (civilAt m) = .ok m := by
  have hday : daysFromCivil (civilAt m).year (civilAt m).month (civilAt m).day = m / microsPerDay :=
    daysFromCivil_onDay _
  have hsum := (civilAt_of m).micros
  obtain ⟨hhour, hminute, hsecond, hmicro⟩ := (civilAt_of m).time
  rw [microsFromCivil, hday]
  generalize civilAt m = c at *
  dsimp only [firstDay, i64Max, microsPerDay, microsPerHour, microsPerMinute, microsPerSecond] at *
  simp (disch := (rw [fits_iff]; omega)) only [fit_of_fits, Outcome.ok_bind]
  congr 1
  omega

/-- The first instant of a date. -/
lemma microsFromCivil_date (year : ℤ) (month day : ℕ) :
    microsFromCivil checked ⟨year, month, day, 0, 0, 0, 0⟩
      = fit checked (daysFromCivil year month day * microsPerDay) := by
  have hzero : (fit checked 0 : Outcome SqlError ℤ) = .ok 0 := fit_of_fits (by decide)
  simp only [microsFromCivil, Nat.cast_zero, zero_mul, hzero, Outcome.ok_bind, add_zero]
  cases h : (fit checked (daysFromCivil year month day * microsPerDay) : Outcome SqlError ℤ) with
  | ok r => simp only [Outcome.ok_bind, fit_of_fits (fits_of_fit h)]
  | error e => rfl
  | abort => rfl

/-! ## The boundaries of the calendar -/

/-- A unit of whole days starts on it. -/
def Starts (unit : TimeUnit) (d : Date) : Prop :=
  match unit with
  | .year => d.month = 1 ∧ d.day = 1
  | .month => d.day = 1
  | _ => True

/-- The microseconds of a unit of the clock. -/
def width : TimeUnit → ℤ
  | .hour => microsPerHour
  | .minute => microsPerMinute
  | .second => microsPerSecond
  | _ => microsPerDay

/-- The instants a unit starts at. -/
def Boundary (unit : TimeUnit) : Set ℤ :=
  {b | width unit ∣ b ∧ Starts unit (onDay (b / microsPerDay))}

/-- The last boundary not above an instant. -/
def floorOf (unit : TimeUnit) (m : ℤ) : ℤ :=
  let d := onDay (m / microsPerDay)
  match unit with
  | .year => daysFromCivil d.year 1 1 * microsPerDay
  | .month => daysFromCivil d.year d.month 1 * microsPerDay
  | _ => m / width unit * width unit

/-- The first boundary above an instant. -/
def ceilOf (unit : TimeUnit) (m : ℤ) : ℤ :=
  let d := onDay (m / microsPerDay)
  match unit with
  | .year => daysFromCivil (d.year + 1) 1 1 * microsPerDay
  | .month =>
      if d.month = 12 then daysFromCivil (d.year + 1) 1 1 * microsPerDay
      else daysFromCivil d.year (d.month + 1) 1 * microsPerDay
  | _ => m / width unit * width unit + width unit

/-- The last start among the days up to one. -/
lemma isGreatest_days {starts : Date → Prop} {n m : ℤ} (hstart : starts (onDay n))
    (hle : (onDay n).key ≤ (onDay (m / microsPerDay)).key)
    (hlast : ∀ d, starts d → d.key ≤ (onDay (m / microsPerDay)).key → d.key ≤ (onDay n).key) :
    IsGreatest {b | (microsPerDay ∣ b ∧ starts (onDay (b / microsPerDay))) ∧ b ≤ m} (n * microsPerDay) := by
  have hday : n * microsPerDay / microsPerDay = n := Int.mul_ediv_cancel n (by decide)
  refine ⟨⟨⟨Dvd.intro_left n rfl, by rwa [hday]⟩, ?_⟩, ?_⟩
  · rw [onDay_le_iff] at hle
    dsimp only [microsPerDay] at *
    omega
  · rintro b ⟨⟨⟨k, rfl⟩, hk⟩, hbm⟩
    rw [Int.mul_ediv_cancel_left k (by decide)] at hk
    have hkm : k ≤ m / microsPerDay := by
      dsimp only [microsPerDay] at *
      omega
    have hkn := onDay_le_iff.1 (hlast _ hk (onDay_le_iff.2 hkm))
    dsimp only [microsPerDay]
    omega

/-- The first start among the days after one. -/
lemma isLeast_days {starts : Date → Prop} {n m : ℤ} (hstart : starts (onDay n))
    (hlt : (onDay (m / microsPerDay)).key < (onDay n).key)
    (hfirst : ∀ d, starts d → (onDay (m / microsPerDay)).key < d.key → (onDay n).key ≤ d.key) :
    IsLeast {b | (microsPerDay ∣ b ∧ starts (onDay (b / microsPerDay))) ∧ m < b} (n * microsPerDay) := by
  have hday : n * microsPerDay / microsPerDay = n := Int.mul_ediv_cancel n (by decide)
  refine ⟨⟨⟨Dvd.intro_left n rfl, by rwa [hday]⟩, ?_⟩, ?_⟩
  · rw [onDay_lt_iff] at hlt
    dsimp only [microsPerDay] at *
    omega
  · rintro b ⟨⟨⟨k, rfl⟩, hk⟩, hbm⟩
    rw [Int.mul_ediv_cancel_left k (by decide)] at hk
    have hkm : m / microsPerDay < k := by
      dsimp only [microsPerDay] at *
      omega
    have hkn := onDay_le_iff.1 (hfirst _ hk (onDay_lt_iff.2 hkm))
    dsimp only [microsPerDay]
    omega

/-- The multiples about an instant. -/
lemma isGreatest_multiple {w : ℤ} (hw : 0 < w) (m : ℤ) :
    IsGreatest {b | (w ∣ b ∧ True) ∧ b ≤ m} (m / w * w) := by
  refine ⟨⟨⟨Dvd.intro_left _ rfl, trivial⟩, Int.ediv_mul_le m hw.ne'⟩, ?_⟩
  rintro b ⟨⟨⟨k, rfl⟩, -⟩, hbm⟩
  have hk : k ≤ m / w := (Int.le_ediv_iff_mul_le hw).2 (by rwa [mul_comm])
  rw [mul_comm]
  exact Int.mul_le_mul_of_nonneg_right hk hw.le

lemma isLeast_multiple {w : ℤ} (hw : 0 < w) (m : ℤ) :
    IsLeast {b | (w ∣ b ∧ True) ∧ m < b} (m / w * w + w) := by
  refine ⟨⟨⟨⟨m / w + 1, by ring⟩, trivial⟩, Int.lt_ediv_add_one_mul_self m hw |>.trans_eq (by ring)⟩, ?_⟩
  rintro b ⟨⟨⟨k, rfl⟩, -⟩, hbm⟩
  have hk : m / w < k := (Int.ediv_lt_iff_lt_mul hw).2 (by rwa [mul_comm])
  have hmul := Int.mul_le_mul_of_nonneg_right (Int.add_one_le_of_lt hk) hw.le
  linarith

/-- The date of the first day of a month. -/
lemma onDay_first (year : ℤ) {month : ℕ} (h : 1 ≤ month ∧ month ≤ 12) :
    onDay (daysFromCivil year month 1) = Date.first year month h :=
  onDay_daysFromCivil (Date.first year month h)

/-- **The last boundary not above an instant.** -/
lemma isGreatest_floorOf {unit : TimeUnit} (hunit : unit.truncates) (m : ℤ) :
    IsGreatest {b | b ∈ Boundary unit ∧ b ≤ m} (floorOf unit m) := by
  have hmonth := (onDay (m / microsPerDay)).month_mem
  have hday := (onDay (m / microsPerDay)).day_mem
  cases unit with
  | year =>
      refine @isGreatest_days (Starts .year) _ _ ?_ ?_ ?_ <;> rw [onDay_first _ ⟨le_rfl, by decide⟩]
      · exact ⟨rfl, rfl⟩
      · rw [Date.key_le_iff, Date.first]
        dsimp only
        omega
      · rintro d ⟨hstart, hstart'⟩ hle
        rw [Date.key_le_iff] at hle ⊢
        rw [Date.first]
        dsimp only
        omega
  | month =>
      refine @isGreatest_days (Starts .month) _ _ ?_ ?_ ?_ <;> rw [onDay_first _ hmonth]
      · rfl
      · rw [Date.key_le_iff, Date.first]
        dsimp only
        omega
      · intro d hstart hle
        rw [Date.key_le_iff] at hle ⊢
        rw [Starts] at hstart
        rw [Date.first]
        dsimp only
        omega
  | day => exact isGreatest_multiple (by decide) m
  | hour => exact isGreatest_multiple (by decide) m
  | minute => exact isGreatest_multiple (by decide) m
  | second => exact isGreatest_multiple (by decide) m
  | dow => cases hunit
  | epoch => cases hunit

/-- **The first boundary above an instant.** -/
lemma isLeast_ceilOf {unit : TimeUnit} (hunit : unit.truncates) (m : ℤ) :
    IsLeast {b | b ∈ Boundary unit ∧ m < b} (ceilOf unit m) := by
  have hmonth := (onDay (m / microsPerDay)).month_mem
  have hday := (onDay (m / microsPerDay)).day_mem
  cases unit with
  | year =>
      refine @isLeast_days (Starts .year) _ _ ?_ ?_ ?_ <;> rw [onDay_first _ ⟨le_rfl, by decide⟩]
      · exact ⟨rfl, rfl⟩
      · rw [Date.key_lt_iff, Date.first]
        dsimp only
        omega
      · rintro d ⟨hstart, hstart'⟩ hlt
        rw [Date.key_lt_iff] at hlt
        rw [Date.key_le_iff, Date.first]
        dsimp only
        omega
  | month =>
      have hmonth' := hmonth
      dsimp only [ceilOf]
      split_ifs with hlast
      · refine @isLeast_days (Starts .month) _ _ ?_ ?_ ?_ <;> rw [onDay_first _ ⟨le_rfl, by decide⟩]
        · rfl
        · rw [Date.key_lt_iff, Date.first]
          dsimp only
          omega
        · intro d hstart hlt
          have hd := d.month_mem
          rw [Starts] at hstart
          rw [Date.key_lt_iff] at hlt
          rw [Date.key_le_iff, Date.first]
          dsimp only
          omega
      · refine @isLeast_days (Starts .month) _ _ ?_ ?_ ?_ <;> rw [onDay_first _ ⟨by omega, by omega⟩]
        · rfl
        · rw [Date.key_lt_iff, Date.first]
          dsimp only
          omega
        · intro d hstart hlt
          rw [Starts] at hstart
          rw [Date.key_lt_iff] at hlt
          rw [Date.key_le_iff, Date.first]
          dsimp only
          omega
  | day => exact isLeast_multiple (by decide) m
  | hour => exact isLeast_multiple (by decide) m
  | minute => exact isLeast_multiple (by decide) m
  | second => exact isLeast_multiple (by decide) m
  | dow => cases hunit
  | epoch => cases hunit

/-! ## What the code cuts -/

lemma floorOf_le {unit : TimeUnit} (hunit : unit.truncates) (m : ℤ) : floorOf unit m ≤ m :=
  (isGreatest_floorOf hunit m).1.2

lemma lt_ceilOf {unit : TimeUnit} (hunit : unit.truncates) (m : ℤ) : m < ceilOf unit m :=
  (isLeast_ceilOf hunit m).1.2

lemma year_mono {m n : ℤ} (h : m ≤ n) : (onDay m).year ≤ (onDay n).year := by
  have hkey := Date.key_le_iff.1 (onDay_le_iff.2 h)
  omega

/-- The years that have whole days. -/
lemma year_mem {m : ℤ} (h : firstDay ≤ m) (h' : m ≤ i64Max) :
    -290308 ≤ (onDay (m / microsPerDay)).year ∧ (onDay (m / microsPerDay)).year ≤ 294247 := by
  have hlow : (onDay (-106751991)).year = -290308 := by
    rw [year_onDay]
    decide
  have hhigh : (onDay 106751991).year = 294247 := by
    rw [year_onDay]
    decide
  dsimp only [firstDay, i64Max] at h h'
  rw [← hlow, ← hhigh]
  constructor
  · refine year_mono ?_
    dsimp only [microsPerDay]
    omega
  · refine year_mono ?_
    dsimp only [microsPerDay]
    omega

/-- Truncation of the clock is by the remainder. -/
lemma sub_emod_eq (m w : ℤ) : m - m % w = m / w * w := by
  have := Int.mul_ediv_add_emod m w
  rw [mul_comm] at this
  omega

lemma daysFromCivil_civilAt (m : ℤ) :
    daysFromCivil (civilAt m).year (civilAt m).month (civilAt m).day = m / microsPerDay :=
  daysFromCivil_onDay _

/-- **Truncation** is to the last boundary, where that fits. -/
lemma dateTrunc_eq {unit : TimeUnit} (hunit : unit.truncates) {m : ℤ} (h : firstDay ≤ m) (h' : m ≤ i64Max) :
    dateTrunc checked unit m = fit checked (floorOf unit m) := by
  rw [dateTrunc, civilFromMicros_eq h h', Outcome.ok_bind]
  cases unit with
  | year => exact microsFromCivil_date _ 1 1
  | month => exact microsFromCivil_date _ _ 1
  | day =>
      dsimp only [floorOf, width]
      rw [microsFromCivil_date, daysFromCivil_civilAt]
  | hour => exact congrArg (fit checked) (sub_emod_eq m microsPerHour)
  | minute => exact congrArg (fit checked) (sub_emod_eq m microsPerMinute)
  | second => exact congrArg (fit checked) (sub_emod_eq m microsPerSecond)
  | dow => cases hunit
  | epoch => cases hunit

lemma dateTrunc_abort {unit : TimeUnit} {m : ℤ} (h : m < firstDay) : dateTrunc true unit m = .abort := by
  rw [dateTrunc, civilFromMicros_abort h]
  rfl

/-- A boundary that fits is not before the first whole day. -/
lemma firstDay_le_floorOf {unit : TimeUnit} (hunit : unit.truncates) {m : ℤ} (h : firstDay ≤ m) :
    firstDay ≤ floorOf unit m ↔ i64Min ≤ floorOf unit m := by
  cases unit with
  | year => exact firstDay_le_iff
  | month => exact firstDay_le_iff
  | day => exact firstDay_le_iff
  | hour =>
      dsimp only [floorOf, width, firstDay, i64Min, microsPerHour] at *
      omega
  | minute =>
      dsimp only [floorOf, width, firstDay, i64Min, microsPerMinute] at *
      omega
  | second =>
      dsimp only [floorOf, width, firstDay, i64Min, microsPerSecond] at *
      omega
  | dow => cases hunit
  | epoch => cases hunit

/-- The date of a boundary of whole days. -/
lemma civilAt_day {year : ℤ} {month : ℕ} (h : 1 ≤ month ∧ month ≤ 12) :
    (civilAt (daysFromCivil year month 1 * microsPerDay)).year = year
      ∧ (civilAt (daysFromCivil year month 1 * microsPerDay)).month = month := by
  rw [civilAt]
  dsimp only
  rw [Int.mul_ediv_cancel _ (by decide), onDay_first year h]
  exact ⟨rfl, rfl⟩

/-- **The next boundary** after one, where it fits. -/
lemma nextUnit_eq {unit : TimeUnit} (hunit : unit.truncates) {m : ℤ} (h : firstDay ≤ floorOf unit m)
    (h' : m ≤ i64Max) : nextUnit checked unit (floorOf unit m) = fit checked (ceilOf unit m) := by
  have hle := floorOf_le hunit m
  have hmonth := (onDay (m / microsPerDay)).month_mem
  have hnext : Fits ((onDay (m / microsPerDay)).year + 1) := by
    have hyear := year_mem (h.trans hle) h'
    rw [fits_iff]
    omega
  rw [nextUnit, civilFromMicros_eq h (hle.trans h'), Outcome.ok_bind]
  cases unit with
  | year =>
      obtain ⟨hy, -⟩ := @civilAt_day (onDay (m / microsPerDay)).year 1 (by decide)
      dsimp only [floorOf, ceilOf]
      rw [hy, fit_of_fits hnext, Outcome.ok_bind]
      exact microsFromCivil_date _ 1 1
  | month =>
      obtain ⟨hy, hm⟩ := @civilAt_day (onDay (m / microsPerDay)).year (onDay (m / microsPerDay)).month hmonth
      dsimp only [floorOf, ceilOf]
      simp only [hy, hm]
      split_ifs with hlast
      · rw [fit_of_fits hnext, Outcome.ok_bind]
        exact microsFromCivil_date _ 1 1
      · exact microsFromCivil_date _ _ 1
  | day => rfl
  | hour => rfl
  | minute => rfl
  | second => rfl
  | dow => cases hunit
  | epoch => cases hunit

end Lang
