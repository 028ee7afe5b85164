import Mathlib.Algebra.Group.End
import Mathlib.Data.Prod.Lex
import Mathlib.Tactic

/-!
# The proleptic Gregorian calendar

Dates, the day after each, and the date so many days after another.  Every day has one date and every date
one day, and both go in the same order.

* **`onDay`** — the date a number of days after 1 January 1970.
* **`eq_onDay`** — whatever starts there and takes the next date every day is that date.
* **`onDay_strictMono`** — later days have later dates.
-/

namespace Calendar

def isLeap (year : ℤ) : Bool := decide (year % 4 = 0 ∧ (year % 100 ≠ 0 ∨ year % 400 = 0))

def monthLength (year : ℤ) (month : ℕ) : ℕ :=
  if month = 2 then if isLeap year then 29 else 28
  else if month = 4 ∨ month = 6 ∨ month = 9 ∨ month = 11 then 30
  else 31

/-- A day of the calendar. -/
@[ext]
structure Date where
  year : ℤ
  month : ℕ
  day : ℕ
  month_mem : 1 ≤ month ∧ month ≤ 12
  day_mem : 1 ≤ day ∧ day ≤ monthLength year month
  deriving DecidableEq

lemma monthLength_pos (year : ℤ) (month : ℕ) : 28 ≤ monthLength year month := by
  rw [monthLength]
  split_ifs <;> omega

lemma monthLength_le (year : ℤ) (month : ℕ) : monthLength year month ≤ 31 := by
  rw [monthLength]
  split_ifs <;> omega

namespace Date

/-- 1 January 1970. -/
def epoch : Date := ⟨1970, 1, 1, by decide, by decide⟩

/-- The first day of a month. -/
def first (year : ℤ) (month : ℕ) (h : 1 ≤ month ∧ month ≤ 12) : Date :=
  ⟨year, month, 1, h, le_rfl, (by decide : 1 ≤ 28).trans (monthLength_pos year month)⟩

/-- The last day of a month. -/
def last (year : ℤ) (month : ℕ) (h : 1 ≤ month ∧ month ≤ 12) : Date :=
  ⟨year, month, monthLength year month, h, (by decide : 1 ≤ 28).trans (monthLength_pos year month), le_rfl⟩

/-- The day after. -/
def next (d : Date) : Date :=
  if h : d.day < monthLength d.year d.month then ⟨d.year, d.month, d.day + 1, d.month_mem, by omega, h⟩
  else if h : d.month < 12 then first d.year (d.month + 1) ⟨by omega, h⟩
  else first (d.year + 1) 1 (by decide)

/-- The day before. -/
def prev (d : Date) : Date :=
  if h : 1 < d.day then ⟨d.year, d.month, d.day - 1, d.month_mem, by omega, by have := d.day_mem; omega⟩
  else if h : 1 < d.month then last d.year (d.month - 1) ⟨by omega, by have := d.month_mem; omega⟩
  else last (d.year - 1) 12 (by decide)

lemma prev_first {year : ℤ} {month : ℕ} (h : 1 ≤ month ∧ month ≤ 12) (h' : 1 < month) :
    (first year month h).prev = last year (month - 1) ⟨by omega, by omega⟩ := by
  rw [prev, dif_neg (show ¬ 1 < (first year month h).day from lt_irrefl 1),
    dif_pos (show 1 < (first year month h).month from h')]
  rfl

lemma prev_newYear (year : ℤ) : (first year 1 (by decide)).prev = last (year - 1) 12 (by decide) := by
  rw [prev, dif_neg (show ¬ 1 < (first year 1 (by decide)).day from lt_irrefl 1),
    dif_neg (show ¬ 1 < (first year 1 (by decide)).month from lt_irrefl 1)]
  rfl

lemma next_last {year : ℤ} {month : ℕ} (h : 1 ≤ month ∧ month ≤ 12) (h' : month < 12) :
    (last year month h).next = first year (month + 1) ⟨by omega, h'⟩ := by
  have hday : ¬ (last year month h).day
      < monthLength (last year month h).year (last year month h).month := lt_irrefl _
  rw [next, dif_neg hday, dif_pos (show (last year month h).month < 12 from h')]
  rfl

lemma next_newYearsEve (year : ℤ) : (last year 12 (by decide)).next = first (year + 1) 1 (by decide) := by
  have hday : ¬ (last year 12 (by decide)).day
      < monthLength (last year 12 (by decide)).year (last year 12 (by decide)).month := lt_irrefl _
  rw [next, dif_neg hday, dif_neg (show ¬ (last year 12 (by decide)).month < 12 from lt_irrefl 12)]
  rfl

lemma prev_next (d : Date) : d.next.prev = d := by
  obtain ⟨year, month, day, hmonth, hday⟩ := d
  rw [next]
  split_ifs with h h'
  · rw [prev, dif_pos (show 1 < day + 1 by omega)]
    exact Date.ext rfl rfl (Nat.add_sub_cancel _ _)
  · rw [prev_first _ (Nat.lt_add_of_pos_left hmonth.1)]
    refine Date.ext rfl (Nat.add_sub_cancel _ _) ?_
    show monthLength year (month + 1 - 1) = day
    rw [Nat.add_sub_cancel]
    exact le_antisymm (not_lt.1 h) hday.2
  · obtain rfl : month = 12 := le_antisymm hmonth.2 (not_lt.1 h')
    rw [prev_newYear]
    refine Date.ext (Int.add_sub_cancel _ _) rfl ?_
    show monthLength (year + 1 - 1) 12 = day
    rw [Int.add_sub_cancel]
    exact le_antisymm (not_lt.1 h) hday.2

lemma next_prev (d : Date) : d.prev.next = d := by
  obtain ⟨year, month, day, hmonth, hday⟩ := d
  rw [prev]
  split_ifs with h h'
  · rw [next, dif_pos (show day - 1 < monthLength year month by omega)]
    exact Date.ext rfl rfl (Nat.sub_add_cancel hday.1)
  · rw [next_last _ (show month - 1 < 12 by omega)]
    exact Date.ext rfl (Nat.sub_add_cancel hmonth.1) (le_antisymm hday.1 (not_lt.1 h))
  · obtain rfl : month = 1 := le_antisymm (not_lt.1 h') hmonth.1
    rw [next_newYearsEve]
    exact Date.ext (Int.sub_add_cancel _ _) rfl (le_antisymm hday.1 (not_lt.1 h))

/-- Where a date stands among all. -/
def key (d : Date) : ℤ ×ₗ ℕ ×ₗ ℕ := toLex (d.year, toLex (d.month, d.day))

lemma key_lt_next (d : Date) : d.key < d.next.key := by
  rw [next]
  split_ifs with h h'
  · exact Prod.Lex.toLex_lt_toLex.2 (Or.inr ⟨rfl, Prod.Lex.toLex_lt_toLex.2 (Or.inr ⟨rfl, Nat.lt_succ_self _⟩)⟩)
  · exact Prod.Lex.toLex_lt_toLex.2 (Or.inr ⟨rfl, Prod.Lex.toLex_lt_toLex.2 (Or.inl (Nat.lt_succ_self _))⟩)
  · exact Prod.Lex.toLex_lt_toLex.2 (Or.inl (Int.lt_succ _))

/-- The day after, as a permutation of all days. -/
def following : Equiv.Perm Date := ⟨next, prev, prev_next, next_prev⟩

end Date

/-- The date so many days after 1 January 1970, or before it. -/
def onDay (n : ℤ) : Date := (Date.following ^ n) Date.epoch

lemma onDay_succ (n : ℤ) : onDay (n + 1) = (onDay n).next := by
  rw [onDay, add_comm, zpow_add, zpow_one, Equiv.Perm.mul_apply]
  rfl

/-- **A day has one date**: what starts at the first and takes the next every day. -/
lemma eq_onDay {date : ℤ → Date} (hzero : date 0 = Date.epoch) (hsucc : ∀ n, date (n + 1) = (date n).next)
    (n : ℤ) : date n = onDay n := by
  induction n using Int.induction_on with
  | zero => exact hzero
  | succ n ih => rw [hsucc, onDay_succ, ih]
  | pred n ih =>
      have hdate := hsucc (-n - 1)
      have honDay := onDay_succ (-n - 1)
      rw [Int.sub_add_cancel] at hdate honDay
      rw [← Date.prev_next (date (-n - 1)), ← hdate, ih, honDay, Date.prev_next]

/-- **Later days have later dates.** -/
lemma onDay_strictMono : StrictMono fun n => (onDay n).key := by
  refine strictMono_int_of_lt_succ fun n => ?_
  rw [onDay_succ]
  exact (onDay n).key_lt_next

lemma onDay_le_iff {m n : ℤ} : (onDay m).key ≤ (onDay n).key ↔ m ≤ n := onDay_strictMono.le_iff_le

lemma onDay_lt_iff {m n : ℤ} : (onDay m).key < (onDay n).key ↔ m < n := onDay_strictMono.lt_iff_lt

lemma Date.key_le_iff {d e : Date} : d.key ≤ e.key ↔ d.year < e.year
    ∨ d.year = e.year ∧ (d.month < e.month ∨ d.month = e.month ∧ d.day ≤ e.day) := by
  rw [Date.key, Date.key, Prod.Lex.toLex_le_toLex, Prod.Lex.toLex_le_toLex]

lemma Date.key_lt_iff {d e : Date} : d.key < e.key ↔ d.year < e.year
    ∨ d.year = e.year ∧ (d.month < e.month ∨ d.month = e.month ∧ d.day < e.day) := by
  rw [Date.key, Date.key, Prod.Lex.toLex_lt_toLex, Prod.Lex.toLex_lt_toLex]

end Calendar
