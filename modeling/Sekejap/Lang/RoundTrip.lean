import Sekejap.Lang.Reading

/-!
# Instants written and read

An instant is written as a timestamp (**`formatTimestamp_eq`**) and reads back where its year has four characters.

* **`exact_iff`** — the instants whose date, boundaries and text are all exact.
-/

namespace Lang

open Calendar Machine Utf8 Numerals

variable {checked : Bool} {m : ℤ}

/-- The timestamp an instant is written as. -/
def stampOf (m : ℤ) : Stamp where
  year := padded 4 (civilAt m).year
  month := zeroPadded 2 (civilAt m).month
  day := zeroPadded 2 (civilAt m).day
  clock := some {
    separator := 'T'
    hour := zeroPadded 2 (civilAt m).hour
    minute := zeroPadded 2 (civilAt m).minute
    second := some (zeroPadded 2 (civilAt m).second,
      if (civilAt m).micro = 0 then none else some (zeroPadded 6 (civilAt m).micro)) }
  zone := some (.utc 'Z')

lemma formatTimestamp_eq (h : firstDay ≤ m) (h' : m ≤ i64Max) :
    formatTimestamp checked m = .ok (String.ofList (stampOf m).text) := by
  rw [formatTimestamp, civilFromMicros_eq h h', Outcome.ok_bind, Stamp.text, stampOf]
  dsimp only
  split_ifs with hmicro
  · simp [clockText, secondText, fractionText, zoneText]
  · simp [clockText, secondText, fractionText, zoneText]

lemma num_zeroPadded {w n : ℕ} (hw : 0 < w) (h : n < 10 ^ w) (hfits : Fits n) : Num w (zeroPadded w n) := by
  refine ⟨length_zeroPadded_of_lt h, ?_⟩
  rw [parseI64_zeroPadded hw hfits]
  rfl

lemma val_zeroPadded {w n : ℕ} (hw : 0 < w) (hfits : Fits n) : val (zeroPadded w n) = n := by
  rw [val, parseI64_zeroPadded hw hfits]
  rfl

/-- A year of four characters, its sign one of them. -/
lemma length_padded {v : ℤ} (h : -999 ≤ v ∧ v ≤ 9999) : (padded 4 v).length = 4 := by
  rw [padded]
  split_ifs with hneg
  · rw [List.length_cons, length_zeroPadded_of_lt (by omega)]
  · rw [length_zeroPadded_of_lt (by omega)]

lemma num_padded {v : ℤ} (h : -999 ≤ v ∧ v ≤ 9999) : Num 4 (padded 4 v) ∧ val (padded 4 v) = v := by
  have hread : parseI64 (padded 4 v) = some v := parseI64_padded (by decide) (by rw [fits_iff]; omega)
  refine ⟨⟨length_padded h, by rw [hread]; rfl⟩, ?_⟩
  rw [val, hread]
  rfl

lemma num_two {n : ℕ} (h : n < 100) : Num 2 (zeroPadded 2 n) ∧ val (zeroPadded 2 n) = n := by
  have hfits : Fits n := by
    rw [fits_iff]
    omega
  exact ⟨num_zeroPadded (by decide) h hfits, val_zeroPadded (by decide) hfits⟩

/-- The fraction of an instant. -/
lemma fraction_written {n : ℕ} (h : n < 1000000) {d : List Char}
    (hd : (if n = 0 then none else some (zeroPadded 6 n)) = some d) : Digits d ∧ d.length ≤ 9 := by
  split_ifs at hd with hzero
  cases hd
  refine ⟨digits_zeroPadded (by decide), ?_⟩
  rw [length_zeroPadded_of_lt h]
  decide

lemma fractionValue_written {n : ℕ} (h : n < 1000000) :
    fractionValue (if n = 0 then none else some (zeroPadded 6 n)) = n := by
  split_ifs with hzero
  · rw [hzero]
    rfl
  · rw [fractionValue, number_zeroPadded, length_zeroPadded_of_lt h]
    simp

section Written

variable (hyear : -999 ≤ (civilAt m).year ∧ (civilAt m).year ≤ 9999)
include hyear

lemma stampOf_written : (stampOf m).Written := by
  obtain ⟨hhour, hminute, hsecond, hmicro⟩ := (civilAt_of m).time
  have hmonth := (onDay (m / microsPerDay)).month_mem
  have hday := (onDay (m / microsPerDay)).day_mem
  have h31 := monthLength_le (onDay (m / microsPerDay)).year (onDay (m / microsPerDay)).month
  have hm : (civilAt m).month < 100 := lt_of_le_of_lt hmonth.2 (by decide)
  have hd : (civilAt m).day < 100 := lt_of_le_of_lt (hday.2.trans h31) (by decide)
  refine ⟨(num_padded hyear).1, (num_two hm).1, (num_two hd).1, ?_, Or.inl rfl, ?_, ?_, ?_, ?_⟩
  · rintro _ ⟨⟩
    refine ⟨Or.inl rfl, (num_two (hhour.trans (by decide))).1, (num_two (hminute.trans (by decide))).1, ?_⟩
    rintro _ ⟨⟩
    exact ⟨(num_two (hsecond.trans (by decide))).1, fun d hfraction => (fraction_written hmicro hfraction).1⟩
  · dsimp only [stampOf]
    rw [(num_padded hyear).2, (num_two hm).2, (num_two hd).2]
    exact ⟨hmonth, hday⟩
  · dsimp only [stampOf, clockValue]
    rw [(num_two (hhour.trans (by decide))).2]
    omega
  · dsimp only [stampOf, clockValue]
    rw [(num_two (hminute.trans (by decide))).2]
    omega
  · dsimp only [stampOf, clockValue, secondValue]
    rw [(num_two (hsecond.trans (by decide))).2]
    omega

lemma stampOf_value : (stampOf m).value = m := by
  obtain ⟨hhour, hminute, hsecond, hmicro⟩ := (civilAt_of m).time
  have hmicros := (civilAt_of m).micros
  have hmonth := (onDay (m / microsPerDay)).month_mem
  have hday := (onDay (m / microsPerDay)).day_mem
  have h31 := monthLength_le (onDay (m / microsPerDay)).year (onDay (m / microsPerDay)).month
  have hm : (civilAt m).month < 100 := lt_of_le_of_lt hmonth.2 (by decide)
  have hd : (civilAt m).day < 100 := lt_of_le_of_lt (hday.2.trans h31) (by decide)
  have hdays := daysFromCivil_civilAt m
  dsimp only [Stamp.value, stampOf, clockValue, secondValue, Clock.micros, zoneValue]
  rw [(num_padded hyear).2, (num_two hm).2, (num_two hd).2, (num_two (hhour.trans (by decide))).2,
    (num_two (hminute.trans (by decide))).2, (num_two (hsecond.trans (by decide))).2,
    fractionValue_written hmicro, Int.toNat_natCast, Int.toNat_natCast, hdays, hmicros]
  have := Int.ediv_mul_add_emod m microsPerDay
  omega

end Written

/-- What starts with a number does not start with a blank. -/
lemma parse_head {c : Char} {f : List Char} {v : ℤ} (h : parseI64 (c :: f) = some v) : ¬ isWhitespace c := by
  have hdigit : ∀ d : Char, d.isDigit → ¬ isWhitespace d := by
    intro d hd hblank
    have hrange := digit_ascii hd
    have := of_decide_eq_true hblank
    omega
  obtain ⟨hdigits, -⟩ | ⟨r, hr, -⟩ | ⟨r, hr, -⟩ := parseI64_eq_some.1 h
  · exact hdigit c (hdigits.2 c (List.mem_cons_self ..))
  · obtain ⟨rfl, -⟩ := List.cons.inj hr
    decide
  · obtain ⟨rfl, -⟩ := List.cons.inj hr
    decide

/-- The text of an instant has no blanks about it. -/
lemma trim_stampOf (h : firstDay ≤ m) (h' : m ≤ i64Max) : trim (stampOf m).text = (stampOf m).text := by
  have hbound := year_mem h h'
  have hread : parseI64 (stampOf m).year = some (civilAt m).year := by
    refine parseI64_padded (by decide) ?_
    rw [fits_iff]
    dsimp only [civilAt]
    omega
  cases hy : (stampOf m).year with
  | nil =>
      rw [hy] at hread
      cases hread
  | cons c y =>
      rw [hy] at hread
      have htext : (stampOf m).text = c :: (y ++ '-' :: ((stampOf m).month ++ '-' :: ((stampOf m).day
          ++ clockText (stampOf m).clock)) ++ ['Z']) := by
        rw [Stamp.text, hy]
        simp [stampOf, zoneText]
      rw [htext]
      exact trim_eq_self (parse_head hread) (by decide)

/-- An instant of a four-character year reads back. -/
lemma parseTimestamp_formatTimestamp (h : firstDay ≤ m) (h' : m ≤ i64Max)
    (hyear : -999 ≤ (civilAt m).year ∧ (civilAt m).year ≤ 9999) :
    (formatTimestamp checked m >>= parseTimestamp checked) = .ok m := by
  have hshort : Short (clockFraction (stampOf m).clock) := by
    intro d hd
    exact (fraction_written (civilAt_of m).time.2.2.2 hd).2
  have htext : trim (String.ofList (stampOf m).text).toList = (stampOf m).text := by
    rw [String.toList_ofList, trim_stampOf h h']
  rw [formatTimestamp_eq h h', Outcome.ok_bind, parseTimestamp_text (stampOf_written hyear) hshort htext,
    stampOf_value hyear]

/-- A longer year has a digit where the reader wants a dash. -/
lemma padded_digit {v : ℤ} (h : v < -999 ∨ 9999 < v) : ∃ c, (padded 4 v)[4]? = some c ∧ c.isDigit := by
  have hdigit : ∀ (w n i : ℕ), 0 < w → i < (zeroPadded w n).length →
      ∃ c, (zeroPadded w n)[i]? = some c ∧ c.isDigit := by
    intro w n i hw hi
    exact ⟨_, List.getElem?_eq_getElem hi, (digits_zeroPadded hw).2 _ (List.getElem_mem hi)⟩
  rw [padded]
  split_ifs with hneg
  · rw [List.getElem?_cons_succ]
    refine hdigit 3 v.natAbs 3 (by decide) ?_
    rw [length_zeroPadded]
    exact lt_max_of_lt_right ((Nat.lt_digits_length_iff (by decide) _).2 (by omega))
  · refine hdigit 4 v.natAbs 4 (by decide) ?_
    rw [length_zeroPadded]
    exact lt_max_of_lt_right ((Nat.lt_digits_length_iff (by decide) _).2 (by omega))

lemma text_dash {p : Stamp} (h : p.Written) : p.text[4]? = some '-' := by
  rw [Stamp.text, List.getElem?_append_right h.year.1.le, h.year.1]
  rfl

/-- An instant of a longer year does not read back. -/
lemma parseTimestamp_formatTimestamp_ne (h : firstDay ≤ m) (h' : m ≤ i64Max)
    (hyear : (civilAt m).year < -999 ∨ 9999 < (civilAt m).year) (v : ℤ) :
    (formatTimestamp checked m >>= parseTimestamp checked) ≠ .ok v := by
  rw [formatTimestamp_eq h h', Outcome.ok_bind]
  intro hread
  obtain ⟨p, htext, hp, -⟩ := exists_stamp hread
  rw [String.toList_ofList, trim_stampOf h h'] at htext
  have hdash := text_dash hp
  obtain ⟨c, hc, hdigit⟩ := padded_digit hyear
  have hyear4 : (stampOf m).text[4]? = some c := by
    obtain ⟨hlt, -⟩ := List.getElem?_eq_some_iff.1 hc
    have hlt' : 4 < (stampOf m).year.length := hlt
    rw [Stamp.text, List.getElem?_append_left hlt']
    exact hc
  rw [← htext, hyear4] at hdash
  cases hdash
  cases hdigit

/-! ## The instants that are exact -/

/-- A boundary that fits is the answer, and one that does not is an error. -/
def Answers (x : Outcome SqlError ℤ) (b : ℤ) : Prop := if Fits b then x = .ok b else ∃ e, x = .error e

/-- An instant is exact: its date and time are those of the calendar and lead back to it, the units are cut at their
boundaries, and its text reads back. -/
structure Exact (m : ℤ) : Prop where
  civil : ∀ checked, ∃ c : Civil, civilFromMicros checked m = .ok c ∧ c.Of m ∧ microsFromCivil checked c = .ok m
  trunc : ∀ checked unit, TimeUnit.truncates unit → ∃ s,
    IsGreatest {b | b ∈ Boundary unit ∧ b ≤ m} s ∧ Answers (dateTrunc checked unit m) s
  next : ∀ checked unit, TimeUnit.truncates unit → ∃ e,
    IsLeast {b | b ∈ Boundary unit ∧ m < b} e ∧ Answers (dateTrunc checked unit m >>= nextUnit checked unit) e
  text : ∀ checked, (formatTimestamp checked m >>= parseTimestamp checked) = .ok m

/-- The first instants of the years -999 and 10000. -/
def firstWritten : ℤ := daysFromCivil (-999) 1 1 * microsPerDay
def firstTooLong : ℤ := daysFromCivil 10000 1 1 * microsPerDay

lemma firstWritten_eq : firstWritten = -93692592000000000 := by decide

lemma firstTooLong_eq : firstTooLong = 253402300800000000 := by decide

lemma newYear_le_iff {y : ℤ} : daysFromCivil y 1 1 * microsPerDay ≤ m ↔ y ≤ (civilAt m).year := by
  have hmonth := (onDay (m / microsPerDay)).month_mem
  have hday := (onDay (m / microsPerDay)).day_mem
  have hdays : daysFromCivil y 1 1 * microsPerDay ≤ m ↔ daysFromCivil y 1 1 ≤ m / microsPerDay :=
    (Int.le_ediv_iff_mul_le (by decide)).symm
  rw [hdays, ← onDay_le_iff, onDay_first y (by decide), Date.key_le_iff, Date.first, civilAt]
  dsimp only
  omega

/-- A new year starts every unit. -/
lemma newYear_mem {unit : TimeUnit} (y : ℤ) : daysFromCivil y 1 1 * microsPerDay ∈ Boundary unit := by
  have hwidth : width unit ∣ microsPerDay := by
    cases unit <;> decide
  refine ⟨hwidth.mul_left _, ?_⟩
  rw [Int.mul_ediv_cancel _ (by decide), onDay_first y (by decide)]
  cases unit <;> first | exact ⟨rfl, rfl⟩ | rfl | trivial

/-- **An instant is exact**, printed and read back as it was, where its year has four characters: from -999 to
9999 (`firstWritten_eq`, `firstTooLong_eq`).  A year of five is printed whole, and its fifth character is
where the reader wants the month's dash. -/
theorem exact_iff (hm : Fits m) : Exact m ↔ firstWritten ≤ m ∧ m < firstTooLong := by
  have hlow : firstDay ≤ firstWritten := by decide
  have hhigh : firstTooLong ≤ i64Max := by decide
  constructor
  · intro h
    have hday : firstDay ≤ m := by
      by_contra hnot
      obtain ⟨c, hc, -⟩ := h.civil true
      rw [civilFromMicros_abort (not_le.1 hnot)] at hc
      cases hc
    by_contra hnot
    have hyear : (civilAt m).year < -999 ∨ 9999 < (civilAt m).year := by
      have h1 := @newYear_le_iff m (-999)
      have h2 := @newYear_le_iff m 10000
      rw [firstWritten, firstTooLong, h1, ← not_le, h2] at hnot
      omega
    exact parseTimestamp_formatTimestamp_ne hday hm.2 hyear m (h.text true)
  · rintro ⟨hfirst, hlast⟩
    have hday : firstDay ≤ m := hlow.trans hfirst
    have hfloor : ∀ {unit : TimeUnit}, unit.truncates → firstDay ≤ floorOf unit m := fun hunit =>
      hlow.trans ((isGreatest_floorOf hunit m).2 ⟨newYear_mem _, hfirst⟩)
    have hceil : ∀ {unit : TimeUnit}, unit.truncates → ceilOf unit m ≤ i64Max := fun hunit =>
      ((isLeast_ceilOf hunit m).2 ⟨newYear_mem _, hlast⟩).trans hhigh
    have hfits : ∀ {n : ℤ}, firstDay ≤ n → n ≤ i64Max → Fits n := by
      intro n h h'
      refine ⟨?_, h'⟩
      dsimp only [firstDay, i64Min] at *
      omega
    have htrunc : ∀ (checked : Bool) {unit : TimeUnit}, unit.truncates →
        dateTrunc checked unit m = .ok (floorOf unit m) := fun checked unit hunit => by
      rw [dateTrunc_eq hunit hday hm.2, fit_of_fits]
      exact hfits (hfloor hunit) ((floorOf_le hunit m).trans hm.2)
    refine ⟨fun checked => ⟨civilAt m, civilFromMicros_eq hday hm.2, civilAt_of m,
      microsFromCivil_civilAt hday hm.2⟩, fun checked unit hunit => ?_, fun checked unit hunit => ?_, fun checked => ?_⟩
    · refine ⟨floorOf unit m, isGreatest_floorOf hunit m, ?_⟩
      rw [Answers, if_pos (hfits (hfloor hunit) ((floorOf_le hunit m).trans hm.2))]
      exact htrunc checked hunit
    · have hnext : Fits (ceilOf unit m) := hfits (hday.trans (lt_ceilOf hunit m).le) (hceil hunit)
      refine ⟨ceilOf unit m, isLeast_ceilOf hunit m, ?_⟩
      rw [Answers, if_pos hnext, htrunc checked hunit, Outcome.ok_bind, nextUnit_eq hunit (hfloor hunit) hm.2,
        fit_of_fits hnext]
    · have h1 := (@newYear_le_iff m (-999)).1 hfirst
      have h2 := mt (@newYear_le_iff m 10000).2 (not_le.2 hlast)
      exact parseTimestamp_formatTimestamp hday hm.2 ⟨h1, by omega⟩

/-- 14:14:56.123456 on the first of July 2024. -/
theorem exact_iff_fraction : Fits 1719843296123456 ∧ Exact 1719843296123456 := by
  have hfits : Fits 1719843296123456 := by decide
  have hyears : firstWritten ≤ 1719843296123456 ∧ 1719843296123456 < firstTooLong := by
    rw [firstWritten_eq, firstTooLong_eq]
    decide
  exact ⟨hfits, (exact_iff hfits).2 hyears⟩

/-- The first instant of the year 10000 is printed with a year of five digits. -/
theorem not_exact_tenThousand : Fits 253402300800000000 ∧ ¬ Exact 253402300800000000 := by
  refine ⟨by decide, fun h => ?_⟩
  have hyear : 10000 ≤ (civilAt 253402300800000000).year := newYear_le_iff.1 (by decide)
  exact parseTimestamp_formatTimestamp_ne (by decide) (by decide) (Or.inr hyear) _ (h.text true)

end Lang
