import Sekejap.Lang.Fields

/-!
# Reading timestamps

The reader as a whole: a date, and then its parts.

* **`parseTimestamp_text`** — what is written as a timestamp is read as its instant.
* **`exists_stamp`** — what is read is written as a timestamp.
* **`parseTimestamp_abort_iff`** — the reader aborts where a field ends inside a character.
-/

namespace Lang

open Calendar Machine Utf8 Numerals

variable {checked : Bool} {text : String} {r : List Char}

/-! ## The date -/

/-- What comes after the date. -/
def readRest (checked : Bool) (text : String) (year month day : ℤ) (rest : List Char) : Outcome SqlError ℤ := do
  let (clock, rest) ← readClock checked text rest
  let (offset, rest) ← readZone checked text rest
  if trim rest ≠ [] then .error (bad text)
  else if ¬ (0 ≤ clock.hour ∧ clock.hour ≤ 23) ∨ ¬ (0 ≤ clock.minute ∧ clock.minute ≤ 59)
      ∨ ¬ (0 ≤ clock.second ∧ clock.second ≤ 60) then .error (bad text)
  else if civilFromDays (daysFromCivil year month.toNat day.toNat) ≠ (year, month.toNat, day.toNat) then
    .error (bad text)
  else instant checked (daysFromCivil year month.toNat day.toNat) clock offset

/-- A text that starts with a date. -/
def dateText (y m d r : List Char) : List Char := y ++ '-' :: (m ++ '-' :: (d ++ r))

section Date

variable {y m d : List Char}

lemma size_dateText (hy : size y = 4) (hm : size m = 2) (hd : size d = 2) : size (dateText y m d r) = 10 + size r := by
  have hdash : ∀ t, size ('-' :: t) = 1 + size t := fun t => size_cons
  rw [dateText, size_append, hdash, size_append, hdash, size_append]
  omega

/-- A date whose fields are numbers. -/
lemma parseTimestamp_date (htext : trim text.toList = dateText y m d r) (hy : Num 4 y) (hm : Num 2 m) (hd : Num 2 d) :
    parseTimestamp checked text =
      if ¬ (1 ≤ val m ∧ val m ≤ 12) ∨ ¬ (1 ≤ val d ∧ val d ≤ 31) then .error (bad text)
      else readRest checked text (val y) (val m) (val d) r := by
  have hsize := @size_dateText r y m d hy.size hm.size hd.size
  have hday : y ++ '-' :: (m ++ ['-']) ++ (d ++ r) = dateText y m d r := by
    rw [dateText]
    simp
  have hfront : size (y ++ '-' :: (m ++ ['-'])) = 8 := by
    have hdash : ∀ t, size ('-' :: t) = 1 + size t := fun t => size_cons
    rw [size_append, hdash, size_append, hdash, hy.size, hm.size]
    rfl
  obtain ⟨b4, hb4, hbyte4⟩ := @exists_index (dateText y m d r) 4 SqlError (by omega)
  obtain ⟨b7, hb7, hbyte7⟩ := @exists_index (dateText y m d r) 7 SqlError (by omega)
  have h4 : b4 = byte '-' := (hbyte4 '-' (by decide)).2 ⟨y, _, rfl, hy.size⟩
  have h7 : b7 = byte '-' := by
    refine (hbyte7 '-' (by decide)).2 ⟨y ++ '-' :: m, d ++ r, ?_, ?_⟩
    · rw [dateText]
      simp
    · have hdash : size ('-' :: m) = 1 + size m := size_cons
      rw [size_append, hdash, hy.size, hm.size]
  have hgety : get (dateText y m d r) 0 4 = some y := @get_append y [] _ 0 4 rfl (by rw [hy.size])
  have hgetm : get (dateText y m d r) 5 7 = some m := by
    have happ : dateText y m d r = y ++ ['-'] ++ (m ++ '-' :: (d ++ r)) := by
      rw [dateText]
      simp
    rw [happ]
    exact get_append (by rw [size_append, hy.size]; rfl) (by rw [hm.size])
  have hgetd : get (dateText y m d r) 8 10 = some d := by
    rw [← hday]
    exact get_append hfront (by rw [hd.size])
  have hfrom : (sliceFrom (dateText y m d r) 10 : Outcome SqlError (List Char)) = .ok r := by
    rw [← hday, ← List.append_assoc]
    exact sliceFrom_append (by rw [size_append, hfront, hd.size])
  simp only [parseTimestamp, htext]
  rw [if_neg (by omega), hb4, Outcome.ok_bind, hb7, Outcome.ok_bind, if_neg (by simp [h4, h7]), hgety,
    parsed_num hy, Outcome.ok_bind, hgetm, parsed_num hm, Outcome.ok_bind, hgetd, parsed_num hd, Outcome.ok_bind,
    hfrom]
  rfl

/-- The pieces between two dashes. -/
lemma exists_dashes {s : List Char} (h4 : ∃ u v, s = u ++ '-' :: v ∧ size u = 4)
    (h7 : ∃ u v, s = u ++ '-' :: v ∧ size u = 7) :
    ∃ y m w, s = y ++ '-' :: (m ++ '-' :: w) ∧ size y = 4 ∧ size m = 2 := by
  obtain ⟨y, v, rfl, hy⟩ := h4
  obtain ⟨u, w, happ, hu⟩ := h7
  have hdash : size (y ++ ['-']) = 5 := by
    rw [size_append, hy]
    rfl
  have happ' : y ++ ['-'] ++ v = u ++ '-' :: w := by simpa using happ
  obtain ⟨m, rfl, hv⟩ | ⟨e, he, -⟩ := List.append_eq_append_iff.1 happ'
  · rw [size_append, hdash] at hu
    exact ⟨y, m, w, by rw [hv], hy, by omega⟩
  · rw [he, size_append, hu] at hdash
    omega

lemma parsed_none : parsed text none = .error (bad text) := rfl

/-- A text that does not start with a date is an error. -/
lemma parseTimestamp_cases (checked : Bool) (text : String) : (∃ e, parseTimestamp checked text = .error e)
    ∨ ∃ y m d r, trim text.toList = dateText y m d r ∧ Num 4 y ∧ Num 2 m ∧ Num 2 d := by
  simp only [parseTimestamp]
  generalize trim text.toList = s
  by_cases hsize : size s < 10
  · left
    rw [if_pos hsize]
    exact ⟨_, rfl⟩
  · obtain ⟨b4, hb4, hbyte4⟩ := @exists_index s 4 SqlError (by omega)
    obtain ⟨b7, hb7, hbyte7⟩ := @exists_index s 7 SqlError (by omega)
    rw [if_neg hsize, hb4, Outcome.ok_bind, hb7, Outcome.ok_bind]
    by_cases hdash : b4 ≠ byte '-' ∨ b7 ≠ byte '-'
    · left
      rw [if_pos hdash]
      exact ⟨_, rfl⟩
    · rw [if_neg hdash]
      rw [not_or, not_not, not_not, hbyte4 '-' (by decide), hbyte7 '-' (by decide)] at hdash
      obtain ⟨y, m, w, rfl, hy, hm⟩ := exists_dashes hdash.1 hdash.2
      have hfront : size (y ++ '-' :: (m ++ ['-'])) = 8 := by
        have hdash : ∀ t, size ('-' :: t) = 1 + size t := fun t => size_cons
        rw [size_append, hdash, size_append, hdash, hy, hm]
        rfl
      have hday : y ++ '-' :: (m ++ '-' :: w) = y ++ '-' :: (m ++ ['-']) ++ w := by simp
      have hgety : get (y ++ '-' :: (m ++ '-' :: w)) 0 4 = some y := @get_append y [] _ 0 4 rfl (by rw [hy])
      have hgetm : get (y ++ '-' :: (m ++ '-' :: w)) 5 7 = some m := by
        have happ : y ++ '-' :: (m ++ '-' :: w) = y ++ ['-'] ++ (m ++ '-' :: w) := by simp
        rw [happ]
        exact get_append (by rw [size_append, hy]; rfl) (by rw [hm])
      obtain hyear | hyear := @parsed_cases text 4 y hy
      · left
        rw [hgety, hyear]
        exact ⟨_, rfl⟩
      obtain hmonth | hmonth := @parsed_cases text 2 m hm
      · left
        rw [hgety, parsed_num hyear, Outcome.ok_bind, hgetm, hmonth]
        exact ⟨_, rfl⟩
      rw [hgety, parsed_num hyear, Outcome.ok_bind, hgetm, parsed_num hmonth, Outcome.ok_bind]
      obtain hshort | htorn | ⟨d, r, rfl, hd⟩ := cut_cases 2 w
      · rw [hday, size_append, hfront] at hsize
        omega
      · left
        have hget : get (y ++ '-' :: (m ++ ['-']) ++ w) 8 10 = none := @get_torn _ _ 8 2 hfront htorn
        rw [hday, hget, parsed_none]
        exact ⟨_, rfl⟩
      · have hgetd : get (y ++ '-' :: (m ++ ['-']) ++ (d ++ r)) 8 10 = some d := get_append hfront (by rw [hd])
        obtain hdate | hdate := @parsed_cases text 2 d hd
        · left
          rw [hday, hgetd, hdate]
          exact ⟨_, rfl⟩
        · exact Or.inr ⟨y, m, d, r, rfl, hyear, hmonth, hdate⟩

end Date

/-! ## The whole timestamp -/

lemma trim_suffix_nil {u : List Char} {s : String} (h : trim s.toList = u ++ r) : trim r = [] ↔ r = [] := by
  constructor
  · exact eq_nil_of_trim h
  · rintro rfl
    rfl

lemma zoneText_ends {z : Option ZoneText} (h : ZoneWritten z) : Ends (zoneText z) := by
  intro c t hct
  cases z with
  | none => cases hct
  | some z =>
      cases z with
      | utc letter =>
          cases hct
          obtain rfl | rfl := h <;> simp
      | hours sign hour =>
          cases hct
          obtain ⟨rfl | rfl, -⟩ := h <;> simp
      | minutes sign hour colon minute =>
          cases hct
          obtain ⟨rfl | rfl, -⟩ := h <;> simp

lemma zoneValue_bound {z : Option ZoneText} (h : ZoneWritten z) :
    -400000000000 < zoneValue z ∧ zoneValue z < 400000000000 := by
  cases z with
  | none => decide
  | some z =>
      cases z with
      | utc letter =>
          show -400000000000 < (0 : ℤ) ∧ (0 : ℤ) < 400000000000
          decide
      | hours sign hour =>
          have hhour := abs_lt.1 h.2.abs_lt
          rw [zoneValue, signValue]
          dsimp only [microsPerHour]
          split_ifs <;> omega
      | minutes sign hour colon minute =>
          have hhour := abs_lt.1 h.2.1.abs_lt
          have hminute := abs_lt.1 h.2.2.abs_lt
          rw [zoneValue, signValue]
          dsimp only [microsPerHour, microsPerMinute]
          split_ifs <;> omega

lemma fractionValue_bound {f : Option (List Char)} (h : ∀ digits, f = some digits → Digits digits) (hshort : Short f) :
    0 ≤ fractionValue f ∧ fractionValue f ≤ 1000000000 := by
  cases f with
  | none => decide
  | some d =>
      have hscaled : (0 : ℤ) ≤ number d * 10 ^ (6 - d.length) := by positivity
      have hle : (number d : ℤ) * 10 ^ (6 - d.length) ≤ 1000000000 := by
        have := number_scaled (h d rfl) (hshort d rfl)
        exact_mod_cast this
      exact ⟨Int.ediv_nonneg hscaled (by positivity), (Int.ediv_le_self _ hscaled).trans hle⟩

lemma secondValue_micro {o : Option (List Char × Option (List Char))} (h : SecondWritten o)
    (hshort : Short (o.bind Prod.snd)) : 0 ≤ (secondValue o).2 ∧ (secondValue o).2 ≤ 1000000000 := by
  cases o with
  | none => decide
  | some p => exact fractionValue_bound (h p rfl).2 hshort

lemma clockValue_micro {c : Option ClockText} (h : ClockWritten c) (hshort : Short (clockFraction c)) :
    0 ≤ (clockValue c).micro ∧ (clockValue c).micro ≤ 1000000000 := by
  cases c with
  | none => decide
  | some c => exact secondValue_micro (h c rfl).2.2.2 hshort

/-- The days of a four-digit year. -/
lemma daysFromCivil_bound {year : ℤ} {month day : ℕ} (hyear : |year| < 10 ^ 4) (h : Valid (year, month, day)) :
    -5000000 < daysFromCivil year month day ∧ daysFromCivil year month day < 5000000 := by
  obtain ⟨hlow, hhigh⟩ := abs_lt.1 hyear
  obtain ⟨⟨hmonth, hmonth'⟩, hday, hday'⟩ := h
  have hshort : day ≤ 31 := by
    refine hday'.trans ?_
    dsimp only
    rw [monthLength]
    split_ifs <;> omega
  dsimp only at hmonth hmonth' hday
  rw [daysFromCivil_eq hmonth, dayAt, yearStart, marchYear, dayOf]
  split_ifs <;> omega

lemma instant_eq {days : ℤ} {c : Clock} {offset : ℤ} (hdays : -5000000 < days ∧ days < 5000000)
    (hhour : 0 ≤ c.hour ∧ c.hour ≤ 23) (hminute : 0 ≤ c.minute ∧ c.minute ≤ 59)
    (hsecond : 0 ≤ c.second ∧ c.second ≤ 60) (hmicro : 0 ≤ c.micro ∧ c.micro ≤ 1000000000)
    (hoffset : -400000000000 < offset ∧ offset < 400000000000) :
    instant checked days c offset = .ok (days * microsPerDay + c.micros - offset) := by
  rw [instant, Clock.micros]
  dsimp only [microsPerDay, microsPerHour, microsPerMinute, microsPerSecond] at *
  simp (disch := (rw [fits_iff]; omega)) only [fit_of_fits, Outcome.ok_bind]
  congr 1
  ring

/-- A date reads back where it exists. -/
lemma civilFromDays_daysFromCivil_iff {year : ℤ} {month day : ℕ} :
    civilFromDays (daysFromCivil year month day) = (year, month, day) ↔ Valid (year, month, day) := by
  constructor
  · intro h
    rw [← h]
    exact civilFromDays_valid _
  · rintro ⟨hmonth, hday⟩
    have hdate := onDay_daysFromCivil ⟨year, month, day, hmonth, hday⟩
    rw [civilFromDays_eq, hdate]
    rfl

/-- **What is written as a timestamp is read** as its instant. -/
theorem parseTimestamp_text {p : Stamp} (h : p.Written) (hshort : Short (clockFraction p.clock))
    (htext : trim text.toList = p.text) : parseTimestamp checked text = .ok p.value := by
  have hmonth : 1 ≤ val p.month ∧ val p.month ≤ 12 := by
    have := h.date.1
    dsimp only at this
    omega
  have hday : 1 ≤ val p.day ∧ val p.day ≤ 31 := by
    have h1 := h.date.2.1
    have h2 := h.date.2.2
    have h31 := monthLength_le (val p.year) (val p.month).toNat
    dsimp only at h1 h2
    omega
  have hclock := @readClock_text checked text (zoneText p.zone) p.clock h.clock hshort (zoneText_ends h.zone)
  rw [parseTimestamp_date htext h.year h.month h.day, if_neg (by simp [hmonth, hday]), readRest, hclock,
    Outcome.ok_bind]
  dsimp only
  rw [readZone_text h.zone, Outcome.ok_bind]
  dsimp only
  rw [if_neg (by simp [trim_nil]), if_neg (by simp [h.hour, h.minute, h.second]),
    if_neg (not_not.2 (civilFromDays_daysFromCivil_iff.2 h.date)),
    instant_eq (daysFromCivil_bound h.year.abs_lt h.date) h.hour h.minute h.second
      (clockValue_micro h.clock hshort) (zoneValue_bound h.zone)]
  rfl

/-- A text with a field that ends inside a character, past a date and the fields before it. -/
def TornStamp (s : List Char) : Prop :=
  ∃ y m d r, s = dateText y m d r ∧ (Num 4 y ∧ Num 2 m ∧ Num 2 d) ∧ (1 ≤ val m ∧ val m ≤ 12)
    ∧ (1 ≤ val d ∧ val d ≤ 31)
    ∧ (TornClock r ∨ ∃ c u, r = clockText c ++ u ∧ ClockWritten c ∧ Short (clockFraction c) ∧ TornZone u)

lemma TornZone.ends (h : TornZone r) : Ends r := by
  obtain ⟨c, t, rfl, hc, -⟩ := h
  rintro c' t' ⟨⟩
  obtain rfl | rfl := hc <;> simp

/-- A text is an error, or torn, or written as a timestamp. -/
lemma stamp_cases (checked : Bool) (text : String) : (∃ e, parseTimestamp checked text = .error e)
    ∨ (parseTimestamp checked text = .abort ∧ TornStamp (trim text.toList))
    ∨ ∃ p : Stamp, trim text.toList = p.text ∧ p.Written ∧ Short (clockFraction p.clock) := by
  obtain herror | ⟨y, m, d, r, htext, hy, hm, hd⟩ := parseTimestamp_cases checked text
  · exact Or.inl herror
  rw [parseTimestamp_date htext hy hm hd]
  split_ifs with hrange
  · exact Or.inl ⟨_, rfl⟩
  rw [not_or, not_not, not_not] at hrange
  rw [readRest]
  cases hclock : readClock checked text r with
  | error e => exact Or.inl ⟨e, rfl⟩
  | abort =>
      exact Or.inr (Or.inl ⟨rfl, y, m, d, r, htext, ⟨hy, hm, hd⟩, hrange.1, hrange.2,
        Or.inl (readClock_abort_iff.1 hclock)⟩)
  | ok a =>
      obtain ⟨clock, rest⟩ := a
      obtain ⟨c, rfl, hc, hshort⟩ := exists_clock hclock
      rw [Outcome.ok_bind]
      dsimp only
      cases hzone : readZone checked text rest with
      | error e => exact Or.inl ⟨e, rfl⟩
      | abort =>
          exact Or.inr (Or.inl ⟨rfl, y, m, d, _, htext, ⟨hy, hm, hd⟩, hrange.1, hrange.2,
            Or.inr ⟨c, rest, rfl, hc, hshort, readZone_abort_iff.1 hzone⟩⟩)
      | ok a =>
          obtain ⟨offset, rest'⟩ := a
          obtain ⟨z, rfl, hz⟩ := exists_zone hzone
          rw [Outcome.ok_bind]
          dsimp only
          split_ifs with hrest htime hdate
          · exact Or.inl ⟨_, rfl⟩
          · exact Or.inl ⟨_, rfl⟩
          · exact Or.inl ⟨_, rfl⟩
          · right
            right
            have happ : trim text.toList = y ++ '-' :: (m ++ '-' :: (d ++ (clockText c ++ zoneText z))) ++ rest' := by
              rw [htext, dateText]
              simp
            obtain rfl := (trim_suffix_nil happ).1 (not_not.1 hrest)
            rw [List.append_nil] at happ
            rw [List.append_nil, readClock_text hc hshort (zoneText_ends hz)] at hclock
            cases hclock
            simp only [not_or, not_not] at htime
            exact ⟨⟨y, m, d, c, z⟩, happ, ⟨hy, hm, hd, hc, hz, civilFromDays_daysFromCivil_iff.1 (not_not.1 hdate),
              htime.1, htime.2.1, htime.2.2⟩, hshort⟩

/-- **What is read is written as a timestamp.** -/
theorem exists_stamp {v : ℤ} (h : parseTimestamp checked text = .ok v) :
    ∃ p : Stamp, trim text.toList = p.text ∧ p.Written ∧ Short (clockFraction p.clock) := by
  obtain ⟨e, he⟩ | ⟨habort, -⟩ | hstamp := stamp_cases checked text
  · rw [he] at h
    cases h
  · rw [habort] at h
    cases h
  · exact hstamp

/-- **The reader aborts** where a field ends inside a character, and nowhere else. -/
theorem parseTimestamp_abort_iff : parseTimestamp checked text = .abort ↔ TornStamp (trim text.toList) := by
  constructor
  · intro h
    obtain ⟨e, he⟩ | ⟨-, htorn⟩ | ⟨p, htext, hp, hshort⟩ := stamp_cases checked text
    · rw [he] at h
      cases h
    · exact htorn
    · rw [parseTimestamp_text hp hshort htext] at h
      cases h
  · rintro ⟨y, m, d, r, htext, ⟨hy, hm, hd⟩, hmonth, hday, htorn⟩
    rw [parseTimestamp_date htext hy hm hd, if_neg (by simp [hmonth, hday]), readRest]
    obtain hclock | ⟨c, u, rfl, hc, hshort, hzone⟩ := htorn
    · rw [readClock_abort_iff.2 hclock]
      rfl
    · rw [readClock_text hc hshort hzone.ends, Outcome.ok_bind]
      dsimp only
      rw [readZone_abort_iff.2 hzone]
      rfl

end Lang
