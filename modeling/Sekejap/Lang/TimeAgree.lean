import Sekejap.Lang.TimeWindows

/-!
# The range of a date and time predicate and its row form

* **`timeLiteral_eq_ok`**, **`timeLiteral_eq_abort`** — the instant a literal stands for, in every build.
* **`foldsExactly_iff`** — when the range a predicate is folded into admits the instants its row form holds of.
-/

open Calendar Machine Utf8

open Engine (Value)

namespace Lang

open Compiler

variable {checked : Bool} {op : CmpOp} {unit : TimeUnit} {t v n : ℤ} {what : String}

/-! ## What the literals stand for -/

section Literals

variable {b : Binder} {literal : Literal} {column : String}

/-- A literal that is a whole number. -/
def IsWhole (b : Binder) (literal : Literal) (n : ℤ) : Prop :=
  ∃ k, b.valueOf literal = .ok (.number k) ∧ (Value.number k).asI64 = some n

/-- The instant of a literal: a whole number, or what is written as a timestamp. -/
def Denotes (b : Binder) (literal : Literal) (v : ℤ) : Prop :=
  IsWhole b literal v ∨ ∃ text p, b.valueOf literal = .ok (.string text) ∧ trim text.toList = Stamp.text p ∧ p.Written
    ∧ Short (clockFraction p.clock) ∧ p.value = v

/-- A text with a field that ends inside a character. -/
def TornLiteral (b : Binder) (literal : Literal) : Prop :=
  ∃ text, b.valueOf literal = .ok (.string text) ∧ TornStamp (trim text.toList)

lemma IsWhole.fits (h : IsWhole b literal n) : Fits n := by
  obtain ⟨k, -, hk⟩ := h
  cases k with
  | int m =>
      rw [Value.asI64] at hk
      split_ifs at hk with hm
      obtain rfl := Option.some.inj hk
      rw [fits_iff]
      omega
  | float bits => cases hk

lemma whole_eq_ok : whole b what literal = .ok n ↔ IsWhole b literal n := by
  rw [whole, IsWhole]
  cases b.valueOf literal with
  | error e => simp [bind, Except.bind]
  | ok value =>
      cases value with
      | number k =>
          cases hk : (Value.number k).asI64 with
          | none => simp [bind, Except.bind, hk]
          | some m => simp [bind, Except.bind, hk]
      | _ => simp [bind, Except.bind]

lemma parseTimestamp_eq_ok {text : String} : parseTimestamp checked text = .ok v
    ↔ ∃ p, trim text.toList = Stamp.text p ∧ p.Written ∧ Short (clockFraction p.clock) ∧ p.value = v := by
  constructor
  · intro h
    obtain ⟨p, htext, hp, hshort⟩ := exists_stamp h
    rw [parseTimestamp_text hp hshort htext] at h
    exact ⟨p, htext, hp, hshort, Outcome.ok.inj h⟩
  · rintro ⟨p, htext, hp, hshort, rfl⟩
    exact parseTimestamp_text hp hshort htext

lemma timeLiteral_eq_ok : timeLiteral checked b column literal = .ok v ↔ Denotes b literal v := by
  rw [timeLiteral, Denotes, IsWhole]
  cases b.valueOf literal with
  | error e => simp [Outcome.ofExcept]
  | ok value =>
      cases value with
      | string text => simp [Outcome.ofExcept, parseTimestamp_eq_ok]
      | number k =>
          cases hk : (Value.number k).asI64 with
          | none => simp [Outcome.ofExcept, hk]
          | some m => simp [Outcome.ofExcept, hk]
      | _ => simp [Outcome.ofExcept]

lemma timeLiteral_eq_abort : timeLiteral checked b column literal = .abort ↔ TornLiteral b literal := by
  rw [timeLiteral, TornLiteral]
  cases b.valueOf literal with
  | error e => simp [Outcome.ofExcept]
  | ok value =>
      cases value with
      | string text => simp [Outcome.ofExcept, parseTimestamp_abort_iff]
      | number k => cases hk : (Value.number k).asI64 <;> simp [Outcome.ofExcept, hk]
      | _ => simp [Outcome.ofExcept]

/-- A timestamp with its four-digit year is well inside the 64-bit integers. -/
lemma value_fits {p : Stamp} (h : p.Written) (hshort : Short (clockFraction p.clock)) : Fits p.value := by
  have hdays := daysFromCivil_bound h.year.abs_lt h.date
  have hmicro := clockValue_micro h.clock hshort
  have hzone := zoneValue_bound h.zone
  have hhour := h.hour
  have hminute := h.minute
  have hsecond := h.second
  rw [fits_iff]
  dsimp only [Stamp.value, Clock.micros, microsPerDay, microsPerHour, microsPerMinute, microsPerSecond] at *
  omega

lemma Denotes.fits (h : Denotes b literal v) : Fits v := by
  obtain hwhole | ⟨text, p, -, -, hp, hshort, rfl⟩ := h
  · exact hwhole.fits
  · exact value_fits hp hshort

/-- The value beside a comparison is read: a text is no torn timestamp, and the clock has a whole day. -/
def Settled (b : Binder) (clock : ℤ) : TimeValue → Prop
  | .lit literal => ¬ TornLiteral b literal
  | .clock dateOnly _ => dateOnly → firstDay ≤ clock

/-- The value beside a comparison is an instant. -/
def Instant (b : Binder) (clock : ℤ) : TimeValue → Prop
  | .lit literal => ∃ v, Denotes b literal v
  | .clock dateOnly offset => Fits ((if dateOnly then floorOf .day clock else clock) + offset)

lemma floorOf_day {clock : ℤ} : firstDay ≤ floorOf .day clock ↔ firstDay ≤ clock := by
  dsimp only [floorOf, width, firstDay, microsPerDay]
  omega

/-- The clock as a value is read from it. -/
lemma timeValue_clock {clock offset : ℤ} {dateOnly : Bool} (h : dateOnly → firstDay ≤ clock) (hclock : Fits clock) :
    timeValue checked b clock column (.clock dateOnly offset)
      = .ofOption (checkedAdd (if dateOnly then floorOf .day clock else clock) offset)
        (.unsupported "the folded clock arithmetic overflows i64 microseconds") := by
  rw [timeValue]
  cases dateOnly with
  | false => rfl
  | true =>
      rw [if_pos rfl, if_pos rfl, dateTrunc_ok rfl (floorOf_day.2 (h rfl)) hclock.2]
      rfl

lemma timeValue_ne_abort {clock : ℤ} {value : TimeValue} (h : Settled b clock value) (hclock : Fits clock) :
    timeValue checked b clock column value ≠ .abort := by
  cases value with
  | lit literal => exact mt timeLiteral_eq_abort.1 h
  | clock dateOnly offset =>
      rw [timeValue_clock h hclock]
      exact Outcome.ofOption_ne_abort _ _

lemma timeValue_abort {clock : ℤ} {value : TimeValue} (h : ¬ Settled b clock value) (hclock : Fits clock) :
    timeValue true b clock column value = .abort := by
  cases value with
  | lit literal => exact timeLiteral_eq_abort.2 (not_not.1 h)
  | clock dateOnly offset =>
      rw [Settled, Classical.not_imp] at h
      obtain ⟨hdate, hearly⟩ := h
      rw [timeValue, if_pos hdate, dateTrunc_early rfl (lt_of_not_ge fun hle => hearly (floorOf_day.1 hle)) hclock.2]
      rfl

lemma timeValue_instant {clock : ℤ} {value : TimeValue} (h : Settled b clock value) (hclock : Fits clock) :
    (∃ v, timeValue checked b clock column value = .ok v) ↔ Instant b clock value := by
  cases value with
  | lit literal => exact exists_congr fun v => timeLiteral_eq_ok
  | clock dateOnly offset =>
      rw [timeValue_clock h hclock, checkedAdd, Instant]
      generalize (if dateOnly then floorOf .day clock else clock) + offset = v
      by_cases hfits : Fits v
      · simp [Outcome.ofOption, hfits]
      · simp [Outcome.ofOption, hfits]

lemma timeValue_fits {clock : ℤ} {value : TimeValue} (h : timeValue checked b clock column value = .ok v) :
    Fits v := by
  cases value with
  | lit literal => exact (timeLiteral_eq_ok.1 h).fits
  | clock dateOnly offset =>
      rw [timeValue] at h
      obtain ⟨base, -, hadd⟩ := Outcome.bind_eq_ok.1 h
      rw [checkedAdd] at hadd
      split_ifs at hadd with hfits
      · exact Outcome.ok.inj hadd ▸ hfits
      · cases hadd

end Literals

/-! ## The predicates -/

/-- A stored instant. -/
abbrev Stored := {t : ℤ // Fits t}

/-- The forms that are one range. -/
def Accepted : TimeShape → Prop
  | .extract unit op _ => unit.ranged ∧ op ≠ .ne
  | .extractBetween unit _ _ => unit.ranged
  | .trunc unit op _ => unit.truncates ∧ op ≠ .ne
  | .truncBetween unit _ _ => unit.truncates
  | .castDate op _ => op ≠ .ne
  | .clock op _ => op ≠ .ne
  | .clockBetween _ _ => True

/-- In every build, a form that is one range is folded, and what a form is folded into admits an instant exactly where
the comparison holds on what the row functions compute from it. -/
structure FoldsExactly (b : Binder) (clock : Stored) (column : String) (t : Stored) (shape : TimeShape) : Prop where
  folds : Accepted shape → ∀ checked index, timeFilter checked b clock column true (.ok index) shape ≠ .abort
  row_eq : ∀ checked index predicate fills,
    timeFilter checked b clock column true (.ok index) shape = .ok (.scalar index predicate fills) →
      rowHolds checked b clock column (shape.written b.world column) t shape = .ok (predicate.admits t)

/-- When they agree: the literals are read, no unit at an end of the range is cut short, and at the greatest instant
the comparison does not tell its year or second from a later one. -/
def Sound (b : Binder) (clock t : ℤ) : TimeShape → Prop
  | .extract unit op value => unit.ranged → op ≠ .ne → ∀ n, IsWhole b value n →
      firstDay ≤ t ∧ ¬ (t = i64Max ∧ Past op n (lastField unit))
  | .extractBetween unit lower upper => ∀ low, IsWhole b lower low → ∀ high, IsWhole b upper high →
      unit.ranged ∨ high < low →
        firstDay ≤ t ∧ ¬ (t = i64Max ∧ low ≤ lastField unit ∧ lastField unit ≤ high)
  | .trunc unit op value => unit.truncates → op ≠ .ne → ¬ TornLiteral b value ∧ ∀ v, Denotes b value v →
      firstDay ≤ floorOf unit v ∧ ceilOf unit v ≤ i64Max ∧ firstDay ≤ floorOf unit t
  | .truncBetween unit lower upper => unit.truncates →
      ¬ TornLiteral b lower ∧ ∀ low, Denotes b lower low →
        ¬ TornLiteral b upper ∧ ∀ high, Denotes b upper high →
          firstDay ≤ floorOf unit low ∧ firstDay ≤ floorOf unit high
            ∧ (floorOf unit low ≠ low → ceilOf unit low ≤ i64Max) ∧ ceilOf unit high ≤ i64Max
            ∧ firstDay ≤ floorOf unit t
  | .castDate op value => op ≠ .ne → ¬ TornLiteral b value ∧ ∀ v, Denotes b value v →
      firstDay ≤ v ∧ ceilOf .day v ≤ i64Max ∧ firstDay ≤ t
  | .clock op value => op ≠ .ne → Settled b clock value
  | .clockBetween lower upper => Settled b clock lower ∧ (Instant b clock lower → Settled b clock upper)

section Shapes

variable {α : Type} {accepted : Prop} {b : Binder} {clock : ℤ} {column : String}

/-- What both read is read once, and alike in every build. -/
lemma agree_read {x : Bool → Outcome SqlError α} {aborts : Prop} {reads : α → Prop}
    (habort : ∀ checked, x checked = .abort ↔ aborts) (hok : ∀ checked a, x checked = .ok a ↔ reads a)
    {range : Bool → α → Outcome SqlError OwnedScalarFilter} {row : Bool → α → Outcome SqlError Bool} :
    (∀ checked, Agree accepted t (x checked >>= range checked) (x checked >>= row checked))
      ↔ (accepted → ¬ aborts) ∧ ∀ a, reads a → ∀ checked, Agree accepted t (range checked a) (row checked a) := by
  simp only [agree_bind, habort, hok, ne_eq]
  constructor
  · intro h
    exact ⟨(h true).1, fun a ha checked => (h checked).2 a ha⟩
  · rintro ⟨haborts, h⟩ checked
    exact ⟨haborts, fun a ha => h a ha checked⟩

lemma agree_refused {range : Outcome SqlError OwnedScalarFilter} {row : Outcome SqlError Bool} (h : ¬ accepted)
    (hrange : ∀ f, range ≠ .ok f) : Agree accepted t range row :=
  ⟨fun f hf => absurd hf (hrange f), fun haccepted => absurd haccepted h⟩

lemma dateTrunc_refused (hunit : ¬ unit.truncates) (m : ℤ) : dateTrunc checked unit v ≠ .ok m := by
  intro h
  rw [dateTrunc] at h
  obtain ⟨c, -, hc⟩ := Outcome.bind_eq_ok.1 h
  cases unit with
  | dow => cases hc
  | epoch => cases hc
  | _ => exact hunit rfl

lemma truncRange_refused (h : ¬ (unit.truncates ∧ op ≠ .ne)) (f : OwnedScalarFilter) :
    truncRange checked what unit op v ≠ .ok f := by
  intro hf
  rw [truncRange] at hf
  obtain ⟨start, hstart, hrest⟩ := Outcome.bind_eq_ok.1 hf
  obtain ⟨stop, -, hrange⟩ := Outcome.bind_eq_ok.1 hrest
  by_cases hunit : unit.truncates
  · obtain rfl : op = .ne := by
      by_contra hop
      exact h ⟨hunit, hop⟩
    split_ifs at hrange <;> cases hrange
  · exact dateTrunc_refused hunit start hstart

/-- A truncated comparison, with the literal it reads. -/
lemma trunc_sound (ht : Fits t) {literal : Literal} :
    (∀ checked, Agree (unit.truncates ∧ op ≠ .ne) t
        (timeLiteral checked b column literal >>= fun v => truncRange checked what unit op v)
        (timeLiteral checked b column literal >>= fun v => dateTrunc checked unit t >>= fun m => .ok (op.holds m v)))
      ↔ (unit.truncates → op ≠ .ne → ¬ TornLiteral b literal ∧ ∀ v, Denotes b literal v →
        firstDay ≤ floorOf unit v ∧ ceilOf unit v ≤ i64Max ∧ firstDay ≤ floorOf unit t) := by
  rw [agree_read (fun _ => timeLiteral_eq_abort) fun _ _ => timeLiteral_eq_ok]
  by_cases haccepted : unit.truncates ∧ op ≠ .ne
  · rw [imp_iff_right haccepted, imp_iff_right haccepted.1, imp_iff_right haccepted.2]
    refine and_congr_right' (forall_congr' fun v => imp_congr_right fun hv => ?_)
    exact trunc_agree haccepted.1 haccepted.2 hv.fits ht haccepted
  · refine iff_of_true ⟨fun h => absurd h haccepted, fun v _ checked => ?_⟩ fun hunit hop =>
      absurd ⟨hunit, hop⟩ haccepted
    exact agree_refused haccepted (truncRange_refused haccepted)

/-- A comparison with a value that is read. -/
lemma clock_sound (hclock : Fits clock) (ht : Fits t) {value : TimeValue} :
    (∀ checked, Agree (op ≠ .ne) t
        (timeValue checked b clock column value >>= fun v => compareRange what op v)
        (timeValue checked b clock column value >>= fun v => .ok (op.holds t v)))
      ↔ (op ≠ .ne → Settled b clock value) := by
  simp only [agree_bind]
  constructor
  · intro h hop
    by_contra hsettled
    exact (h true).1 hop (timeValue_abort hsettled hclock)
  · intro h checked
    refine ⟨fun hop => timeValue_ne_abort (h hop) hclock, fun v hv => ?_⟩
    by_cases hop : op = .ne
    · subst hop
      exact agree_error
    · obtain ⟨f, hf, hadmits⟩ := @compareRange_ok _ _ _ what hop (timeValue_fits hv) ht
      rw [hf, agree_ok, hadmits]

/-- An instant between two values. -/
lemma admits_between {low high : ℤ} (hhigh : Fits high) (ht : Fits t) :
    (if high < low then emptyRange else microRange (some low) (checkedAdd high 1)).admits t
      = decide (low ≤ t ∧ t ≤ high) := by
  split_ifs with hempty
  · rw [admits_emptyRange, eq_comm, decide_eq_false_iff_not]
    omega
  · rw [admits_microRange, elim_checkedAdd hhigh ht, Option.elim_some, ← Bool.decide_and]

lemma clockBetween_sound (hclock : Fits clock) (ht : Fits t) {lower upper : TimeValue} :
    (∀ checked, Agree True t
        (timeValue checked b clock column lower >>= fun low => timeValue checked b clock column upper >>= fun high =>
          if high < low then .ok emptyRange else .ok (microRange (some low) (checkedAdd high 1)))
        (timeValue checked b clock column lower >>= fun low => timeValue checked b clock column upper >>= fun high =>
          .ok (decide (low ≤ t ∧ t ≤ high))))
      ↔ Settled b clock lower ∧ (Instant b clock lower → Settled b clock upper) := by
  simp only [agree_bind, ← apply_ite, agree_ok]
  constructor
  · intro h
    have hlower : Settled b clock lower := by
      by_contra hsettled
      exact (h true).1 trivial (timeValue_abort hsettled hclock)
    refine ⟨hlower, fun hinstant => ?_⟩
    obtain ⟨low, hlow⟩ := (@timeValue_instant true _ column _ _ hlower hclock).2 hinstant
    by_contra hsettled
    exact ((h true).2 low hlow).1 trivial (timeValue_abort hsettled hclock)
  · rintro ⟨hlower, hupper⟩ checked
    refine ⟨fun _ => timeValue_ne_abort hlower hclock, fun low hlow => ⟨fun _ => ?_, fun high hhigh => ?_⟩⟩
    · exact timeValue_ne_abort (hupper ((timeValue_instant hlower hclock).1 ⟨low, hlow⟩)) hclock
    · rw [admits_between (timeValue_fits hhigh) ht]

/-- **Form by form**, when the range and the row form agree. -/
theorem timeRange_agree (hclock : Fits clock) (ht : Fits t) (shape : TimeShape) :
    (∀ checked, Agree (Accepted shape) t (timeRange checked b clock column what shape)
        (rowHolds checked b clock column what t shape)) ↔ Sound b clock t shape := by
  have hwhole : ∀ literal, ∀ checked : Bool, (Outcome.ofExcept (whole b what literal) = .abort ↔ False) :=
    fun literal checked => iff_of_false (Outcome.ofExcept_ne_abort _) id
  have hread : ∀ literal, ∀ checked : Bool, ∀ n,
      Outcome.ofExcept (whole b what literal) = .ok n ↔ IsWhole b literal n :=
    fun literal checked n => Outcome.ofExcept_eq_ok.trans whole_eq_ok
  cases shape with
  | extract unit op value =>
      refine (agree_read (hwhole value) (hread value)).trans ?_
      rw [and_iff_right fun _ => id, Sound]
      by_cases hunit : unit.ranged
      · by_cases hop : op = .ne
        · refine iff_of_true (fun n hn checked => ?_) fun _ hop' => absurd hop hop'
          rw [extractWindow_ok hunit hn.fits, Outcome.ok_bind, hop]
          exact agree_error
        · rw [imp_iff_right hunit, imp_iff_right hop]
          exact forall_congr' fun n => imp_congr_right fun hn => extract_agree hunit hop hn.fits ht
      · refine iff_of_true (fun n hn checked => ?_) fun hunit' => absurd hunit' hunit
        rw [extractWindow_error hunit]
        exact agree_error
  | extractBetween unit lower upper =>
      refine (agree_read (hwhole lower) (hread lower)).trans ?_
      rw [and_iff_right fun _ => id, Sound]
      refine forall_congr' fun low => imp_congr_right fun hlow => ?_
      refine (agree_read (hwhole upper) (hread upper)).trans ?_
      rw [and_iff_right fun _ => id]
      exact forall_congr' fun high => imp_congr_right fun hhigh => extractBetween_agree hlow.fits hhigh.fits ht
  | trunc unit op value => exact trunc_sound ht
  | truncBetween unit lower upper =>
      refine (agree_read (fun _ => timeLiteral_eq_abort) fun _ _ => timeLiteral_eq_ok).trans ?_
      rw [Accepted, Sound]
      by_cases hunit : unit.truncates
      · rw [imp_iff_right hunit, imp_iff_right hunit]
        refine and_congr_right' (forall_congr' fun low => imp_congr_right fun hlow => ?_)
        refine (agree_read (fun _ => timeLiteral_eq_abort) fun _ _ => timeLiteral_eq_ok).trans ?_
        rw [imp_iff_right hunit]
        refine and_congr_right' (forall_congr' fun high => imp_congr_right fun hhigh => ?_)
        exact truncBetween_agree hunit hlow.fits hhigh.fits ht hunit
      · refine iff_of_true ⟨fun h => absurd h hunit, fun low _ checked => agree_refused hunit fun f hf => ?_⟩
          fun h => absurd h hunit
        obtain ⟨high, -, hrange⟩ := Outcome.bind_eq_ok.1 hf
        obtain ⟨start, hstart, -⟩ := Outcome.bind_eq_ok.1 hrange
        exact dateTrunc_refused hunit start hstart
  | castDate op value =>
      have hunit : TimeUnit.day.truncates := rfl
      have hday : (TimeUnit.day.truncates ∧ op ≠ .ne) = (op ≠ .ne) := propext (and_iff_right hunit)
      have hsound := @trunc_sound op .day t what b column ht value
      rw [hday] at hsound
      refine hsound.trans ?_
      rw [Sound, imp_iff_right hunit]
      simp only [floorOf_day]
  | clock op value => exact clock_sound hclock ht
  | clockBetween lower upper => exact clockBetween_sound hclock ht

end Shapes

/-- What the filter of a predicate is, and when it is not folded. -/
lemma timeFilter_bind (b : Binder) (clock : ℤ) (column : String) (index : ℕ) (shape : TimeShape) :
    timeFilter checked b clock column true (.ok index) shape
      = timeRange checked b clock column (shape.written b.world column) shape >>= fun predicate =>
        .ok (.scalar index predicate ⟨[], List.nodup_nil⟩) := rfl

lemma foldsExactly_agree {b : Binder} {clock t : Stored} {column : String} {shape : TimeShape} :
    FoldsExactly b clock column t shape ↔ ∀ checked, Agree (Accepted shape) t
      (timeRange checked b clock column (shape.written b.world column) shape)
      (rowHolds checked b clock column (shape.written b.world column) t shape) := by
  constructor
  · rintro ⟨hfolds, hrow⟩ checked
    refine ⟨fun f hf => hrow checked 0 f ⟨[], List.nodup_nil⟩ ?_, fun haccepted habort => hfolds haccepted checked 0 ?_⟩
    · rw [timeFilter_bind, hf]
      rfl
    · rw [timeFilter_bind, habort]
      rfl
  · intro h
    refine ⟨fun haccepted checked index hfilter => ?_, fun checked index predicate fills hfilter => ?_⟩
    · rw [timeFilter_bind, Outcome.bind_eq_abort] at hfilter
      obtain habort | ⟨f, -, hf⟩ := hfilter
      · exact (h checked).folds haccepted habort
      · cases hf
    · rw [timeFilter_bind, Outcome.bind_eq_ok] at hfilter
      obtain ⟨f, hf, hscalar⟩ := hfilter
      injection hscalar with hfilter
      injection hfilter with _ hpredicate _
      exact hpredicate ▸ (h checked).row_eq f hf

/-- **A date or time predicate is an exact range** where its literals are read, the units about them and about the
instant lie between the ends of the 64-bit integers, and the greatest instant is not compared through its year or its
second with a value that tells it from a later one. -/
theorem foldsExactly_iff (b : Binder) (clock t : Stored) (column : String) (shape : TimeShape) :
    FoldsExactly b clock column t shape ↔ Sound b clock t shape :=
  foldsExactly_agree.trans (timeRange_agree clock.2 t.2 shape)

/-- `EXTRACT(YEAR FROM t) = 294247` at the greatest instant, which is of that year: the range ends before it. -/
theorem not_foldsExactly : ¬ FoldsExactly ⟨PreparedSql.plainWorld, []⟩ ⟨0, by decide⟩ "t" ⟨i64Max, by decide⟩
    (.extract .year .eq (.num 4688798737433100288 (some 294247))) := by
  intro h
  have hsound := (timeRange_agree (by decide) (by decide) _).1 (foldsExactly_agree.1 h)
  have hwhole : IsWhole ⟨PreparedSql.plainWorld, []⟩ (.num 4688798737433100288 (some 294247)) 294247 := ⟨.int 294247, rfl, rfl⟩
  exact (hsound rfl (by decide) 294247 hwhole).2 ⟨rfl, rfl⟩

end Lang
