import Sekejap.Lang.TimeRange
import Sekejap.Lib.Preimages

/-!
# Windows of the instants

A year, a second and a unit cut off are maps of the instants that only rise, so a comparison with one of them is one
range (`Cut`), and the range of the code is that one but where it is cut at the ends of the 64-bit integers.

* **`gc_field`**, **`cut_floorOf`** — a year or a second and where it starts, a boundary and the one after it.
* **`extract_agree`**, **`trunc_agree`** — when the range of a comparison admits an instant exactly where the row test
  holds of it.
-/

open Calendar Machine Preimages

namespace Lang

open Compiler

variable {checked : Bool} {op : CmpOp} {unit : TimeUnit} {t v n start stop : ℤ} {what : String}

/-! ## The comparisons of a window -/

/-- A comparison against a window, at an instant. -/
def CmpOp.within : CmpOp → ℤ → ℤ → ℤ → Bool
  | eq, start, stop, t => decide (start ≤ t ∧ t < stop)
  | ne, _, _, _ => false
  | lt, start, _, t => decide (t < start)
  | le, _, stop, t => decide (t < stop)
  | gt, _, stop, t => decide (stop ≤ t)
  | ge, start, _, t => decide (start ≤ t)

lemma within_cut {f start stop : ℤ → ℤ} (h : Cut f start stop) (hop : op ≠ .ne) :
    op.within (start v) (stop v) t = op.holds (f t) v := by
  cases op with
  | eq => exact decide_eq_decide.2 h.window_iff
  | ne => exact absurd rfl hop
  | lt => exact decide_eq_decide.2 h.lt_start_iff
  | le => exact decide_eq_decide.2 h.lt_stop_iff
  | gt => exact decide_eq_decide.2 (h.stop_le_iff v t)
  | ge => exact decide_eq_decide.2 (h.start_le_iff v t)

/-- A comparison with a value tells the last one from those after it, or from the ones before it. -/
def Past (op : CmpOp) (v last : ℤ) : Prop :=
  match op with
  | .eq => v = last
  | .ne => False
  | .lt | .ge => last < v
  | .le | .gt => last ≤ v

/-- **A window cut at the ends of the integers** is the window but at the greatest integer. -/
lemma within_saturate {f start stop : ℤ → ℤ} (h : Cut f start stop) (hop : op ≠ .ne) (ht : Fits t) :
    op.within (saturate (start v)) (saturate (stop v)) t = op.holds (f t) v
      ↔ ¬ (t = i64Max ∧ Past op v (f i64Max)) := by
  by_cases hlast : t = i64Max
  · subst hlast
    rw [and_iff_right rfl]
    cases op with
    | eq =>
        simp only [CmpOp.within, CmpOp.holds, Past, decide_eq_decide, lt_saturate_iff ht]
        simp [eq_comm]
    | ne => exact absurd rfl hop
    | lt =>
        simp only [CmpOp.within, CmpOp.holds, Past, decide_eq_decide, lt_saturate_iff ht]
        simp
    | le =>
        simp only [CmpOp.within, CmpOp.holds, Past, decide_eq_decide, lt_saturate_iff ht]
        simp
    | gt =>
        simp only [CmpOp.within, CmpOp.holds, Past, decide_eq_decide, saturate_le_iff ht]
        simp
    | ge =>
        simp only [CmpOp.within, CmpOp.holds, Past, decide_eq_decide, saturate_le_iff ht]
        simp
  · rw [← within_cut h hop]
    refine iff_of_true ?_ fun hpast => hlast hpast.1
    cases op <;> simp [CmpOp.within, lt_saturate_iff ht, saturate_le_iff ht, hlast]

/-! ## The ranges of the code -/

lemma admits_microRange (lower upper : Option ℤ) : (microRange lower upper).admits t
    = ((lower.elim true fun v => decide (v ≤ t)) && upper.elim true fun v => decide (t < v)) := by
  cases lower <;> cases upper <;> rfl

lemma admits_emptyRange (t : ℤ) : emptyRange.admits t = false := by
  simp [emptyRange, OwnedScalarFilter.admits, Bound.above, Bound.below]
  omega

lemma windowRange_ok (hop : op ≠ .ne) (start stop : ℤ) :
    ∃ f, windowRange what op start stop = .ok f ∧ ∀ t, f.admits t = op.within start stop t := by
  cases op with
  | ne => exact absurd rfl hop
  | _ => exact ⟨_, rfl, fun t => by simp [admits_microRange, CmpOp.within]⟩

lemma offsetWindowRange_ok (hop : op ≠ .ne) (stop : ℤ) :
    ∃ f, offsetWindowRange what op stop = .ok f ∧ ∀ t, f.admits t = op.within stop stop t := by
  cases op with
  | ne => exact absurd rfl hop
  | eq =>
      refine ⟨_, rfl, fun t => ?_⟩
      rw [admits_emptyRange, CmpOp.within, eq_comm, decide_eq_false_iff_not]
      omega
  | _ => exact ⟨_, rfl, fun t => by simp [admits_microRange, CmpOp.within]⟩

lemma elim_checkedAdd (hv : Fits v) (ht : Fits t) :
    ((checkedAdd v 1).elim true fun u => decide (t < u)) = decide (t ≤ v) := by
  rw [checkedAdd]
  split_ifs with h
  · simp
  · have hle : t ≤ v := by
      rw [fits_iff] at h hv ht
      omega
    simp [hle]

lemma compareRange_ok (hop : op ≠ .ne) (hv : Fits v) (ht : Fits t) :
    ∃ f, compareRange what op v = .ok f ∧ f.admits t = op.holds t v := by
  cases op with
  | ne => exact absurd rfl hop
  | eq =>
      refine ⟨_, rfl, ?_⟩
      rw [admits_microRange, elim_checkedAdd hv ht, CmpOp.holds, Option.elim_some, ← Bool.decide_and, decide_eq_decide]
      omega
  | le =>
      refine ⟨_, rfl, ?_⟩
      rw [admits_microRange, elim_checkedAdd hv ht]
      rfl
  | lt => exact ⟨_, rfl, admits_microRange _ _⟩
  | gt => exact ⟨_, rfl, Bool.and_true _⟩
  | ge => exact ⟨_, rfl, (admits_microRange _ _).trans (Bool.and_true _)⟩

/-! ## The year and the second of an instant -/

/-- The units of an `EXTRACT` that only rise. -/
def TimeUnit.ranged : TimeUnit → Bool
  | .year | .epoch => true
  | _ => false

/-- What an `EXTRACT` reads of an instant, by the calendar. -/
def fieldOf (unit : TimeUnit) (t : ℤ) : ℤ :=
  match unit with
  | .year => (onDay (t / microsPerDay)).year
  | _ => t / microsPerSecond

/-- Where a year or a second starts. -/
def fieldStart (unit : TimeUnit) (n : ℤ) : ℤ :=
  match unit with
  | .year => daysFromCivil n 1 1 * microsPerDay
  | _ => n * microsPerSecond

/-- The last year and the last second that have an instant. -/
def lastField : TimeUnit → ℤ
  | .year => 294247
  | _ => 9223372036854

/-- **A year starts** where its first day does. -/
lemma gc_field (hunit : unit.ranged) : GaloisConnection (fieldStart unit) (fieldOf unit) := by
  intro n t
  cases unit with
  | year =>
      have hmonth := (onDay (t / microsPerDay)).month_mem
      have hday := (onDay (t / microsPerDay)).day_mem
      rw [fieldStart, fieldOf, ← Int.le_ediv_iff_mul_le (by decide), ← onDay_le_iff,
        onDay_first n ⟨le_rfl, by decide⟩, Date.key_le_iff, Date.first]
      dsimp only
      omega
  | epoch => exact (Int.le_ediv_iff_mul_le (by decide)).symm
  | _ => cases hunit

lemma fieldOf_last (hunit : unit.ranged) : fieldOf unit i64Max = lastField unit := by
  cases unit with
  | year =>
      rw [fieldOf, year_onDay]
      decide
  | epoch => decide
  | _ => cases hunit

lemma saturate_fieldStart (hunit : unit.ranged) (h : lastField unit < n) : saturate (fieldStart unit n) = i64Max := by
  have hlt : ¬ fieldStart unit n ≤ i64Max := by
    rw [gc_field hunit n i64Max, fieldOf_last hunit]
    omega
  dsimp only [saturate, i64Min, i64Max] at *
  omega

/-- The first day of a year, cut at the ends of the range. -/
lemma yearStart_eq (year : ℤ) : Compiler.yearStart year = saturate (fieldStart .year year) := by
  have hmono := (@gc_field .year rfl).monotone_l
  have hzero : fieldStart .year 0 < 0 := by decide
  have hone : i64Min < fieldStart .year 1 := by decide
  have hlow : fieldStart .year (-400000) < i64Min := by decide
  have hstart : Compiler.yearStart year = if 400000 < year then i64Max else if year < -400000 then i64Min
      else if Fits (fieldStart .year year) then fieldStart .year year else if 0 < year then i64Max else i64Min := rfl
  rw [hstart]
  split_ifs with hhigh hlow' hfits hpos
  · exact (saturate_fieldStart rfl (by rw [lastField]; omega)).symm
  · have hle := hmono hlow'.le
    dsimp only [saturate, i64Min, i64Max] at *
    omega
  · exact (saturate_of_fits hfits).symm
  · have hle : fieldStart .year 1 ≤ fieldStart .year year := hmono (Int.add_one_le_of_lt hpos)
    rw [fits_iff] at hfits
    dsimp only [saturate, i64Min, i64Max] at *
    omega
  · have hle := hmono (not_lt.1 hpos)
    rw [fits_iff] at hfits
    dsimp only [saturate, i64Min, i64Max] at *
    omega

/-- The next value, cut at the greatest integer. -/
lemma saturate_fieldStart_succ (hunit : unit.ranged) (hn : Fits n) :
    saturate (fieldStart unit (saturate (n + 1))) = saturate (fieldStart unit (n + 1)) := by
  by_cases hnext : Fits (n + 1)
  · rw [saturate_of_fits hnext]
  · have hlast : n = i64Max := by
      rw [fits_iff] at hnext hn
      dsimp only [i64Max]
      omega
    subst hlast
    rw [saturate_fieldStart hunit, saturate_fieldStart hunit]
    · cases unit <;> decide
    · cases unit <;> decide

lemma extractWindow_ok (hunit : unit.ranged) (hn : Fits n) :
    extractWindow what unit n = .ok (saturate (fieldStart unit n), saturate (fieldStart unit (n + 1))) := by
  have hnext := saturate_fieldStart_succ hunit hn
  cases unit with
  | year => rw [extractWindow, yearStart_eq, yearStart_eq, hnext]
  | epoch => exact congrArg (fun stop => Outcome.ok (saturate (n * microsPerSecond), stop)) hnext
  | _ => cases hunit

lemma extractWindow_error (hunit : ¬ unit.ranged) : extractWindow what unit n = .error (multiRange what) := by
  cases unit with
  | year => exact absurd rfl hunit
  | epoch => exact absurd rfl hunit
  | _ => rfl

lemma extract_ok (hunit : unit.ranged) (h : firstDay ≤ t) (h' : t ≤ i64Max) :
    extract checked unit t = .ok (fieldOf unit t) := by
  rw [extract, civilFromMicros_eq h h', Outcome.ok_bind]
  cases unit with
  | year => rfl
  | epoch => rfl
  | _ => cases hunit

lemma extract_abort (h : t < firstDay) : extract true unit t = .abort := by
  rw [extract, civilFromMicros_abort h]
  rfl

lemma exists_extract (h : firstDay ≤ t) (h' : t ≤ i64Max) : ∃ m, ∀ checked, extract checked unit t = .ok m := by
  cases unit <;> exact ⟨_, fun checked => by rw [extract, civilFromMicros_eq h h', Outcome.ok_bind]; rfl⟩

/-! ## The boundaries of a unit -/

lemma cut_floorOf (hunit : unit.truncates) :
    Cut (floorOf unit) (fun v => if floorOf unit v = v then v else ceilOf unit v) (ceilOf unit) :=
  Cut.of_boundaries (isGreatest_floorOf hunit) (isLeast_ceilOf hunit)

lemma dateTrunc_ok (hunit : unit.truncates) (h : firstDay ≤ floorOf unit t) (h' : t ≤ i64Max) :
    dateTrunc checked unit t = .ok (floorOf unit t) := by
  have hle := floorOf_le hunit t
  rw [dateTrunc_eq hunit (h.trans hle) h']
  exact fit_of_fits ⟨(firstDay_le_floorOf hunit (h.trans hle)).1 h, hle.trans h'⟩

lemma dateTrunc_early (hunit : unit.truncates) (h : floorOf unit t < firstDay) (h' : t ≤ i64Max) :
    dateTrunc true unit t = .abort := by
  by_cases ht : firstDay ≤ t
  · rw [dateTrunc_eq hunit ht h']
    exact fit_of_not_fits fun hfits => absurd ((firstDay_le_floorOf hunit ht).2 hfits.1) (not_le.2 h)
  · exact dateTrunc_abort (not_le.1 ht)

lemma nextUnit_ok (hunit : unit.truncates) (h : firstDay ≤ floorOf unit v) (hv : v ≤ i64Max)
    (h' : ceilOf unit v ≤ i64Max) : nextUnit checked unit (floorOf unit v) = .ok (ceilOf unit v) := by
  have hlow := (firstDay_le_floorOf hunit (h.trans (floorOf_le hunit v))).1 h
  rw [nextUnit_eq hunit h hv]
  exact fit_of_fits ⟨hlow.trans ((floorOf_le hunit v).trans (lt_ceilOf hunit v).le), h'⟩

lemma nextUnit_late (hunit : unit.truncates) (h : firstDay ≤ floorOf unit v) (hv : v ≤ i64Max)
    (h' : i64Max < ceilOf unit v) : nextUnit true unit (floorOf unit v) = .abort := by
  rw [nextUnit_eq hunit h hv]
  exact fit_of_not_fits fun hfits => absurd hfits.2 (not_le.2 h')

/-- The range of a truncated comparison is the one the boundaries cut. -/
lemma truncRange_ok (hunit : unit.truncates) (hop : op ≠ .ne) (h : firstDay ≤ floorOf unit v) (hv : v ≤ i64Max)
    (h' : ceilOf unit v ≤ i64Max) :
    ∃ f, truncRange checked what unit op v = .ok f ∧ ∀ t, f.admits t = op.holds (floorOf unit t) v := by
  have hcut := cut_floorOf hunit
  rw [truncRange, dateTrunc_ok hunit h hv, Outcome.ok_bind, nextUnit_ok hunit h hv h', Outcome.ok_bind]
  by_cases hstart : floorOf unit v = v
  · obtain ⟨f, hf, hadmits⟩ := @windowRange_ok _ what hop (floorOf unit v) (ceilOf unit v)
    rw [if_pos hstart]
    refine ⟨f, hf, fun t => ?_⟩
    rw [hadmits, ← within_cut hcut hop, if_pos hstart, hstart]
  · obtain ⟨f, hf, hadmits⟩ := @offsetWindowRange_ok _ what hop (ceilOf unit v)
    rw [if_neg hstart]
    refine ⟨f, hf, fun t => ?_⟩
    rw [hadmits, ← within_cut hcut hop, if_neg hstart]

/-! ## When a fold and a row test agree -/

/-- The range is folded, and admits an instant where the row test holds of it. -/
structure Agree (accepted : Prop) (t : ℤ) (range : Outcome SqlError OwnedScalarFilter)
    (row : Outcome SqlError Bool) : Prop where
  row_eq : ∀ f, range = .ok f → row = .ok (f.admits t)
  folds : accepted → range ≠ .abort

section Agree

variable {α : Type} {accepted : Prop} {range : Outcome SqlError OwnedScalarFilter} {row : Outcome SqlError Bool}

lemma agree_error {e : SqlError} : Agree accepted t (.error e) row :=
  ⟨by simp, by simp⟩

lemma agree_ok {f : OwnedScalarFilter} : Agree accepted t (.ok f) row ↔ row = .ok (f.admits t) := by
  constructor
  · intro h
    exact h.row_eq f rfl
  · rintro rfl
    exact ⟨by simp, by simp⟩

lemma agree_abort : Agree accepted t .abort row ↔ ¬ accepted := by
  constructor
  · intro h haccepted
    exact h.folds haccepted rfl
  · intro h
    exact ⟨by simp, fun haccepted => absurd haccepted h⟩

/-- What both read is read once. -/
lemma agree_bind {x : Outcome SqlError α} {range : α → Outcome SqlError OwnedScalarFilter}
    {row : α → Outcome SqlError Bool} : Agree accepted t (x >>= range) (x >>= row)
      ↔ (accepted → x ≠ .abort) ∧ ∀ a, x = .ok a → Agree accepted t (range a) (row a) := by
  cases x with
  | ok a => simp
  | error e => simp [agree_error]
  | abort => simp [agree_abort]

end Agree

/-- A comparison of an extracted field. -/
lemma extract_agree (hunit : unit.ranged) (hop : op ≠ .ne) (hn : Fits n) (ht : Fits t) {accepted : Prop} :
    (∀ checked, Agree accepted t (extractWindow what unit n >>= fun p => windowRange what op p.1 p.2)
        (extract checked unit t >>= fun m => .ok (op.holds m n)))
      ↔ firstDay ≤ t ∧ ¬ (t = i64Max ∧ Past op n (lastField unit)) := by
  have hcut := Cut.of_gc (gc_field hunit)
  obtain ⟨f, hf, hadmits⟩ :=
    @windowRange_ok _ what hop (saturate (fieldStart unit n)) (saturate (fieldStart unit (n + 1)))
  simp only [extractWindow_ok hunit hn, Outcome.ok_bind, hf, agree_ok, hadmits]
  constructor
  · intro h
    have hday : firstDay ≤ t := by
      by_contra hearly
      have htrue := h true
      rw [extract_abort (not_le.1 hearly)] at htrue
      cases htrue
    have htrue := h true
    rw [extract_ok hunit hday ht.2, Outcome.ok_bind] at htrue
    refine ⟨hday, ?_⟩
    rw [← fieldOf_last hunit, ← within_saturate hcut hop ht]
    exact (Outcome.ok.inj htrue).symm
  · rintro ⟨hday, hlast⟩ checked
    rw [← fieldOf_last hunit, ← within_saturate hcut hop ht] at hlast
    rw [extract_ok hunit hday ht.2, Outcome.ok_bind, hlast]

/-- A comparison of a truncated instant. -/
lemma trunc_agree (hunit : unit.truncates) (hop : op ≠ .ne) (hv : Fits v) (ht : Fits t) {accepted : Prop}
    (haccepted : accepted) :
    (∀ checked, Agree accepted t (truncRange checked what unit op v)
        (dateTrunc checked unit t >>= fun m => .ok (op.holds m v)))
      ↔ firstDay ≤ floorOf unit v ∧ ceilOf unit v ≤ i64Max ∧ firstDay ≤ floorOf unit t := by
  constructor
  · intro h
    have htrue := h true
    have hlow : firstDay ≤ floorOf unit v := by
      by_contra hearly
      rw [truncRange, dateTrunc_early hunit (not_le.1 hearly) hv.2] at htrue
      exact htrue.folds haccepted rfl
    have hhigh : ceilOf unit v ≤ i64Max := by
      by_contra hlate
      rw [truncRange, dateTrunc_ok hunit hlow hv.2, Outcome.ok_bind,
        nextUnit_late hunit hlow hv.2 (not_le.1 hlate)] at htrue
      exact htrue.folds haccepted rfl
    obtain ⟨f, hf, hadmits⟩ := @truncRange_ok true _ _ _ what hunit hop hlow hv.2 hhigh
    refine ⟨hlow, hhigh, ?_⟩
    by_contra hearly
    have hrow := htrue.row_eq f hf
    rw [dateTrunc_early hunit (not_le.1 hearly) ht.2] at hrow
    cases hrow
  · rintro ⟨hlow, hhigh, hday⟩ checked
    obtain ⟨f, hf, hadmits⟩ := @truncRange_ok checked _ _ _ what hunit hop hlow hv.2 hhigh
    rw [hf, agree_ok, dateTrunc_ok hunit hday ht.2, Outcome.ok_bind, hadmits]

/-- A window cut at the ends of the integers, from the start of one value to the end of another. -/
lemma between_saturate {f start stop : ℤ → ℤ} (h : Cut f start stop) {low high : ℤ} (ht : Fits t) :
    decide (saturate (start low) ≤ t ∧ t < saturate (stop high)) = decide (low ≤ f t ∧ f t ≤ high)
      ↔ ¬ (t = i64Max ∧ low ≤ f i64Max ∧ f i64Max ≤ high) := by
  rw [decide_eq_decide, saturate_le_iff ht, lt_saturate_iff ht, ← h.between_iff]
  by_cases hlast : t = i64Max
  · subst hlast
    simp [← h.between_iff]
  · simp [hlast]

/-- An extracted field between two numbers. -/
lemma extractBetween_agree {low high : ℤ} (hlow : Fits low) (hhigh : Fits high) (ht : Fits t) {accepted : Prop} :
    (∀ checked, Agree accepted t (extractBetweenRange what unit low high)
        (extract checked unit t >>= fun m => .ok (decide (low ≤ m ∧ m ≤ high))))
      ↔ (unit.ranged ∨ high < low → firstDay ≤ t ∧ ¬ (t = i64Max ∧ low ≤ lastField unit ∧ lastField unit ≤ high)) := by
  have hearly : t < firstDay → ∀ f, ¬ Agree accepted t (.ok f)
      (extract true unit t >>= fun m => .ok (decide (low ≤ m ∧ m ≤ high))) := by
    intro hearly f h
    rw [agree_ok, extract_abort hearly] at h
    cases h
  rw [extractBetweenRange]
  by_cases hempty : high < low
  · simp only [if_pos hempty]
    constructor
    · intro h _
      exact ⟨not_lt.1 fun hday => hearly hday _ (h true), fun hlast => by omega⟩
    · intro h checked
      obtain ⟨m, hm⟩ := @exists_extract unit t (h (Or.inr hempty)).1 ht.2
      rw [agree_ok, hm, Outcome.ok_bind, admits_emptyRange, decide_eq_false (by omega)]
  · simp only [if_neg hempty]
    by_cases hunit : unit.ranged
    · have hcut := Cut.of_gc (gc_field hunit)
      simp only [extractWindow_ok hunit hlow, extractWindow_ok hunit hhigh, Outcome.ok_bind]
      rw [imp_iff_right (Or.inl hunit)]
      have hadmits : ∀ start stop, (microRange (some start) (some stop)).admits t = decide (start ≤ t ∧ t < stop) := by
        intro start stop
        rw [admits_microRange]
        simp
      constructor
      · intro h
        have hday : firstDay ≤ t := not_lt.1 fun hday => hearly hday _ (h true)
        have htrue := h true
        rw [agree_ok, extract_ok hunit hday ht.2, Outcome.ok_bind, hadmits] at htrue
        refine ⟨hday, ?_⟩
        rw [← fieldOf_last hunit, ← between_saturate hcut ht]
        exact (Outcome.ok.inj htrue).symm
      · rintro ⟨hday, hlast⟩ checked
        rw [← fieldOf_last hunit, ← between_saturate hcut ht] at hlast
        rw [agree_ok, extract_ok hunit hday ht.2, Outcome.ok_bind, hadmits, hlast]
    · simp only [extractWindow_error hunit, Outcome.error_bind]
      refine iff_of_true (fun checked => agree_error) fun h => ?_
      exact absurd h (not_or.2 ⟨hunit, hempty⟩)

/-- The range of a truncated instant between two literals. -/
lemma truncBetweenRange_ok (hunit : unit.truncates) {low high : ℤ} (hlow : firstDay ≤ floorOf unit low)
    (hhigh : firstDay ≤ floorOf unit high) (hl : low ≤ i64Max) (hh : high ≤ i64Max)
    (hstart : floorOf unit low ≠ low → ceilOf unit low ≤ i64Max) (hstop : ceilOf unit high ≤ i64Max) :
    ∃ f, truncBetweenRange checked unit low high = .ok f
      ∧ ∀ t, f.admits t = decide (low ≤ floorOf unit t ∧ floorOf unit t ≤ high) := by
  have hnext : (if floorOf unit low = low then .ok (floorOf unit low) else nextUnit checked unit (floorOf unit low))
      = .ok (if floorOf unit low = low then low else ceilOf unit low) := by
    by_cases h : floorOf unit low = low
    · rw [if_pos h, if_pos h, h]
    · rw [if_neg h, if_neg h, nextUnit_ok hunit hlow hl (hstart h)]
  have hbetween : ∀ t, (if floorOf unit low = low then low else ceilOf unit low) ≤ t ∧ t < ceilOf unit high
      ↔ low ≤ floorOf unit t ∧ floorOf unit t ≤ high := fun t => (cut_floorOf hunit).between_iff
  generalize (if floorOf unit low = low then low else ceilOf unit low) = start at hnext hbetween
  rw [truncBetweenRange, dateTrunc_ok hunit hlow hl, Outcome.ok_bind, dateTrunc_ok hunit hhigh hh, Outcome.ok_bind,
    hnext, Outcome.ok_bind, nextUnit_ok hunit hhigh hh hstop, Outcome.ok_bind]
  split_ifs with hempty
  · refine ⟨_, rfl, fun t => ?_⟩
    rw [admits_emptyRange, eq_comm, decide_eq_false_iff_not, ← hbetween]
    omega
  · refine ⟨_, rfl, fun t => ?_⟩
    rw [admits_microRange, Option.elim_some, Option.elim_some, ← Bool.decide_and, decide_eq_decide, ← hbetween]

/-- A truncated instant between two literals. -/
lemma truncBetween_agree (hunit : unit.truncates) {low high : ℤ} (hl : Fits low) (hh : Fits high) (ht : Fits t)
    {accepted : Prop} (haccepted : accepted) :
    (∀ checked, Agree accepted t (truncBetweenRange checked unit low high)
        (dateTrunc checked unit t >>= fun m => .ok (decide (low ≤ m ∧ m ≤ high))))
      ↔ firstDay ≤ floorOf unit low ∧ firstDay ≤ floorOf unit high
        ∧ (floorOf unit low ≠ low → ceilOf unit low ≤ i64Max) ∧ ceilOf unit high ≤ i64Max
        ∧ firstDay ≤ floorOf unit t := by
  constructor
  · intro h
    have htrue := h true
    have hlow : firstDay ≤ floorOf unit low := by
      by_contra hearly
      rw [truncBetweenRange, dateTrunc_early hunit (not_le.1 hearly) hl.2] at htrue
      exact htrue.folds haccepted rfl
    have hhigh : firstDay ≤ floorOf unit high := by
      by_contra hearly
      rw [truncBetweenRange, dateTrunc_ok hunit hlow hl.2, Outcome.ok_bind,
        dateTrunc_early hunit (not_le.1 hearly) hh.2] at htrue
      exact htrue.folds haccepted rfl
    have hstart : floorOf unit low ≠ low → ceilOf unit low ≤ i64Max := by
      intro hoff
      by_contra hlate
      rw [truncBetweenRange, dateTrunc_ok hunit hlow hl.2, Outcome.ok_bind, dateTrunc_ok hunit hhigh hh.2,
        Outcome.ok_bind, if_neg hoff, nextUnit_late hunit hlow hl.2 (not_le.1 hlate)] at htrue
      exact htrue.folds haccepted rfl
    have hstop : ceilOf unit high ≤ i64Max := by
      by_contra hlate
      have hnext := nextUnit_late hunit hhigh hh.2 (not_le.1 hlate)
      rw [truncBetweenRange, dateTrunc_ok hunit hlow hl.2, Outcome.ok_bind, dateTrunc_ok hunit hhigh hh.2,
        Outcome.ok_bind, hnext] at htrue
      refine htrue.folds haccepted (Outcome.bind_eq_abort.2 (Or.inr ?_))
      by_cases hoff : floorOf unit low = low
      · exact ⟨_, if_pos hoff, rfl⟩
      · exact ⟨_, (if_neg hoff).trans (nextUnit_ok hunit hlow hl.2 (hstart hoff)), rfl⟩
    obtain ⟨f, hf, -⟩ := @truncBetweenRange_ok true _ hunit low high hlow hhigh hl.2 hh.2 hstart hstop
    refine ⟨hlow, hhigh, hstart, hstop, ?_⟩
    by_contra hearly
    have hrow := htrue.row_eq f hf
    rw [dateTrunc_early hunit (not_le.1 hearly) ht.2] at hrow
    cases hrow
  · rintro ⟨hlow, hhigh, hstart, hstop, hday⟩ checked
    obtain ⟨f, hf, hadmits⟩ := @truncBetweenRange_ok checked _ hunit low high hlow hhigh hl.2 hh.2 hstart hstop
    rw [hf, agree_ok, dateTrunc_ok hunit hday ht.2, Outcome.ok_bind, hadmits]

end Lang
