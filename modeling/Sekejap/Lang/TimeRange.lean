import Sekejap.Lang.Reading
import Sekejap.Lang.Rebind

/-!
# Date and time predicates as ranges

A predicate over a timestamp column is folded into one range of its instants when a statement is compiled
(`lang/src/compile/functions.rs`): the instants of a year or a second, of a unit cut off, or up to an instant.
-/

open Calendar Machine Utf8

open Engine (Value)

namespace Lang

inductive CmpOp where
  | eq
  | ne
  | lt
  | le
  | gt
  | ge
  deriving DecidableEq

namespace CmpOp

def written : CmpOp → String
  | eq => "="
  | ne => "<>"
  | lt => "<"
  | le => "<="
  | gt => ">"
  | ge => ">="

def holds : CmpOp → ℤ → ℤ → Bool
  | eq, a, b => decide (a = b)
  | ne, a, b => decide (a ≠ b)
  | lt, a, b => decide (a < b)
  | le, a, b => decide (a ≤ b)
  | gt, a, b => decide (b < a)
  | ge, a, b => decide (b ≤ a)

end CmpOp

/-- The right-hand side of a comparison: a literal, or the clock with an interval beside it. -/
inductive TimeValue where
  | lit (literal : Literal)
  | clock (dateOnly : Bool) (offset : ℤ)

/-- The forms over a timestamp column that are one range. -/
inductive TimeShape where
  | extract (unit : TimeUnit) (op : CmpOp) (value : Literal)
  | extractBetween (unit : TimeUnit) (lower upper : Literal)
  | trunc (unit : TimeUnit) (op : CmpOp) (value : Literal)
  | truncBetween (unit : TimeUnit) (lower upper : Literal)
  | castDate (op : CmpOp) (value : Literal)
  | clock (op : CmpOp) (value : TimeValue)
  | clockBetween (lower upper : TimeValue)

section Written

variable (w : World)

def Literal.written : Literal → String
  | .null => "NULL"
  | .bool b => if b then "TRUE" else "FALSE"
  | .num _ (some n) => toString n
  | .num v none => w.floatText v
  | .str text => s!"'{text}'"
  | .param n => s!"${n}"
  | .subquery .. => "(SELECT ...)"

def TimeValue.written : TimeValue → String
  | .lit literal => literal.written w
  | .clock dateOnly offset =>
      let clock := if dateOnly then "current_date" else "now()"
      if offset = 0 then clock
      else if offset < 0 then s!"{clock} - interval {-offset}us"
      else s!"{clock} + interval {offset}us"

def TimeShape.written (column : String) : TimeShape → String
  | .extract unit op value => s!"EXTRACT({unit.written} FROM {column}) {op.written} {value.written w}"
  | .extractBetween unit lower upper =>
      s!"EXTRACT({unit.written} FROM {column}) BETWEEN {lower.written w} AND {upper.written w}"
  | .trunc unit op value => s!"date_trunc('{unit.written}', {column}) {op.written} {value.written w}"
  | .truncBetween unit lower upper =>
      s!"date_trunc('{unit.written}', {column}) BETWEEN {lower.written w} AND {upper.written w}"
  | .castDate op value => s!"{column}::date {op.written} {value.written w}"
  | .clock op value => s!"{column} {op.written} {value.written w}"
  | .clockBetween lower upper => s!"{column} BETWEEN {lower.written w} AND {upper.written w}"

end Written

/-! ## What a filter admits -/

def Bound.above : Bound Scalar → ℤ → Bool
  | .included (.i64 v), t => decide (v ≤ t)
  | .excluded (.i64 v), t => decide (v < t)
  | .unbounded, _ => true
  | _, _ => false

def Bound.below : Bound Scalar → ℤ → Bool
  | .included (.i64 v), t => decide (t ≤ v)
  | .excluded (.i64 v), t => decide (t < v)
  | .unbounded, _ => true
  | _, _ => false

/-- A filter over the integers of an index, at one of them. -/
def OwnedScalarFilter.admits : OwnedScalarFilter → ℤ → Bool
  | .eq (.i64 v), t => decide (t = v)
  | .range lower upper, t => lower.above t && upper.below t
  | _, _ => false

/-! ## The fold -/

def multiRangeReason : String :=
  "QL_CONTRACT §4.2 and §3: this rewrite's pre-image is a SET of scalar ranges over the index, not one, and a set of "
    ++ "ranges is exactly the membership-set union `OR` and `IN (list)` compile to. That union is not built in this "
    ++ "slice, so the multi-range form is refused here rather than emulated by a scan (QL_CONTRACT §6). The "
    ++ "single-range forms -- EXTRACT(YEAR FROM t), date_trunc('unit', t), t::date, t >= lit, t BETWEEN, "
    ++ "t > now() - interval -- are accepted."

def multiRange (what : String) : SqlError := .refused what .two multiRangeReason

namespace Compiler

section Literals

variable (checked : Bool) (b : Binder) (clock : ℤ) (column what : String)

/-- A text is a date and time, and a whole number is the stored integer. -/
def timeLiteral (literal : Literal) : Outcome SqlError ℤ := do
  match ← .ofExcept (b.valueOf literal) with
  | .string text => parseTimestamp checked text
  | .number n =>
      match (Value.number n).asI64 with
      | some v => .ok v
      | none => .error (.parameter
          s!"`{column}` stores whole microseconds and {b.world.spelled (.number n)} is not a whole number")
  | other => .error (.parameter (s!"`{column}` is a declared timestamp and {b.world.spelled other} is neither a "
      ++ "date/time literal nor a whole number of microseconds"))

def timeValue : TimeValue → Outcome SqlError ℤ
  | .lit literal => timeLiteral checked b column literal
  | .clock dateOnly offset => do
      let base ← (if dateOnly then dateTrunc checked .day clock else .ok clock)
      .ofOption (checkedAdd base offset)
        (.unsupported "the folded clock arithmetic overflows i64 microseconds")

/-- A whole number written beside an `EXTRACT`. -/
def whole (literal : Literal) : Except SqlError ℤ := do
  match ← b.valueOf literal with
  | .number n =>
      match (Value.number n).asI64 with
      | some v => .ok v
      | none => .error (.parameter s!"{what} compares against a whole number, not {b.world.spelled (.number n)}")
  | other => .error (.parameter s!"{what} compares against a whole number, not {b.world.spelled other}")

end Literals

section Ranges

variable (checked : Bool) (what : String)

/-- One half-open range of the stored microseconds. -/
def microRange (lower upper : Option ℤ) : OwnedScalarFilter :=
  .range (lower.elim .unbounded fun v => .included (.i64 v)) (upper.elim .unbounded fun v => .excluded (.i64 v))

def emptyRange : OwnedScalarFilter := .range (.excluded (.i64 i64Max)) (.excluded (.i64 i64Max))

/-- A comparison against one instant. -/
def compareRange (op : CmpOp) (moment : ℤ) : Outcome SqlError OwnedScalarFilter :=
  match op with
  | .eq => .ok (microRange (some moment) (checkedAdd moment 1))
  | .lt => .ok (microRange none (some moment))
  | .le => .ok (microRange none (checkedAdd moment 1))
  | .gt => .ok (.range (.excluded (.i64 moment)) .unbounded)
  | .ge => .ok (microRange (some moment) none)
  | .ne => .error (multiRange what)

/-- A comparison against a window. -/
def windowRange (op : CmpOp) (start stop : ℤ) : Outcome SqlError OwnedScalarFilter :=
  match op with
  | .eq => .ok (microRange (some start) (some stop))
  | .lt => .ok (microRange none (some start))
  | .le => .ok (microRange none (some stop))
  | .gt => .ok (microRange (some stop) none)
  | .ge => .ok (microRange (some start) none)
  | .ne => .error (multiRange what)

/-- A comparison against a literal off the boundaries: every cut moves to the boundary above it. -/
def offsetWindowRange (op : CmpOp) (stop : ℤ) : Outcome SqlError OwnedScalarFilter :=
  match op with
  | .eq => .ok emptyRange
  | .lt | .le => .ok (microRange none (some stop))
  | .gt | .ge => .ok (microRange (some stop) none)
  | .ne => .error (multiRange what)

/-- 1 January of a year, saturating at the ends of the range. -/
def yearStart (year : ℤ) : ℤ :=
  if 400000 < year then i64Max
  else if year < -400000 then i64Min
  else
    let micros := daysFromCivil year 1 1 * microsPerDay
    if Fits micros then micros else if 0 < year then i64Max else i64Min

def extractWindow (unit : TimeUnit) (n : ℤ) : Outcome SqlError (ℤ × ℤ) :=
  match unit with
  | .year => .ok (yearStart n, yearStart (saturate (n + 1)))
  | .epoch => .ok (saturate (n * microsPerSecond), saturate (saturate (n + 1) * microsPerSecond))
  | _ => .error (multiRange what)

/-- An extracted field between two numbers. -/
def extractBetweenRange (unit : TimeUnit) (low high : ℤ) : Outcome SqlError OwnedScalarFilter :=
  if high < low then .ok emptyRange
  else do
    let (start, _) ← extractWindow what unit low
    let (_, stop) ← extractWindow what unit high
    .ok (microRange (some start) (some stop))

/-- A comparison of a truncated instant. -/
def truncRange (unit : TimeUnit) (op : CmpOp) (moment : ℤ) : Outcome SqlError OwnedScalarFilter := do
  let start ← dateTrunc checked unit moment
  let stop ← nextUnit checked unit start
  if start = moment then windowRange what op start stop else offsetWindowRange what op stop

/-- A truncated instant between two literals: off the boundaries, the first is cut at the one above it. -/
def truncBetweenRange (unit : TimeUnit) (lowAt highAt : ℤ) : Outcome SqlError OwnedScalarFilter := do
  let low ← dateTrunc checked unit lowAt
  let high ← dateTrunc checked unit highAt
  let start ← (if low = lowAt then .ok low else nextUnit checked unit low)
  let stop ← nextUnit checked unit high
  if stop ≤ start then .ok emptyRange else .ok (microRange (some start) (some stop))

end Ranges

section Filter

variable (checked : Bool) (b : Binder) (clock : ℤ) (column : String)

/-- The range a predicate is folded into. -/
def timeRange (what : String) : TimeShape → Outcome SqlError OwnedScalarFilter
  | .extract unit op value => do
      let n ← .ofExcept (whole b what value)
      let (start, stop) ← extractWindow what unit n
      windowRange what op start stop
  | .extractBetween unit lower upper => do
      let low ← .ofExcept (whole b what lower)
      let high ← .ofExcept (whole b what upper)
      extractBetweenRange what unit low high
  | .trunc unit op value => do
      let moment ← timeLiteral checked b column value
      truncRange checked what unit op moment
  | .truncBetween unit lower upper => do
      let lowAt ← timeLiteral checked b column lower
      let highAt ← timeLiteral checked b column upper
      truncBetweenRange checked unit lowAt highAt
  | .castDate op value => do
      let moment ← timeLiteral checked b column value
      truncRange checked what .day op moment
  | .clock op value => do
      let moment ← timeValue checked b clock column value
      compareRange what op moment
  | .clockBetween lower upper => do
      let low ← timeValue checked b clock column lower
      let high ← timeValue checked b clock column upper
      if high < low then .ok emptyRange else .ok (microRange (some low) (checkedAdd high 1))

/-- A predicate folded into one range on the column's index: the column is declared a timestamp, and is indexed. -/
def timeFilter (declared : Bool) (index : Except SqlError ℕ) (shape : TimeShape) : Outcome SqlError OwnedFilter := do
  let what := shape.written b.world column
  if !declared then
    .error (.unsupported (s!"{what}: `{column}` is not a declared TIMESTAMPTZ or DATE. QL_CONTRACT §4.2 folds a "
      ++ "date/time function over a column whose declared type says it holds UTC microseconds; over an untyped Int "
      ++ "there is nothing to fold"))
  else do
    let index ← .ofExcept index
    let predicate ← timeRange checked b clock column what shape
    .ok (.scalar index predicate ⟨[], List.nodup_nil⟩)

end Filter

end Compiler

/-! ## The row form -/

open Compiler in
/-- The comparison on what the row functions compute from an instant. -/
def rowHolds (checked : Bool) (b : Binder) (clock : ℤ) (column what : String) (t : ℤ) :
    TimeShape → Outcome SqlError Bool
  | .extract unit op value => do
      let n ← .ofExcept (whole b what value)
      let v ← extract checked unit t
      .ok (op.holds v n)
  | .extractBetween unit lower upper => do
      let low ← .ofExcept (whole b what lower)
      let high ← .ofExcept (whole b what upper)
      let v ← extract checked unit t
      .ok (decide (low ≤ v ∧ v ≤ high))
  | .trunc unit op value => do
      let moment ← timeLiteral checked b column value
      let v ← dateTrunc checked unit t
      .ok (op.holds v moment)
  | .truncBetween unit lower upper => do
      let lowAt ← timeLiteral checked b column lower
      let highAt ← timeLiteral checked b column upper
      let v ← dateTrunc checked unit t
      .ok (decide (lowAt ≤ v ∧ v ≤ highAt))
  | .castDate op value => do
      let moment ← timeLiteral checked b column value
      let v ← dateTrunc checked .day t
      .ok (op.holds v moment)
  | .clock op value => do
      let moment ← timeValue checked b clock column value
      .ok (op.holds t moment)
  | .clockBetween lower upper => do
      let low ← timeValue checked b clock column lower
      let high ← timeValue checked b clock column upper
      .ok (decide (low ≤ t ∧ t ≤ high))

end Lang
