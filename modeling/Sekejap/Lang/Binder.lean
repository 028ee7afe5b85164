import Sekejap.Lang.Micros
import Sekejap.Lib.Floats
import Sekejap.Lib.Slices
import Sekejap.Spatial.Cover

/-!
# Reading the values of a statement

A value is written in a statement as a constant, as a parameter, or as a column of the row at a key, and is read with
the parameters a caller binds (`lang/src/compile/bind.rs`): as a number, as a text, as a vector, as a shape, or inside
the declared kind of a column.
-/

open Engine (Value Kind Document isFinite)

open Engine.Spatial (Geom Point Bounds f32OfF64 nextDown)

open Ieee (f32 f64 f64From)

open Utf8

namespace Lang

/-- A parameter a caller binds. -/
inductive Param where
  | null
  | bool (b : Bool)
  | int (i : ℤ)
  | float (bits : ℕ)
  | text (t : String)
  | vector (v : List ℕ)
  | json (v : Value)

/-- A value a predicate or an order can write.  The parser reads geometries, calls and the clock only as the values of
a write. -/
inductive Literal where
  | null
  | bool (b : Bool)
  | num (v : ℕ) (exact : Option ℤ)
  | str (s : String)
  | param (n : ℕ)
  | subquery (column table : String) (key : Literal)
  deriving DecidableEq

structure PointArg where
  lon : Literal
  lat : Literal

inductive GeoFormat where
  | wkb
  | wkt

inductive GeoArg where
  | point (point : PointArg)
  | envelope (minlon minlat maxlon maxlat : Literal)
  | geoJson (literal : Literal)
  | encoded (source : Literal) (format : GeoFormat)

/-- The argument of a text predicate. -/
structure TsQuery where
  source : Literal
  tsquerySyntax : Bool
  fuzzy : Bool

inductive TextMatch where
  | any
  | all
  | phrase
  | search
  | prefixed
  | trigram (escape : Option Char) (insensitive : Bool)
  deriving DecidableEq

/-- A value inside the kind of an index. -/
inductive Scalar where
  | bool (b : Bool)
  | i64 (n : ℤ)
  | f64 (bits : ℕ)
  | text (s : String)
  deriving DecidableEq

def keyColumn : String := "_key"

/-- What is read beside the parameters: the rows of the database, the readers of vectors and shapes, and how values
and errors are spelled. -/
structure World where
  collection : String → Except SqlError ℕ
  get : ℕ → String → Except Engine.Error (Option (String × Document))
  parseVectorLiteral : String → Except SqlError (List ℕ)
  geomFromText : String → Except SqlError Geom
  geomFromJson : Value → Except SqlError Geom
  geomFromWkbHex : String → Except SqlError Geom
  geomFromWkt : String → Except SqlError Geom
  spelled : Value → String
  floatText : ℕ → String
  errorText : Engine.Error → String

namespace World

variable (w : World)

/-- `SqlError::from` -/
def sqlError : Engine.Error → SqlError
  | .constraint sqlstate message => .coded sqlstate message
  | other => .engine (w.errorText other)

end World

/-- `Value::from` of an `f64`: what is not finite is null. -/
def jsonOfF64 (bits : ℕ) : Value := if isFinite bits then .number (.float bits) else .null

def Param.value : Param → Value
  | null => .null
  | bool b => .bool b
  | int i => .number (.int i)
  | float bits => jsonOfF64 bits
  | text t => .string t
  | vector v => .array (v.map fun lane => jsonOfF64 (f64From lane))
  | json v => v

def Literal.isParam : Literal → Bool
  | param _ => true
  | _ => false

/-- The value reader: the parameters, and the database a scalar subquery reads. -/
structure Binder where
  world : World
  params : List Param

namespace Binder

variable (b : Binder)

def param (n : ℕ) : Except SqlError Param :=
  match b.params[n - 1]? with
  | some p => .ok p
  | none => .error (.parameter s!"${n} is not bound; {b.params.length} parameter(s) were given")

/-- A value where text is wanted: a bound number is its own spelling. -/
def asText (literal : Literal) : Value → Except SqlError String
  | .string s => .ok s
  | .number n =>
      if literal.isParam then .ok (b.world.spelled (.number n))
      else .error (.parameter s!"expected text, found {b.world.spelled (.number n)}")
  | other => .error (.parameter s!"expected text, found {b.world.spelled other}")

def valueOf : Literal → Except SqlError Value
  | .null => .ok .null
  | .bool v => .ok (.bool v)
  | .num _ (some n) => .ok (.number (.int n))
  | .num v none => .ok (jsonOfF64 v)
  | .str s => .ok (.string s)
  | .param n => do return (← b.param n).value
  | .subquery column table key => do
      let collection ← b.world.collection table
      let key ← b.asText key (← valueOf key)
      match b.world.get collection key with
      | .error e => throw (b.world.sqlError e)
      | .ok none => throw (.engine s!"scalar subquery: `{table}` has no row at key `{key}`")
      | .ok (some (rowKey, document)) =>
          return if column = keyColumn then .string rowKey else (document column).getD .null

def textOf (literal : Literal) : Except SqlError String := do
  b.asText literal (← b.valueOf literal)

def f64Of (literal : Literal) : Except SqlError ℕ := do
  match ← b.valueOf literal with
  | .number n =>
      match (Value.number n).asF64 with
      | some bits => return bits
      | none => throw (.parameter "number is not finite")
  | other => throw (.parameter s!"expected a number, found {b.world.spelled other}")

/-- A vector that is bound as one. -/
def vectorParam : Literal → Except SqlError (Option (List ℕ))
  | .param n => do
      match ← b.param n with
      | .vector v => return some v
      | _ => return none
  | _ => .ok none

def vectorOf (literal : Literal) : Except SqlError (List ℕ) := do
  match ← b.vectorParam literal with
  | some v => return v
  | none =>
      match ← b.valueOf literal with
      | .string text => b.world.parseVectorLiteral text
      | .array items => items.mapM fun item =>
          match item.asF64 with
          | some v => .ok (f32OfF64 v)
          | none => .error (.parameter "vector holds a non-number")
      | other => throw (.parameter s!"expected a vector literal, found {b.world.spelled other}")

/-- `Point::new`, its error that of `ST_MakePoint`. -/
def makePoint (lon lat : ℕ) : Except SqlError Point :=
  (Point.new lon lat).mapError fun e => .engine
    s!"ST_MakePoint({b.world.floatText lon}, {b.world.floatText lat}): {b.world.errorText e}"

def pointOf (point : PointArg) : Except SqlError Point := do
  let lon ← b.f64Of point.lon
  let lat ← b.f64Of point.lat
  b.makePoint lon lat

/-- `geom_with`, each literal read by the binder. -/
def geomOf : GeoArg → Except SqlError Geom
  | .point point => do
      let lon ← b.f64Of point.lon
      let lat ← b.f64Of point.lat
      let p ← b.makePoint lon lat
      return .point p.lon p.lat
  | .envelope minlon minlat maxlon maxlat => do
      let w ← b.f64Of minlon
      let s ← b.f64Of minlat
      let e ← b.f64Of maxlon
      let n ← b.f64Of maxlat
      return .polygon [[(w, s), (e, s), (e, n), (w, n), (w, s)]]
  | .geoJson literal => do
      match ← b.valueOf literal with
      | .string text => b.world.geomFromText text
      | document => b.world.geomFromJson document
  | .encoded source format => do
      match ← b.valueOf source with
      -- here a bound number is no text
      | .string text =>
          match format with
          | .wkb => b.world.geomFromWkbHex text
          | .wkt => b.world.geomFromWkt text
      | other => throw (.parameter s!"expected text, found {b.world.spelled other}")

end Binder

/-- `-v` of an `f64` -/
def f64Neg (v : ℕ) : ℕ := if v < f64.signBit then v + f64.signBit else v - f64.signBit

/-- The lowest double whose own `f32` rounding up reaches the `f32` that `v` rounds down to. -/
def float4ReachBelow (v : ℕ) : ℕ :=
  let edge := nextDown v
  let below :=
    if 0 < f32.value edge then edge - 1
    else if f32.value edge = 0 then f32.signBit + 1
    else edge + 1
  let below := f64From below
  if 0 ≤ f64.value below then below + 1 else below - 1

def float4ReachAbove (v : ℕ) : ℕ := f64Neg (float4ReachBelow (f64Neg v))

namespace Binder

variable (b : Binder)

/-- The rectangle of a shape, its edges as the `f32` boxes of a point reach them. -/
def overlapBoundsOf (argument : GeoArg) : Except SqlError Bounds := do
  let geometry ← b.geomOf argument
  match geometry.bbox with
  | none => throw (.parameter "&&: the shape has no coordinates")
  | some box =>
      let low v floor := Geom.greatest (float4ReachBelow v) floor
      let high v ceiling := Geom.least (float4ReachAbove v) ceiling
      (Bounds.new (low box.xmin (Engine.f64OfInt (-180))) (high box.xmax (Engine.f64OfInt 180))
          (low box.ymin (Engine.f64OfInt (-90))) (high box.ymax (Engine.f64OfInt 90))).mapError
        fun e => .engine s!"&&: {b.world.errorText e}"

def boundsOf : GeoArg → Except SqlError Bounds
  | .envelope minlon minlat maxlon maxlat => do
      let w ← b.f64Of minlon
      let s ← b.f64Of minlat
      let e ← b.f64Of maxlon
      let n ← b.f64Of maxlat
      (Bounds.new w e s n).mapError fun e => .engine s!"ST_MakeEnvelope: {b.world.errorText e}"
  | _ => .error (.unsupported ("a rectangle over a Point column is ST_Within(col, ST_MakeEnvelope(...)): "
      ++ "PointFilter::Bbox is a lon/lat rectangle and has no other shape"))

end Binder

/-- A kind as an error names it. -/
def kindText : Kind → String
  | .text => "Text"
  | .int => "Int"
  | .real => "Real"
  | .bool => "Bool"
  | .json => "Json"
  | .geo => "Geo"
  | .point => "Point"
  | .vector dim => s!"Vector({dim})"

/-- One value inside the declared kind of a column. -/
def Binder.scalar (b : Binder) (kind : Kind) (literal : Literal) (column : String) : Except SqlError Scalar := do
  let value ← b.valueOf literal
  match kind, value with
  | .int, .number n =>
      match (Value.number n).asI64 with
      | some i => return .i64 i
      | none => throw (.parameter s!"`{column}` is INT and {b.world.spelled (.number n)} is not a whole number")
  | .real, .number n =>
      match (Value.number n).asF64 with
      | some bits => return .f64 bits
      | none => throw (.parameter s!"`{column}` is REAL and {b.world.spelled (.number n)} is not a number")
  | .text, .string s => return .text s
  | .bool, .bool v => return .bool v
  | _, _ => throw (.parameter (s!"`{column}` is declared {kindText kind} and the value is {b.world.spelled value}; "
      ++ "a scalar predicate stays inside the index's declared domain rather than coercing "
      ++ "(`ScalarFilter`, src/query/mod.rs)"))

/-! ## Text queries -/

def contractReason (reason : String) : String := "QL_CONTRACT §4.6: " ++ reason

def tsqueryWeight : SqlError :=
  .refused "tsquery weight" .three
    (contractReason "tsvector weights have no atomic; analyzer v1 stores one weight per token.")

def singleQuote : Char := Char.ofNat 39

def doubleQuote : Char := Char.ofNat 34

/-- `str::split_whitespace` -/
def words (text : List Char) : List (List Char) := (text.splitOnP isWhitespace).filter fun word => word ≠ []

/-- `term:*`, with no other colon. -/
def prefixTerm (term : List Char) : Bool :=
  [':', '*'].isSuffixOf term && decide (2 < term.length) && !((term.take (term.length - 2)).contains ':')

/-- The terms of a tsquery that is one operator, or none. -/
def tsqueryTerms (trimmed : List Char) : Except SqlError (List Char × TextMatch) :=
  let hasOr := trimmed.contains '|'
  let hasAnd := trimmed.contains '&'
  if hasOr && hasAnd then
    .error (.refused "tsquery & |" .two (contractReason ("a tsquery that mixes `&` and `|` is a boolean TREE inside "
      ++ "one index's postings; the Tier-1 tsquery is one operator, and a union ACROSS predicates is written with "
      ++ "SQL's own OR.")))
  else if trimmed.contains '!' then
    .error (.refused "tsquery !" .two (contractReason ("a tsquery `!` inside a larger tsquery is a boolean TREE over "
      ++ "one index's postings; the Tier-1 spelling is `!term` alone, which is NOT over the text set.")))
  else if decide (['<', '-', '>'] <:+: trimmed) then
    .error (.refused "tsquery <->" .two (contractReason ("a tsquery distance operator is a positional constraint; the "
      ++ "Tier-1 phrase atomic is a quoted phrase (TextMatch::Phrase).")))
  else
    let separator := if hasOr then '|' else '&'
    let terms := ((trimmed.splitOn separator).map trim).filter fun term => term ≠ []
    let joined := [' '].intercalate terms
    if terms.any prefixTerm then
      if terms.any fun term => term.contains ':' && !prefixTerm term then .error tsqueryWeight
      else if hasOr then
        .error (.refused "tsquery :* inside |" .two (contractReason ("a prefix term inside an OR is not built; a `:*` "
          ++ "term is ANDed with the others (`john:* & doe`), and an OR across predicates is written with SQL's own "
          ++ "OR.")))
      else .ok (joined, .prefixed)
    else if terms.any fun term => term.contains ':' then .error tsqueryWeight
    else .ok (joined, if hasOr || terms.length == 1 then .any else .all)

/-- A tsquery text, split into the words and how they match. -/
def tsqueryOf (text : String) (query : TsQuery) : Except SqlError (String × TextMatch) :=
  if query.fuzzy then .ok (text, .search)
  else if !query.tsquerySyntax then .ok (text, .any)
  else
    let trimmed := trim text.toList
    if [doubleQuote].isPrefixOf trimmed && [doubleQuote].isSuffixOf trimmed && decide (2 ≤ trimmed.length) then
      .ok (String.ofList (trim (trimmed.drop 1).dropLast), .phrase)
    else
      let inner := trim ((trimmed.dropWhile (· == singleQuote)).rdropWhile (· == singleQuote))
      if trimmed.contains singleQuote && decide (1 < (words inner).length) then .ok (String.ofList inner, .phrase)
      else (tsqueryTerms trimmed).map fun p => (String.ofList p.1, p.2)

def Binder.tsquery (b : Binder) (query : TsQuery) : Except SqlError (String × TextMatch) := do
  tsqueryOf (← b.textOf query.source) query

end Lang
