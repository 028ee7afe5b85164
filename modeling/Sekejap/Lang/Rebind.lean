import Sekejap.Lang.Binder
import Sekejap.Lib.Refill

/-!
# Binding a prepared statement anew

A prepared statement keeps, beside the values it was compiled with, what was written in their place where that can
change, and a bind reads it again with the new parameters and writes the values where they belong
(`lang/src/compile/plan.rs`, `PreparedSql::bind` of `lang/src/lib.rs`).  A value that cannot be read ends the bind, and
the ones before it are written.

* **`bind_left_iff`** — a failed bind leaves the statement as it was where every value read before it failed is the one
  the statement held.
-/

open Engine (Value Kind)

open Engine.Spatial (Geom Point Bounds)

open Refill

namespace Lang

variable {α : Type*}

/-! ## The compiled forms -/

inductive Bound (α : Type*) where
  | included (v : α)
  | excluded (v : α)
  | unbounded

/-- The operator is the statement's, only the value is the caller's. -/
def refillBound (bound : Bound α) (value : α) : Bound α :=
  match bound with
  | .excluded _ => .excluded value
  | .included _ | .unbounded => .included value

/-- The half of a scalar predicate that a slot fills. -/
inductive ScalarAt where
  | eq
  | lower
  | upper
  deriving DecidableEq

structure ScalarFill where
  place : ScalarAt
  literal : Literal
  kind : Kind
  column : String

inductive KeyAt where
  | lower
  | upper
  deriving DecidableEq

structure KeyFill where
  place : KeyAt
  literal : Literal

/-- The slots of a scalar predicate: each fills a half of its own. -/
abbrev ScalarFills := {fills : List ScalarFill // (fills.map ScalarFill.place).Nodup}

/-- The slots of a key range: each fills a half of its own. -/
abbrev KeyFills := {fills : List KeyFill // (fills.map KeyFill.place).Nodup}

/-- A point predicate is built again from all that was written. -/
inductive PointFill where
  | radius (center : PointArg) (metres : Literal)
  | bbox (argument : GeoArg)
  | overlaps (argument : GeoArg)

inductive SpatialPredicate where
  | dWithin
  | intersects
  | within
  | contains
  | overlaps

structure GeomFill where
  predicate : SpatialPredicate
  argument : GeoArg
  metres : Option Literal

inductive OwnedScalarFilter where
  | eq (v : Scalar)
  | range (lower upper : Bound Scalar)
  | isNull
  | isMissing

inductive PointFilter where
  | bbox (bounds : Bounds)
  | radius (center : Point) (radiusMetres : ℕ)

inductive GeometryFilter where
  | intersects (geometry : Geom)
  | within (geometry : Geom)
  | contains (geometry : Geom)
  | dWithin (geometry : Geom) (metres : ℕ)
  | overlaps (geometry : Geom)

inductive Cmp where
  | eq
  | ne
  | lt
  | le
  | gt
  | ge

inductive OwnedFilter where
  | scalar (index : ℕ) (predicate : OwnedScalarFilter) (fills : ScalarFills)
  | point (index : ℕ) (predicate : PointFilter) (fill : Option PointFill)
  | geometry (index : ℕ) (predicate : GeometryFilter) (fill : Option GeomFill)
  | text (index : ℕ) (query : String) (matching : TextMatch) (fill : Option TsQuery)
  | key (lower upper : Bound String) (fills : KeyFills)
  | any (children : List OwnedFilter)
  | not (child : OwnedFilter)
  | all (children : List OwnedFilter)
  | ids (ids : List ℕ)
  | like (field pattern : String) (escape : Option Char) (insensitive negated : Bool) (trigram : Option ℕ)
  | rowCompare (fields : List String) (values : List Value) (op : Cmp)

inductive VectorMetric where
  | cosine
  | l2
  | dot

inductive OwnedScore where
  | lit (value : ℕ)
  | scalar (index : ℕ)
  | field (field : String)
  | bm25 (index : ℕ) (query : String) (matching : TextMatch) (fill : Option TsQuery)
  | searchScore (index : ℕ) (query : String)
  | vectorDistance (index : ℕ) (query : List ℕ) (metric : VectorMetric) (fill : Option Literal)
  | distance (index : ℕ) (center : Point) (fill : Option PointArg)
  | add (a b : OwnedScore)
  | sub (a b : OwnedScore)
  | mul (a b : OwnedScore)
  | div (a b : OwnedScore)
  | neg (inner : OwnedScore)

inductive SortDirection where
  | ascending
  | descending

inductive OwnedSortValue where
  | field (field : String)
  | key
  | score (expr : OwnedScore)

structure OwnedSortKey where
  value : OwnedSortValue
  direction : SortDirection

inductive OwnedOrder where
  | driver
  | entityId
  | scalar (index : ℕ) (direction : SortDirection)
  | distance (index : ℕ) (center : Point) (fill : Option PointArg)
  | bm25 (index : ℕ) (query : String) (matching : TextMatch) (fill : Option TsQuery)
  | vector (exact approximate : Option ℕ) (query : List ℕ) (metric : VectorMetric) (fill : Option Literal)
  | score (expr : OwnedScore) (direction : SortDirection)
  | keys (keys : List OwnedSortKey)

/-- What a bind reads and writes of a SELECT. -/
structure SelectPlan where
  filters : List OwnedFilter
  order : OwnedOrder

/-- What a bind reads and writes of a folded answer. -/
structure AggregatePlan where
  filters : List OwnedFilter

inductive Plan where
  | select (select : SelectPlan)
  | explain (select : SelectPlan)
  | aggregate (aggregate : AggregatePlan)
  | explainAggregate (aggregate : AggregatePlan)
  | rows
  | write
  | explainText
  | gql (params : List Param)
  | explainGql (params : List Param)
  | edgeRows

/-- Why a statement cannot be refilled, nothing where it can. -/
structure Rebind where
  refusals : List String

def Rebind.ok (r : Rebind) : Bool := r.refusals.isEmpty

structure PreparedSql (Stmt : Type*) where
  plan : Plan
  notices : List String
  statement : Option Stmt
  rebind : Rebind

/-! ## Binding -/

/-- A value into its half of a scalar predicate. -/
def scalarPut : OwnedScalarFilter → ScalarAt → Scalar → Except SqlError OwnedScalarFilter
  | .eq _, .eq, value => .ok (.eq value)
  | .range lower upper, .lower, value => .ok (.range (refillBound lower value) upper)
  | .range lower upper, .upper, value => .ok (.range lower (refillBound upper value))
  | _, _, _ => .error (.unsupported "a rebind found a scalar slot whose compiled predicate has no such position")

/-- A key into its half of a range. -/
def keyPut : Bound String × Bound String → KeyAt → String → Except SqlError (Bound String × Bound String)
  | (lower, upper), .lower, key => .ok (refillBound lower key, upper)
  | (lower, upper), .upper, key => .ok (lower, refillBound upper key)

namespace Binder

variable (b : Binder)

def scalarFill (fill : ScalarFill) : Except SqlError Scalar := b.scalar fill.kind fill.literal fill.column

def keyFill (fill : KeyFill) : Except SqlError String := b.textOf fill.literal

def pointFill : PointFill → Except SqlError PointFilter
  | .radius center metres => do
      let center ← b.pointOf center
      let metres ← b.f64Of metres
      return .radius center metres
  | .bbox argument => return .bbox (← b.boundsOf argument)
  | .overlaps argument => return .bbox (← b.overlapBoundsOf argument)

def geomFill (fill : GeomFill) : Except SqlError GeometryFilter := do
  let geometry ← b.geomOf fill.argument
  match fill.predicate with
  | .intersects => return .intersects geometry
  | .within => return .within geometry
  | .contains => return .contains geometry
  | .overlaps => return .overlaps geometry
  | .dWithin =>
      match fill.metres with
      | some literal => return .dWithin geometry (← b.f64Of literal)
      | none => throw (.syntaxAt "ST_DWithin needs a distance" 0)

end Binder

mutual

/-- Refill the slots of a filter.  A filter with no slot is untouched. -/
def OwnedFilter.rebind (b : Binder) : OwnedFilter → Result OwnedFilter SqlError
  | .scalar index predicate fills =>
      on (fun predicate => .scalar index predicate fills)
        (loop b.scalarFill ScalarFill.place scalarPut predicate fills.1)
  | .key lower upper fills =>
      on (fun bounds => .key bounds.1 bounds.2 fills) (loop b.keyFill KeyFill.place keyPut (lower, upper) fills.1)
  | .text index query matching fill =>
      on (fun read => .text index read.1 read.2 fill) (refill b.tsquery (query, matching) fill)
  | .point index predicate fill => on (fun predicate => .point index predicate fill) (refill b.pointFill predicate fill)
  | .geometry index predicate fill =>
      on (fun predicate => .geometry index predicate fill) (refill b.geomFill predicate fill)
  | .any children => on .any (rebindAll b children)
  | .all children => on .all (rebindAll b children)
  | .not child => on .not (child.rebind b)
  -- the values of these were read when the statement was compiled
  | .like field pattern escape insensitive negated trigram =>
      (.like field pattern escape insensitive negated trigram, .ok ())
  | .rowCompare fields values op => (.rowCompare fields values op, .ok ())
  | .ids set => (.ids set, .ok ())

def OwnedFilter.rebindAll (b : Binder) : List OwnedFilter → Result (List OwnedFilter) SqlError
  | [] => ([], .ok ())
  | child :: children => both List.cons (child.rebind b) children (rebindAll b children)

end

def OwnedScore.rebind (b : Binder) : OwnedScore → Result OwnedScore SqlError
  | .bm25 index query matching fill =>
      on (fun read => .bm25 index read.1 read.2 fill) (refill b.tsquery (query, matching) fill)
  | .vectorDistance index query metric fill =>
      on (fun query => .vectorDistance index query metric fill) (refill b.vectorOf query fill)
  | .distance index center fill => on (fun center => .distance index center fill) (refill b.pointOf center fill)
  | .add x y => both .add (x.rebind b) y (y.rebind b)
  | .sub x y => both .sub (x.rebind b) y (y.rebind b)
  | .mul x y => both .mul (x.rebind b) y (y.rebind b)
  | .div x y => both .div (x.rebind b) y (y.rebind b)
  | .neg inner => on .neg (inner.rebind b)
  | .lit value => (.lit value, .ok ())
  | .scalar index => (.scalar index, .ok ())
  | .field name => (.field name, .ok ())
  | .searchScore index query => (.searchScore index query, .ok ())

def OwnedSortKey.rebind (b : Binder) (key : OwnedSortKey) : Result OwnedSortKey SqlError :=
  match key.value with
  | .score expr => on (fun expr => ⟨.score expr, key.direction⟩) (expr.rebind b)
  | .field _ | .key => (key, .ok ())

def OwnedOrder.rebind (b : Binder) : OwnedOrder → Result OwnedOrder SqlError
  | .distance index center fill => on (fun center => .distance index center fill) (refill b.pointOf center fill)
  | .bm25 index query matching fill =>
      on (fun read => .bm25 index read.1 read.2 fill) (refill b.tsquery (query, matching) fill)
  | .vector exact approximate query metric fill =>
      on (fun query => .vector exact approximate query metric fill) (refill b.vectorOf query fill)
  | .score expr direction => on (fun expr => .score expr direction) (expr.rebind b)
  | .keys list => on .keys (each (OwnedSortKey.rebind b) list)
  | .driver => (.driver, .ok ())
  | .entityId => (.entityId, .ok ())
  | .scalar index direction => (.scalar index direction, .ok ())

def SelectPlan.rebind (b : Binder) (p : SelectPlan) : Result SelectPlan SqlError :=
  both SelectPlan.mk (OwnedFilter.rebindAll b p.filters) p.order (p.order.rebind b)

/-- A `HAVING` bound and a group key are folded, so only the WHERE clause carries slots. -/
def AggregatePlan.rebind (b : Binder) (p : AggregatePlan) : Result AggregatePlan SqlError :=
  on AggregatePlan.mk (OwnedFilter.rebindAll b p.filters)

def Plan.rebind (b : Binder) : Plan → Result Plan SqlError
  | .select p => on .select (p.rebind b)
  | .explain p => on .explain (p.rebind b)
  | .aggregate p => on .aggregate (p.rebind b)
  | .explainAggregate p => on .explainAggregate (p.rebind b)
  -- no value is folded: the next execution reads the new parameters
  | .gql _ => (.gql b.params, .ok ())
  | .explainGql _ => (.explainGql b.params, .ok ())
  -- these carry no slot
  | .write => (.write, .ok ())
  | .explainText => (.explainText, .ok ())
  | .rows => (.rows, .ok ())
  | .edgeRows => (.edgeRows, .ok ())

/-! ## The slots

In the order a bind comes to them: one that cannot be read, or whether the value it reads is there already.
-/

mutual

def OwnedFilter.slots (b : Binder) : OwnedFilter → Slots
  | .scalar _ predicate fills => fills.1.map (slot b.scalarFill ScalarFill.place scalarPut predicate)
  | .key lower upper fills => fills.1.map (slot b.keyFill KeyFill.place keyPut (lower, upper))
  | .text _ query matching fill => held b.tsquery (query, matching) fill
  | .point _ predicate fill => held b.pointFill predicate fill
  | .geometry _ predicate fill => held b.geomFill predicate fill
  | .any children => slotsAll b children
  | .all children => slotsAll b children
  | .not child => child.slots b
  | .like .. => []
  | .rowCompare .. => []
  | .ids _ => []

def OwnedFilter.slotsAll (b : Binder) : List OwnedFilter → Slots
  | [] => []
  | child :: children => child.slots b ++ slotsAll b children

end

def OwnedScore.slots (b : Binder) : OwnedScore → Slots
  | .bm25 _ query matching fill => held b.tsquery (query, matching) fill
  | .vectorDistance _ query _ fill => held b.vectorOf query fill
  | .distance _ center fill => held b.pointOf center fill
  | .add x y => x.slots b ++ y.slots b
  | .sub x y => x.slots b ++ y.slots b
  | .mul x y => x.slots b ++ y.slots b
  | .div x y => x.slots b ++ y.slots b
  | .neg inner => inner.slots b
  | .lit _ => []
  | .scalar _ => []
  | .field _ => []
  | .searchScore .. => []

def OwnedSortKey.slots (b : Binder) (key : OwnedSortKey) : Slots :=
  match key.value with
  | .score expr => expr.slots b
  | .field _ | .key => []

def OwnedOrder.slots (b : Binder) : OwnedOrder → Slots
  | .distance _ center fill => held b.pointOf center fill
  | .bm25 _ query matching fill => held b.tsquery (query, matching) fill
  | .vector _ _ query _ fill => held b.vectorOf query fill
  | .score expr _ => expr.slots b
  | .keys list => list.flatMap (OwnedSortKey.slots b)
  | .driver => []
  | .entityId => []
  | .scalar .. => []

def SelectPlan.slots (b : Binder) (p : SelectPlan) : Slots := OwnedFilter.slotsAll b p.filters ++ p.order.slots b

def AggregatePlan.slots (b : Binder) (p : AggregatePlan) : Slots := OwnedFilter.slotsAll b p.filters

def Plan.slots (b : Binder) : Plan → Slots
  | .select p => p.slots b
  | .explain p => p.slots b
  | .aggregate p => p.slots b
  | .explainAggregate p => p.slots b
  | .gql params => [some (b.params = params)]
  | .explainGql params => [some (b.params = params)]
  | .write => []
  | .explainText => []
  | .rows => []
  | .edgeRows => []

/-! ## Each form goes by its slots -/

/-- What stands in a half of a scalar predicate. -/
def scalarPart : ScalarAt → OwnedScalarFilter → Option (Bound Scalar)
  | .eq, .eq v => some (.included v)
  | .lower, .range lower _ => some lower
  | .upper, .range _ upper => some upper
  | _, _ => none

def keyPart : KeyAt → Bound String × Bound String → Bound String
  | .lower, bounds => bounds.1
  | .upper, bounds => bounds.2

/-- A value is put where the predicate has such a half. -/
lemma scalarPut_cases {s s' : OwnedScalarFilter} {i : ScalarAt} {v : Scalar} (h : scalarPut s i v = .ok s') :
    (∃ u, s = .eq u ∧ i = .eq ∧ s' = .eq v)
      ∨ (∃ lower upper, s = .range lower upper ∧ i = .lower ∧ s' = .range (refillBound lower v) upper)
      ∨ ∃ lower upper, s = .range lower upper ∧ i = .upper ∧ s' = .range lower (refillBound upper v) := by
  fun_cases scalarPut s i v with
  | case1 u => exact Or.inl ⟨u, rfl, rfl, (Except.ok.inj h).symm⟩
  | case2 lower upper => exact Or.inr (Or.inl ⟨lower, upper, rfl, rfl, (Except.ok.inj h).symm⟩)
  | case3 lower upper => exact Or.inr (Or.inr ⟨lower, upper, rfl, rfl, (Except.ok.inj h).symm⟩)
  | case4 => simp [scalarPut] at h

lemma apart_scalarPut : Apart scalarPut scalarPart where
  other := by
    intro s s' i j v hput hj
    obtain ⟨u, rfl, rfl, rfl⟩ | ⟨lower, upper, rfl, rfl, rfl⟩ | ⟨lower, upper, rfl, rfl, rfl⟩ := scalarPut_cases hput
      <;> cases j <;> first | rfl | exact absurd rfl hj
  own := by
    intro s s' i v hput hpart
    obtain ⟨u, rfl, rfl, rfl⟩ | ⟨lower, upper, rfl, rfl, rfl⟩ | ⟨lower, upper, rfl, rfl, rfl⟩ := scalarPut_cases hput
    · simpa [scalarPart] using hpart
    · simpa [scalarPart] using hpart
    · simpa [scalarPart] using hpart
  again := by
    intro s s' q i j v w hput hj hq
    obtain ⟨u, rfl, rfl, rfl⟩ | ⟨lower, upper, rfl, rfl, rfl⟩ | ⟨lower, upper, rfl, rfl, rfl⟩ := scalarPut_cases hput
      <;> cases j <;> cases hq <;> first | exact ⟨_, rfl, rfl⟩ | exact absurd rfl hj
  never := by
    intro s s' e i j v w hput hj hq
    obtain ⟨u, rfl, rfl, rfl⟩ | ⟨lower, upper, rfl, rfl, rfl⟩ | ⟨lower, upper, rfl, rfl, rfl⟩ := scalarPut_cases hput
      <;> cases j <;> cases hq <;> exact ⟨_, rfl⟩

lemma apart_keyPut : Apart keyPut keyPart where
  other := by
    rintro ⟨lower, upper⟩ s' i j v hput hj
    cases i <;> cases j <;> cases hput <;> first | rfl | exact absurd rfl hj
  own := by
    rintro ⟨lower, upper⟩ s' i v hput hpart
    cases i <;> cases hput <;> simpa [keyPart] using hpart
  again := by
    rintro ⟨lower, upper⟩ s' q i j v w hput hj hq
    cases i <;> cases j <;> cases hput <;> cases hq <;> first | exact ⟨_, rfl, rfl⟩ | exact absurd rfl hj
  never := by
    rintro ⟨lower, upper⟩ s' e i j v w hput hj hq
    cases j <;> cases hq

mutual

theorem OwnedFilter.rebind_traced (b : Binder) : ∀ f : OwnedFilter, Traced f (f.rebind b) (f.slots b)
  | .scalar index predicate fills => by
      rw [OwnedFilter.rebind, OwnedFilter.slots]
      refine Traced.on (fun p q h => ?_) (loop_traced apart_scalarPut fills.2) rfl
      injection h
  | .key lower upper fills => by
      rw [OwnedFilter.rebind, OwnedFilter.slots]
      refine Traced.on (fun p q h => ?_) (loop_traced apart_keyPut fills.2) rfl
      injection h with hlower hupper
      exact Prod.ext hlower hupper
  | .text index query matching fill => by
      rw [OwnedFilter.rebind, OwnedFilter.slots]
      refine Traced.on (fun p q h => ?_) (traced_refill (query, matching) fill) rfl
      injection h with _ hquery hmatching
      exact Prod.ext hquery hmatching
  | .point index predicate fill => by
      rw [OwnedFilter.rebind, OwnedFilter.slots]
      refine Traced.on (fun p q h => ?_) (traced_refill predicate fill) rfl
      injection h
  | .geometry index predicate fill => by
      rw [OwnedFilter.rebind, OwnedFilter.slots]
      refine Traced.on (fun p q h => ?_) (traced_refill predicate fill) rfl
      injection h
  | .any children => by
      rw [OwnedFilter.rebind, OwnedFilter.slots]
      exact (rebindAll_traced b children).on (fun p q => OwnedFilter.any.inj) rfl
  | .all children => by
      rw [OwnedFilter.rebind, OwnedFilter.slots]
      exact (rebindAll_traced b children).on (fun p q => OwnedFilter.all.inj) rfl
  | .not child => by
      rw [OwnedFilter.rebind, OwnedFilter.slots]
      exact (rebind_traced b child).on (fun p q => OwnedFilter.not.inj) rfl
  | .like .. => by
      rw [OwnedFilter.rebind, OwnedFilter.slots]
      exact Traced.done _
  | .rowCompare .. => by
      rw [OwnedFilter.rebind, OwnedFilter.slots]
      exact Traced.done _
  | .ids _ => by
      rw [OwnedFilter.rebind, OwnedFilter.slots]
      exact Traced.done _

theorem OwnedFilter.rebindAll_traced (b : Binder) :
    ∀ l : List OwnedFilter, Traced l (OwnedFilter.rebindAll b l) (OwnedFilter.slotsAll b l)
  | [] => by
      rw [OwnedFilter.rebindAll, OwnedFilter.slotsAll]
      exact Traced.done []
  | child :: children => by
      rw [OwnedFilter.rebindAll, OwnedFilter.slotsAll]
      exact (rebind_traced b child).both (fun _ _ _ _ => List.cons.inj) (rebindAll_traced b children)

end

lemma OwnedScore.rebind_traced (b : Binder) (e : OwnedScore) : Traced e (e.rebind b) (e.slots b) := by
  induction e with
  | bm25 index query matching fill =>
      refine Traced.on (fun p q h => ?_) (traced_refill (query, matching) fill) rfl
      injection h with _ hquery hmatching
      exact Prod.ext hquery hmatching
  | vectorDistance index query metric fill =>
      refine Traced.on (fun p q h => ?_) (traced_refill query fill) rfl
      injection h
  | distance index center fill =>
      refine Traced.on (fun p q h => ?_) (traced_refill center fill) rfl
      injection h
  | add x y ihx ihy => exact ihx.both (fun _ _ _ _ => OwnedScore.add.inj) ihy
  | sub x y ihx ihy => exact ihx.both (fun _ _ _ _ => OwnedScore.sub.inj) ihy
  | mul x y ihx ihy => exact ihx.both (fun _ _ _ _ => OwnedScore.mul.inj) ihy
  | div x y ihx ihy => exact ihx.both (fun _ _ _ _ => OwnedScore.div.inj) ihy
  | neg inner ih => exact ih.on (fun p q => OwnedScore.neg.inj) rfl
  | lit value => exact Traced.done _
  | scalar index => exact Traced.done _
  | field name => exact Traced.done _
  | searchScore index query => exact Traced.done _

lemma OwnedSortKey.rebind_traced (b : Binder) (key : OwnedSortKey) : Traced key (key.rebind b) (key.slots b) := by
  obtain ⟨value, direction⟩ := key
  cases value with
  | score expr =>
      rw [OwnedSortKey.rebind, OwnedSortKey.slots]
      refine Traced.on (fun p q h => ?_) (expr.rebind_traced b) rfl
      injection h with hscore
      exact OwnedSortValue.score.inj hscore
  | field name => exact Traced.done _
  | key => exact Traced.done _

lemma OwnedOrder.rebind_traced (b : Binder) (o : OwnedOrder) : Traced o (o.rebind b) (o.slots b) := by
  cases o with
  | distance index center fill =>
      rw [OwnedOrder.rebind, OwnedOrder.slots]
      refine Traced.on (fun p q h => ?_) (traced_refill center fill) rfl
      injection h
  | bm25 index query matching fill =>
      rw [OwnedOrder.rebind, OwnedOrder.slots]
      refine Traced.on (fun p q h => ?_) (traced_refill (query, matching) fill) rfl
      injection h with _ hquery hmatching
      exact Prod.ext hquery hmatching
  | vector exactIndex approximate query metric fill =>
      rw [OwnedOrder.rebind, OwnedOrder.slots]
      refine Traced.on (fun p q h => ?_) (traced_refill query fill) rfl
      injection h
  | score expr direction =>
      rw [OwnedOrder.rebind, OwnedOrder.slots]
      refine Traced.on (fun p q h => ?_) (expr.rebind_traced b) rfl
      injection h
  | keys list => exact (traced_each (OwnedSortKey.rebind_traced b) list).on (fun p q => OwnedOrder.keys.inj) rfl
  | driver => exact Traced.done _
  | entityId => exact Traced.done _
  | scalar index direction => exact Traced.done _

lemma SelectPlan.rebind_traced (b : Binder) (p : SelectPlan) : Traced p (p.rebind b) (p.slots b) :=
  (OwnedFilter.rebindAll_traced b p.filters).both (fun _ _ _ _ => SelectPlan.mk.inj) (p.order.rebind_traced b)

lemma AggregatePlan.rebind_traced (b : Binder) (p : AggregatePlan) : Traced p (p.rebind b) (p.slots b) :=
  (OwnedFilter.rebindAll_traced b p.filters).on (fun _ _ => AggregatePlan.mk.inj) rfl

/-- **A plan goes by its slots.** -/
theorem Plan.rebind_traced (b : Binder) (p : Plan) : Traced p (p.rebind b) (p.slots b) := by
  cases p with
  | select p => exact (p.rebind_traced b).on (fun _ _ => Plan.select.inj) rfl
  | explain p => exact (p.rebind_traced b).on (fun _ _ => Plan.explain.inj) rfl
  | aggregate p => exact (p.rebind_traced b).on (fun _ _ => Plan.aggregate.inj) rfl
  | explainAggregate p => exact (p.rebind_traced b).on (fun _ _ => Plan.explainAggregate.inj) rfl
  | gql params => exact (Traced.written params b.params).on (fun _ _ => Plan.gql.inj) rfl
  | explainGql params => exact (Traced.written params b.params).on (fun _ _ => Plan.explainGql.inj) rfl
  | rows => exact Traced.done _
  | write => exact Traced.done _
  | explainText => exact Traced.done _
  | edgeRows => exact Traced.done _

namespace PreparedSql

variable {Stmt : Type*} (compile : Stmt → List Param → Except SqlError (Plan × List String × Rebind)) (w : World)
  (params : List Param)

def rebindable (p : PreparedSql Stmt) : Bool := p.rebind.ok

/-- Bind new parameters: in place, or by compiling again from the parsed statement. -/
def bind (p : PreparedSql Stmt) : Result (PreparedSql Stmt) SqlError :=
  if p.rebind.ok then on (fun plan => { p with plan := plan }) (p.plan.rebind ⟨w, params⟩)
  else
    match p.statement with
    | none =>
      (p, .error (.unsupported "this prepared statement cannot be rebound and did not keep its parsed form"))
    | some statement =>
      match compile statement params with
      | .error e => (p, .error e)
      | .ok (plan, notices, rebind) => ({ p with plan := plan, notices := notices, rebind := rebind }, .ok ())

variable {compile w params} {p : PreparedSql Stmt}

lemma bind_traced (h : p.rebindable) : Traced p (p.bind compile w params) (p.plan.slots ⟨w, params⟩) := by
  rw [rebindable] at h
  rw [bind, if_pos h]
  refine Traced.on (fun plan plan' heq => ?_) (p.plan.rebind_traced ⟨w, params⟩) rfl
  injection heq

/-- **A failed bind** leaves a statement as it was where every slot before the one that failed holds what the
new parameters give for it.  A bind writes slot by slot up to the first that fails, and `bind_traced` says of
what it leaves which slots were written. -/
theorem bind_left_iff (h : p.rebindable) :
    ((∃ e, (p.bind compile w params).2 = .error e) → (p.bind compile w params).1 = p) ↔
      (Fails (p.plan.slots ⟨w, params⟩) → Steady (p.plan.slots ⟨w, params⟩)) := by
  have htraced := @bind_traced _ compile w params p h
  rw [htraced.fails, htraced.same]

/-! ## Two columns -/

/-- No table and no geometry: what a bind of texts and numbers reads. -/
def plainWorld : World where
  collection table := .error (.engine s!"no collection `{table}`")
  get _ _ := .ok none
  parseVectorLiteral _ := .error (.parameter "a vector literal is written `[a,b,c]`, as pgvector writes it")
  geomFromText _ := .error (.parameter "WKT")
  geomFromJson _ := .error (.parameter "GeoJSON has no `type`")
  geomFromWkbHex _ := .error (.parameter "WKB")
  geomFromWkt _ := .error (.parameter "WKT")
  spelled _ := ""
  floatText _ := ""
  errorText _ := ""

def textFill (n : ℕ) (column : String) : ScalarFills := ⟨[⟨.eq, .param n, .text, column⟩], List.nodup_singleton _⟩

/-- `WHERE a = $1 AND b = $2`, as it was bound to two texts. -/
def twoColumns (x y : String) : PreparedSql Unit where
  plan := .select ⟨[.scalar 0 (.eq (.text x)) (textFill 1 "a"), .scalar 1 (.eq (.text y)) (textFill 2 "b")], .driver⟩
  notices := []
  statement := none
  rebind := ⟨[]⟩

/-- Binding one text of two. -/
def bindOne (t : String) (p : PreparedSql Unit) : Result (PreparedSql Unit) SqlError :=
  p.bind (fun _ _ => .error (.unsupported "")) plainWorld [.text t]

/-- The statement is left with the new text beside the old one. -/
theorem not_bind_left : ¬ ((∃ e, (bindOne "y" (twoColumns "x" "1")).2 = .error e) →
    (bindOne "y" (twoColumns "x" "1")).1 = twoColumns "x" "1") := by
  intro h
  have hmixed : (bindOne "y" (twoColumns "x" "1")).1 = twoColumns "y" "1" := rfl
  have hsame := hmixed.symm.trans (h ⟨.parameter "$2 is not bound; 1 parameter(s) were given", rfl⟩)
  simp [twoColumns] at hsame

/-- The text that is read is the one that was there. -/
theorem bind_left_same : (bindOne "x" (twoColumns "x" "1")).1 = twoColumns "x" "1" :=
  (@bind_left_iff _ _ plainWorld [.text "x"] (twoColumns "x" "1") rfl).2 (fun _ => ⟨rfl, trivial⟩)
    ⟨.parameter "$2 is not bound; 1 parameter(s) were given", rfl⟩

end PreparedSql

end Lang
