import Sekejap.Collections.BinaryJson
import Sekejap.Graph.Edges
import Sekejap.Lib.Floats
import Sekejap.Lib.Nested

/-!
# What groups with what

The values of a working table (`core/engine/src/query/gql/value.rs`): how they are compared, when two are
one group, what each feeds to a hasher, and when two are the same under three-valued logic.  A path is a list
of steps that shares its prefixes with other paths; a node of it lives at an address.

* **`BindingValue.cmp`**, **`BindingValue.eq`** — the order of values, and which are one group.
* **`BindingValue.feed`** — what a value feeds to a hasher.
* **`BindingValue.identityEq`** — the comparison under three-valued logic.
-/

open Bytes

open Collections (EntityId)

open Engine.Graph (EdgeKey)

open Ieee (Datum f32 f64 f64From)

open Nested

namespace Engine.Grouping

/-! ## Elements -/

def cmpEntity (a b : EntityId) : Ordering :=
  (compare a.collection b.collection).then (compare a.sequence b.sequence)

/-- The fields of a key in order. -/
def cmpEdgeKey (a b : EdgeKey) : Ordering :=
  (cmpEntity a.source b.source).then <| (compare a.context b.context).then <|
    (compare a.edgeType b.edgeType).then <| cmpEntity a.destination b.destination

/-- A stored edge, and the property bag when it has been read; the bag is no part of its identity. -/
structure EdgeRef where
  key : EdgeKey
  id : ℕ
  bag : Option Value

namespace EdgeRef

def eq (a b : EdgeRef) : Bool := decide ((a.key, a.id) = (b.key, b.id))

def cmp (a b : EdgeRef) : Ordering := (cmpEdgeKey a.key b.key).then (compare a.id b.id)

end EdgeRef

/-! ## Paths -/

/-- A node of a path, at its address: the start, or a step with the number of steps up to it. -/
inductive PathNode where
  | start (addr : ℕ) (node : EntityId)
  | step (addr : ℕ) (parent : PathNode) (edge : EdgeRef) (forward : Bool) (node : EntityId) (len : ℕ)

namespace PathNode

def addr : PathNode → ℕ
  | start addr _ => addr
  | step addr _ _ _ _ _ => addr

def len : PathNode → ℕ
  | start _ _ => 0
  | step _ _ _ _ _ len => len

/-- The node is what lies at its address, and so are those before it. -/
def Held (heap : ℕ → PathNode) : PathNode → Prop
  | start addr node => heap addr = start addr node
  | step addr parent edge forward node len =>
      heap addr = step addr parent edge forward node len ∧ parent.Held heap

/-- Each step counts one more than the one before it, in 32 bits. -/
def Counted : PathNode → Prop
  | start _ _ => True
  | step _ parent _ _ _ len => len = (parent.len + 1) % 2 ^ 32 ∧ parent.Counted

/-- The walk back to the start, with the steps passed on the way. -/
def walk : PathNode → List (EdgeRef × Bool) → EntityId × List (EdgeRef × Bool)
  | start _ node, steps => (node, steps.reverse)
  | step _ parent edge forward _ _, steps => walk parent (steps ++ [(edge, forward)])

/-- `PathRef::eq`: from the tips back, until the two are one node. -/
def eq : PathNode → PathNode → Bool
  | start addr node, b =>
      decide (addr = b.addr) || match b with
        | start _ node' => decide (node = node')
        | step .. => false
  | step addr parent edge forward _ len, b =>
      decide (addr = b.addr) || match b with
        | start .. => false
        | step _ parent' edge' forward' _ len' =>
            if len ≠ len' ∨ forward ≠ forward' ∨ edge.eq edge' = false then false else eq parent parent'

end PathNode

/-- A path in the memory `heap`, by its last node. -/
structure PathRef (heap : ℕ → PathNode) where
  tip : PathNode
  held : tip.Held heap
  counted : tip.Counted

namespace PathRef

variable {heap : ℕ → PathNode}

/-- The start and the steps in the order of the path. -/
def inOrder (p : PathRef heap) : EntityId × List (EdgeRef × Bool) := p.tip.walk []

def eq (a b : PathRef heap) : Bool := a.tip.eq b.tip

def cmp (a b : PathRef heap) : Ordering :=
  if a.tip.addr = b.tip.addr then .eq
  else (cmpEntity a.inOrder.1 b.inOrder.1).then
    (cmpLex (fun s t => (s.1.cmp t.1).then (compare s.2 t.2)) a.inOrder.2 b.inOrder.2)

end PathRef

/-! ## Numbers -/

/-- A number as the order sees it. -/
inductive Num where
  | int (i : ℤ)
  | float (bits : ℕ)

/-- 2^127 -/
def i128Bound : Datum := .finite (2 ^ 127)

def asI128 : Datum → ℤ := Datum.toInt (-2 ^ 127) (2 ^ 127 - 1)

def cmpFloat (a b : Datum) : Ordering :=
  match a.isNan, b.isNan with
  | true, true => .eq
  | true, false => .gt
  | false, true => .lt
  | false, false => (a.partialCmp b).getD .eq

def cmpIntFloat (i : ℤ) (f : Datum) : Ordering :=
  if f.isNan || f.ge i128Bound then .lt
  else if f.lt (.finite (-2 ^ 127)) then .gt
  else (compare i (asI128 f.trunc)).then (cmpFloat f.trunc f)

def cmpNum : Num → Num → Ordering
  | .int x, .int y => compare x y
  | .float x, .float y => cmpFloat (f64.read x) (f64.read y)
  | .int x, .float y => cmpIntFloat x (f64.read y)
  | .float x, .int y => (cmpIntFloat y (f64.read x)).swap

/-! ## JSON -/

def jsonRank : Value → ℕ
  | .null => 0
  | .bool _ => 1
  | .number _ => 2
  | .string _ => 3
  | .array _ => 4
  | .object _ => 5

def jsonNum : Number → Num
  | .int n => .int n
  | .float bits => .float bits

lemma sizeOf_item {v : Value} {items : List Value} (h : v ∈ items) : sizeOf v < sizeOf (Value.array items) := by
  have := List.sizeOf_lt_of_mem h
  rw [Value.array.sizeOf_spec]
  omega

lemma sizeOf_member {m : String × Value} {members : List (String × Value)} (h : m ∈ sortedEntries members) :
    sizeOf m.2 < sizeOf (Value.object members) := by
  have hmem := List.sizeOf_lt_of_mem ((mem_sortedEntries members m).1 h)
  have hpair : sizeOf m = 1 + sizeOf m.1 + sizeOf m.2 := by
    cases m
    rfl
  rw [Value.object.sizeOf_spec]
  omega

def cmpJson (a b : Value) : Ordering :=
  (compare (jsonRank a) (jsonRank b)).then <|
    match a, b with
    | .bool x, .bool y => compare x y
    | .number x, .number y => cmpNum (jsonNum x) (jsonNum y)
    | .string x, .string y => compare x y
    | .array x, .array y => cmpLex (fun p q => cmpJson p.1 q) x.attach y
    | .object x, .object y =>
        cmpLex (fun p q => (compare p.1.1 q.1).then (cmpJson p.1.2 q.2)) (sortedEntries x).attach (sortedEntries y)
    | _, _ => .eq
termination_by sizeOf a
decreasing_by
  · exact sizeOf_item p.2
  · exact sizeOf_member p.2

/-- A JSON value as `serde_json` builds it. -/
abbrev JsonValue := {v : Value // v.WellFormed}

/-! ## Values -/

/-- What a slot holds.  The type of a list's items is left out, for nothing here reads it. -/
inductive BindingValue (heap : ℕ → PathNode) where
  | null
  | bool (b : Bool)
  | int (i : Int64)
  | float (bits : UInt64)
  | text (s : String)
  | json (v : JsonValue)
  | vector (lanes : List UInt32)
  | geo (v : JsonValue)
  | bytes (b : Bytes)
  | node (n : EntityId)
  | edge (e : EdgeRef)
  | path (p : PathRef heap)
  | list (items : List (BindingValue heap))

namespace BindingValue

variable {heap : ℕ → PathNode}

def rank : BindingValue heap → ℕ
  | null => 0
  | bool _ => 1
  | int _ => 2
  | float _ => 2
  | text _ => 3
  | json _ => 4
  | vector _ => 5
  | geo _ => 6
  | bytes _ => 7
  | node _ => 8
  | edge _ => 9
  | path _ => 10
  | list _ => 11

/-- The number a value is; of no consequence where it is none. -/
def number : BindingValue heap → Num
  | int i => .int i.toInt
  | float bits => .float bits.toNat
  | _ => .float (f64.infinity + 1)

/-- `Ord::cmp`: by rank, and within a rank by value; numbers are of one rank. -/
def cmp (a b : BindingValue heap) : Ordering :=
  (compare a.rank b.rank).then <|
    match a, b with
    | bool a, bool b => compare a b
    | int i, int j => cmpNum (int i : BindingValue heap).number (int j : BindingValue heap).number
    | int i, float y => cmpNum (int i : BindingValue heap).number (float y : BindingValue heap).number
    | float x, int j => cmpNum (float x : BindingValue heap).number (int j : BindingValue heap).number
    | float x, float y => cmpNum (float x : BindingValue heap).number (float y : BindingValue heap).number
    | text a, text b => compare a b
    | json a, json b => cmpJson a.1 b.1
    | geo a, geo b => cmpJson a.1 b.1
    | vector a, vector b =>
        cmpLex (fun x y : UInt32 => cmpFloat (f64.read (f64From x.toNat)) (f64.read (f64From y.toNat))) a b
    | bytes a, bytes b => compare a b
    | node a, node b => cmpEntity a b
    | edge a, edge b => a.cmp b
    | path a, path b => a.cmp b
    | list a, list b => cmpLex (fun x y => cmp x.1 y) a.attach b
    | _, _ => .eq
termination_by sizeOf a
decreasing_by
  have := List.sizeOf_lt_of_mem x.2
  rw [list.sizeOf_spec]
  omega

/-- `==` -/
def eq (a b : BindingValue heap) : Bool := a.cmp b == .eq

end BindingValue

/-! ## Hashing -/

def feedUsize (n : ℕ) : Bytes := leBytes 8 n

def feedText (s : String) : Bytes := utf8 s ++ [255]

def feedEntity (id : EntityId) : Bytes := leBytes 4 id.collection ++ leBytes 8 id.sequence

def EdgeRef.feed (e : EdgeRef) : Bytes :=
  feedEntity e.key.source ++ leBytes 8 e.key.context ++ leBytes 8 e.key.edgeType
    ++ feedEntity e.key.destination ++ leBytes 8 e.id

def feedBool (b : Bool) : Bytes := [if b then 1 else 0]

/-- The steps of a path, the last first, and then its start. -/
def PathNode.feed : PathNode → Bytes
  | .start _ node => feedEntity node
  | .step _ parent edge forward _ _ => edge.feed ++ feedBool forward ++ parent.feed

def PathRef.feed {heap : ℕ → PathNode} (p : PathRef heap) : Bytes := leBytes 4 p.tip.len ++ p.tip.feed

/-- The bytes of an `i128`, in two's complement. -/
def feedI128 (i : ℤ) : Bytes := leBytes 16 (i % 2 ^ 128).toNat

/-- An integral float feeds what the integer does that it is, and every float that is no number the same. -/
def feedNum : Num → Bytes
  | .int i => 0 :: feedI128 i
  | .float bits =>
      let f := f64.read bits
      if f.isNan then [1]
      else if f.fract.partialCmp (.finite 0) = some .eq ∧ f.abs.lt i128Bound then 0 :: feedI128 (asI128 f)
      else 2 :: leBytes 8 bits

def feedJson (v : Value) : Bytes :=
  UInt8.ofNat (jsonRank v) ::
    match v with
    | .null => []
    | .bool b => feedBool b
    | .number n => feedNum (jsonNum n)
    | .string s => feedText s
    | .array items => feedUsize items.length ++ items.attach.flatMap fun p => feedJson p.1
    | .object members =>
        feedUsize members.length ++ (sortedEntries members).attach.flatMap fun p => feedText p.1.1 ++ feedJson p.1.2
termination_by sizeOf v
decreasing_by
  · exact sizeOf_item p.2
  · exact sizeOf_member p.2

namespace BindingValue

variable {heap : ℕ → PathNode}

/-- The bytes a value feeds to a hasher.  An integer and the float that equals it feed the same. -/
def feed (v : BindingValue heap) : Bytes :=
  UInt8.ofNat v.rank ::
    match v with
    | null => []
    | bool b => feedBool b
    | int i => feedNum (int i : BindingValue heap).number
    | float bits => feedNum (float bits : BindingValue heap).number
    | text s => feedText s
    | json v => feedJson v.1
    | geo v => feedJson v.1
    | vector lanes => feedUsize lanes.length ++ lanes.flatMap fun lane => feedNum (.float (f64From lane.toNat))
    | bytes b => feedUsize b.length ++ b
    | node n => feedEntity n
    | edge e => e.feed
    | path p => p.feed
    | list items => feedUsize items.length ++ items.attach.flatMap fun p => feed p.1
termination_by sizeOf v
decreasing_by
  have := List.sizeOf_lt_of_mem p.2
  rw [list.sizeOf_spec]
  omega

/-! ## Three-valued equality -/

/-- The loop over the items of two lists: false at the first that is false. -/
def settle : Bool → List (Option Bool) → Option Bool
  | unknown, [] => if unknown then none else some true
  | unknown, answer :: rest =>
      match answer with
      | some false => some false
      | none => settle true rest
      | some true => settle unknown rest

def identityEq (a b : BindingValue heap) : Option Bool :=
  match a, b with
  | null, _ => none
  | _, null => none
  | list a, list b =>
      if a.length ≠ b.length then some false
      else settle false (List.zipWith (fun x y => identityEq x.1 y) a.attach b)
  | a, b => some (a.eq b)
termination_by sizeOf a
decreasing_by
  have := List.sizeOf_lt_of_mem x.2
  rw [list.sizeOf_spec]
  omega

end BindingValue

end Engine.Grouping
