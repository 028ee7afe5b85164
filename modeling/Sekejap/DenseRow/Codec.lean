import Sekejap.Lib.PackedBits
import Sekejap.Spatial.GeomCodec

/-!
# Dense rows

A row of a table (`encode_direct` and `decode_with_vector_values` of
`core/engine/src/store/dense_v3.rs`).  The header is a varint of the layout's id and two flags; then
come two bits for every column, when one of them is missing or null; three bits for every INTEGER
column, of how many bytes its value takes; the values, one after another; and the fields the layout
does not declare, as a binary JSON object.  A vector is stored in a cell of its own, beside the row.

Every reader of a row opens it in the same way (`openRow`) and walks over the columns in the same way
(`walk`); they differ in what they do at a null and at a value.
-/

open Bytes

open Fallible

open Reading (Reader)

open Ieee (f32 f64)

namespace Engine

/-- `Value::as_array` -/
def Value.asArray : Value → Option (List Value)
  | array items => some items
  | _ => none

namespace DenseRow

/-! ## Layouts -/

/-- `MAX_COLUMNS` -/
def maxColumns : ℕ := 1600

structure Layout where
  id : ℕ
  fields : List (String × Kind)
  /-- what a row reads for a column that was added later -/
  absent : Option (List (String × Value))

/-- The most dimensions of a vector column. -/
def maxDimension : ℕ := 16384

/-- The dimension of a vector column. -/
def dimension : Kind → ℕ
  | .vector dim => dim
  | _ => 0

def checkDimension : Kind → Except String Unit
  | .vector dim => refuse (dim = 0 ∨ maxDimension < dim) "vector dimension limit"
  | _ => .ok ()

/-- The columns of a table, in turn; up to 32 of them are compared with those before. -/
def validateFields (narrow : Bool) : List String → List (String × Kind) → Except String Unit
  | _, [] => .ok ()
  | before, (name, kind) :: fields => do
      checkDimension kind
      refuse (narrow = true ∧ name ∈ before) "duplicate field"
      validateFields narrow (name :: before) fields

namespace Layout

variable (layout : Layout)

def names : List String := layout.fields.map Prod.fst

def validate : Except String Unit := do
  refuse (maxColumns < layout.fields.length) "at most 1600 columns"
  validateFields (decide (layout.fields.length ≤ 32)) [] layout.fields
  -- a set of the names, where they are many
  refuse (32 < layout.fields.length ∧ ¬ layout.names.Nodup) "duplicate field"

def absentDefault (field : String) : Option Value := layout.absent.bind fun l => l.lookup field

/-- The bytes of the states of the columns. -/
def stateBytes : ℕ := (layout.fields.length + 3) / 4

/-- How many INTEGER columns there are. -/
def integers : ℕ := layout.fields.countP fun c => decide (c.2 = .int)

/-- The bytes of the widths. -/
def widthBytes : ℕ := (layout.integers * 3 + 7) / 8

end Layout

/-- The INTEGER columns up to and with this one. -/
def nextInteger (k : ℕ) (kind : Kind) : ℕ := if kind = .int then k + 1 else k

/-! ## Packed fields -/

/-- `width_set` -/
def widthSet (bits : Bytes) (index width : ℕ) : Bytes :=
  [0, 1, 2].foldl (fun bits j => orAt bits (index * 3 + j) (width >>> j &&& 1)) bits

/-- `width_get` -/
def widthGet (bits : Bytes) (index : ℕ) : ℕ :=
  [0, 1, 2].foldl (fun v j => v ||| fieldAt bits (index * 3 + j) 1 <<< j) 0

def stateSet (states : Bytes) (i state : ℕ) : Bytes := orAt states (i * 2) state

/-- A row without states has every column. -/
def stateGet (states : Option Bytes) (i : ℕ) : ℕ :=
  match states with
  | none => 2
  | some states => fieldAt states (i * 2) 2

/-! ## Vectors -/

/-- `f32::is_finite` -/
def isFiniteF32 (bits : ℕ) : Bool := decide (bits / 2 ^ 23 % 2 ^ 8 ≠ 255)

/-- `v as f64` of an `f32` -/
def f64OfF32 (v : ℕ) : ℕ := f64.nearest (f32.isNegative v) (f32.value v)

def vectorBytes : List Value → Except String Bytes
  | [] => .ok []
  | x :: a => do
      let x ← orElse x.asF64 "vector coordinate"
      let x := Spatial.f32OfF64 x
      refuse (isFiniteF32 x = false) "nonfinite vector"
      let rest ← vectorBytes a
      pure (leBytes 4 x ++ rest)

/-- The coordinates in the cell of a vector. -/
def coordinates : ℕ → Reader String (List Value)
  | 0, b => .ok ([], b)
  | n + 1, b => do
      let (x, b) ← Read.take 4 b
      refuse (isFiniteF32 (leNat x) = false) "nonfinite vector"
      let (rest, b) ← coordinates n b
      pure (.number (.float (f64OfF32 (leNat x))) :: rest, b)

def vectorJson (b : Bytes) (dim : ℕ) : Except String Value := do
  refuse (dim * 4 ≠ b.length) "vector byte length"
  let (a, _) ← coordinates dim b
  pure (.array a)

/-! ## Writing -/

structure Encoded where
  row : Bytes
  vectors : List (ℕ × Bytes)
  deriving DecidableEq

/-- A row while it is written: the two reserved ranges, what follows them, and the vectors. -/
structure Draft where
  states : Bytes
  widths : Bytes
  body : Bytes
  vectors : List (ℕ × Bytes)

namespace Draft

variable (d : Draft)

def push (b : Bytes) : Draft := { d with body := d.body ++ b }

def setState (i state : ℕ) : Draft := { d with states := stateSet d.states i state }

def setWidth (k width : ℕ) : Draft := { d with widths := widthSet d.widths k width }

def addVector (i : ℕ) (b : Bytes) : Draft := { d with vectors := d.vectors ++ [(i, b)] }

end Draft

/-- The geometry of a value (`geo`).  Coordinates of another shape than their type's are refused by
`serde_json`, in its own words. -/
def geometry (v : Value) : Except String Spatial.Geom := do
  let c ← orElse (v.get "coordinates") "geometry coordinates"
  let members ← orElse v.asObject "geometry object"
  refuse (members.length ≠ 2) "geometry extensions unsupported by P0"
  let kind ← orElse ((v.get "type").bind Value.asStr) "geometry type"
  let shaped ← orElse (Spatial.geomOf kind c) "unsupported geometry"
  let g ← orElse shaped "invalid coordinates"
  refuse (g.bbox.any fun b => !Spatial.inRange b) "coordinate range"
  pure g

/-- It is the geometry that an index reads, with a reason where there is none. -/
lemma geometry_eq_ok {v : Value} {g : Spatial.Geom} : geometry v = .ok g ↔ Spatial.geo v = some g := by
  simp only [geometry, bind_eq_ok, orElse_eq_ok, refuse_eq_ok, pure_eq_ok, Option.bind_eq_some_iff, not_not,
    exists_const]
  constructor
  · rintro ⟨c, hc, members, hm, hlen, kind, ⟨t, ht, hk⟩, shaped, hs, g', rfl, hbox, rfl⟩
    cases hb : g'.bbox with
    | none => simp [Spatial.geo, hc, hm, hlen, ht, hk, hs, hb]
    | some b => simpa [Spatial.geo, hc, hm, hlen, ht, hk, hs, hb] using hbox
  · intro h
    simp only [Spatial.geo, Option.bind_eq_bind, Option.bind_eq_some_iff, Option.join_eq_some_iff] at h
    obtain ⟨c, hc, members, hm, u, hguard, t, ht, kind, hk, g', hs, hbox⟩ := h
    have hlen : members.length = 2 := by
      by_contra hne
      simp [guard, hne] at hguard
    refine ⟨c, hc, members, hm, hlen, kind, ⟨t, ht, hk⟩, _, hs, g', rfl, ?_⟩
    cases hb : g'.bbox with
    | none => simpa [hb] using hbox
    | some b => simpa [hb] using hbox

def pointBytes : Spatial.Geom → Except String Bytes
  | .point x y => .ok (leBytes 8 x ++ leBytes 8 y)
  | _ => .error "expected point geometry"

/-- A value of column `i`, which is the `k`-th INTEGER column if it is one. -/
def encodeCell (i k : ℕ) (kind : Kind) (v : Value) (d : Draft) : Except String Draft :=
  match kind with
  | .text => do
      let s ← orElse v.asStr "expected text"
      pure (d.push (blob (utf8 s)))
  | .int => do
      let n ← orElse v.asI64 "expected signed integer"
      let b := trimSign (beBytes 8 (n % 2 ^ 64).toNat)
      pure ((d.setWidth k (b.length - 1)).push b)
  | .real => do
      let bits ← orElse (v.asF64.filter isFinite) "expected finite real"
      pure (d.push (leBytes 8 bits))
  | .bool => do
      let b ← orElse v.asBool "expected bool"
      pure (d.push [if b then 1 else 0])
  | .json => do
      let b ← jsonWrite v 0
      pure (d.push b)
  | .geo => do
      let g ← geometry v
      pure (d.push (blob g.encode))
  | .point => do
      let g ← geometry v
      let b ← pointBytes g
      pure (d.push b)
  | .vector dim => do
      let a ← orElse v.asArray "expected vector array"
      refuse (a.length ≠ dim) "vector dimensions"
      let b ← vectorBytes a
      pure (d.addVector i b)

/-- One column of the document `obj`. -/
def encodeColumn (obj : List (String × Value)) (hasStates : Bool) (i k : ℕ) (col : String × Kind)
    (d : Draft) : Except String Draft :=
  match obj.lookup col.1 with
  | none => .ok d
  | some v =>
      let d := if hasStates then d.setState i (if v.isNull then 1 else 2) else d
      if v.isNull then .ok d else encodeCell i k col.2 v d

def encodeColumns (obj : List (String × Value)) (hasStates : Bool) :
    ℕ → ℕ → List (String × Kind) → Draft → Except String Draft
  | _, _, [], d => .ok d
  | i, k, col :: cols, d => do
      let d ← encodeColumn obj hasStates i k col d
      encodeColumns obj hasStates (i + 1) (nextInteger k col.2) cols d

/-- A column is missing or null. -/
def lacks (obj : List (String × Value)) (name : String) : Bool :=
  match obj.lookup name with
  | none => true
  | some v => v.isNull

/-- The members of a document that its layout does not declare, in the order of their keys. -/
def extras (layout : Layout) (obj : List (String × Value)) : List (String × Value) :=
  sortedEntries (obj.filter fun m => decide (m.1 ∉ layout.names))

def writeExtra (m : String × Value) : Except String Bytes := do
  let b ← jsonWrite m.2 1
  pure (blob (utf8 m.1) ++ b)

def writeExtras (extras : List (String × Value)) : Except String Bytes :=
  if extras = [] then .ok []
  else do
    let b ← Reading.writeAll writeExtra extras
    pure (8 :: (uv extras.length ++ b))

/-- The layout's id over the two flags. -/
def headerWord (layout : Layout) (hasStates hasExtras : Bool) : ℕ :=
  layout.id * 4 + hasStates.toNat + hasExtras.toNat * 2

/-- A row: a header, the states of its columns if one lacks a value, the widths of its integers, the columns
in order and the extras.  Vectors are stored in cells of their own. -/
def encodeDirect (layout : Layout) (doc : Value) : Except String Encoded := do
  layout.validate
  let obj ← orElse doc.asObject "entity must be an object"
  refuse (2 ^ 32 ≤ layout.id) "layout ID domain"
  let hasStates := layout.names.any (lacks obj)
  let extras := extras layout obj
  let states := List.replicate (if hasStates then layout.stateBytes else 0) 0
  let widths := List.replicate layout.widthBytes 0
  let d ← encodeColumns obj hasStates 0 0 layout.fields ⟨states, widths, [], []⟩
  let tail ← writeExtras extras
  let header := uv (headerWord layout hasStates (decide (extras ≠ [])))
  pure ⟨header ++ (d.states ++ (d.widths ++ (d.body ++ tail))), d.vectors⟩

/-! ## Opening a row -/

structure Opened where
  header : ℕ
  states : Option Bytes
  widths : Bytes

/-- What every reader of a row starts with. -/
def openRow (layout : Layout) : Reader String Opened := fun b => do
  let (h, b) ← Read.uv b
  refuse (2 ^ 32 ≤ h / 4) "layout ID domain"
  refuse (h / 4 ≠ layout.id) "wrong layout"
  let (states, b) ← Reading.optional (h % 2 = 1) (Read.take layout.stateBytes) b
  let (widths, b) ← Read.take layout.widthBytes b
  pure (⟨h, states, widths⟩, b)

/-! ## The columns -/

/-- The value of an INTEGER column. -/
def readInt (widths : Bytes) (k : ℕ) : Reader String ℤ := fun b => do
  let (x, b) ← Read.take (widthGet widths k + 1) b
  let sign : UInt8 := if x.head?.any (128 ≤ ·) then 255 else 0
  pure (signed (List.replicate (8 - x.length) sign ++ x), b)

def readBool : Reader String Bool := fun b => do
  let (x, b) ← Read.byte b
  if x = 0 then pure (false, b)
  else if x = 1 then pure (true, b)
  else throw "boolean encoding"

def readGeometry : Reader String Spatial.Geom := fun b => do
  let (x, b) ← Read.blob b
  let g ← orElse (Spatial.Geom.decode x) "invalid binary geometry"
  pure (g, b)

def readPoint : Reader String Spatial.Geom := fun b => do
  let (x, b) ← Read.float b
  let (y, b) ← Read.float b
  pure (.point x y, b)

/-- The value of a column, `k`-th of the INTEGER columns if it is one; a vector is not in the row. -/
def readCell (widths : Bytes) (k : ℕ) : Kind → Reader String (Option Value)
  | .text, b => do
      let (s, b) ← Read.text b
      pure (some (.string s), b)
  | .int, b => do
      let (n, b) ← readInt widths k b
      pure (some (.number (.int n)), b)
  | .real, b => do
      let (bits, b) ← Read.float b
      pure (some (.number (.float bits)), b)
  | .bool, b => do
      let (x, b) ← readBool b
      pure (some (.bool x), b)
  | .json, b => do
      let (v, b) ← jsonRead 65 b
      pure (some v, b)
  | .geo, b => do
      let (g, b) ← readGeometry b
      pure (some (Spatial.geoJson g), b)
  | .point, b => do
      let (g, b) ← readPoint b
      pure (some (Spatial.geoJson g), b)
  | .vector _, b => .ok (none, b)

/-- **The loop over the columns**, from ordinal `i` on; `k` INTEGER columns came before. -/
def walk {σ : Type} (states : Option Bytes) (onNull : ℕ → String × Kind → σ → σ)
    (onCell : ℕ → ℕ → String × Kind → σ → Reader String σ) :
    ℕ → ℕ → List (String × Kind) → σ → Reader String σ
  | _, _, [], s, b => .ok (s, b)
  | i, k, col :: cols, s, b =>
      match stateGet states i with
      | 0 => walk states onNull onCell (i + 1) (nextInteger k col.2) cols s b
      | 1 => walk states onNull onCell (i + 1) (nextInteger k col.2) cols (onNull i col s) b
      | 2 => do
          let (s, b) ← onCell i k col s b
          walk states onNull onCell (i + 1) (nextInteger k col.2) cols s b
      | _ => .error "invalid field state"

/-! ## Reading -/

/-- `Map::insert` -/
def insertMember (k : String) (v : Value) : List (String × Value) → List (String × Value)
  | [] => [(k, v)]
  | m :: ms => if m.1 = k then (k, v) :: ms else m :: insertMember k v ms

/-- A document while it is read, and the vectors that are still to be fetched. -/
structure Partial where
  obj : List (String × Value)
  vectors : List (ℕ × String × Kind)

def decodeNull (_ : ℕ) (col : String × Kind) (s : Partial) : Partial :=
  { s with obj := insertMember col.1 .null s.obj }

/-- What a column adds to the document. -/
def Partial.take (i : ℕ) (col : String × Kind) (v : Option Value) (s : Partial) : Partial :=
  match v with
  | some v => { s with obj := insertMember col.1 v s.obj }
  | none => { s with vectors := s.vectors ++ [(i, col)] }

def decodeCell (widths : Bytes) (i k : ℕ) (col : String × Kind) (s : Partial) : Reader String Partial :=
  fun b => do
    let (v, b) ← readCell widths k col.2 b
    pure (s.take i col v, b)

/-- The members of the extras. -/
def addExtras (layout : Layout) : List (String × Value) → List (String × Value) →
    Except String (List (String × Value))
  | [], obj => .ok obj
  | m :: extra, obj => do
      refuse (m.1 ∈ layout.names) "declared key in extras"
      addExtras layout extra (insertMember m.1 m.2 obj)

def decodeExtras (layout : Layout) (h : ℕ) (obj : List (String × Value)) :
    Reader String (List (String × Value)) := fun b =>
  if h / 2 % 2 = 1 then do
    let (v, b) ← jsonRead 65 b
    let extra ← orElse v.asObject "extras must be object"
    let obj ← addExtras layout extra obj
    pure (obj, b)
  else .ok (obj, b)

def fetchVectors (get : ℕ → ℕ → Except String (Option Value)) :
    List (ℕ × String × Kind) → List (String × Value) → Except String (List (String × Value))
  | [], obj => .ok obj
  | (i, name, kind) :: vectors, obj => do
      let value ← get i (dimension kind)
      fetchVectors get vectors (match value with
        | some v => insertMember name v obj
        | none => obj)

/-- The document of a row, with its vectors from `get`. -/
def decodeWithVectorValuesRaw (layout : Layout) (bytes : Bytes)
    (get : ℕ → ℕ → Except String (Option Value)) : Except String Value := do
  layout.validate
  let (o, b) ← openRow layout bytes
  let (s, b) ← walk o.states decodeNull (decodeCell o.widths) 0 0 layout.fields ⟨[], []⟩ b
  let (obj, b) ← decodeExtras layout o.header s.obj b
  refuse (b ≠ []) "trailing bytes"
  -- the row is read to its end before any vector is
  let obj ← fetchVectors get s.vectors obj
  pure (.object obj)

/-- `entry(name).or_insert_with(value)` of every default. -/
def fillMembers : List (String × Value) → List (String × Value) → List (String × Value)
  | [], obj => obj
  | m :: defaults, obj =>
      fillMembers defaults (if (obj.lookup m.1).isSome then obj else insertMember m.1 m.2 obj)

def fillAbsent (layout : Layout) : Value → Value
  | .object obj => .object (fillMembers (layout.absent.getD []) obj)
  | v => v

def decodeWithVectorValues (layout : Layout) (bytes : Bytes)
    (get : ℕ → ℕ → Except String (Option Value)) : Except String Value := do
  let doc ← decodeWithVectorValuesRaw layout bytes get
  pure (fillAbsent layout doc)

/-- The vector in a cell. -/
def vectorIn (get : ℕ → Except String Bytes) (i dim : ℕ) : Except String (Option Value) := do
  let b ← get i
  let v ← vectorJson b dim
  pure (some v)

/-- `decode_direct_raw` calls `decode_with_vector_values`, which fills in the defaults. -/
def decodeDirectRaw (layout : Layout) (bytes : Bytes) (get : ℕ → Except String Bytes) :
    Except String Value :=
  decodeWithVectorValues layout bytes (vectorIn get)

def decodeDirect (layout : Layout) (bytes : Bytes) (get : ℕ → Except String Bytes) :
    Except String Value := do
  let doc ← decodeDirectRaw layout bytes get
  pure (fillAbsent layout doc)

end DenseRow

end Engine
