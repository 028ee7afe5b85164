import Sekejap.Collections.Packet

/-!
# Index descriptors

What the catalog records of an index (`core/engine/src/collections/catalog.rs`).  A descriptor of any
of the seven families begins with the same head — its number, its table, the family and the version —
goes on with the family's own fields, its state and the cursor of its build, and ends with the tree it
owns, its name, its field, and the expression it stores.

* **`decodeBody_eq_ok`** — a body is accepted just when it is the body of an index that the catalog
  can hold, so that what was written is read back and what is read back would be written the same.
* **`decodeBody_unknown`** — a family, a version or an option that is not this build's is refused as
  such, whatever the rest of the record says.
-/

open Bytes

open Fallible

open Reading

open Engine.Packet

namespace Engine.Descriptor

/-! ## An index as its descriptor holds it -/

inductive IndexFamily where
  | scalar
  | exactVector
  | spatialPoint
  | text
  | quantizedVector
  | spatialGeometry
  | vamanaGraph
  deriving DecidableEq, Repr

inductive TextAnalyzer where
  | words
  | trigram
  deriving DecidableEq, Repr

inductive IndexState where
  | building (after : UInt64)
  | ready
  | dropping
  deriving DecidableEq, Repr

structure IndexTree where
  id : UInt16
  root : UInt32
  deriving DecidableEq, Repr

/-- What the descriptor of an index says. -/
structure IndexInfo where
  id : UInt64
  collection : UInt32
  name : String
  field : String
  family : IndexFamily
  kind : Kind
  unique : Bool
  state : IndexState
  encodingVersion : UInt16
  tree : Option IndexTree
  expression : Option IndexExpr
  analyzer : Option TextAnalyzer
  deriving DecidableEq, Repr

/-! ## Constants a descriptor records -/

/-- `MAX_DIM`, and the `MAX_DIMENSION` of the quantised families -/
def maxDimension : ℕ := 16384

namespace TextAnalyzer

/-- `TextAnalyzer::version` -/
def version : TextAnalyzer → ℕ
  | words => 1
  | trigram => 2

end TextAnalyzer

/-- The ladder of levels, the cells of a cover, and the options of a geometry index. -/
def geometryFields : Bytes := [12, 8, 0, 8, 0]

/-- The grid, the reference system, the metric and the options of a point index. -/
def pointFields : Bytes := [16, 1, 1, 0]

/-- The Unicode version, the ranking version and the options of a text index. -/
def textFields : Bytes := [17, 0, 0] ++ bigEndian 2 1 ++ [0]

/-- The quantiser, the graph version, the degree, the pruning factor and the options of a graph index. -/
def vamanaFields : Bytes := [1, 1, 48] ++ bigEndian 2 120 ++ [0]

/-- The quantiser and the options of a quantised index. -/
def quantizedFields : Bytes := [1, 0]

def familyByte : IndexFamily → UInt8
  | .scalar => 1
  | .exactVector => 2
  | .spatialPoint => 3
  | .text => 4
  | .quantizedVector => 5
  | .spatialGeometry => 6
  | .vamanaGraph => 7

/-- How many bytes a family's fields take. -/
def width : IndexFamily → ℕ
  | .scalar => 2
  | .exactVector => 5
  | .spatialPoint => 4
  | .text => 8
  | .quantizedVector => 6
  | .spatialGeometry => 5
  | .vamanaGraph => 10

/-! ## Writing -/

def kindByte : Kind → Except Error UInt8
  | .bool => .ok 1
  | .int => .ok 2
  | .real => .ok 3
  | .text => .ok 4
  | _ => .error (.invalid "scalar index requires bool/int/real/text")

/-- The dimension of a vector index, and the fields behind it. -/
def vectorFields (requires options : String) (known : Bytes) (kind : Kind) (unique : Bool) :
    Except Error Bytes :=
  match kind with
  | .vector dimension => do
      refuse (¬ (1 ≤ dimension ∧ dimension ≤ maxDimension) ∨ unique) (.invalid options)
      pure (bigEndian 4 dimension ++ known)
  | _ => .error (.invalid requires)

/-- The fields between the version and the state. -/
def fieldBytes (family : IndexFamily) (kind : Kind) (unique : Bool) (analyzer : Option TextAnalyzer) :
    Except Error Bytes :=
  match family with
  | .scalar => do
      let k ← kindByte kind
      pure [k, if unique then 1 else 0]
  | .exactVector =>
      vectorFields "exact vector index requires a vector field" "invalid exact vector descriptor options"
        [0] kind unique
  | .spatialGeometry => do
      refuse (kind ≠ .geo ∨ unique) (.invalid "spatial geometry index requires a non-unique Geo field")
      pure geometryFields
  | .spatialPoint => do
      refuse (kind ≠ .point ∨ unique) (.invalid "spatial point index requires a non-unique Point field")
      pure pointFields
  | .text => do
      refuse (kind ≠ .text ∨ unique) (.invalid "text index requires a non-unique Text field")
      let a ← orElse analyzer (.invalid "text index descriptor without an analyzer")
      pure (bigEndian 2 a.version ++ textFields)
  | .vamanaGraph =>
      vectorFields "vamana graph index requires a vector field" "invalid vamana graph descriptor options"
        vamanaFields kind unique
  | .quantizedVector =>
      vectorFields "quantized vector index requires a vector field"
        "invalid quantized vector descriptor options" quantizedFields kind unique

/-- `encode_tree` -/
def treeBytes (version : UInt16) : Option IndexTree → Except Error Bytes
  | none => do
      refuse (version ≠ 1) (.invalid "index descriptor version does not match its tree")
      pure []
  | some t => do
      refuse (version ≠ 2 ∧ version ≠ 3 ∧ version ≠ 4)
        (.invalid "index descriptor version does not match its tree")
      refuse (t.id < 2) (.invalid "per-index tree id 0/1 is reserved")
      pure (bigEndian 2 t.id.toNat ++ bigEndian 4 t.root.toNat)

/-- The state, and the cursor of a build. -/
def stateBytes : IndexState → Bytes
  | .building after => 0 :: bigEndian 8 after.toNat
  | .ready => 1 :: bigEndian 8 0
  | .dropping => 2 :: bigEndian 8 0

/-- `IndexExpr::descriptor_version` -/
def descriptorVersion : IndexExpr → UInt16
  | .lower => 3
  | .jsonText _ => 4

def expressionBytes : Option IndexExpr → Except Error Bytes
  | none => .ok []
  | some .lower => .ok [1]
  | some (.jsonText member) => do
      refuse (member = "" ∨ 128 < (utf8 member).length)
        (.invalid "a JSON member name requires 1..128 UTF-8 bytes")
      pure (2 :: long member)

/-- The families that may own a tree. -/
def OwnsTree (family : IndexFamily) : Prop := family = .scalar ∨ family = .spatialPoint

instance (family : IndexFamily) : Decidable (OwnsTree family) := inferInstanceAs (Decidable (_ ∨ _))

/-- The two families that own trees write the tail. -/
def ownTreeBytes (family : IndexFamily) (version : UInt16) (tree : Option IndexTree) : Except Error Bytes :=
  if OwnsTree family then treeBytes version tree else .ok []

def encodeBody (i : IndexInfo) : Except Error Bytes := do
  refuse (i.tree.isSome ∧ ¬ OwnsTree i.family) (.invalid "only scalar and spatial indexes own a tree")
  refuse (i.tree.isNone ∧ i.encodingVersion ≠ 1)
    (.invalid "index descriptor version does not match its tree")
  -- the expression chooses the version, so that a tail is never written under another
  refuse ((3 ≤ i.encodingVersion ∨ i.expression.isSome) ∧
      ((i.expression.map descriptorVersion).getD 0 ≠ i.encodingVersion ∨ i.family ≠ .scalar))
    (.invalid "an expression index is a version-3 or version-4 scalar descriptor and nothing else")
  let fields ← fieldBytes i.family i.kind i.unique i.analyzer
  let tree ← ownTreeBytes i.family i.encodingVersion i.tree
  let expression ← expressionBytes i.expression
  pure (bigEndian 8 i.id.toNat ++ (bigEndian 4 i.collection.toNat ++ (familyByte i.family ::
    (bigEndian 2 i.encodingVersion.toNat ++ (fields ++ (stateBytes i.state ++ (tree ++
      (long i.name ++ (long i.field ++ expression)))))))))

/-- `MAGIC` -/
def magic : Bytes := utf8 "E4IDX01" ++ [0]

def encode (i : IndexInfo) : Except Error Bytes := do
  let body ← encodeBody i
  packet magic body

/-! ## Reading -/

/-- The families and versions this build knows. -/
def familyOf (family : UInt8) (version : UInt16) : Option IndexFamily :=
  if family = 1 ∧ (version = 1 ∨ version = 2 ∨ version = 3 ∨ version = 4) then some .scalar
  else if family = 2 ∧ version = 1 then some .exactVector
  else if family = 3 ∧ (version = 1 ∨ version = 2) then some .spatialPoint
  else if family = 4 ∧ version = 1 then some .text
  else if family = 5 ∧ version = 1 then some .quantizedVector
  else if family = 6 ∧ version = 1 then some .spatialGeometry
  else if family = 7 ∧ version = 1 then some .vamanaGraph
  else none

/-- What a descriptor too short for its family is refused with. -/
def shortName : IndexFamily → String
  | .scalar => "short scalar index descriptor"
  | .exactVector => "short exact vector index descriptor"
  | .spatialPoint => "short spatial point index descriptor"
  | .text => "short text index descriptor"
  | .quantizedVector => "short quantized vector index descriptor"
  | .spatialGeometry => "short spatial geometry index descriptor"
  | .vamanaGraph => "short vamana graph index descriptor"

def kindOf (k : UInt8) : Option Kind :=
  if k = 1 then some .bool
  else if k = 2 then some .int
  else if k = 3 then some .real
  else if k = 4 then some .text
  else none

def analyzerOf (version : ℕ) : Option TextAnalyzer :=
  if version = 1 then some .words
  else if version = 2 then some .trigram
  else none

/-- The dimension of a vector index; what stands behind it has to be this build's. -/
def readVector (dimension options : String) (known : Bytes) (f : Bytes) :
    Except Error (Kind × Bool × Option TextAnalyzer) := do
  let d := bigEndianNat (f.take 4)
  refuse (¬ (1 ≤ d ∧ d ≤ maxDimension)) (.corrupt dimension)
  refuse (f.drop 4 ≠ known) (.unsupported options)
  pure (.vector d, false, none)

/-- The kind, the uniqueness and the analyzer a family's fields say. -/
def readFields (family : IndexFamily) (f : Bytes) : Except Error (Kind × Bool × Option TextAnalyzer) :=
  match family with
  | .scalar => do
      let kind ← orElse (kindOf (f.getD 0 0)) (.unsupported "index scalar type")
      refuse (1 < f.getD 1 0) (.unsupported "index uniqueness option")
      pure (kind, decide (f.getD 1 0 ≠ 0), none)
  | .exactVector => readVector "exact vector index dimension" "exact vector index options" [0] f
  | .spatialGeometry => do
      refuse (f ≠ geometryFields) (.unsupported "spatial geometry ladder/cell-budget/options")
      pure (.geo, false, none)
  | .spatialPoint => do
      refuse (f ≠ pointFields) (.unsupported "spatial point index grid/CRS/metric/options")
      pure (.point, false, none)
  | .text => do
      let a ← orElse (analyzerOf (bigEndianNat (f.take 2)))
        (.unsupported "text analyzer/Unicode/BM25/options")
      refuse (f.drop 2 ≠ textFields) (.unsupported "text analyzer/Unicode/BM25/options")
      pure (.text, false, some a)
  | .vamanaGraph =>
      readVector "vamana graph index dimension" "vamana graph quantizer/version/degree/alpha/options"
        vamanaFields f
  | .quantizedVector =>
      readVector "quantized vector index dimension" "quantized vector quantizer/options" quantizedFields f

def readTree (version : UInt16) : Reader Error (Option IndexTree) := fun b =>
  if version = 2 ∨ version = 3 ∨ version = 4 then do
    let (tail, b) ← take (.corrupt "short per-index tree descriptor tail") 6 b
    let id := UInt16.ofNat (bigEndianNat (tail.take 2))
    refuse (id < 2) (.corrupt "per-index tree id 0/1 is reserved")
    pure (some ⟨id, UInt32.ofNat (bigEndianNat (tail.drop 2))⟩, b)
  else pure (none, b)

def readState (state : UInt8) (cursor : UInt64) : Except Error IndexState :=
  if state = 0 then .ok (.building cursor)
  else if state = 1 ∧ cursor = 0 then .ok .ready
  else if state = 2 ∧ cursor = 0 then .ok .dropping
  else .error (.unsupported "index lifecycle state/cursor")

/-- The name, the field, and the member an expression reads. -/
def string : Reader Error String := fun b => do
  let (n, b) ← number (.corrupt "index string size") 2 b
  refuse (n = 0 ∨ 128 < n) (.corrupt "index name/field length")
  text (.corrupt "index string bytes") n b

/-- The expression under a tag. -/
def readVariant (tag : UInt8) : Reader Error IndexExpr := fun b =>
  if tag = 1 then pure (.lower, b)
  else if tag = 2 then do
    let (member, b) ← string b
    pure (.jsonText member, b)
  else if tag = 0 then throw (.corrupt "version-3/4 index descriptor without an expression")
  else throw (.unsupported "index expression")

def readExpression (version : UInt16) : Reader Error (Option IndexExpr) := fun b =>
  if version = 3 ∨ version = 4 then do
    let (tag, b) ← byte (.corrupt "index expression tail") b
    let (expression, b) ← readVariant tag b
    refuse (descriptorVersion expression ≠ version) (.unsupported "index expression encoding version")
    pure (some expression, b)
  else pure (none, b)

/-- What stands behind the head of a known family. -/
def decodeRest (id collection : ℕ) (version : UInt16) (family : IndexFamily) (b : Bytes) :
    Except Error IndexInfo := do
  let (block, b) ← take (.corrupt (shortName family)) (width family + 9) b
  let (kind, unique, analyzer) ← readFields family (block.take (width family))
  let (tree, b) ← readTree version b
  let state ← readState (block.getD (width family) 0)
    (UInt64.ofNat (bigEndianNat (block.drop (width family + 1))))
  let (name, b) ← string b
  let (field, b) ← string b
  let (expression, b) ← readExpression version b
  refuse (b ≠ [] ∨ id = 0 ∨ collection = 0) (.corrupt "index descriptor identity/trailing bytes")
  pure { id := UInt64.ofNat id, collection := UInt32.ofNat collection, name, field, family, kind, unique,
         state, encodingVersion := version, tree, expression, analyzer }

def decodeBody (b : Bytes) : Except Error IndexInfo := do
  let short := Error.corrupt "short index descriptor"
  let (id, b) ← number short 8 b
  let (collection, b) ← number short 4 b
  let (f, b) ← byte short b
  let (v, b) ← number short 2 b
  let version := UInt16.ofNat v
  let family ← orElse (familyOf f version) (.unsupported s!"index family {f} encoding {v}")
  decodeRest id collection version family b

def decode (b : Bytes) : Except Error IndexInfo := do
  if b.length = pad ∧ utf8 "E4IDX" <+: b ∧ b.take 8 ≠ magic then do
    let _ ← unpack b (b.take 8)
    throw (.unsupported "index descriptor envelope")
  else do
    let body ← unpack b magic
    decodeBody body

/-! ## One spelling for each part -/

variable {f b rest : Bytes} {version : UInt16} {family : IndexFamily} {kind : Kind} {unique : Bool}
  {analyzer : Option TextAnalyzer}

lemma kindByte_eq_ok {k : UInt8} : kindByte kind = .ok k ↔ kindOf k = some kind := by
  unfold kindOf
  constructor
  · intro h
    cases kind <;> simp only [kindByte, Except.ok.injEq, reduceCtorEq] at h <;> subst h <;> rfl
  · split_ifs with h1 h2 h3 h4 <;> intro h <;> cases h
    · rw [h1]
      rfl
    · rw [h2]
      rfl
    · rw [h3]
      rfl
    · rw [h4]
      rfl

lemma analyzerOf_version {n : ℕ} {a : TextAnalyzer} : analyzerOf n = some a ↔ a.version = n := by
  unfold analyzerOf
  constructor
  · split_ifs with h1 h2 <;> intro h <;> cases h
    · exact h1.symm
    · exact h2.symm
  · rintro rfl
    cases a <;> rfl

lemma TextAnalyzer.version_lt (a : TextAnalyzer) : a.version < 256 ^ 2 := by
  cases a <;> simp [TextAnalyzer.version]

lemma vector_fields {requires options dim opts : String} {known : Bytes} :
    readVector dim opts known f = .ok (kind, unique, analyzer) ∧ f.length = 4 + known.length ↔
      vectorFields requires options known kind unique = .ok f ∧ analyzer = none := by
  constructor
  · rintro ⟨h, hlen⟩
    simp only [readVector, bind_eq_ok, refuse_eq_ok, exists_const, pure_eq_ok, not_not,
      Prod.mk.injEq] at h
    obtain ⟨hd, hknown, rfl, rfl, rfl⟩ := h
    refine ⟨?_, rfl⟩
    have hfour : (f.take 4).length = 4 := by simp [hlen]
    simp [vectorFields, refuse, hd, bigEndian_bigEndianNat hfour, ← hknown, bind, Except.bind, pure,
      Except.pure]
  · rintro ⟨h, rfl⟩
    cases kind with
    | vector d =>
        simp only [vectorFields, bind_eq_ok, refuse_eq_ok, exists_const, pure_eq_ok, not_or, not_not,
          Bool.not_eq_true] at h
        obtain ⟨⟨hd, rfl⟩, rfl⟩ := h
        have hlt : d < 256 ^ 4 := by
          have := hd.2
          simp only [maxDimension] at this
          omega
        simp [readVector, refuse, hd, List.take_left', List.drop_left', bigEndianNat_bigEndian hlt, bind,
          Except.bind, pure, Except.pure]
    | _ => cases h

/-- A family whose fields are all constants. -/
lemma fixed_fields {k : Kind} {known : Bytes} {e e' : Error} :
    (do refuse (f ≠ known) e; pure (k, false, none)) = .ok (kind, unique, analyzer) ∧
        f.length = known.length ↔
      (do refuse (kind ≠ k ∨ unique) e'; pure known) = .ok f ∧ analyzer = none := by
  simp only [bind_eq_ok, refuse_eq_ok, exists_const, pure_eq_ok, not_or, not_not, Bool.not_eq_true,
    Prod.mk.injEq]
  constructor
  · rintro ⟨⟨rfl, rfl, rfl, rfl⟩, -⟩
    exact ⟨⟨⟨rfl, rfl⟩, rfl⟩, rfl⟩
  · rintro ⟨⟨⟨rfl, rfl⟩, rfl⟩, rfl⟩
    exact ⟨⟨rfl, rfl, rfl, rfl⟩, rfl⟩

lemma scalar_fields : readFields .scalar f = .ok (kind, unique, analyzer) ∧ f.length = 2 ↔
    fieldBytes .scalar kind unique analyzer = .ok f ∧ analyzer = none := by
  simp only [readFields, fieldBytes, bind_eq_ok, orElse_eq_ok, kindByte_eq_ok, refuse_eq_ok, exists_const,
    pure_eq_ok, Prod.mk.injEq, not_lt]
  constructor
  · rintro ⟨⟨k, hk, hle, rfl, rfl, rfl⟩, hlen⟩
    obtain ⟨x, y, rfl⟩ := List.length_eq_two.mp hlen
    refine ⟨⟨x, hk, ?_⟩, rfl⟩
    have hy : y = 0 ∨ y = 1 := by
      simp only [List.getD_cons_succ, List.getD_cons_zero, UInt8.le_iff_toNat_le] at hle
      have : y.toNat = 0 ∨ y.toNat = 1 := by
        simp at hle
        omega
      exact this.imp (fun h => UInt8.toNat_inj.mp h) fun h => UInt8.toNat_inj.mp h
    rcases hy with rfl | rfl <;> rfl
  · rintro ⟨⟨k, hk, rfl⟩, rfl⟩
    refine ⟨⟨kind, hk, ?_, rfl, ?_, rfl⟩, rfl⟩
    · cases unique
      · exact UInt8.zero_le
      · exact UInt8.le_refl 1
    · cases unique <;> rfl

lemma text_fields : readFields .text f = .ok (kind, unique, analyzer) ∧ f.length = 8 ↔
    fieldBytes .text kind unique analyzer = .ok f ∧ analyzer.isSome := by
  simp only [readFields, fieldBytes, bind_eq_ok, orElse_eq_ok, analyzerOf_version, refuse_eq_ok,
    exists_const, pure_eq_ok, Prod.mk.injEq, not_or, not_not, Bool.not_eq_true]
  constructor
  · rintro ⟨⟨a, ha, hrest, rfl, rfl, rfl⟩, hlen⟩
    refine ⟨⟨⟨rfl, rfl⟩, a, rfl, ?_⟩, rfl⟩
    rw [ha, bigEndian_bigEndianNat (by simp [hlen]), ← hrest, List.take_append_drop]
  · rintro ⟨⟨⟨rfl, rfl⟩, a, rfl, rfl⟩, -⟩
    refine ⟨⟨a, ?_, ?_, rfl, rfl, rfl⟩, ?_⟩
    · rw [List.take_left' (length_bigEndian _ _), bigEndianNat_bigEndian a.version_lt]
    · rw [List.drop_left' (length_bigEndian _ _)]
    · simp [textFields]

/-- Only a text index has an analyzer. -/
lemma eq_none_iff (h : family ≠ .text) : analyzer = none ↔ (analyzer.isSome ↔ family = .text) := by
  simp [h]

/-- **A family's fields say what they are the fields of.** -/
lemma readFields_eq_ok : readFields family f = .ok (kind, unique, analyzer) ∧ f.length = width family ↔
    fieldBytes family kind unique analyzer = .ok f ∧ (analyzer.isSome ↔ family = .text) := by
  cases family with
  | scalar => exact scalar_fields.trans (and_congr_right' (eq_none_iff (by decide)))
  | exactVector => exact vector_fields.trans (and_congr_right' (eq_none_iff (by decide)))
  | spatialPoint => exact fixed_fields.trans (and_congr_right' (eq_none_iff (by decide)))
  | text => exact text_fields.trans (and_congr_right' (by simp))
  | quantizedVector => exact vector_fields.trans (and_congr_right' (eq_none_iff (by decide)))
  | spatialGeometry => exact fixed_fields.trans (and_congr_right' (eq_none_iff (by decide)))
  | vamanaGraph => exact vector_fields.trans (and_congr_right' (eq_none_iff (by decide)))

lemma readTree_eq_ok {t : Option IndexTree} (hv : version = 1 ∨ version = 2 ∨ version = 3 ∨ version = 4) :
    readTree version b = .ok (t, rest) ↔ ∃ x, treeBytes version t = .ok x ∧ b = x ++ rest := by
  unfold readTree
  split_ifs with h
  · have hne : version ≠ 1 := by
      rintro rfl
      simp at h
    have hknown : ¬ (version ≠ 2 ∧ version ≠ 3 ∧ version ≠ 4) := by
      rintro ⟨h2, h3, h4⟩
      simp [h2, h3, h4] at h
    simp only [bind_eq_ok, Prod.exists, take_eq_ok, refuse_eq_ok, exists_const, pure_eq_ok, Prod.mk.injEq]
    constructor
    · rintro ⟨tail, _, ⟨hlen, rfl⟩, hid, rfl, rfl⟩
      refine ⟨tail, ?_, rfl⟩
      have htwo : (tail.take 2).length = 2 := by simp [hlen]
      have hfour : (tail.drop 2).length = 4 := by simp [hlen]
      simp only [treeBytes, bind_eq_ok, refuse_eq_ok, exists_const, pure_eq_ok]
      refine ⟨hknown, hid, ?_⟩
      rw [toNat_u16 htwo, toNat_u32 hfour, bigEndian_bigEndianNat htwo, bigEndian_bigEndianNat hfour,
        List.take_append_drop]
    · rintro ⟨x, hx, rfl⟩
      cases t with
      | none => simp [treeBytes, hne] at hx
      | some t =>
          simp only [treeBytes, bind_eq_ok, refuse_eq_ok, exists_const, pure_eq_ok] at hx
          obtain ⟨-, hid, rfl⟩ := hx
          have htake : (bigEndian 2 t.id.toNat ++ bigEndian 4 t.root.toNat).take 2 = _ :=
            List.take_left' (length_bigEndian _ _)
          have hdrop : (bigEndian 2 t.id.toNat ++ bigEndian 4 t.root.toNat).drop 2 = _ :=
            List.drop_left' (length_bigEndian _ _)
          refine ⟨_, rest, ⟨by simp, rfl⟩, ?_⟩
          rw [htake, hdrop, u16_bigEndian, u32_bigEndian]
          exact ⟨hid, rfl, rfl⟩
  · have hone : version = 1 := by
      rcases hv with hv | hv
      · exact hv
      · exact absurd hv h
    cases t with
    | none => simp [treeBytes, hone, refuse, pure, Except.pure, bind, Except.bind, eq_comm]
    | some t => simp [treeBytes, hone, refuse, pure, Except.pure, bind, Except.bind]

lemma readState_eq_ok {st : UInt8} {c : UInt64} {state : IndexState} :
    readState st c = .ok state ↔ stateBytes state = st :: bigEndian 8 c.toNat := by
  have hinj : ∀ d : UInt64, bigEndian 8 d.toNat = bigEndian 8 c.toNat ↔ d = c := by
    intro d
    constructor
    · intro h
      have := congrArg bigEndianNat h
      rw [bigEndianNat_bigEndian d.toNat_lt, bigEndianNat_bigEndian c.toNat_lt] at this
      exact UInt64.toNat_inj.mp this
    · rintro rfl
      rfl
  have hzero : bigEndian 8 0 = bigEndian 8 c.toNat ↔ c = 0 := (hinj 0).trans eq_comm
  unfold readState
  cases state with
  | building after =>
      simp only [stateBytes, List.cons.injEq, hinj]
      split_ifs with h0 h1 h2
      · simp [h0, eq_comm]
      · simp [h1.1]
      · simp [h2.1]
      · simp [Ne.symm h0]
  | ready =>
      simp only [stateBytes, List.cons.injEq, hzero]
      split_ifs with h0 h1 h2
      · simp [h0]
      · simp [h1]
      · simp [h2.1]
      · simpa [eq_comm] using h1
  | dropping =>
      simp only [stateBytes, List.cons.injEq, hzero]
      split_ifs with h0 h1 h2
      · simp [h0]
      · simp [h1]
      · simp [h2]
      · simpa [eq_comm] using h2

/-- A name of one to 128 bytes. -/
def IsIndexName (s : String) : Prop := s ≠ "" ∧ (utf8 s).length ≤ 128

lemma string_spells : Spells string long IsIndexName := by
  intro b s rest
  simp only [string, bind_eq_ok, Prod.exists, number_eq_ok, refuse_eq_ok, exists_const, text_eq_ok, not_or,
    not_lt, IsIndexName]
  constructor
  · rintro ⟨n, _, ⟨-, rfl⟩, ⟨h0, h128⟩, rfl, rfl⟩
    refine ⟨⟨?_, h128⟩, by rw [long, List.append_assoc]⟩
    rintro rfl
    exact h0 (by rw [utf8_eq_nil.mpr rfl]; rfl)
  · rintro ⟨⟨hne, hlen⟩, rfl⟩
    refine ⟨_, _, ⟨?_, by rw [long, List.append_assoc]⟩, ⟨?_, hlen⟩, rfl, rfl⟩
    · omega
    · intro h
      exact hne (utf8_eq_nil.mp (List.eq_nil_of_length_eq_zero h))

lemma expressionBytes_member {member : String} {x : Bytes} :
    expressionBytes (some (.jsonText member)) = .ok x ↔ IsIndexName member ∧ x = 2 :: long member := by
  simp only [expressionBytes, bind_eq_ok, refuse_eq_ok, exists_const, pure_eq_ok, not_or, not_lt, IsIndexName]
  rw [eq_comm (a := x)]

lemma readVariant_eq_ok {tag : UInt8} {e : IndexExpr} :
    readVariant tag b = .ok (e, rest) ↔ ∃ x, expressionBytes (some e) = .ok (tag :: x) ∧ b = x ++ rest := by
  unfold readVariant
  constructor
  · split_ifs with h1 h2 h0
    · intro h
      simp only [pure_eq_ok, Prod.mk.injEq] at h
      obtain ⟨rfl, rfl⟩ := h
      exact ⟨[], by rw [h1]; rfl, rfl⟩
    · intro h
      simp only [bind_eq_ok, Prod.exists, string_spells _ _ _, pure_eq_ok, Prod.mk.injEq] at h
      obtain ⟨member, _, ⟨hm, rfl⟩, rfl, rfl⟩ := h
      exact ⟨long member, expressionBytes_member.mpr ⟨hm, by rw [h2]⟩, rfl⟩
    · intro h
      cases h
    · intro h
      cases h
  · rintro ⟨x, hx, rfl⟩
    cases e with
    | lower =>
        simp only [expressionBytes, Except.ok.injEq, List.cons.injEq] at hx
        obtain ⟨rfl, rfl⟩ := hx
        rfl
    | jsonText member =>
        obtain ⟨hm, hx⟩ := expressionBytes_member.mp hx
        obtain ⟨rfl, rfl⟩ := List.cons.inj hx
        have hread := (string_spells _ member rest).mpr ⟨hm, rfl⟩
        simp [hread, bind, Except.bind, pure, Except.pure]

lemma readExpression_eq_ok {e : Option IndexExpr} :
    readExpression version b = .ok (e, rest) ↔ (∃ x, expressionBytes e = .ok x ∧ b = x ++ rest) ∧
      e.map descriptorVersion = if version = 3 ∨ version = 4 then some version else none := by
  unfold readExpression
  split_ifs with h
  · simp only [bind_eq_ok, Prod.exists, byte_eq_ok, readVariant_eq_ok, refuse_eq_ok, exists_const,
      pure_eq_ok, Prod.mk.injEq, not_not]
    constructor
    · rintro ⟨tag, tail, rfl, e, rest, ⟨x, hx, rfl⟩, hv, rfl, rfl⟩
      exact ⟨⟨_, hx, rfl⟩, by rw [← hv]; rfl⟩
    · rintro ⟨⟨x, hx, rfl⟩, hv⟩
      cases e with
      | none => cases hv
      | some e =>
          obtain ⟨tag, y, rfl⟩ : ∃ tag y, x = tag :: y := by
            cases e with
            | lower => exact ⟨1, [], (Except.ok.inj hx).symm⟩
            | jsonText member => exact ⟨_, _, (expressionBytes_member.mp hx).2⟩
          exact ⟨tag, y ++ rest, rfl, e, rest, ⟨y, hx, rfl⟩, Option.some.inj hv, rfl, rfl⟩
  · cases e with
    | none => simp [expressionBytes, pure_eq_ok]
    | some e => simp

/-! ## One spelling for each body -/

/-- The versions of a family. -/
def KnownVersion (family : IndexFamily) (version : UInt16) : Prop :=
  match family with
  | .scalar => version = 1 ∨ version = 2 ∨ version = 3 ∨ version = 4
  | .spatialPoint => version = 1 ∨ version = 2
  | _ => version = 1

lemma KnownVersion.known (h : KnownVersion family version) :
    version = 1 ∨ version = 2 ∨ version = 3 ∨ version = 4 := by
  cases family with
  | scalar => exact h
  | spatialPoint => exact h.imp_right Or.inl
  | _ => exact .inl h

/-- **A family is known by its byte.** -/
lemma familyOf_eq_some {x : UInt8} :
    familyOf x version = some family ↔ x = familyByte family ∧ KnownVersion family version := by
  unfold familyOf
  constructor
  · split_ifs with h1 h2 h3 h4 h5 h6 h7 <;> intro h <;> cases h
    · exact h1
    · exact h2
    · exact h3
    · exact h4
    · exact h5
    · exact h6
    · exact h7
  · rintro ⟨rfl, hv⟩
    cases family <;> (unfold KnownVersion at hv; simp [familyByte, hv])

/-- Where an expression is recorded. -/
def ExpressionVersion (version : UInt16) (e : Option IndexExpr) : Prop :=
  e.map descriptorVersion = if version = 3 ∨ version = 4 then some version else none

/-- The body of an index, from its parts. -/
def IndexInfo.body (i : IndexInfo) (fields tree expression : Bytes) : Bytes :=
  bigEndian 8 i.id.toNat ++ (bigEndian 4 i.collection.toNat ++ (familyByte i.family ::
    (bigEndian 2 i.encodingVersion.toNat ++ (fields ++ (stateBytes i.state ++ (tree ++
      (long i.name ++ (long i.field ++ expression))))))))

/-- The parts of a body are spelt. -/
structure Spelt (i : IndexInfo) (fields tree expression : Bytes) : Prop where
  version : KnownVersion i.family i.encodingVersion
  expressed : ExpressionVersion i.encodingVersion i.expression
  fields : fieldBytes i.family i.kind i.unique i.analyzer = .ok fields
  tree : treeBytes i.encodingVersion i.tree = .ok tree
  expression : expressionBytes i.expression = .ok expression

lemma treeBytes_none {x : Bytes} : treeBytes version none = .ok x ↔ version = 1 ∧ x = [] := by
  simp only [treeBytes, bind_eq_ok, refuse_eq_ok, exists_const, pure_eq_ok, not_not]
  rw [eq_comm (a := x)]

lemma version_of_treeBytes {t : IndexTree} {x : Bytes} (h : treeBytes version (some t) = .ok x) :
    version = 2 ∨ version = 3 ∨ version = 4 := by
  simp only [treeBytes, bind_eq_ok, refuse_eq_ok, exists_const] at h
  have hv := h.1
  rw [not_and_or, not_and_or, not_not, not_not, not_not] at hv
  exact hv

lemma descriptorVersion_cases (e : IndexExpr) : descriptorVersion e = 3 ∨ descriptorVersion e = 4 := by
  cases e
  · exact .inl rfl
  · exact .inr rfl

lemma KnownVersion.one : KnownVersion family 1 := by
  cases family with
  | scalar => exact .inl rfl
  | spatialPoint => exact .inl rfl
  | _ => rfl

/-- A family with a tree, and a version that the expression chose. -/
lemma knownVersion_of_tree (hv : version = 2 ∨ version = 3 ∨ version = 4) (howns : OwnsTree family)
    (hscalar : 3 ≤ version → family = .scalar) : KnownVersion family version := by
  rcases howns with rfl | rfl
  · exact .inr hv
  · rcases hv with rfl | rfl | rfl
    · exact .inr rfl
    · cases hscalar (by decide)
    · cases hscalar (by decide)

lemma KnownVersion.ownsTree (h : KnownVersion family version)
    (hv : version = 2 ∨ version = 3 ∨ version = 4) : OwnsTree family := by
  have hne : version ≠ 1 := by rcases hv with rfl | rfl | rfl <;> decide
  cases family with
  | scalar => exact .inl rfl
  | spatialPoint => exact .inr rfl
  | _ => exact absurd h hne

/-- **The version is the one the expression chose.** -/
lemma expressionVersion_iff {e : Option IndexExpr} (hv : KnownVersion family version) :
    (¬ ((3 ≤ version ∨ e.isSome) ∧ ((e.map descriptorVersion).getD 0 ≠ version ∨ family ≠ .scalar))) ↔
      ExpressionVersion version e := by
  have hscalar : version = 3 ∨ version = 4 → family = .scalar := by
    rintro (rfl | rfl) <;> cases family <;> simp [KnownVersion] at hv ⊢
  have hle : 3 ≤ version ↔ version = 3 ∨ version = 4 := by
    rcases hv.known with rfl | rfl | rfl | rfl <;> decide
  unfold ExpressionVersion
  rw [hle]
  by_cases h : version = 3 ∨ version = 4
  · have hne : version ≠ 0 := by rcases h with rfl | rfl <;> decide
    cases e with
    | none => simp [h, hne.symm]
    | some e => simp [h, hscalar h]
  · cases e with
    | none => simp [h]
    | some e =>
        have hne : descriptorVersion e ≠ version := fun heq => h (heq ▸ descriptorVersion_cases e)
        simp [h, hne]

lemma encodeBody_eq_ok {i : IndexInfo} : encodeBody i = .ok b ↔
    ∃ fields tree expression, Spelt i fields tree expression ∧ b = i.body fields tree expression := by
  simp only [encodeBody, bind_eq_ok, refuse_eq_ok, exists_const, pure_eq_ok]
  constructor
  · rintro ⟨howns, hnone, hexpr, fields, hfields, tree, htree, expression, hexpression, rfl⟩
    refine ⟨fields, tree, expression, ?_, rfl⟩
    have hscalar : 3 ≤ i.encodingVersion → i.family = .scalar := by
      intro hle
      by_contra hne
      exact hexpr ⟨.inl hle, .inr hne⟩
    have hboth : KnownVersion i.family i.encodingVersion ∧ treeBytes i.encodingVersion i.tree = .ok tree := by
      rw [ownTreeBytes] at htree
      cases ht : i.tree with
      | none =>
          have hone : i.encodingVersion = 1 := by
            by_contra hne
            exact hnone ⟨by rw [ht]; rfl, hne⟩
          rw [hone]
          refine ⟨.one, treeBytes_none.mpr ⟨rfl, ?_⟩⟩
          split_ifs at htree
          · rw [ht] at htree
            exact (treeBytes_none.mp htree).2
          · exact (Except.ok.inj htree).symm
      | some t =>
          have hown : OwnsTree i.family := by
            by_contra hne
            exact howns ⟨by rw [ht]; rfl, hne⟩
          rw [if_pos hown, ht] at htree
          exact ⟨knownVersion_of_tree (version_of_treeBytes htree) hown hscalar, htree⟩
    exact ⟨hboth.1, (expressionVersion_iff hboth.1).mp hexpr, hfields, hboth.2, hexpression⟩
  · rintro ⟨fields, tree, expression, h, rfl⟩
    have hown : i.tree.isSome → OwnsTree i.family := by
      intro hsome
      obtain ⟨t, ht⟩ := Option.isSome_iff_exists.mp hsome
      have hv := version_of_treeBytes (ht ▸ h.tree)
      exact h.version.ownsTree hv
    refine ⟨fun hne => hne.2 (hown hne.1), ?_, (expressionVersion_iff h.version).mpr h.expressed, fields,
      h.fields, tree, ?_, expression, h.expression, rfl⟩
    · rintro ⟨hnone, hne⟩
      have htree := h.tree
      rw [Option.isNone_iff_eq_none.mp hnone, treeBytes_none] at htree
      exact hne htree.1
    · rw [ownTreeBytes]
      split_ifs with howns
      · exact h.tree
      · cases ht : i.tree with
        | none =>
            have htree := h.tree
            rw [ht, treeBytes_none] at htree
            rw [htree.2]
        | some t => exact absurd (hown (by rw [ht]; rfl)) howns

/-- What the catalog holds of an index: a number, a table, names, and an analyzer for text only. -/
structure IndexInfo.Storable (i : IndexInfo) : Prop where
  id : i.id ≠ 0
  collection : i.collection ≠ 0
  name : IsIndexName i.name
  field : IsIndexName i.field
  analyzer : i.analyzer.isSome ↔ i.family = .text

/-- The fields, the state and the cursor of a block. -/
lemma block_eq {block : Bytes} {w : ℕ} {state : IndexState} (hlen : block.length = w + 9)
    (h : readState (block.getD w 0) (UInt64.ofNat (bigEndianNat (block.drop (w + 1)))) = .ok state) :
    block = block.take w ++ stateBytes state := by
  have height : (block.drop (w + 1)).length = 8 := by simp [hlen]
  have hlt : w < block.length := by omega
  have hget : block.getD w 0 = block[w] := by simp [hlt]
  rw [readState_eq_ok.mp h, toNat_u64 height, bigEndian_bigEndianNat height, hget, List.getElem_cons_drop,
    List.take_append_drop]

lemma length_stateBytes (state : IndexState) : (stateBytes state).length = 9 := by
  cases state <;> simp [stateBytes]

/-- The state of a block is read back. -/
lemma readState_block {fields : Bytes} {w : ℕ} {state : IndexState} (hlen : fields.length = w) :
    readState ((fields ++ stateBytes state).getD w 0)
      (UInt64.ofNat (bigEndianNat ((fields ++ stateBytes state).drop (w + 1)))) = .ok state := by
  obtain ⟨x, c, hx⟩ : ∃ x c, stateBytes state = x :: c := by
    cases state <;> exact ⟨_, _, rfl⟩
  have height : c.length = 8 := by
    have := length_stateBytes state
    simp [hx] at this
    exact this
  have hget : (fields ++ x :: c).getD w 0 = x := by simp [← hlen]
  have hdrop : (fields ++ x :: c).drop (w + 1) = c := by simp [← hlen]
  rw [readState_eq_ok, hx, hget, hdrop, toNat_u64 height, bigEndian_bigEndianNat height]

/-- **A body is accepted just when it is the body of an index that can be stored.** -/
lemma decodeBody_eq_ok {i : IndexInfo} : decodeBody b = .ok i ↔ i.Storable ∧ encodeBody i = .ok b := by
  rw [encodeBody_eq_ok]
  simp only [decodeBody, decodeRest, bind_eq_ok, Prod.exists, number_eq_ok, byte_eq_ok, orElse_eq_ok, familyOf_eq_some,
    take_eq_ok, string_spells _ _ _, readExpression_eq_ok, refuse_eq_ok, exists_const, pure_eq_ok, not_or,
    not_not]
  constructor
  · rintro ⟨id, _, ⟨hid, rfl⟩, c, _, ⟨hc, rfl⟩, x, _, rfl, v, _, ⟨hv, rfl⟩, family, ⟨rfl, hknown⟩, block,
      b, ⟨hlen, rfl⟩, kind, unique, analyzer, hfields, tree, _, htree, state, hstate, name, _, ⟨hname, rfl⟩,
      field, _, ⟨hfield, rfl⟩, e, _, ⟨⟨x, hx, rfl⟩, hversion⟩, ⟨rfl, hid0, hc0⟩, rfl⟩
    obtain ⟨t, ht, rfl⟩ := (readTree_eq_ok hknown.known).mp htree
    obtain ⟨hbytes, hanalyzer⟩ := readFields_eq_ok.mp ⟨hfields, by simp [hlen]⟩
    have hidNat : (UInt64.ofNat id).toNat = id := Nat.mod_eq_of_lt hid
    have hcNat : (UInt32.ofNat c).toNat = c := Nat.mod_eq_of_lt hc
    have hvNat : (UInt16.ofNat v).toNat = v := Nat.mod_eq_of_lt hv
    refine ⟨⟨?_, ?_, hname, hfield, hanalyzer⟩, block.take (width family), t, x,
      ⟨hknown, hversion, hbytes, ht, hx⟩, ?_⟩
    · intro h
      exact hid0 (hidNat.symm.trans (congrArg UInt64.toNat h))
    · intro h
      exact hc0 (hcNat.symm.trans (congrArg UInt32.toNat h))
    · rw [IndexInfo.body, hidNat, hcNat, hvNat, ← List.append_assoc (block.take _), ← block_eq hlen hstate,
        List.append_nil]
  · rintro ⟨h, fields, tree, expression, hs, rfl⟩
    obtain ⟨hfields, hlen⟩ := readFields_eq_ok.mpr ⟨hs.fields, h.analyzer⟩
    have hstate := @readState_block fields _ i.state hlen
    refine ⟨i.id.toNat, _, ⟨i.id.toNat_lt, rfl⟩, i.collection.toNat, _, ⟨i.collection.toNat_lt, rfl⟩,
      familyByte i.family, _, rfl, i.encodingVersion.toNat, _, ⟨i.encodingVersion.toNat_lt, rfl⟩, i.family, ?_⟩
    rw [UInt16.ofNat_toNat, UInt64.ofNat_toNat, UInt32.ofNat_toNat]
    refine ⟨⟨rfl, hs.version⟩, fields ++ stateBytes i.state, tree ++ (long i.name ++ (long i.field ++
      expression)), ⟨by simp [hlen, length_stateBytes], (List.append_assoc _ _ _).symm⟩, i.kind, i.unique,
      i.analyzer, by rwa [List.take_left' hlen], i.tree, _,
      (readTree_eq_ok hs.version.known).mpr ⟨tree, hs.tree, rfl⟩, i.state, hstate, i.name, _, ⟨h.name, rfl⟩,
      i.field, _, ⟨h.field, rfl⟩, i.expression, [],
      ⟨⟨expression, hs.expression, (List.append_nil _).symm⟩, hs.expressed⟩, ⟨rfl, ?_, ?_⟩, rfl⟩
    · intro h0
      exact h.id (UInt64.toNat_inj.mp h0)
    · intro h0
      exact h.collection (UInt32.toNat_inj.mp h0)

/-! ## Packets -/

lemma length_magic : magic.length = 8 := by
  rw [magic, List.length_append]
  rfl

/-- **A packet is accepted just when it is the packet of an index that can be stored.** -/
lemma decode_eq_ok {p : Bytes} {i : IndexInfo} : decode p = .ok i ↔ i.Storable ∧ encode i = .ok p := by
  have hrest : (do let body ← unpack p magic; decodeBody body) = .ok i ↔ i.Storable ∧ encode i = .ok p := by
    simp only [encode, bind_eq_ok, unpack_eq_ok length_magic, decodeBody_eq_ok]
    constructor
    · rintro ⟨body, hp, h, hbody⟩
      exact ⟨h, body, hbody, hp⟩
    · rintro ⟨h, body, hbody, hp⟩
      exact ⟨body, hp, h, hbody⟩
  unfold decode
  split_ifs with h
  · constructor
    · intro h
      simp at h
    · rintro ⟨-, henc⟩
      simp only [encode, bind_eq_ok] at henc
      obtain ⟨body, -, hp⟩ := henc
      exact absurd (packet_magic length_magic hp) h.2.2
  · exact hrest

/-! ## What is not this build's -/

/-- It is refused as something this build does not know. -/
def Unsupported {α : Type} (r : Except Error α) : Prop := ∃ what, r = .error (.unsupported what)

/-- **An intact packet under the magic of another build is refused.** -/
lemma decode_unknown_envelope {m payload p : Bytes} (hm : m.length = 8) (hstarts : utf8 "E4IDX" <+: m)
    (hne : m ≠ magic) (hp : packet m payload = .ok p) : Unsupported (decode p) := by
  have htake := packet_magic hm hp
  have hlen := packet_length hp
  have hunpack : unpack p (p.take 8) = .ok payload := by
    rw [htake]
    exact (unpack_eq_ok hm).mpr hp
  have hstarts' : utf8 "E4IDX" <+: p := by
    rw [← htake] at hstarts
    exact hstarts.trans <| List.take_prefix 8 p
  have hcond : p.length = pad ∧ utf8 "E4IDX" <+: p ∧ p.take 8 ≠ magic := ⟨hlen, hstarts', htake ▸ hne⟩
  refine ⟨"index descriptor envelope", ?_⟩
  rw [decode, if_pos hcond, hunpack]
  rfl

/-- Fields that no index of this build has, behind a dimension that some index may have. -/
def UnknownOption (family : IndexFamily) (x : Bytes) : Prop :=
  match family with
  | .scalar => ¬ (1 ≤ x.getD 0 0 ∧ x.getD 0 0 ≤ 4 ∧ x.getD 1 0 ≤ 1)
  | .spatialPoint => x ≠ pointFields
  | .spatialGeometry => x ≠ geometryFields
  | .text => ¬ ((bigEndianNat (x.take 2) = 1 ∨ bigEndianNat (x.take 2) = 2) ∧ x.drop 2 = textFields)
  | .exactVector => (1 ≤ bigEndianNat (x.take 4) ∧ bigEndianNat (x.take 4) ≤ maxDimension) ∧ x.drop 4 ≠ [0]
  | .quantizedVector =>
      (1 ≤ bigEndianNat (x.take 4) ∧ bigEndianNat (x.take 4) ≤ maxDimension) ∧ x.drop 4 ≠ quantizedFields
  | .vamanaGraph =>
      (1 ≤ bigEndianNat (x.take 4) ∧ bigEndianNat (x.take 4) ≤ maxDimension) ∧ x.drop 4 ≠ vamanaFields

lemma Unsupported.bind {α β : Type} {r : Except Error α} {g : α → Except Error β} (h : Unsupported r) :
    Unsupported (r >>= g) := by
  obtain ⟨what, rfl⟩ := h
  exact ⟨what, rfl⟩

lemma Unsupported.after {α β : Type} {r : Except Error α} {x : α} {g : α → Except Error β} (hr : r = .ok x)
    (h : Unsupported (g x)) : Unsupported (r >>= g) := by
  subst hr
  exact h

lemma refuse_unsupported {c : Prop} [Decidable c] {what : String} (h : c) :
    Unsupported (refuse c (.unsupported what)) :=
  ⟨what, if_pos h⟩

lemma orElse_unsupported {α : Type} {o : Option α} {what : String} (h : o = none) :
    Unsupported (orElse o (.unsupported what)) := by
  subst h
  exact ⟨what, rfl⟩

lemma readVector_unknown {dim opts : String} {known x : Bytes}
    (h : (1 ≤ bigEndianNat (x.take 4) ∧ bigEndianNat (x.take 4) ≤ maxDimension) ∧ x.drop 4 ≠ known) :
    Unsupported (readVector dim opts known x) :=
  .after (x := ()) (refuse_eq_ok.mpr (not_not.mpr h.1)) (refuse_unsupported h.2).bind

lemma kindOf_eq_none {k : UInt8} : kindOf k = none ↔ ¬ (1 ≤ k ∧ k ≤ 4) := by
  unfold kindOf
  simp only [UInt8.le_iff_toNat_le, ← UInt8.toNat_inj]
  have h1 : (1 : UInt8).toNat = 1 := rfl
  have h2 : (2 : UInt8).toNat = 2 := rfl
  have h3 : (3 : UInt8).toNat = 3 := rfl
  have h4 : (4 : UInt8).toNat = 4 := rfl
  rw [h1, h2, h3, h4]
  split_ifs <;> simp <;> omega

lemma analyzerOf_eq_none {n : ℕ} : analyzerOf n = none ↔ ¬ (n = 1 ∨ n = 2) := by
  unfold analyzerOf
  split_ifs with h1 h2
  · simp [h1]
  · simp [h2]
  · simp [h1, h2]

/-- **Unknown fields are refused as such.** -/
lemma readFields_unknown {x : Bytes} (h : UnknownOption family x) : Unsupported (readFields family x) := by
  cases family with
  | scalar =>
      cases hk : kindOf (x.getD 0 0) with
      | none => exact (orElse_unsupported hk).bind
      | some k =>
          have hknown : 1 ≤ x.getD 0 0 ∧ x.getD 0 0 ≤ 4 := by
            by_contra hne
            rw [kindOf_eq_none.mpr hne] at hk
            cases hk
          refine .after (orElse_eq_ok.mpr hk) (refuse_unsupported ?_).bind
          by_contra hle
          exact h ⟨hknown.1, hknown.2, UInt8.not_lt.mp hle⟩
  | exactVector => exact readVector_unknown h
  | spatialPoint =>
      have hne : x ≠ pointFields := h
      exact (refuse_unsupported hne).bind
  | text =>
      cases ha : analyzerOf (bigEndianNat (x.take 2)) with
      | none => exact (orElse_unsupported ha).bind
      | some a =>
          have hknown : bigEndianNat (x.take 2) = 1 ∨ bigEndianNat (x.take 2) = 2 := by
            by_contra hne
            rw [analyzerOf_eq_none.mpr hne] at ha
            cases ha
          have hne : x.drop 2 ≠ textFields := fun hrest => h ⟨hknown, hrest⟩
          exact .after (orElse_eq_ok.mpr ha) (refuse_unsupported hne).bind
  | quantizedVector => exact readVector_unknown h
  | spatialGeometry =>
      have hne : x ≠ geometryFields := h
      exact (refuse_unsupported hne).bind
  | vamanaGraph => exact readVector_unknown h

lemma number_append {e : Error} {n : ℕ} {x : Bytes} (h : x.length = n) :
    number e n (x ++ rest) = .ok (bigEndianNat x, rest) :=
  number_eq_ok.mpr ⟨bigEndianNat_lt_of h, by rw [bigEndian_bigEndianNat h]⟩

/-- **A family or a version that is not this build's is refused**, whatever stands behind it. -/
lemma decodeBody_unknown_family (hlen : 15 ≤ b.length) (h : ∀ family, ¬ (b.getD 12 0 = familyByte family ∧
      KnownVersion family (UInt16.ofNat (bigEndianNat (slice b 13 2))))) : Unsupported (decodeBody b) := by
  have hb : b = slice b 0 8 ++ (slice b 8 4 ++ (b.getD 12 0 :: (slice b 13 2 ++ b.drop 15))) := by
    have hget : b.getD 12 0 = b[12] := by simp [show 12 < b.length by omega]
    rw [← drop_eq_slice b 13 2, hget, List.getElem_cons_drop, ← drop_eq_slice b 8 4, ← drop_eq_slice b 0 8,
      List.drop_zero]
  have hnone : familyOf (b.getD 12 0) (UInt16.ofNat (bigEndianNat (slice b 13 2))) = none := by
    rw [Option.eq_none_iff_forall_ne_some]
    intro family heq
    exact h family (familyOf_eq_some.mp heq)
  rw [hb]
  exact .after (number_append (length_slice_of_le (by omega))) (.after
    (number_append (length_slice_of_le (by omega))) (.after rfl (.after
    (number_append (length_slice_of_le (by omega))) (orElse_unsupported hnone).bind)))

/-- What stands before the fields. -/
def IndexInfo.head (i : IndexInfo) : Bytes :=
  bigEndian 8 i.id.toNat ++ (bigEndian 4 i.collection.toNat ++ (familyByte i.family ::
    bigEndian 2 i.encodingVersion.toNat))

lemma IndexInfo.body_eq {i : IndexInfo} {fields tree expression : Bytes} :
    i.body fields tree expression = i.head ++ (fields ++ (stateBytes i.state ++ (tree ++
      (long i.name ++ (long i.field ++ expression))))) := by
  simp only [IndexInfo.body, IndexInfo.head, List.append_assoc, List.cons_append]

lemma IndexInfo.length_head (i : IndexInfo) : i.head.length = 15 := by
  simp [IndexInfo.head]

lemma decodeBody_head {i : IndexInfo} (hv : KnownVersion i.family i.encodingVersion) :
    decodeBody (i.head ++ rest) =
      decodeRest i.id.toNat i.collection.toNat i.encodingVersion i.family rest := by
  have hnumber : ∀ {e : Error} {n x : ℕ} {rest : Bytes}, x < 256 ^ n →
      number e n (bigEndian n x ++ rest) = .ok (x, rest) := fun h => number_eq_ok.mpr ⟨h, rfl⟩
  have hfamily : familyOf (familyByte i.family) (UInt16.ofNat i.encodingVersion.toNat) = some i.family := by
    rw [UInt16.ofNat_toNat]
    exact familyOf_eq_some.mpr ⟨rfl, hv⟩
  have hid : i.id.toNat < 256 ^ 8 := i.id.toNat_lt
  have hc : i.collection.toNat < 256 ^ 4 := i.collection.toNat_lt
  have hversion : i.encodingVersion.toNat < 256 ^ 2 := i.encodingVersion.toNat_lt
  simp only [decodeBody, IndexInfo.head, List.append_assoc, List.cons_append, hnumber hid, hnumber hc,
    hnumber hversion, byte, bind, Except.bind, hfamily, orElse]
  rw [UInt16.ofNat_toNat]

/-- **Fields that are not this build's are refused.** -/
lemma decodeBody_unknown_fields {i : IndexInfo} {x st : Bytes} (hv : KnownVersion i.family i.encodingVersion)
    (hx : x.length = width i.family) (hst : st.length = 9) (h : UnknownOption i.family x) :
    Unsupported (decodeBody (i.head ++ (x ++ (st ++ rest)))) := by
  rw [decodeBody_head hv]
  refine .after (take_eq_ok.mpr ⟨?_, (List.append_assoc x st rest).symm⟩) (Unsupported.bind ?_)
  · simp [hx, hst]
  · rw [List.take_left' hx]
    exact readFields_unknown h

lemma readState_unknown {s : UInt8} {c : UInt64} (h : 2 < s) : Unsupported (readState s c) := by
  refine ⟨"index lifecycle state/cursor", ?_⟩
  have hne : s ≠ 0 ∧ s ≠ 1 ∧ s ≠ 2 := by
    refine ⟨?_, ?_, ?_⟩ <;> rintro rfl <;> simp at h
  simp [readState, hne]

/-- **A state that is not this build's is refused.** -/
lemma decodeBody_unknown_state {i : IndexInfo} {fields tree expression c : Bytes} {s : UInt8}
    (hs : Spelt i fields tree expression) (ha : i.analyzer.isSome ↔ i.family = .text) (hc : c.length = 8)
    (h : 2 < s) : Unsupported (decodeBody (i.head ++ (fields ++ ((s :: c) ++ (tree ++ rest))))) := by
  obtain ⟨hfields, hlen⟩ := readFields_eq_ok.mpr ⟨hs.fields, ha⟩
  rw [decodeBody_head hs.version]
  refine .after (take_eq_ok.mpr ⟨?_, (List.append_assoc fields (s :: c) (tree ++ rest)).symm⟩) ?_
  · simp [hlen, hc]
  · refine .after (x := (i.kind, i.unique, i.analyzer)) (by rwa [List.take_left' hlen]) ?_
    refine .after ((readTree_eq_ok hs.version.known).mpr ⟨tree, hs.tree, rfl⟩) (Unsupported.bind ?_)
    have hget : (fields ++ s :: c).getD (width i.family) 0 = s := by simp [← hlen]
    rw [hget]
    exact readState_unknown h

lemma readVariant_unknown {t : UInt8} (h : 2 < t) : Unsupported (readVariant t rest) := by
  refine ⟨"index expression", ?_⟩
  have hne : t ≠ 0 ∧ t ≠ 1 ∧ t ≠ 2 := by
    refine ⟨?_, ?_, ?_⟩ <;> rintro rfl <;> simp at h
  simp [readVariant, hne]
  rfl

lemma Spelt.expressionVersion {i : IndexInfo} {fields tree expression : Bytes}
    (hs : Spelt i fields tree expression) (he : i.expression.isSome) :
    i.encodingVersion = 3 ∨ i.encodingVersion = 4 := by
  have hexpr := hs.expressed
  rw [ExpressionVersion] at hexpr
  by_contra hne
  rw [if_neg hne, Option.map_eq_none_iff] at hexpr
  rw [hexpr] at he
  cases he

lemma Spelt.length_tree {i : IndexInfo} {fields tree expression : Bytes}
    (hs : Spelt i fields tree expression) (hv : i.encodingVersion = 3 ∨ i.encodingVersion = 4) :
    tree.length = 6 := by
  have htree := hs.tree
  cases ht : i.tree with
  | none =>
      rw [ht, treeBytes_none] at htree
      rcases hv with hv | hv <;> rw [hv] at htree <;> cases htree.1
  | some t =>
      rw [ht] at htree
      simp only [treeBytes, bind_eq_ok, refuse_eq_ok, exists_const, pure_eq_ok] at htree
      rw [← htree.2.2]
      simp

lemma Spelt.expression_cons {i : IndexInfo} {fields tree expression : Bytes}
    (hs : Spelt i fields tree expression) (he : i.expression.isSome) : ∃ e y, expression = e :: y := by
  obtain ⟨e, heq⟩ := Option.isSome_iff_exists.mp he
  have hexpr := hs.expression
  rw [heq] at hexpr
  cases e with
  | lower => exact ⟨1, [], (Except.ok.inj hexpr).symm⟩
  | jsonText member => exact ⟨_, _, (expressionBytes_member.mp hexpr).2⟩

/-- **An expression that is not this build's is refused.** -/
lemma decodeBody_unknown_expression {i : IndexInfo} {fields tree expression : Bytes} {t : UInt8}
    (hs : Spelt i fields tree expression) (h : i.Storable) (he : i.expression.isSome) (ht : 2 < t) :
    Unsupported (decodeBody (i.head ++ (fields ++ (stateBytes i.state ++ (tree ++
      (long i.name ++ (long i.field ++ t :: rest))))))) := by
  obtain ⟨hfields, hlen⟩ := readFields_eq_ok.mpr ⟨hs.fields, h.analyzer⟩
  rw [decodeBody_head hs.version]
  refine .after (take_eq_ok.mpr ⟨?_, (List.append_assoc fields (stateBytes i.state) _).symm⟩) ?_
  · simp [hlen, length_stateBytes]
  refine .after (x := (i.kind, i.unique, i.analyzer)) (by rwa [List.take_left' hlen]) ?_
  refine .after ((readTree_eq_ok hs.version.known).mpr ⟨tree, hs.tree, rfl⟩) ?_
  refine .after (readState_block hlen) (.after ((string_spells _ _ _).mpr ⟨h.name, rfl⟩) ?_)
  refine .after ((string_spells _ _ _).mpr ⟨h.field, rfl⟩) (Unsupported.bind ?_)
  rw [readExpression, if_pos (hs.expressionVersion he)]
  exact .after rfl (readVariant_unknown ht).bind

/-- Where the expression of an index with a tree is recorded. -/
def IndexInfo.expressionAt (i : IndexInfo) : ℕ :=
  15 + width i.family + 15 + (long i.name).length + (long i.field).length

/-- **An option, a state or an expression that is not this build's is refused**, in a record that would
be accepted but for it. -/
theorem decodeBody_unknown {i : IndexInfo} (hi : decodeBody b = .ok i) :
    (∀ x : Bytes, x.length = width i.family → UnknownOption i.family x →
      Unsupported (decodeBody (splice b 15 x))) ∧
    (∀ s : UInt8, 2 < s → Unsupported (decodeBody (splice b (15 + width i.family) [s]))) ∧
    (∀ t : UInt8, i.expression.isSome → 2 < t →
      Unsupported (decodeBody (splice b i.expressionAt [t]))) := by
  obtain ⟨h, henc⟩ := decodeBody_eq_ok.mp hi
  obtain ⟨fields, tree, expression, hs, rfl⟩ := encodeBody_eq_ok.mp henc
  obtain ⟨-, hlen⟩ := readFields_eq_ok.mpr ⟨hs.fields, h.analyzer⟩
  obtain ⟨st, c, hst⟩ : ∃ st c, stateBytes i.state = st :: c := by
    cases i.state <;> exact ⟨_, _, rfl⟩
  have hc : c.length = 8 := by
    have := length_stateBytes i.state
    simp only [hst, List.length_cons] at this
    omega
  rw [IndexInfo.body_eq]
  refine ⟨?_, ?_, ?_⟩
  · intro x hx hunknown
    rw [splice_segment i.head rfl i.length_head (hlen.trans hx.symm)]
    exact decodeBody_unknown_fields hs.version hx (length_stateBytes _) hunknown
  · intro s hlt
    have hsplit : i.head ++ (fields ++ (stateBytes i.state ++ (tree ++ (long i.name ++ (long i.field ++
        expression))))) = (i.head ++ fields) ++ ([st] ++ (c ++ (tree ++ (long i.name ++ (long i.field ++
        expression))))) := by
      simp [hst]
    have hone : [st].length = [s].length := rfl
    rw [splice_segment (i.head ++ fields) hsplit (by simp [i.length_head, hlen]) hone]
    have := @decodeBody_unknown_state (long i.name ++ (long i.field ++ expression)) i fields tree expression c s
      hs h.analyzer hc hlt
    simpa using this
  · intro t he hlt
    have hversion := hs.expressionVersion he
    have htree := hs.length_tree hversion
    obtain ⟨e, y, rfl⟩ := hs.expression_cons he
    have hsplit : i.head ++ (fields ++ (stateBytes i.state ++ (tree ++ (long i.name ++ (long i.field ++
        e :: y))))) = (i.head ++ (fields ++ (stateBytes i.state ++ (tree ++ (long i.name ++ long i.field))))) ++
          ([e] ++ y) := by
      simp
    have hat : (i.head ++ (fields ++ (stateBytes i.state ++ (tree ++ (long i.name ++
        long i.field))))).length = i.expressionAt := by
      simp only [List.length_append, i.length_head, hlen, length_stateBytes, htree, IndexInfo.expressionAt]
      omega
    have hone : [e].length = [t].length := rfl
    rw [splice_segment _ hsplit hat hone]
    simpa using decodeBody_unknown_expression hs h he hlt

end Engine.Descriptor
