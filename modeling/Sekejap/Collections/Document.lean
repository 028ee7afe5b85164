import Sekejap.Lib.Fallible

/-!
# Documents and scalar index keys

A row is a document: a value, or none, for every field name.  A table declares kinds for some of its
fields; `encode_dense_v3` (`core/engine/src/store/dense_v3.rs`) writes a document that fits them, and
reading it back changes a number of a REAL column into its `f64`.  A scalar index files a row under
the key of one field, or of an expression over it (`store/scalar_key.rs`, `collections/catalog.rs`).

* **`derive_encodeDense`** — what is read back is filed under the same key as what was written, so
  that maintenance may take the key of the old row from either.
-/

open Fallible

namespace Engine

/-! ## Values -/

inductive Error where
  | invalid (why : String)
  | corrupt (why : String)
  | notFound (what : String)
  | alreadyExists
  | «constraint» (sqlstate message : String)
  | resourceLimit (why : String)
  | unsupported (what : String)
  | failed
  deriving DecidableEq, Repr

/-- A JSON number: an integer, or an `f64` by its bits. -/
inductive Number where
  | int (n : ℤ)
  | float (bits : ℕ)
  deriving DecidableEq, Repr

inductive Value where
  | null
  | bool (b : Bool)
  | number (n : Number)
  | string (s : String)
  | array (items : List Value)
  | object (members : List (String × Value))

/-- The members of a JSON object. -/
abbrev Document := String → Option Value

inductive Kind where
  | text
  | int
  | real
  | bool
  | json
  | geo
  | point
  | vector (dim : ℕ)
  deriving DecidableEq, Repr

/-- What the engine takes from outside: Unicode lowercasing, the text of a float, and the geometry
and vector codecs, each with what it decodes to. -/
structure Host where
  lowercase : String → String
  floatText : ℕ → String
  cell : Kind → Value → Option Value

/-- The `f64` nearest to a natural number, ties to even, by its bits without the sign. -/
def f64OfNat (m : ℕ) : ℕ :=
  if m = 0 then 0
  else
    let e := Nat.log2 m
    if e ≤ 52 then (e + 1023) * 2 ^ 52 + (m * 2 ^ (52 - e) - 2 ^ 52)
    else
      let shift := e - 52
      let q := m / 2 ^ shift
      let r := m % 2 ^ shift
      let half := 2 ^ (shift - 1)
      let q := if r > half ∨ (r = half ∧ q % 2 = 1) then q + 1 else q
      -- a carry out of the mantissa is one more in the exponent
      (e + 1023) * 2 ^ 52 + (q - 2 ^ 52)

/-- `n as f64` -/
def f64OfInt (n : ℤ) : ℕ := (if n < 0 then 2 ^ 63 else 0) + f64OfNat n.natAbs

/-- `f64::is_finite` -/
def isFinite (bits : ℕ) : Bool := decide (bits / 2 ^ 52 % 2 ^ 11 ≠ 2047)

namespace Value

def isNull : Value → Bool
  | null => true
  | _ => false

def asBool : Value → Option Bool
  | bool b => some b
  | _ => none

def asI64 : Value → Option ℤ
  | number (.int n) => if -2 ^ 63 ≤ n ∧ n < 2 ^ 63 then some n else none
  | _ => none

def asF64 : Value → Option ℕ
  | number (.int n) => some (f64OfInt n)
  | number (.float bits) => some bits
  | _ => none

def asStr : Value → Option String
  | string s => some s
  | _ => none

/-- `Value::get` of a member. -/
def get (member : String) : Value → Option Value
  | object members => members.lookup member
  | _ => none

end Value

/-! ## Scalar keys -/

/-- A scalar index key.  Bytes order and delimit it in the file; `null` is the byte string `[0]`. -/
inductive ScalarKey where
  | null
  | bool (b : Bool)
  | int (n : ℤ)
  | real (bits : ℕ)
  | text (s : String)
  deriving DecidableEq, Repr

/-- `scalar_key::tag` -/
def Kind.isScalar : Kind → Bool
  | bool | int | real | text => true
  | _ => false

/-- `TEXT_LIMIT` -/
def textLimit : ℕ := 1024

/-- A value that has to be there, or the refusal. -/
def required {α : Type} (v : Option α) (why : String) : Except Error α := orElse v (.invalid why)

namespace ScalarKey

/-- `scalar_key::encode` of a value that is neither missing nor null. -/
def ofValue (kind : Kind) (v : Value) : Except Error ScalarKey :=
  match kind with
  | .bool => do
      let b ← required v.asBool "scalar Bool value required"
      pure (.bool b)
  | .int => do
      let n ← required v.asI64 "scalar i64 value required"
      pure (.int n)
  | .real => do
      let bits ← required (v.asF64.filter isFinite) "finite scalar Real value required"
      -- the two zeros share a key
      pure (.real (if bits % 2 ^ 63 = 0 then 0 else bits))
  | .text => do
      let s ← required v.asStr "scalar Text value required"
      refuse (s.utf8ByteSize > textLimit)
        (.invalid "scalar Text index value exceeds 1024 UTF-8 bytes")
      pure (.text s)
  | _ => .error (.invalid "scalar index requires Bool, Int, Real, or Text")

/-- `scalar_key::encode`; missing and null share a key. -/
def encode (kind : Kind) (v : Option Value) : Except Error ScalarKey :=
  if kind.isScalar then
    match v.filter fun v => !v.isNull with
    | none => .ok .null
    | some v => ofValue kind v
  else .error (.invalid "scalar index requires Bool, Int, Real, or Text")

end ScalarKey

/-! ## Index expressions -/

inductive IndexExpr where
  | lower
  | jsonText (member : String)
  deriving DecidableEq, Repr

namespace IndexExpr

/-- The kind of the field an expression reads. -/
def sourceKind : IndexExpr → Kind
  | lower => .text
  | jsonText _ => .json

/-- The kind of the value an expression stores. -/
def storedKind : IndexExpr → Kind
  | lower | jsonText _ => .text

/-- The value an expression index stores for a field. -/
def apply (host : Host) : IndexExpr → Option Value → Option Value
  | lower, some (.string s) => some (.string (host.lowercase s))
  | lower, v => v
  | jsonText member, some document =>
      match document.get member with
      | some (.string s) => some (.string s)
      | some (.number (.int n)) => some (.string (toString n))
      | some (.number (.float bits)) => some (.string (host.floatText bits))
      | some (.bool b) => some (.string (if b then "true" else "false"))
      -- absent, null, object, array
      | _ => some .null
  | jsonText _, none => some .null

end IndexExpr

/-- The key of a row in a scalar index over `field`. -/
def derive (host : Host) (kind : Kind) (field : String) (expression : Option IndexExpr)
    (doc : Document) : Except Error ScalarKey :=
  match expression with
  | none => ScalarKey.encode kind (doc field)
  | some e => ScalarKey.encode kind (e.apply host (doc field))

/-! ## Rows -/

/-- A value of a declared field, as it is read back once it is written. -/
def encodeField (host : Host) (kind : Kind) (v : Value) : Except Error Value :=
  match kind with
  | .text => do
      let s ← required v.asStr "expected text"
      pure (.string s)
  | .int => do
      let n ← required v.asI64 "expected signed integer"
      pure (.number (.int n))
  | .real => do
      let bits ← required (v.asF64.filter isFinite) "expected finite real"
      pure (.number (.float bits))
  | .bool => do
      let b ← required v.asBool "expected bool"
      pure (.bool b)
  | .json => pure v
  | kind => required (host.cell kind v) "expected geometry or vector"

/-- The declared fields of a document, as they are read back. -/
def encodeDense (host : Host) : List (String × Kind) → Document → Except Error Document
  | [], doc => .ok doc
  | (name, kind) :: fields, doc =>
      match doc name with
      | none | some .null => encodeDense host fields doc
      | some v => do
          let v ← encodeField host kind v
          encodeDense host fields (Function.update doc name (some v))

section

variable {host : Host} {kind source : Kind} {v w : Value} {fields : List (String × Kind)}
  {doc stored : Document} {field : String} {expression : Option IndexExpr}

/-- **A value read back has the key of the value written.** -/
lemma ofValue_encodeField (h : encodeField host kind v = .ok w) (hk : kind.isScalar = true) :
    ScalarKey.ofValue kind w = ScalarKey.ofValue kind v := by
  cases kind with
  | text | int | real | bool =>
      simp only [encodeField, bind_eq_ok, required, orElse_eq_ok, pure_eq_ok] at h
      obtain ⟨a, ha, rfl⟩ := h
      cases v with
      | number n =>
          cases n <;> simp_all [ScalarKey.ofValue, Value.asF64, Value.asI64, Value.asStr,
            Value.asBool, required, orElse]
      | _ =>
          simp_all [ScalarKey.ofValue, Value.asF64, Value.asI64, Value.asStr, Value.asBool,
            required, orElse]
  | _ => cases hk

/-- A value read back is not null. -/
lemma isNull_encodeField (h : encodeField host kind v = .ok w) (hk : kind.isScalar = true) :
    w.isNull = false := by
  cases kind with
  | text | int | real | bool =>
      simp only [encodeField, bind_eq_ok, required, orElse_eq_ok, pure_eq_ok] at h
      obtain ⟨a, -, rfl⟩ := h
      rfl
  | _ => cases hk

/-- Other fields are left as they are. -/
lemma encodeDense_of_notMem (h : encodeDense host fields doc = .ok stored)
    (hf : field ∉ fields.map Prod.fst) : stored field = doc field := by
  induction fields generalizing doc with
  | nil => simp only [encodeDense, Except.ok.injEq] at h; rw [h]
  | cons f fields ih =>
      obtain ⟨name, kind⟩ := f
      simp only [List.map_cons, List.mem_cons, not_or] at hf
      rw [encodeDense] at h
      split at h
      · exact ih h hf.2
      · exact ih h hf.2
      · simp only [bind_eq_ok] at h
        obtain ⟨w, -, h⟩ := h
        rw [ih h hf.2, Function.update_of_ne hf.1]

/-- A declared field is read back as it was written, a value through its kind. -/
lemma encodeDense_of_mem (h : encodeDense host fields doc = .ok stored)
    (hn : (fields.map Prod.fst).Nodup) (hf : (field, source) ∈ fields) :
    stored field = doc field ∨ ∃ v w, doc field = some v ∧ v.isNull = false
      ∧ encodeField host source v = .ok w ∧ stored field = some w := by
  induction fields generalizing doc with
  | nil => simp at hf
  | cons f fields ih =>
      obtain ⟨name, kind⟩ := f
      simp only [List.map_cons, List.nodup_cons] at hn
      rw [encodeDense] at h
      rcases List.mem_cons.1 hf with heq | hmem
      · cases heq
        split at h
        · exact Or.inl (encodeDense_of_notMem h hn.1)
        · exact Or.inl (encodeDense_of_notMem h hn.1)
        · rename_i v hnull hdoc
          simp only [bind_eq_ok] at h
          obtain ⟨w, hw, h⟩ := h
          refine Or.inr ⟨v, w, hdoc, ?_, hw, ?_⟩
          · cases v with
            | null => exact absurd rfl hnull
            | _ => rfl
          · rw [encodeDense_of_notMem h hn.1, Function.update_self]
      · have hne : field ≠ name := by
          rintro rfl
          exact hn.1 (List.mem_map_of_mem hmem)
        split at h
        · exact ih h hn.2 hmem
        · exact ih h hn.2 hmem
        · simp only [bind_eq_ok] at h
          obtain ⟨w, -, h⟩ := h
          have := ih h hn.2 hmem
          rwa [Function.update_of_ne hne] at this

/-- The kind an index reads its field as. -/
def sourceKind (kind : Kind) (expression : Option IndexExpr) : Kind :=
  match expression with
  | none => kind
  | some e => e.sourceKind

/-- **What is read back is filed under the key of what was written.** -/
lemma derive_encodeDense (h : encodeDense host fields doc = .ok stored)
    (hn : (fields.map Prod.fst).Nodup) (hf : (field, sourceKind kind expression) ∈ fields)
    (hk : kind.isScalar = true) :
    derive host kind field expression stored = derive host kind field expression doc := by
  rcases encodeDense_of_mem h hn hf with heq | ⟨v, w, hv, hnull, hw, hs⟩
  · cases expression <;> simp [derive, heq]
  · cases expression with
    | none =>
        have hw' : encodeField host kind v = .ok w := hw
        have hnull' := isNull_encodeField hw' hk
        simp [derive, ScalarKey.encode, hv, hs, hk, Option.filter_some, hnull, hnull',
          ofValue_encodeField hw' hk]
    | some e =>
        -- an expression reads TEXT or JSONB, and neither changes
        have hvw : w = v := by
          cases e with
          | lower =>
              simp only [sourceKind, IndexExpr.sourceKind, encodeField, bind_eq_ok, required,
                orElse_eq_ok, pure_eq_ok] at hw
              obtain ⟨s, hs, rfl⟩ := hw
              cases v <;> simp_all [Value.asStr]
          | jsonText member =>
              simp only [sourceKind, IndexExpr.sourceKind, encodeField, pure_eq_ok] at hw
              exact hw.symm
        simp [derive, hv, hs, hvw]

end

end Engine
