import Sekejap.Collections.Packet

/-!
# Column rules in a catalog record

A column rule is a default, a NOT NULL flag, a REFERENCES target, or several of them; a default is a
generator or a constant (`core/engine/src/collections/column_rules.rs`).  The key of a table may have a
column of its own and a default, which is recorded as a rule of `_key`.

A constant may be spelt in several ways: a JSON text need not be the one that would be written, and the
bits of a float need not be finite.  So what is read is described over spellings — a `Constant`, a
`ColumnRule Constant`, a `KeyTail` — and `Plain` says of each which of them is ever written.

* **`decodeRule_reads`**, **`decodeKeySpec_reads`** — the bytes that are accepted are those of a
  spelling, and what is read is its meaning.
* **`encodeRule_eq_ok`**, **`encodeKeySpec_eq_ok`** — what is written is a spelling, of what it means.
-/

open Bytes

open Fallible

open Reading

open Engine.Packet

namespace Engine.ColumnRules

/-- `serde_json`: the text of a value, and the value of a text. -/
structure Serde where
  text : Value → String
  parse : String → Option Value

/-- Sixteen bytes. -/
structure Uuid where
  bytes : Bytes
  size : bytes.length = 16
  deriving DecidableEq, Repr

/-- A default, its constants of type `α`. -/
inductive DefaultValue (α : Type) where
  | now
  | uuid4
  | uuid5 (space : Uuid) (name : String)
  | ulid
  | constant (value : α)

structure ColumnRule (α : Type) where
  default : Option (DefaultValue α)
  notNull : Bool
  references : Option String

/-- It sets something. -/
def ColumnRule.Decides {α : Type} (r : ColumnRule α) : Prop :=
  ¬ (r.default.isNone ∧ r.notNull = false ∧ r.references.isNone)

instance {α : Type} (r : ColumnRule α) : Decidable r.Decides := inferInstanceAs (Decidable (¬ _))

structure KeySpec where
  /-- the declared column that supplies the key -/
  column : Option String
  default : Option (DefaultValue Value)

/-! ## Constants -/

/-- `CONSTANT_MAX` -/
def constantMax : ℕ := 4096

/-- A constant as a record spells it. -/
inductive Constant where
  | no
  | yes
  | int (n : Int64)
  | real (bits : UInt64)
  | text (s : String)
  | json (s : String)
  deriving DecidableEq

namespace Constant

def bytes : Constant → Bytes
  | no => [1]
  | yes => [2]
  | int n => 3 :: bigEndian 8 n.toUInt64.toNat
  | real bits => 4 :: bigEndian 8 bits.toNat
  | text s => 5 :: long s
  | json s => 6 :: long s

/-- What a constant means; the bits of no finite float mean null. -/
def value (serde : Serde) : Constant → Option Value
  | no => some (.bool false)
  | yes => some (.bool true)
  | int n => some (.number (.int n.toInt))
  | real bits => some (if isFinite bits.toNat then .number (.float bits.toNat) else .null)
  | text s => some (.string s)
  | json s => serde.parse s

/-- A text is not too long. -/
def Fits : Constant → Prop
  | text s | json s => (utf8 s).length ≤ constantMax
  | _ => True

end Constant

/-- A text of a constant. -/
def sizedText (tag : UInt8) (s : String) : Except Error Bytes := do
  refuse (constantMax < (utf8 s).length) (.invalid "a constant DEFAULT is at most 4096 bytes")
  pure (tag :: long s)

def encodeConstant (serde : Serde) (value : Value) : Except Error Bytes :=
  match value with
  | .bool false => .ok [1]
  | .bool true => .ok [2]
  | .number n =>
      match (Value.number n).asI64 with
      | some i => .ok (3 :: bigEndian 8 (Int64.ofInt i).toUInt64.toNat)
      | none => do
          let f ← orElse (Value.number n).asF64 (.invalid "a constant DEFAULT number")
          pure (4 :: bigEndian 8 f)
  | .string s => sizedText 5 s
  | .array items => sizedText 6 (serde.text (.array items))
  | .object members => sizedText 6 (serde.text (.object members))
  | .null => .error (.invalid "DEFAULT NULL is no default, not a constant")

/-- What a record that ends too soon is refused with. -/
def tailError : Error := .corrupt "catalog tail"

/-- The text of a constant. -/
def constantText : Reader Error String := fun b => do
  let (n, b) ← number tailError 2 b
  refuse (constantMax < n) (.corrupt "catalog constant default length")
  Packet.text tailError n b

def decodeConstant (serde : Serde) : Reader Error Value := fun b => do
  let (tag, b) ← byte tailError b
  if tag = 1 then pure (.bool false, b)
  else if tag = 2 then pure (.bool true, b)
  else if tag = 3 then do
    let (n, b) ← number tailError 8 b
    pure (.number (.int (UInt64.ofNat n).toInt64.toInt), b)
  else if tag = 4 then do
    let (bits, b) ← number tailError 8 b
    pure (if isFinite bits then .number (.float bits) else .null, b)
  else if tag = 5 then do
    let (s, b) ← constantText b
    pure (.string s, b)
  else if tag = 6 then do
    let (s, b) ← constantText b
    let v ← orElse (serde.parse s) (.corrupt "catalog constant default")
    pure (v, b)
  else throw (.corrupt "catalog constant default")

variable {serde : Serde} {b rest : Bytes}

lemma constantText_spells : Spells constantText long fun s => (utf8 s).length ≤ constantMax := by
  intro b s rest
  simp only [constantText, bind_eq_ok, Prod.exists, number_eq_ok, refuse_eq_ok, exists_const, text_eq_ok,
    not_lt]
  constructor
  · rintro ⟨n, _, ⟨-, rfl⟩, hle, rfl, rfl⟩
    exact ⟨hle, by rw [long, List.append_assoc]⟩
  · rintro ⟨hle, rfl⟩
    refine ⟨_, _, ⟨?_, by rw [long, List.append_assoc]⟩, hle, rfl, rfl⟩
    simp only [constantMax] at hle
    omega

/-- **A constant is read as what its spelling means.** -/
lemma decodeConstant_reads :
    Reads (decodeConstant serde) Constant.bytes fun w v => w.Fits ∧ w.value serde = some v := by
  intro b v rest
  rw [decodeConstant]
  simp only [bind_eq_ok, Prod.exists, byte_eq_ok]
  constructor
  · rintro ⟨tag, b, rfl, h⟩
    split_ifs at h with h1 h2 h3 h4 h5 h6
    · simp only [pure_eq_ok, Prod.mk.injEq] at h
      obtain ⟨rfl, rfl⟩ := h
      exact ⟨.no, ⟨trivial, rfl⟩, by rw [h1]; rfl⟩
    · simp only [pure_eq_ok, Prod.mk.injEq] at h
      obtain ⟨rfl, rfl⟩ := h
      exact ⟨.yes, ⟨trivial, rfl⟩, by rw [h2]; rfl⟩
    · simp only [bind_eq_ok, Prod.exists, number_eq_ok, pure_eq_ok, Prod.mk.injEq] at h
      obtain ⟨n, _, ⟨hn, rfl⟩, rfl, rfl⟩ := h
      have hnat : (UInt64.ofNat n).toNat = n := Nat.mod_eq_of_lt hn
      refine ⟨.int (UInt64.ofNat n).toInt64, ⟨trivial, rfl⟩, ?_⟩
      rw [Constant.bytes, UInt64.toUInt64_toInt64, hnat, h3]
      rfl
    · simp only [bind_eq_ok, Prod.exists, number_eq_ok, pure_eq_ok, Prod.mk.injEq] at h
      obtain ⟨n, _, ⟨hn, rfl⟩, rfl, rfl⟩ := h
      have hnat : (UInt64.ofNat n).toNat = n := Nat.mod_eq_of_lt hn
      refine ⟨.real (UInt64.ofNat n), ⟨trivial, by rw [Constant.value, hnat]⟩, ?_⟩
      rw [Constant.bytes, hnat, h4]
      rfl
    · simp only [bind_eq_ok, Prod.exists, constantText_spells _ _ _, pure_eq_ok, Prod.mk.injEq] at h
      obtain ⟨s, _, ⟨hs, rfl⟩, rfl, rfl⟩ := h
      exact ⟨.text s, ⟨hs, rfl⟩, by rw [h5]; rfl⟩
    · simp only [bind_eq_ok, Prod.exists, constantText_spells _ _ _, orElse_eq_ok, pure_eq_ok,
        Prod.mk.injEq] at h
      obtain ⟨s, _, ⟨hs, rfl⟩, v, hv, rfl, rfl⟩ := h
      exact ⟨.json s, ⟨hs, hv⟩, by rw [h6]; rfl⟩
  · rintro ⟨w, ⟨hfits, hv⟩, rfl⟩
    cases w with
    | no =>
        cases hv
        exact ⟨1, rest, rfl, rfl⟩
    | yes =>
        cases hv
        exact ⟨2, rest, rfl, rfl⟩
    | int n =>
        cases hv
        have hnum : number tailError 8 (bigEndian 8 n.toUInt64.toNat ++ rest) = .ok (n.toUInt64.toNat, rest) :=
          number_eq_ok.mpr ⟨n.toUInt64.toNat_lt, rfl⟩
        refine ⟨3, _, rfl, ?_⟩
        simp [hnum, bind, Except.bind, pure, Except.pure]
    | real bits =>
        have hnum : number tailError 8 (bigEndian 8 bits.toNat ++ rest) = .ok (bits.toNat, rest) :=
          number_eq_ok.mpr ⟨bits.toNat_lt, rfl⟩
        refine ⟨4, _, rfl, ?_⟩
        simpa [hnum, Constant.value, bind, Except.bind, pure, Except.pure] using hv
    | text s =>
        cases hv
        have hread := (constantText_spells _ s rest).mpr ⟨hfits, rfl⟩
        refine ⟨5, _, rfl, ?_⟩
        simp [hread, bind, Except.bind, pure, Except.pure]
    | json s =>
        have hread := (constantText_spells _ s rest).mpr ⟨hfits, rfl⟩
        have hparse : serde.parse s = some v := hv
        refine ⟨6, _, rfl, ?_⟩
        simp [hread, hparse, orElse, bind, Except.bind, pure, Except.pure]

/-- How a constant is written. -/
def Constant.of (serde : Serde) : Value → Constant
  | .bool false => no
  | .bool true => yes
  | .number (.int n) =>
      if -2 ^ 63 ≤ n ∧ n < 2 ^ 63 then int (Int64.ofInt n) else real (UInt64.ofNat (f64OfInt n))
  | .number (.float bits) => real (UInt64.ofNat bits)
  | .string s => text s
  | v => json (serde.text v)

lemma sizedText_eq_ok {tag : UInt8} {s : String} :
    sizedText tag s = .ok b ↔ (utf8 s).length ≤ constantMax ∧ b = tag :: long s := by
  simp only [sizedText, bind_eq_ok, refuse_eq_ok, exists_const, pure_eq_ok, not_lt]
  rw [eq_comm (a := b)]

lemma bigEndian_mod (n x : ℕ) : bigEndian n (x % 256 ^ n) = bigEndian n x := by
  have h : bigEndianNat (bigEndian n x) = x % 256 ^ n := by
    rw [bigEndianNat, bigEndian, List.reverse_reverse, leNat_leBytes]
  rw [← h, bigEndian_bigEndianNat (length_bigEndian n x)]

/-- **A constant is written as one of its spellings.** -/
lemma encodeConstant_eq_ok {v : Value} : encodeConstant serde v = .ok b ↔
    (v.isNull = false ∧ (Constant.of serde v).Fits) ∧ b = (Constant.of serde v).bytes := by
  cases v with
  | null => simp [encodeConstant, Value.isNull]
  | bool x => cases x <;> simp [encodeConstant, Constant.of, Constant.Fits, Constant.bytes, Value.isNull, eq_comm]
  | number n =>
      have hreal : ∀ x : ℕ, (.ok (4 :: bigEndian 8 x) : Except Error Bytes) = .ok b ↔
          ((Value.number n).isNull = false ∧ (Constant.real (UInt64.ofNat x)).Fits) ∧
            b = (Constant.real (UInt64.ofNat x)).bytes := by
        intro x
        have hbits : bigEndian 8 (UInt64.ofNat x).toNat = bigEndian 8 x := bigEndian_mod 8 x
        rw [Constant.bytes, hbits, Except.ok.injEq, eq_comm]
        exact (and_iff_right ⟨rfl, trivial⟩).symm
      cases n with
      | int n =>
          by_cases hn : -2 ^ 63 ≤ n ∧ n < 2 ^ 63
          · have hof : Constant.of serde (.number (.int n)) = .int (Int64.ofInt n) := if_pos hn
            have henc : encodeConstant serde (.number (.int n)) =
                .ok (3 :: bigEndian 8 (Int64.ofInt n).toUInt64.toNat) := by
              simp only [encodeConstant, Value.asI64, if_pos hn]
            rw [hof, henc, Except.ok.injEq, eq_comm]
            exact (and_iff_right ⟨rfl, trivial⟩).symm
          · have hof : Constant.of serde (.number (.int n)) = .real (UInt64.ofNat (f64OfInt n)) := if_neg hn
            have henc : encodeConstant serde (.number (.int n)) = .ok (4 :: bigEndian 8 (f64OfInt n)) := by
              simp only [encodeConstant, Value.asI64, if_neg hn]
              rfl
            rw [hof, henc]
            exact hreal _
      | float bits => exact hreal bits
  | string s =>
      simp only [encodeConstant, sizedText_eq_ok, Value.isNull, true_and, Constant.of, Constant.Fits,
        Constant.bytes]
  | array items =>
      simp only [encodeConstant, sizedText_eq_ok, Value.isNull, true_and, Constant.of, Constant.Fits,
        Constant.bytes]
  | object members =>
      simp only [encodeConstant, sizedText_eq_ok, Value.isNull, true_and, Constant.of, Constant.Fits,
        Constant.bytes]

/-- A constant that its spelling means: an `i64`, a finite float, a truth value, a text, or an array or
an object whose text is read back. -/
def StorableConstant (serde : Serde) : Value → Prop
  | .null => False
  | .bool _ | .string _ => True
  | .number (.int n) => -2 ^ 63 ≤ n ∧ n < 2 ^ 63
  | .number (.float bits) => bits < 2 ^ 64 ∧ isFinite bits
  | v => serde.parse (serde.text v) = some v

lemma value_of {v : Value} (h : StorableConstant serde v) : (Constant.of serde v).value serde = some v := by
  cases v with
  | null => cases h
  | bool x => cases x <;> rfl
  | number n =>
      cases n with
      | int n =>
          have hn : -2 ^ 63 ≤ n ∧ n < 2 ^ 63 := h
          rw [Constant.of, if_pos hn, Constant.value, Int64.toInt_ofInt_of_le hn.1 hn.2]
      | float bits =>
          have hnat : (UInt64.ofNat bits).toNat = bits := Nat.mod_eq_of_lt h.1
          rw [Constant.of, Constant.value, hnat, if_pos h.2]
  | string s => rfl
  | array items => exact h
  | object members => exact h

/-- A constant whose spelling is the one that is written. -/
def Constant.Plain (serde : Serde) : Constant → Prop
  | real bits => isFinite bits.toNat
  | json s => ∀ v, serde.parse s = some v → v.isNull = false ∧ Constant.of serde v = json s
  | _ => True

lemma Constant.Plain.of_value {w : Constant} {v : Value} (h : w.Plain serde) (hv : w.value serde = some v) :
    v.isNull = false ∧ Constant.of serde v = w := by
  cases w with
  | no =>
      cases hv
      exact ⟨rfl, rfl⟩
  | yes =>
      cases hv
      exact ⟨rfl, rfl⟩
  | int n =>
      cases hv
      have hn : -2 ^ 63 ≤ n.toInt ∧ n.toInt < 2 ^ 63 := ⟨n.le_toInt, n.toInt_lt⟩
      exact ⟨rfl, by rw [Constant.of, if_pos hn, Int64.ofInt_toInt]⟩
  | real bits =>
      have hfin : isFinite bits.toNat = true := h
      rw [Constant.value, if_pos hfin] at hv
      cases hv
      exact ⟨rfl, by rw [Constant.of, UInt64.ofNat_toNat]⟩
  | text s =>
      cases hv
      exact ⟨rfl, rfl⟩
  | json s => exact h v hv

/-! ## Defaults -/

namespace DefaultValue

variable {α β : Type}

def map (g : α → β) : DefaultValue α → DefaultValue β
  | now => now
  | uuid4 => uuid4
  | uuid5 space name => uuid5 space name
  | ulid => ulid
  | constant v => constant (g v)

def bytes : DefaultValue Constant → Bytes
  | now => [1]
  | uuid4 => [2]
  | uuid5 space name => 3 :: (space.bytes ++ short name)
  | ulid => [4]
  | constant c => 5 :: c.bytes

def Fits : DefaultValue Constant → Prop
  | uuid5 _ name => (utf8 name).length ≤ 255
  | constant c => c.Fits
  | _ => True

/-- What a spelling of a default means. -/
inductive Means (serde : Serde) : DefaultValue Constant → DefaultValue Value → Prop
  | now : Means serde .now .now
  | uuid4 : Means serde .uuid4 .uuid4
  | uuid5 (space : Uuid) (name : String) : Means serde (.uuid5 space name) (.uuid5 space name)
  | ulid : Means serde .ulid .ulid
  | constant {c : Constant} {v : Value} (h : c.value serde = some v) : Means serde (.constant c) (.constant v)

/-- A default as it is written. -/
def of (serde : Serde) (d : DefaultValue Value) : DefaultValue Constant := d.map (Constant.of serde)

/-- A default that can be written. -/
def Writable (serde : Serde) : DefaultValue Value → Prop
  | constant v => v.isNull = false ∧ (Constant.of serde v).Fits
  | uuid5 _ name => (utf8 name).length ≤ 255
  | _ => True

def Storable (serde : Serde) : DefaultValue Value → Prop
  | constant v => StorableConstant serde v
  | _ => True

def Plain (serde : Serde) : DefaultValue Constant → Prop
  | constant c => c.Plain serde
  | _ => True

lemma Writable.fits {d : DefaultValue Value} (h : d.Writable serde) : (of serde d).Fits := by
  cases d with
  | constant v => exact h.2
  | _ => exact h

lemma means_of {d : DefaultValue Value} (h : d.Storable serde) : (of serde d).Means serde d := by
  cases d with
  | now => exact .now
  | uuid4 => exact .uuid4
  | uuid5 space name => exact .uuid5 space name
  | ulid => exact .ulid
  | constant v => exact .constant (value_of h)

lemma Plain.of_means {w : DefaultValue Constant} {d : DefaultValue Value} (h : w.Plain serde)
    (hd : w.Means serde d) (hf : w.Fits) : d.Writable serde ∧ of serde d = w := by
  cases hd with
  | now => exact ⟨trivial, rfl⟩
  | uuid4 => exact ⟨trivial, rfl⟩
  | uuid5 space name => exact ⟨hf, rfl⟩
  | ulid => exact ⟨trivial, rfl⟩
  | @constant c v hv =>
      obtain ⟨hnull, heq⟩ := Constant.Plain.of_value h hv
      exact ⟨⟨hnull, by rw [heq]; exact hf⟩, congrArg DefaultValue.constant heq⟩

end DefaultValue

def encodeDefault (serde : Serde) : DefaultValue Value → Except Error Bytes
  | .now => .ok [1]
  | .ulid => .ok [4]
  | .uuid4 => .ok [2]
  | .uuid5 space name => do
      refuse (255 < (utf8 name).length) (.invalid "a uuid5 name is at most 255 bytes")
      pure (3 :: (space.bytes ++ short name))
  | .constant value => do
      let b ← encodeConstant serde value
      pure (5 :: b)

def uuid : Reader Error Uuid := fun b =>
  if h : 16 ≤ b.length then .ok (⟨b.take 16, by simp [h]⟩, b.drop 16) else .error tailError

def decodeDefault (serde : Serde) : Reader Error (DefaultValue Value) := fun b => do
  let (tag, b) ← byte tailError b
  if tag = 1 then pure (.now, b)
  else if tag = 2 then pure (.uuid4, b)
  else if tag = 4 then pure (.ulid, b)
  else if tag = 5 then do
    let (v, b) ← decodeConstant serde b
    pure (.constant v, b)
  else if tag = 3 then do
    let (space, b) ← uuid b
    let (name, b) ← shortText tailError b
    pure (.uuid5 space name, b)
  else throw (.corrupt "catalog column rule generator")

lemma encodeDefault_eq_ok {d : DefaultValue Value} : encodeDefault serde d = .ok b ↔
    d.Writable serde ∧ b = (d.of serde).bytes := by
  cases d with
  | uuid5 space name =>
      simp only [encodeDefault, bind_eq_ok, refuse_eq_ok, exists_const, pure_eq_ok, not_lt]
      rw [eq_comm (b := b)]
      rfl
  | constant v =>
      simp only [encodeDefault, bind_eq_ok, encodeConstant_eq_ok, pure_eq_ok]
      constructor
      · rintro ⟨x, ⟨hw, rfl⟩, rfl⟩
        exact ⟨hw, rfl⟩
      · rintro ⟨hw, rfl⟩
        exact ⟨_, ⟨hw, rfl⟩, rfl⟩
  | _ => simp [encodeDefault, DefaultValue.Writable, DefaultValue.of, DefaultValue.map, DefaultValue.bytes,
      eq_comm]

lemma uuid_spells : Spells uuid Uuid.bytes fun _ => True := by
  intro b x rest
  unfold uuid
  split_ifs with h
  · simp only [Except.ok.injEq, Prod.mk.injEq, true_and]
    constructor
    · rintro ⟨rfl, rfl⟩
      exact (List.take_append_drop 16 b).symm
    · rintro rfl
      obtain ⟨y, hy⟩ := x
      simp [List.take_left' hy, List.drop_left' hy]
  · simp only [true_and, false_iff]
    rintro rfl
    exact h (by simp [x.size])

/-- **A default is read as what its spelling means.** -/
lemma decodeDefault_reads :
    Reads (decodeDefault serde) DefaultValue.bytes fun w d => w.Fits ∧ w.Means serde d := by
  intro b d rest
  rw [decodeDefault]
  simp only [bind_eq_ok, Prod.exists, byte_eq_ok]
  constructor
  · rintro ⟨tag, b, rfl, h⟩
    split_ifs at h with h1 h2 h4 h5 h3
    · simp only [pure_eq_ok, Prod.mk.injEq] at h
      obtain ⟨rfl, rfl⟩ := h
      exact ⟨.now, ⟨trivial, .now⟩, by rw [h1]; rfl⟩
    · simp only [pure_eq_ok, Prod.mk.injEq] at h
      obtain ⟨rfl, rfl⟩ := h
      exact ⟨.uuid4, ⟨trivial, .uuid4⟩, by rw [h2]; rfl⟩
    · simp only [pure_eq_ok, Prod.mk.injEq] at h
      obtain ⟨rfl, rfl⟩ := h
      exact ⟨.ulid, ⟨trivial, .ulid⟩, by rw [h4]; rfl⟩
    · simp only [bind_eq_ok, Prod.exists, decodeConstant_reads _ _ _, pure_eq_ok, Prod.mk.injEq] at h
      obtain ⟨v, _, ⟨c, ⟨hf, hv⟩, rfl⟩, rfl, rfl⟩ := h
      exact ⟨.constant c, ⟨hf, .constant hv⟩, by rw [h5]; rfl⟩
    · simp only [bind_eq_ok, Prod.exists, uuid_spells _ _ _, shortText_spells _ _ _, pure_eq_ok,
        Prod.mk.injEq] at h
      obtain ⟨space, _, ⟨-, rfl⟩, name, _, ⟨hname, rfl⟩, rfl, rfl⟩ := h
      refine ⟨.uuid5 space name, ⟨hname, .uuid5 space name⟩, ?_⟩
      rw [h3, DefaultValue.bytes, List.cons_append, List.append_assoc]
  · rintro ⟨w, ⟨hfits, hd⟩, rfl⟩
    cases hd with
    | now => exact ⟨1, rest, rfl, rfl⟩
    | uuid4 => exact ⟨2, rest, rfl, rfl⟩
    | ulid => exact ⟨4, rest, rfl, rfl⟩
    | uuid5 space name =>
        have hspace := (uuid_spells _ space (short name ++ rest)).mpr ⟨trivial, rfl⟩
        have hname := (@shortText_spells tailError _ name rest).mpr ⟨hfits, rfl⟩
        refine ⟨3, _, rfl, ?_⟩
        simp [hspace, hname, bind, Except.bind, pure, Except.pure]
    | @constant c v hv =>
        have hread := (decodeConstant_reads _ v rest).mpr ⟨c, ⟨hfits, hv⟩, rfl⟩
        refine ⟨5, _, rfl, ?_⟩
        simp [hread, bind, Except.bind, pure, Except.pure]

/-! ## Rules -/

/-- `RULE_NOT_NULL`, `RULE_HAS_DEFAULT` and `RULE_HAS_REFERENCES` -/
def ruleFlags (notNull hasDefault hasReferences : Bool) : UInt8 :=
  (if notNull then 1 else 0) ||| (if hasDefault then 2 else 0) ||| (if hasReferences then 4 else 0)

lemma ruleFlags_bits : ∀ x y z : Bool, ruleFlags x y z &&& ~~~ 7 = 0 ∧ (ruleFlags x y z &&& 1 ≠ 0 ↔ x) ∧
    (ruleFlags x y z &&& 2 ≠ 0 ↔ y) ∧ (ruleFlags x y z &&& 4 ≠ 0 ↔ z) := by
  decide

lemma eq_ruleFlags_of_lt : ∀ n < 256, UInt8.ofNat n &&& ~~~ 7 = 0 → UInt8.ofNat n =
    ruleFlags (decide (UInt8.ofNat n &&& 1 ≠ 0)) (decide (UInt8.ofNat n &&& 2 ≠ 0))
      (decide (UInt8.ofNat n &&& 4 ≠ 0)) := by
  decide +kernel

lemma eq_ruleFlags {x : UInt8} (h : x &&& ~~~ 7 = 0) :
    x = ruleFlags (decide (x &&& 1 ≠ 0)) (decide (x &&& 2 ≠ 0)) (decide (x &&& 4 ≠ 0)) := by
  have := eq_ruleFlags_of_lt x.toNat x.toNat_lt
  rw [UInt8.ofNat_toNat] at this
  exact this h

/-- A rule of a field, as a record spells it. -/
abbrev FieldRule (α : Type) := String × ColumnRule α

def FieldRule.bytes (r : FieldRule Constant) : Bytes :=
  short r.1 ++ (ruleFlags r.2.notNull r.2.default.isSome r.2.references.isSome ::
    (optionBytes DefaultValue.bytes r.2.default ++ optionBytes short r.2.references))

/-- What is written of an optional part. -/
def writeOption {α : Type} (g : α → Except Error Bytes) : Option α → Except Error Bytes
  | none => .ok []
  | some x => g x

def encodeRule (serde : Serde) (r : FieldRule Value) : Except Error Bytes := do
  let field ← nameBytes "a column rule names a field of 1..255 bytes" r.1
  refuse (¬ r.2.Decides)
    (.invalid s!"the column rule for {r.1} sets neither a DEFAULT, NOT NULL nor REFERENCES")
  let default ← writeOption (encodeDefault serde) r.2.default
  let references ←
    writeOption (nameBytes "a REFERENCES target names a collection of 1..255 bytes") r.2.references
  pure (field ++ (ruleFlags r.2.notNull r.2.default.isSome r.2.references.isSome :: (default ++ references)))

def decodeRule (serde : Serde) : Reader Error (FieldRule Value) := fun b => do
  let (field, b) ← shortText tailError b
  let (flags, b) ← byte tailError b
  refuse (field = "" ∨ flags &&& ~~~ 7 ≠ 0) (.corrupt "catalog column rule entry")
  let (default, b) ← optional (flags &&& 2 ≠ 0) (decodeDefault serde) b
  let (references, b) ← optional (flags &&& 4 ≠ 0)
    (nameText tailError (.corrupt "catalog column rule REFERENCES target")) b
  let rule : ColumnRule Value := { default, notNull := decide (flags &&& 1 ≠ 0), references }
  refuse (¬ rule.Decides) (.corrupt "catalog column rule decides nothing")
  pure ((field, rule), b)

namespace FieldRule

structure Fits (r : FieldRule Constant) : Prop where
  field : IsName r.1
  decides : r.2.Decides
  default : ∀ d ∈ r.2.default, d.Fits
  references : ∀ t ∈ r.2.references, IsName t

/-- What the spelling of a rule means. -/
structure Means (serde : Serde) (w : FieldRule Constant) (r : FieldRule Value) : Prop where
  field : w.1 = r.1
  default : Option.Rel (DefaultValue.Means serde) w.2.default r.2.default
  notNull : w.2.notNull = r.2.notNull
  references : w.2.references = r.2.references

structure Writable (serde : Serde) (r : FieldRule Value) : Prop where
  field : IsName r.1
  decides : r.2.Decides
  default : ∀ d ∈ r.2.default, d.Writable serde
  references : ∀ t ∈ r.2.references, IsName t

def of (serde : Serde) (r : FieldRule Value) : FieldRule Constant :=
  (r.1, { default := r.2.default.map (DefaultValue.of serde), notNull := r.2.notNull,
          references := r.2.references })

def Storable (serde : Serde) (r : FieldRule Value) : Prop := ∀ d ∈ r.2.default, d.Storable serde

def Plain (serde : Serde) (r : FieldRule Constant) : Prop := ∀ d ∈ r.2.default, d.Plain serde

end FieldRule

lemma writeOption_eq_ok {α : Type} {g : α → Except Error Bytes} {s : α → Bytes} {P : α → Prop}
    (h : ∀ x b, g x = .ok b ↔ P x ∧ b = s x) {o : Option α} :
    writeOption g o = .ok b ↔ (∀ x ∈ o, P x) ∧ b = optionBytes s o := by
  cases o with
  | none => simp [writeOption, optionBytes, eq_comm]
  | some x => simp [writeOption, optionBytes, h]

lemma optionBytes_map {α ω : Type} {s : ω → Bytes} {g : α → ω} {o : Option α} :
    optionBytes s (o.map g) = optionBytes (fun x => s (g x)) o := by
  cases o <;> rfl

/-- **A rule is written as one of its spellings.** -/
lemma encodeRule_eq_ok {r : FieldRule Value} :
    encodeRule serde r = .ok b ↔ r.Writable serde ∧ b = (r.of serde).bytes := by
  have hdefault : ∀ {x : Bytes}, writeOption (encodeDefault serde) r.2.default = .ok x ↔
      (∀ d ∈ r.2.default, d.Writable serde) ∧
        x = optionBytes (fun d => (DefaultValue.of serde d).bytes) r.2.default :=
    writeOption_eq_ok fun _ _ => encodeDefault_eq_ok
  have hrefs : ∀ {x : Bytes}, writeOption (nameBytes "a REFERENCES target names a collection of 1..255 bytes")
      r.2.references = .ok x ↔ (∀ t ∈ r.2.references, IsName t) ∧ x = optionBytes short r.2.references :=
    writeOption_eq_ok fun _ _ => nameBytes_eq_ok
  simp only [encodeRule, bind_eq_ok, nameBytes_eq_ok, refuse_eq_ok, exists_const, hdefault, hrefs, pure_eq_ok,
    not_not]
  have hbytes : (r.of serde).bytes = short r.1 ++ (ruleFlags r.2.notNull r.2.default.isSome
      r.2.references.isSome :: (optionBytes (fun d => (DefaultValue.of serde d).bytes) r.2.default ++
        optionBytes short r.2.references)) := by
    simp [FieldRule.bytes, FieldRule.of, optionBytes_map]
  rw [hbytes]
  constructor
  · rintro ⟨_, ⟨hf, rfl⟩, hd, _, ⟨hdef, rfl⟩, _, ⟨href, rfl⟩, rfl⟩
    exact ⟨⟨hf, hd, hdef, href⟩, rfl⟩
  · rintro ⟨⟨hf, hd, hdef, href⟩, rfl⟩
    exact ⟨_, ⟨hf, rfl⟩, hd, _, ⟨hdef, rfl⟩, _, ⟨href, rfl⟩, rfl⟩

lemma FieldRule.Means.decides {w : FieldRule Constant} {r : FieldRule Value} (h : w.Means serde r) :
    w.2.Decides ↔ r.2.Decides := by
  have hnone : w.2.default.isNone = r.2.default.isNone := by
    have := h.default
    cases hw : w.2.default <;> cases hr : r.2.default <;> rw [hw, hr] at this <;> cases this <;> rfl
  rw [ColumnRule.Decides, ColumnRule.Decides, hnone, h.notNull, h.references]

/-- **A rule is read as what its spelling means.** -/
lemma decodeRule_reads :
    Reads (decodeRule serde) FieldRule.bytes fun w r => w.Fits ∧ w.Means serde r := by
  intro b r rest
  simp only [decodeRule, bind_eq_ok, Prod.exists, shortText_spells _ _ _, byte_eq_ok, refuse_eq_ok,
    exists_const, (decodeDefault_reads.optional _) _ _ _, (nameText_spells.optional _) _ _ _, pure_eq_ok,
    Prod.mk.injEq, not_or, not_not]
  constructor
  · rintro ⟨field, _, ⟨hfield, rfl⟩, flags, _, rfl, ⟨hne, hflags⟩, d, _, ⟨w, ⟨hsome, hrel⟩, rfl⟩, t, _,
      ⟨⟨htsome, ht⟩, rfl⟩, hdecides, rfl, rfl⟩
    obtain ⟨hdef, hrel⟩ := rel_and.mp hrel
    set rule : ColumnRule Constant :=
      { default := w, notNull := decide (flags &&& 1 ≠ 0), references := t } with hrule
    have hmeans : FieldRule.Means serde (field, rule)
        (field, { default := d, notNull := decide (flags &&& 1 ≠ 0), references := t }) :=
      ⟨rfl, hrel, rfl, rfl⟩
    refine ⟨field, rule, ⟨⟨⟨hne, hfield⟩, hmeans.decides.mpr hdecides, hdef, ht⟩, hmeans⟩, ?_⟩
    have heq : flags = ruleFlags (decide (flags &&& 1 ≠ 0)) w.isSome t.isSome := by
      have hw : decide (flags &&& 2 ≠ 0) = w.isSome := by
        rw [Bool.eq_iff_iff, decide_eq_true_iff, hsome]
      have htt : decide (flags &&& 4 ≠ 0) = t.isSome := by
        rw [Bool.eq_iff_iff, decide_eq_true_iff, htsome]
      rw [← hw, ← htt]
      exact eq_ruleFlags hflags
    simp only [FieldRule.bytes, hrule, ← heq, List.append_assoc, List.cons_append]
  · rintro ⟨field, w, ⟨hfits, hmeans⟩, rfl⟩
    obtain ⟨hmask, h1, h2, h4⟩ := ruleFlags_bits w.notNull w.default.isSome w.references.isSome
    obtain ⟨rfield, d, notNull, references⟩ := r
    obtain ⟨hf, hdefault, hnotNull, hreferences⟩ := hmeans
    have hdecides := (⟨hf, hdefault, hnotNull, hreferences⟩ : FieldRule.Means serde (field, w)
      (rfield, ⟨d, notNull, references⟩)).decides.mp hfits.decides
    simp only at hf hdefault hnotNull hreferences
    subst hf hnotNull hreferences
    refine ⟨field, _, ⟨hfits.field.2, by rw [FieldRule.bytes, List.append_assoc]; rfl⟩, _, _, rfl,
      ⟨hfits.field.1, hmask⟩, d, _, ⟨w.default, ⟨h2.symm, rel_and.mpr ⟨hfits.default, hdefault⟩⟩,
        List.append_assoc _ _ _⟩, w.references, rest, ⟨⟨h4.symm, hfits.references⟩, rfl⟩, ?_⟩
    have hbit : decide (ruleFlags w.notNull w.default.isSome w.references.isSome &&& 1 ≠ 0) = w.notNull := by
      rw [Bool.eq_iff_iff, decide_eq_true_iff, h1]
    rw [hbit]
    exact ⟨hdecides, rfl, rfl⟩

namespace FieldRule

lemma means_of {r : FieldRule Value} (h : r.Storable serde) : (r.of serde).Means serde r where
  field := rfl
  default := by
    cases hd : r.2.default with
    | none => simp [of, hd]
    | some d => simpa [of, hd] using Option.Rel.some (DefaultValue.means_of (h d hd))
  notNull := rfl
  references := rfl

lemma Writable.fits {r : FieldRule Value} (h : r.Writable serde) : (r.of serde).Fits where
  field := h.field
  decides := by
    have := h.decides
    simpa [ColumnRule.Decides, of] using this
  default := by
    intro d hd
    simp only [of, Option.mem_def, Option.map_eq_some_iff] at hd
    obtain ⟨x, hx, rfl⟩ := hd
    exact (h.default x hx).fits
  references := h.references

/-- **A rule whose spelling is plain is written the same.** -/
lemma Plain.of_means {w : FieldRule Constant} {r : FieldRule Value} (h : w.Plain serde) (hf : w.Fits)
    (hm : w.Means serde r) : r.Writable serde ∧ r.of serde = w := by
  obtain ⟨field', d, notNull', references'⟩ := r
  obtain ⟨field, w, notNull, references⟩ := w
  obtain ⟨rfl, hdefault, rfl, rfl⟩ := hm
  have hdecides : ColumnRule.Decides ⟨d, notNull, references⟩ :=
    (⟨rfl, hdefault, rfl, rfl⟩ : Means serde (field, ⟨w, notNull, references⟩)
      (field, ⟨d, notNull, references⟩)).decides.mp hf.decides
  cases hdefault with
  | none => exact ⟨⟨hf.field, hdecides, by simp, hf.references⟩, rfl⟩
  | @some w d hd =>
      obtain ⟨hwritable, heq⟩ := (h w rfl).of_means hd (hf.default w rfl)
      refine ⟨⟨hf.field, hdecides, by simpa using hwritable, hf.references⟩, ?_⟩
      simp only [of, Option.map_some, heq]

end FieldRule

/-! ## The key of a table -/

/-- The key tail of a record, as it spells it. -/
structure KeyTail where
  column : Option String
  entry : Option (FieldRule Constant)

def keyFlags (hasColumn hasDefault : Bool) : UInt8 :=
  (if hasColumn then 1 else 0) ||| (if hasDefault then 2 else 0)

lemma keyFlags_bits : ∀ x y : Bool, keyFlags x y &&& ~~~ 3 = 0 ∧ (keyFlags x y &&& 1 ≠ 0 ↔ x) ∧
    (keyFlags x y &&& 2 ≠ 0 ↔ y) ∧ (keyFlags x y = 0 ↔ x = false ∧ y = false) := by
  decide

lemma eq_keyFlags_of_lt : ∀ n < 256, UInt8.ofNat n &&& ~~~ 3 = 0 → UInt8.ofNat n =
    keyFlags (decide (UInt8.ofNat n &&& 1 ≠ 0)) (decide (UInt8.ofNat n &&& 2 ≠ 0)) := by
  decide +kernel

lemma eq_keyFlags {x : UInt8} (h : x &&& ~~~ 3 = 0) :
    x = keyFlags (decide (x &&& 1 ≠ 0)) (decide (x &&& 2 ≠ 0)) := by
  have := eq_keyFlags_of_lt x.toNat x.toNat_lt
  rw [UInt8.ofNat_toNat] at this
  exact this h

/-- The default of a key, as a rule. -/
def keyRule {α : Type} (d : DefaultValue α) : FieldRule α :=
  ("_key", { default := some d, notNull := false, references := none })

def encodeKeySpec (serde : Serde) (key : KeySpec) : Except Error Bytes := do
  let column ← writeOption (nameBytes "a key column name is 1..255 bytes") key.column
  let default ← writeOption (fun d => encodeRule serde (keyRule d)) key.default
  pure (1 :: keyFlags key.column.isSome key.default.isSome :: (column ++ default))

def decodeKeySpec (serde : Serde) : Reader Error KeySpec := fun b => do
  let (version, b) ← byte tailError b
  refuse (version ≠ 1) (.unsupported s!"key tail version {version}")
  let (flags, b) ← byte tailError b
  refuse (flags &&& ~~~ 3 ≠ 0 ∨ flags = 0) (.corrupt "key tail flags")
  let (column, b) ← optional (flags &&& 1 ≠ 0) (shortText tailError) b
  let (entry, b) ← optional (flags &&& 2 ≠ 0) (decodeRule serde) b
  pure ({ column, default := entry.bind fun r => r.2.default }, b)

namespace KeyTail

def bytes (w : KeyTail) : Bytes :=
  1 :: keyFlags w.column.isSome w.entry.isSome ::
    (optionBytes short w.column ++ optionBytes FieldRule.bytes w.entry)

structure Fits (w : KeyTail) : Prop where
  nonempty : ¬ (w.column.isNone ∧ w.entry.isNone)
  column : ∀ c ∈ w.column, (utf8 c).length ≤ 255
  entry : ∀ r ∈ w.entry, r.Fits

/-- What the spelling of a key tail means. -/
def Means (serde : Serde) (w : KeyTail) (key : KeySpec) : Prop :=
  w.column = key.column ∧ ∃ entry, Option.Rel (FieldRule.Means serde) w.entry entry ∧
    key.default = entry.bind fun r => r.2.default

def of (serde : Serde) (key : KeySpec) : KeyTail where
  column := key.column
  entry := key.default.map fun d => keyRule (d.of serde)

/-- The column is named, and the default is a rule of `_key` that does nothing else. -/
structure Plain (serde : Serde) (w : KeyTail) : Prop where
  column : ∀ c ∈ w.column, c ≠ ""
  entry : ∀ r ∈ w.entry, ∃ d : DefaultValue Constant, r = keyRule d ∧ d.Plain serde

end KeyTail

namespace KeySpec

structure Writable (serde : Serde) (key : KeySpec) : Prop where
  column : ∀ c ∈ key.column, IsName c
  default : ∀ d ∈ key.default, d.Writable serde

structure Storable (serde : Serde) (key : KeySpec) : Prop where
  nonempty : ¬ (key.column.isNone ∧ key.default.isNone)
  default : ∀ d ∈ key.default, d.Storable serde

end KeySpec

lemma writable_keyRule {d : DefaultValue Value} : (keyRule d).Writable serde ↔ d.Writable serde := by
  constructor
  · intro h
    exact h.default d rfl
  · intro h
    have hname : IsName "_key" := ⟨by decide, by decide⟩
    refine ⟨hname, by simp [ColumnRule.Decides, keyRule], ?_, by simp [keyRule]⟩
    intro x hx
    rwa [← Option.some.inj hx]

lemma encodeKeySpec_eq_ok {key : KeySpec} :
    encodeKeySpec serde key = .ok b ↔ key.Writable serde ∧ b = (KeyTail.of serde key).bytes := by
  have hcolumn : ∀ {x : Bytes}, writeOption (nameBytes "a key column name is 1..255 bytes") key.column = .ok x ↔
      (∀ c ∈ key.column, IsName c) ∧ x = optionBytes short key.column :=
    writeOption_eq_ok fun _ _ => nameBytes_eq_ok
  have hdefault : ∀ {x : Bytes}, writeOption (fun d => encodeRule serde (keyRule d)) key.default = .ok x ↔
      (∀ d ∈ key.default, d.Writable serde) ∧
        x = optionBytes (fun d => ((keyRule d).of serde).bytes) key.default :=
    writeOption_eq_ok fun _ _ => encodeRule_eq_ok.trans (and_congr_left' writable_keyRule)
  have hbytes : (KeyTail.of serde key).bytes = 1 :: keyFlags key.column.isSome key.default.isSome ::
      (optionBytes short key.column ++ optionBytes (fun d => ((keyRule d).of serde).bytes) key.default) := by
    simp only [KeyTail.bytes, KeyTail.of, Option.isSome_map, optionBytes_map]
    rfl
  simp only [encodeKeySpec, bind_eq_ok, hcolumn, hdefault, pure_eq_ok, hbytes]
  constructor
  · rintro ⟨_, ⟨hc, rfl⟩, _, ⟨hd, rfl⟩, rfl⟩
    exact ⟨⟨hc, hd⟩, rfl⟩
  · rintro ⟨⟨hc, hd⟩, rfl⟩
    exact ⟨_, ⟨hc, rfl⟩, _, ⟨hd, rfl⟩, rfl⟩

/-- **A key tail is read as what its spelling means.** -/
lemma decodeKeySpec_reads :
    Reads (decodeKeySpec serde) KeyTail.bytes fun w key => w.Fits ∧ w.Means serde key := by
  intro b key rest
  simp only [decodeKeySpec, bind_eq_ok, Prod.exists, byte_eq_ok, refuse_eq_ok, exists_const, pure_eq_ok,
    (shortText_spells.optional _) _ _ _, (decodeRule_reads.optional _) _ _ _, Prod.mk.injEq, not_or, not_not]
  constructor
  · rintro ⟨version, _, rfl, rfl, flags, _, rfl, ⟨hmask, hne⟩, column, _, ⟨⟨hcsome, hc⟩, rfl⟩, entry, _,
      ⟨w, ⟨hsome, hrel⟩, rfl⟩, rfl, rfl⟩
    obtain ⟨hfits, hrel⟩ := rel_and.mp hrel
    have heq : flags = keyFlags column.isSome w.isSome := by
      have hcol : decide (flags &&& 1 ≠ 0) = column.isSome := by
        rw [Bool.eq_iff_iff, decide_eq_true_iff, hcsome]
      have hw : decide (flags &&& 2 ≠ 0) = w.isSome := by
        rw [Bool.eq_iff_iff, decide_eq_true_iff, hsome]
      rw [← hcol, ← hw]
      exact eq_keyFlags hmask
    refine ⟨⟨column, w⟩, ⟨⟨?_, hc, hfits⟩, rfl, entry, hrel, rfl⟩, ?_⟩
    · rintro ⟨h1, h2⟩
      rw [heq, (keyFlags_bits _ _).2.2.2] at hne
      simp only [Option.isNone_iff_eq_none] at h1 h2
      exact hne ⟨by rw [h1]; rfl, by rw [h2]; rfl⟩
    · simp only [KeyTail.bytes, ← heq, List.append_assoc, List.cons_append]
  · rintro ⟨w, ⟨hfits, hcol, entry, hrel, hdefault⟩, rfl⟩
    obtain ⟨hmask, h1, h2, h0⟩ := keyFlags_bits w.column.isSome w.entry.isSome
    obtain ⟨column, default⟩ := key
    simp only at hcol hdefault
    subst hcol hdefault
    refine ⟨1, _, rfl, rfl, _, _, rfl, ⟨hmask, ?_⟩, w.column, _,
      ⟨⟨h1.symm, hfits.column⟩, List.append_assoc _ _ _⟩, entry, rest,
      ⟨w.entry, ⟨h2.symm, rel_and.mpr ⟨hfits.entry, hrel⟩⟩, rfl⟩, rfl, rfl⟩
    rw [h0]
    rintro ⟨hc, he⟩
    exact hfits.nonempty ⟨by simpa using hc, by simpa using he⟩

namespace KeyTail

lemma means_of {key : KeySpec} (h : key.Storable serde) : (of serde key).Means serde key := by
  refine ⟨rfl, key.default.map keyRule, ?_, ?_⟩
  · cases hd : key.default with
    | none => simp [of, hd]
    | some d =>
        have hmeans : FieldRule.Means serde (keyRule (d.of serde)) (keyRule d) :=
          ⟨rfl, .some (DefaultValue.means_of (h.default d hd)), rfl, rfl⟩
        simpa [of, hd] using Option.Rel.some hmeans
  · cases key.default <;> rfl

lemma fits_of {key : KeySpec} (h : key.Writable serde) (hne : ¬ (key.column.isNone ∧ key.default.isNone)) :
    (of serde key).Fits where
  nonempty := by simpa [of] using hne
  column := fun c hc => (h.column c hc).2
  entry := by
    intro r hr
    simp only [of, Option.mem_def, Option.map_eq_some_iff] at hr
    obtain ⟨d, hd, rfl⟩ := hr
    exact (writable_keyRule.mpr (h.default d hd)).fits

/-- **A plain key tail is written the same.** -/
lemma Plain.of_means {w : KeyTail} {key : KeySpec} (h : w.Plain serde) (hf : w.Fits)
    (hm : w.Means serde key) : key.Writable serde ∧ of serde key = w := by
  obtain ⟨column, default⟩ := key
  obtain ⟨column', w⟩ := w
  obtain ⟨rfl, entry, hrel, rfl⟩ := hm
  have hcolumn : ∀ c ∈ column', IsName c := fun c hc => ⟨h.column c hc, hf.column c hc⟩
  cases hrel with
  | none => exact ⟨⟨hcolumn, by simp⟩, rfl⟩
  | @some w r hr =>
      obtain ⟨d, rfl, hplain⟩ := h.entry w rfl
      have hfits := (hf.entry (keyRule d) rfl).default d rfl
      have hdefault := hr.default
      cases hd : r.2.default with
      | none =>
          rw [hd] at hdefault
          cases hdefault
      | some x =>
          rw [hd] at hdefault
          cases hdefault with
          | some hx =>
              obtain ⟨hwritable, heq⟩ := hplain.of_means hx hfits
              refine ⟨⟨hcolumn, ?_⟩, ?_⟩
              · simpa [hd] using hwritable
              · simp [of, hd, heq]

end KeyTail

end Engine.ColumnRules
