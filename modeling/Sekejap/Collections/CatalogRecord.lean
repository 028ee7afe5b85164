import Sekejap.Collections.Catalog
import Sekejap.Collections.ColumnRules
import Sekejap.Collections.Descriptor

/-!
# Catalog records

What the catalog records of a table (`catalog_bytes` and `parse_catalog` of
`core/engine/src/collections/mod.rs`): its number, its layout, one byte of flags, and then what the
flags say — the state of a drop, the declared types of its columns, their rules, the schema, the edge
table, the key, and the property graphs it belongs to.  Without any of the last six the name is all that
is left of the packet; with one it stands behind its length.

* **`parseBody_eq_ok`** — the payloads that are accepted are those of a `Spelling`, and what is read is
  its meaning.
* **`descriptor_codecs`** — catalog records and index descriptors are read back as they were written,
  written again as they were read, and refused when they are of another build.
-/

open Bytes

open Fallible

open Reading

open Engine.Packet Engine.ColumnRules

namespace Engine.CatalogRecord

/-! ## A table as its record holds it -/

structure EdgeBinding where
  source : String
  destination : String
  edgeType : UInt64
  graph : String
  deriving DecidableEq, Repr

structure EdgeTable where
  references : List (String × UInt32)
  key : List String
  binding : Option EdgeBinding
  deriving DecidableEq, Repr

structure GraphMembership where
  graph : String
  aliasName : String
  edge : Bool
  labels : List String
  deriving DecidableEq, Repr

inductive DropMode where
  | restrict
  | cascade
  deriving DecidableEq, Repr

structure DropState where
  phase : DropPhase
  mode : DropMode
  removed : UInt64
  deriving DecidableEq, Repr

structure Catalog where
  id : UInt32
  name : String
  layout : UInt32
  timestamps : Bool
  declared : List (String × String)
  rules : List (FieldRule Value)
  schema : Option String
  edge : Option EdgeTable
  key : Option KeySpec
  graphs : List GraphMembership
  drop : Option DropState

/-! ## The state of a drop -/

def DropState.bytes (d : DropState) : Bytes :=
  phaseByte d.phase :: modeByte d.mode :: bigEndian 8 d.removed.toNat
where
  phaseByte : DropPhase → UInt8
    | .indexes => 0
    | .sidecars => 1
    | .rows => 2
    | .mappings => 3
    | .descriptor => 4
  modeByte : DropMode → UInt8
    | .restrict => 0
    | .cascade => 1

/-- `DropPhase::from_byte` -/
def phaseOf (x : UInt8) : Except Error DropPhase :=
  if x = 0 then .ok .indexes
  else if x = 1 then .ok .sidecars
  else if x = 2 then .ok .rows
  else if x = 3 then .ok .mappings
  else if x = 4 then .ok .descriptor
  else .error (.corrupt "catalog drop phase")

/-- `DropMode::from_byte` -/
def modeOf (x : UInt8) : Except Error DropMode :=
  if x = 0 then .ok .restrict
  else if x = 1 then .ok .cascade
  else .error (.corrupt "catalog drop mode")

def readDrop : Reader Error DropState := fun b => do
  -- a byte of the name has to follow
  refuse (b.length < 10 + 1) (.corrupt "catalog drop tail")
  let (phase, b) ← byte tailError b
  let (mode, b) ← byte tailError b
  let (removed, b) ← number tailError 8 b
  let phase ← phaseOf phase
  let mode ← modeOf mode
  pure ({ phase, mode, removed := UInt64.ofNat removed }, b)

/-! ## The parts behind the name -/

/-- A declared column type. -/
def declaredBytes (d : String × String) : Bytes := short d.1 ++ short d.2

def encodeDeclared (d : String × String) : Except Error Bytes := do
  let field ← nameBytes "declared column type entries are 1..255 bytes" d.1
  let declared ← nameBytes "declared column type entries are 1..255 bytes" d.2
  pure (field ++ declared)

def readDeclared : Reader Error (String × String) := fun b => do
  let (field, b) ← shortText tailError b
  let (spelling, b) ← shortText tailError b
  refuse (field = "" ∨ spelling = "") (.corrupt "catalog declared type entry")
  pure ((field, spelling), b)

/-- A list behind its length in two bytes. -/
def counted {α : Type} (s : α → Bytes) (l : List α) : Bytes := bigEndian 2 l.length ++ l.flatMap s

def writeCounted {α : Type} (why : String) (g : α → Except Error Bytes) (l : List α) : Except Error Bytes := do
  refuse (65535 < l.length) (.invalid why)
  let b ← writeAll g l
  pure (bigEndian 2 l.length ++ b)

def readCounted {α : Type} (d : Reader Error α) : Reader Error (List α) := fun b => do
  let (count, b) ← number tailError 2 b
  many d count b

/-- `check_schema_name`; the reserved names, in lower case. -/
def schemaNameOk (schema : String) : Prop :=
  ¬ (schema = "" ∨ 63 < (utf8 schema).length) ∧
    ¬ (schema.toLower = "public" ∨ schema.toLower = "information_schema" ∨
      "pg_".toList <+: schema.toLower.toList)

instance (schema : String) : Decidable (schemaNameOk schema) := inferInstanceAs (Decidable (¬ _ ∧ ¬ _))

def encodeSchema (schema : String) : Except Error Bytes := do
  refuse (¬ schemaNameOk schema) (.invalid "a schema name must contain 1..63 UTF-8 bytes")
  pure (short schema)

def readSchema : Reader Error String := fun b => do
  let (named, b) ← shortText tailError b
  refuse (¬ schemaNameOk named) (.corrupt "catalog schema tail")
  pure (named, b)

/-! ## Edge tables -/

/-- A list behind its length in one byte. -/
def shortList {α : Type} (s : α → Bytes) (l : List α) : Bytes := UInt8.ofNat l.length :: l.flatMap s

def readShort {α : Type} (d : Reader Error α) : Reader Error (List α) := fun b => do
  let (count, b) ← byte tailError b
  many d count.toNat b

def edgeName : String → Except Error Bytes := nameBytes "an edge table column name is 1..255 bytes"

def readEdgeName : Reader Error String := nameText tailError (.corrupt "empty edge table column name")

def referenceBytes (r : String × UInt32) : Bytes := short r.1 ++ bigEndian 4 r.2.toNat

def encodeReference (r : String × UInt32) : Except Error Bytes := do
  let column ← edgeName r.1
  pure (column ++ bigEndian 4 r.2.toNat)

def readReference : Reader Error (String × UInt32) := fun b => do
  let (column, b) ← readEdgeName b
  let (collection, b) ← number tailError 4 b
  refuse (collection = 0) (.corrupt "edge table references collection 0")
  pure ((column, UInt32.ofNat collection), b)

def EdgeBinding.bytes (e : EdgeBinding) : Bytes :=
  short e.source ++ (short e.destination ++ (bigEndian 8 e.edgeType.toNat ++ short e.graph))

def encodeBinding (e : EdgeBinding) : Except Error Bytes := do
  let source ← edgeName e.source
  let destination ← edgeName e.destination
  refuse (255 < (utf8 e.graph).length) (.invalid "a property graph name is at most 255 bytes")
  pure (source ++ (destination ++ (bigEndian 8 e.edgeType.toNat ++ short e.graph)))

def readBinding : Reader Error EdgeBinding := fun b => do
  let (source, b) ← readEdgeName b
  let (destination, b) ← readEdgeName b
  let (edgeType, b) ← number tailError 8 b
  refuse (edgeType = 0) (.corrupt "edge table bound to edge type 0")
  let (graph, b) ← shortText tailError b
  pure ({ source, destination, edgeType := UInt64.ofNat edgeType, graph }, b)

/-- A flag byte, 1 with the part behind it. -/
def flagged {α : Type} (s : α → Bytes) (o : Option α) : Bytes :=
  (if o.isSome then 1 else 0) :: optionBytes s o

def EdgeTable.bytes (e : EdgeTable) : Bytes :=
  1 :: (shortList referenceBytes e.references ++ (shortList short e.key ++
    flagged EdgeBinding.bytes e.binding))

/-- `EdgeTable::encode` -/
def EdgeTable.encode (e : EdgeTable) : Except Error Bytes := do
  refuse (255 < e.references.length ∨ 255 < e.key.length)
    (.invalid "an edge table names at most 255 references and key columns")
  let references ← writeAll encodeReference e.references
  let key ← writeAll edgeName e.key
  let binding ← writeOption encodeBinding e.binding
  pure (1 :: (UInt8.ofNat e.references.length :: references ++ (UInt8.ofNat e.key.length :: key ++
    ((if e.binding.isSome then 1 else 0) :: binding))))

/-- `EdgeTable::decode` -/
def EdgeTable.decode : Reader Error EdgeTable := fun b => do
  let (version, b) ← byte tailError b
  refuse (version ≠ 1) (.unsupported s!"edge table tail version {version}")
  let (references, b) ← readShort readReference b
  let (key, b) ← readShort readEdgeName b
  let (flag, b) ← byte tailError b
  refuse (flag ≠ 0 ∧ flag ≠ 1) (.corrupt "edge table binding flag")
  let (binding, b) ← optional (flag = 1) readBinding b
  pure ({ references, key, binding }, b)

/-! ## Memberships -/

def GraphMembership.bytes (m : GraphMembership) : Bytes :=
  short m.graph ++ (short m.aliasName ++ ((if m.edge then 1 else 0) :: shortList short m.labels))

def encodeMembership (m : GraphMembership) : Except Error Bytes := do
  let graph ← nameBytes "a property graph name is 1..255 bytes" m.graph
  let aliasName ← nameBytes "a graph element name is 1..255 bytes" m.aliasName
  refuse (m.labels = [] ∨ 255 < m.labels.length) (.invalid "a graph element has 1..255 labels")
  let labels ← writeAll (nameBytes "a label is 1..255 bytes") m.labels
  pure (graph ++ (aliasName ++ ((if m.edge then 1 else 0) :: UInt8.ofNat m.labels.length :: labels)))

/-- A name of the memberships tail. -/
def readGraphName : Reader Error String :=
  nameText tailError (.corrupt "empty name in the graph memberships tail")

def readMembership : Reader Error GraphMembership := fun b => do
  let (graph, b) ← readGraphName b
  let (aliasName, b) ← readGraphName b
  let (edge, b) ← byte tailError b
  refuse (edge ≠ 0 ∧ edge ≠ 1) (.corrupt "graph membership kind")
  let (count, b) ← byte tailError b
  refuse (count = 0) (.corrupt "a graph membership with no label")
  let (labels, b) ← many readGraphName count.toNat b
  pure ({ graph, aliasName, edge := decide (edge = 1), labels }, b)

def membershipsBytes (l : List GraphMembership) : Bytes := 1 :: shortList GraphMembership.bytes l

def encodeMemberships (l : List GraphMembership) : Except Error Bytes := do
  refuse (255 < l.length) (.invalid "a table belongs to at most 255 property graphs")
  let b ← writeAll encodeMembership l
  pure (1 :: UInt8.ofNat l.length :: b)

def decodeMemberships : Reader Error (List GraphMembership) := fun b => do
  let (version, b) ← byte tailError b
  refuse (version ≠ 1) (.unsupported s!"graph memberships tail version {version}")
  let (out, b) ← readShort readMembership b
  refuse (out = []) (.corrupt "an empty graph memberships tail")
  pure (out, b)

/-! ## The record -/

/-- The flags byte: timestamps, DROPPING, DECLARED, RULES, SCHEMA, EDGE, KEY and GRAPHS. -/
def catalogFlags (timestamps dropping declared rules schema edge key graphs : Bool) : UInt8 :=
  (if timestamps then 1 else 0) ||| (if dropping then 2 else 0) ||| (if declared then 4 else 0) |||
    (if rules then 8 else 0) ||| (if schema then 16 else 0) ||| (if edge then 32 else 0) |||
    (if key then 64 else 0) ||| (if graphs then 128 else 0)

/-- A list, unless it is empty. -/
def listed {α : Type} (l : List α) : Option (List α) := if l.isEmpty then none else some l

def Catalog.flags (c : Catalog) : UInt8 :=
  catalogFlags c.timestamps c.drop.isSome (!c.declared.isEmpty) (!c.rules.isEmpty) c.schema.isSome
    c.edge.isSome c.key.isSome (!c.graphs.isEmpty)

/-- No tail needs the name's length. -/
def Catalog.Tailless (c : Catalog) : Prop :=
  c.declared.isEmpty ∧ c.rules.isEmpty ∧ c.schema.isNone ∧ c.edge.isNone ∧ c.key.isNone ∧ c.graphs.isEmpty

instance (c : Catalog) : Decidable c.Tailless := inferInstanceAs (Decidable (_ ∧ _))

/-- What is behind the name when it stands behind its length. -/
def catalogTails (serde : Serde) (c : Catalog) : Except Error Bytes := do
  let declared ← writeOption (writeCounted "at most 65535 declared column types" encodeDeclared)
    (listed c.declared)
  let rules ← writeOption (writeCounted "at most 65535 column rules" (encodeRule serde)) (listed c.rules)
  let schema ← writeOption encodeSchema c.schema
  let edge ← writeOption EdgeTable.encode c.edge
  let key ← writeOption (encodeKeySpec serde) c.key
  let graphs ← writeOption encodeMemberships (listed c.graphs)
  pure (declared ++ (rules ++ (schema ++ (edge ++ (key ++ graphs)))))

def nameAndTails (serde : Serde) (c : Catalog) : Except Error Bytes :=
  if c.Tailless then .ok (utf8 c.name)
  else do
    let tails ← catalogTails serde c
    pure (long c.name ++ tails)

def catalogBody (serde : Serde) (c : Catalog) : Except Error Bytes := do
  let named ← nameAndTails serde c
  pure (bigEndian 4 c.id.toNat ++ (bigEndian 4 c.layout.toNat ++ (c.flags ::
    (optionBytes DropState.bytes c.drop ++ named))))

/-- `CATALOG_MAGIC` -/
def magic : Bytes := utf8 "E4CAT01" ++ [0]

def catalogBytes (serde : Serde) (c : Catalog) : Except Error Bytes := do
  let b ← catalogBody serde c
  packet magic b

/-- The flags that put a tail behind the name. -/
def tailMask : UInt8 := 4 ||| 8 ||| 16 ||| 32 ||| 64 ||| 128

/-- What was read behind the flags. -/
structure Tails where
  name : String
  declared : List (String × String) := []
  rules : List (FieldRule Value) := []
  schema : Option String := none
  edge : Option EdgeTable := none
  key : Option KeySpec := none
  graphs : List GraphMembership := []

/-- The name, and the tails the flags say. -/
def readTails (serde : Serde) (flags : UInt8) (b : Bytes) : Except Error Tails := do
  let (name, b) ← longText tailError b
  let (declared, b) ← optional (flags &&& 4 ≠ 0) (readCounted readDeclared) b
  let (rules, b) ← optional (flags &&& 8 ≠ 0) (readCounted (decodeRule serde)) b
  let (schema, b) ← optional (flags &&& 16 ≠ 0) readSchema b
  let (edge, b) ← optional (flags &&& 32 ≠ 0) EdgeTable.decode b
  let (key, b) ← optional (flags &&& 64 ≠ 0) (decodeKeySpec serde) b
  let (graphs, b) ← optional (flags &&& 128 ≠ 0) decodeMemberships b
  refuse (b ≠ []) (.corrupt "catalog declared type tail")
  pure { name, declared := declared.getD [], rules := rules.getD [], schema, edge, key,
         graphs := graphs.getD [] }

def readName (serde : Serde) (flags : UInt8) (b : Bytes) : Except Error Tails :=
  if flags &&& tailMask = 0 then do
    let name ← fromUtf8 b
    pure { name }
  else readTails serde flags b

def parseBody (serde : Serde) (b : Bytes) : Except Error Catalog := do
  refuse (b.length < 10) (.corrupt "catalog fields")
  let (id, b) ← number tailError 4 b
  let (layout, b) ← number tailError 4 b
  let (flags, b) ← byte tailError b
  refuse (flags &&& ~~~ (1 ||| 2 ||| tailMask) ≠ 0) (.corrupt "catalog fields")
  let (drop, b) ← optional (flags &&& 2 ≠ 0) readDrop b
  let t ← readName serde flags b
  refuse (id = 0 ∨ layout = 0 ∨ t.name = "" ∨ 255 < (utf8 t.name).length) (.corrupt "catalog domain")
  pure { id := UInt32.ofNat id, name := t.name, layout := UInt32.ofNat layout,
         timestamps := decide (flags &&& 1 = 1), declared := t.declared, rules := t.rules,
         schema := t.schema, edge := t.edge, key := t.key, graphs := t.graphs, drop }

def parseCatalog (serde : Serde) (b : Bytes) : Except Error Catalog := do
  let body ← unpack b magic
  parseBody serde body

/-! ## One spelling for each part -/

variable {b rest : Bytes}

lemma phaseOf_eq_ok {x : UInt8} {p : DropPhase} : phaseOf x = .ok p ↔ x = DropState.bytes.phaseByte p := by
  unfold phaseOf
  constructor
  · split_ifs with h0 h1 h2 h3 h4 <;> intro h <;> cases h
    · exact h0
    · exact h1
    · exact h2
    · exact h3
    · exact h4
  · rintro rfl
    cases p <;> rfl

lemma modeOf_eq_ok {x : UInt8} {m : DropMode} : modeOf x = .ok m ↔ x = DropState.bytes.modeByte m := by
  unfold modeOf
  constructor
  · split_ifs with h0 h1 <;> intro h <;> cases h
    · exact h0
    · exact h1
  · rintro rfl
    cases m <;> rfl

lemma number_u32 {e : Error} {x : ℕ} : number e 4 b = .ok (x, rest) ↔
    ∃ y : UInt32, y.toNat = x ∧ b = bigEndian 4 y.toNat ++ rest := by
  rw [number_eq_ok]
  constructor
  · rintro ⟨hx, rfl⟩
    have hnat : (UInt32.ofNat x).toNat = x := Nat.mod_eq_of_lt hx
    exact ⟨UInt32.ofNat x, hnat, by rw [hnat]⟩
  · rintro ⟨y, rfl, rfl⟩
    exact ⟨y.toNat_lt, rfl⟩

lemma number_u64 {e : Error} {x : ℕ} : number e 8 b = .ok (x, rest) ↔
    ∃ y : UInt64, y.toNat = x ∧ b = bigEndian 8 y.toNat ++ rest := by
  rw [number_eq_ok]
  constructor
  · rintro ⟨hx, rfl⟩
    have hnat : (UInt64.ofNat x).toNat = x := Nat.mod_eq_of_lt hx
    exact ⟨UInt64.ofNat x, hnat, by rw [hnat]⟩
  · rintro ⟨y, rfl, rfl⟩
    exact ⟨y.toNat_lt, rfl⟩

lemma length_dropBytes (d : DropState) : d.bytes.length = 10 := by
  simp [DropState.bytes]

/-- **The state of a drop is read where a name follows.** -/
lemma readDrop_eq_ok {d : DropState} : readDrop b = .ok (d, rest) ↔ b = d.bytes ++ rest ∧ rest ≠ [] := by
  simp only [readDrop, bind_eq_ok, Prod.exists, refuse_eq_ok, exists_const, byte_eq_ok, number_u64,
    phaseOf_eq_ok, modeOf_eq_ok, pure_eq_ok, Prod.mk.injEq, not_lt]
  constructor
  · rintro ⟨hlen, p, _, rfl, m, _, rfl, _, _, ⟨removed, rfl, rfl⟩, phase, rfl, mode, rfl, rfl, rfl⟩
    rw [UInt64.ofNat_toNat]
    refine ⟨rfl, ?_⟩
    rintro rfl
    simp at hlen
  · rintro ⟨rfl, hne⟩
    have hpos := List.length_pos_iff.mpr hne
    refine ⟨?_, _, _, rfl, _, _, rfl, _, rest, ⟨d.removed, rfl, rfl⟩, d.phase, rfl, d.mode, rfl, ?_, rfl⟩
    · rw [List.length_append, length_dropBytes]
      omega
    · rw [UInt64.ofNat_toNat]

lemma readDeclared_spells : Spells readDeclared declaredBytes fun d => IsName d.1 ∧ IsName d.2 := by
  rintro b ⟨field, spelling⟩ rest
  simp only [readDeclared, bind_eq_ok, Prod.exists, shortText_spells _ _ _, refuse_eq_ok, exists_const,
    pure_eq_ok, Prod.mk.injEq, not_or, declaredBytes, IsName]
  constructor
  · rintro ⟨f, _, ⟨hf, rfl⟩, s, _, ⟨hs, rfl⟩, ⟨hf0, hs0⟩, ⟨rfl, rfl⟩, rfl⟩
    exact ⟨⟨⟨hf0, hf⟩, hs0, hs⟩, (List.append_assoc _ _ _).symm⟩
  · rintro ⟨⟨⟨hf0, hf⟩, hs0, hs⟩, rfl⟩
    exact ⟨_, _, ⟨hf, List.append_assoc _ _ _⟩, _, _, ⟨hs, rfl⟩, ⟨hf0, hs0⟩, ⟨rfl, rfl⟩, rfl⟩

lemma encodeDeclared_eq_ok {d : String × String} :
    encodeDeclared d = .ok b ↔ (IsName d.1 ∧ IsName d.2) ∧ b = declaredBytes d := by
  simp only [encodeDeclared, bind_eq_ok, nameBytes_eq_ok, pure_eq_ok, declaredBytes]
  constructor
  · rintro ⟨_, ⟨hf, rfl⟩, _, ⟨hs, rfl⟩, rfl⟩
    exact ⟨⟨hf, hs⟩, rfl⟩
  · rintro ⟨⟨hf, hs⟩, rfl⟩
    exact ⟨_, ⟨hf, rfl⟩, _, ⟨hs, rfl⟩, rfl⟩

section Lists

variable {α ω : Type} {d : Reader Error α} {s : ω → Bytes} {R : ω → α → Prop}

lemma readCounted_reads (h : Reads d s R) : Reads (readCounted d) (counted s) fun ws xs =>
    ws.length < 256 ^ 2 ∧ List.Forall₂ R ws xs := by
  intro b xs rest
  simp only [readCounted, bind_eq_ok, Prod.exists, number_eq_ok, (h.many _) _ _ _, counted]
  constructor
  · rintro ⟨n, _, ⟨hn, rfl⟩, ws, ⟨rfl, hws⟩, rfl⟩
    exact ⟨ws, ⟨hn, hws⟩, (List.append_assoc _ _ _).symm⟩
  · rintro ⟨ws, ⟨hn, hws⟩, rfl⟩
    exact ⟨_, _, ⟨hn, List.append_assoc _ _ _⟩, ws, ⟨rfl, hws⟩, rfl⟩

variable {t : α → Bytes} {P : α → Prop}

lemma readCounted_spells (h : Spells d t P) : Spells (readCounted d) (counted t) fun l =>
    l.length < 256 ^ 2 ∧ ∀ x ∈ l, P x := by
  intro b xs rest
  simp only [readCounted, bind_eq_ok, Prod.exists, number_eq_ok, (h.many _) _ _ _, counted]
  constructor
  · rintro ⟨n, _, ⟨hn, rfl⟩, ⟨rfl, hP⟩, rfl⟩
    exact ⟨⟨hn, hP⟩, (List.append_assoc _ _ _).symm⟩
  · rintro ⟨⟨hn, hP⟩, rfl⟩
    exact ⟨_, _, ⟨hn, List.append_assoc _ _ _⟩, ⟨rfl, hP⟩, rfl⟩

lemma writeCounted_eq_ok {why : String} {g : α → Except Error Bytes} (h : ∀ x b, g x = .ok b ↔ P x ∧ b = t x)
    {l : List α} :
    writeCounted why g l = .ok b ↔ (l.length < 256 ^ 2 ∧ ∀ x ∈ l, P x) ∧ b = counted t l := by
  have hlen : ¬ 65535 < l.length ↔ l.length < 256 ^ 2 := by
    rw [not_lt]
    exact Nat.lt_succ_iff.symm
  simp only [writeCounted, bind_eq_ok, refuse_eq_ok, exists_const, writeAll_eq_ok h, pure_eq_ok, counted, hlen]
  constructor
  · rintro ⟨hn, _, ⟨hP, rfl⟩, rfl⟩
    exact ⟨⟨hn, hP⟩, rfl⟩
  · rintro ⟨⟨hn, hP⟩, rfl⟩
    exact ⟨hn, _, ⟨hP, rfl⟩, rfl⟩

lemma toNat_count {n : ℕ} (h : n ≤ 255) : (UInt8.ofNat n).toNat = n := Nat.mod_eq_of_lt (by omega)

lemma readShort_spells (h : Spells d t P) : Spells (readShort d) (shortList t) fun l =>
    l.length ≤ 255 ∧ ∀ x ∈ l, P x := by
  intro b xs rest
  simp only [readShort, bind_eq_ok, Prod.exists, byte_eq_ok, (h.many _) _ _ _, shortList]
  constructor
  · rintro ⟨n, _, rfl, ⟨hn, hP⟩, rfl⟩
    refine ⟨⟨?_, hP⟩, ?_⟩
    · have := n.toNat_lt
      omega
    · rw [hn, UInt8.ofNat_toNat]
      rfl
  · rintro ⟨⟨hn, hP⟩, rfl⟩
    exact ⟨_, _, rfl, ⟨(toNat_count hn).symm, hP⟩, rfl⟩

end Lists

lemma encodeSchema_eq_ok {x : String} : encodeSchema x = .ok b ↔ schemaNameOk x ∧ b = short x := by
  simp only [encodeSchema, bind_eq_ok, refuse_eq_ok, exists_const, pure_eq_ok, not_not]
  rw [eq_comm (b := b)]

lemma readSchema_spells : Spells readSchema short schemaNameOk := by
  intro b x rest
  simp only [readSchema, bind_eq_ok, Prod.exists, shortText_spells _ _ _, refuse_eq_ok, exists_const,
    pure_eq_ok, Prod.mk.injEq, not_not]
  constructor
  · rintro ⟨x, _, ⟨-, rfl⟩, hx, rfl, rfl⟩
    exact ⟨hx, rfl⟩
  · rintro ⟨hx, rfl⟩
    refine ⟨x, rest, ⟨?_, rfl⟩, hx, rfl, rfl⟩
    have := hx.1
    omega

lemma readReference_spells : Spells readReference referenceBytes fun r => IsName r.1 ∧ r.2 ≠ 0 := by
  rintro b ⟨column, collection⟩ rest
  simp only [readReference, readEdgeName, bind_eq_ok, Prod.exists, nameText_spells _ _ _, number_u32,
    refuse_eq_ok, exists_const, pure_eq_ok, Prod.mk.injEq, referenceBytes]
  constructor
  · rintro ⟨c, _, ⟨hc, rfl⟩, _, _, ⟨y, rfl, rfl⟩, hy, ⟨rfl, rfl⟩, rfl⟩
    rw [UInt32.ofNat_toNat]
    refine ⟨⟨hc, ?_⟩, (List.append_assoc _ _ _).symm⟩
    rintro rfl
    exact hy rfl
  · rintro ⟨⟨hc, hne⟩, rfl⟩
    refine ⟨_, _, ⟨hc, List.append_assoc _ _ _⟩, _, _, ⟨collection, rfl, rfl⟩, ?_, ⟨rfl, ?_⟩, rfl⟩
    · intro h
      exact hne (UInt32.toNat_inj.mp h)
    · rw [UInt32.ofNat_toNat]

lemma encodeReference_eq_ok {r : String × UInt32} :
    encodeReference r = .ok b ↔ IsName r.1 ∧ b = referenceBytes r := by
  simp only [encodeReference, edgeName, bind_eq_ok, nameBytes_eq_ok, pure_eq_ok, referenceBytes]
  constructor
  · rintro ⟨_, ⟨hc, rfl⟩, rfl⟩
    exact ⟨hc, rfl⟩
  · rintro ⟨hc, rfl⟩
    exact ⟨_, ⟨hc, rfl⟩, rfl⟩

structure EdgeBinding.Writable (e : EdgeBinding) : Prop where
  source : IsName e.source
  destination : IsName e.destination
  graph : (utf8 e.graph).length ≤ 255

lemma encodeBinding_eq_ok {e : EdgeBinding} : encodeBinding e = .ok b ↔ e.Writable ∧ b = e.bytes := by
  simp only [encodeBinding, edgeName, bind_eq_ok, nameBytes_eq_ok, refuse_eq_ok, exists_const, pure_eq_ok,
    not_lt, EdgeBinding.bytes]
  constructor
  · rintro ⟨_, ⟨hs, rfl⟩, _, ⟨hd, rfl⟩, hg, rfl⟩
    exact ⟨⟨hs, hd, hg⟩, rfl⟩
  · rintro ⟨⟨hs, hd, hg⟩, rfl⟩
    exact ⟨_, ⟨hs, rfl⟩, _, ⟨hd, rfl⟩, hg, rfl⟩

lemma readBinding_spells : Spells readBinding EdgeBinding.bytes fun e => e.Writable ∧ e.edgeType ≠ 0 := by
  intro b e rest
  simp only [readBinding, readEdgeName, bind_eq_ok, Prod.exists, nameText_spells _ _ _, number_u64,
    refuse_eq_ok, exists_const, shortText_spells _ _ _, pure_eq_ok, Prod.mk.injEq, EdgeBinding.bytes]
  constructor
  · rintro ⟨s, _, ⟨hs, rfl⟩, d, _, ⟨hd, rfl⟩, _, _, ⟨y, rfl, rfl⟩, hy, g, _, ⟨hg, rfl⟩, rfl, rfl⟩
    rw [UInt64.ofNat_toNat]
    refine ⟨⟨⟨hs, hd, hg⟩, ?_⟩, by simp only [List.append_assoc]⟩
    rintro rfl
    exact hy rfl
  · rintro ⟨⟨⟨hs, hd, hg⟩, hne⟩, rfl⟩
    simp only [List.append_assoc]
    refine ⟨_, _, ⟨hs, rfl⟩, _, _, ⟨hd, rfl⟩, _, _, ⟨e.edgeType, rfl, rfl⟩, ?_, _, _, ⟨hg, rfl⟩, ?_, rfl⟩
    · intro h
      exact hne (UInt64.toNat_inj.mp h)
    · rw [UInt64.ofNat_toNat]

structure EdgeTable.Writable (e : EdgeTable) : Prop where
  references : e.references.length ≤ 255 ∧ ∀ r ∈ e.references, IsName r.1
  key : e.key.length ≤ 255 ∧ ∀ k ∈ e.key, IsName k
  binding : ∀ x ∈ e.binding, x.Writable

/-- No end and no type is nobody's. -/
structure EdgeTable.Storable (e : EdgeTable) : Prop where
  references : ∀ r ∈ e.references, r.2 ≠ 0
  binding : ∀ x ∈ e.binding, x.edgeType ≠ 0

lemma EdgeTable.encode_eq_ok {e : EdgeTable} : e.encode = .ok b ↔ e.Writable ∧ b = e.bytes := by
  have hrefs : ∀ {x : Bytes}, writeAll encodeReference e.references = .ok x ↔
      (∀ r ∈ e.references, IsName r.1) ∧ x = e.references.flatMap referenceBytes :=
    writeAll_eq_ok fun _ _ => encodeReference_eq_ok
  have hkey : ∀ {x : Bytes}, writeAll edgeName e.key = .ok x ↔
      (∀ k ∈ e.key, IsName k) ∧ x = e.key.flatMap short :=
    writeAll_eq_ok fun _ _ => nameBytes_eq_ok
  have hbinding : ∀ {x : Bytes}, writeOption encodeBinding e.binding = .ok x ↔
      (∀ y ∈ e.binding, y.Writable) ∧ x = optionBytes EdgeBinding.bytes e.binding :=
    writeOption_eq_ok fun _ _ => encodeBinding_eq_ok
  simp only [EdgeTable.encode, bind_eq_ok, refuse_eq_ok, exists_const, hrefs, hkey, hbinding, pure_eq_ok,
    not_or, not_lt, EdgeTable.bytes, shortList, flagged]
  constructor
  · rintro ⟨⟨hr, hk⟩, _, ⟨hrn, rfl⟩, _, ⟨hkn, rfl⟩, _, ⟨hb, rfl⟩, rfl⟩
    exact ⟨⟨⟨hr, hrn⟩, ⟨hk, hkn⟩, hb⟩, rfl⟩
  · rintro ⟨⟨⟨hr, hrn⟩, ⟨hk, hkn⟩, hb⟩, rfl⟩
    exact ⟨⟨hr, hk⟩, _, ⟨hrn, rfl⟩, _, ⟨hkn, rfl⟩, _, ⟨hb, rfl⟩, rfl⟩

lemma EdgeTable.decode_spells : Spells EdgeTable.decode EdgeTable.bytes fun e => e.Writable ∧ e.Storable := by
  intro b e rest
  have hname : Spells readEdgeName short IsName := nameText_spells
  simp only [EdgeTable.decode, bind_eq_ok, Prod.exists, byte_eq_ok, refuse_eq_ok, exists_const, pure_eq_ok,
    (readShort_spells readReference_spells) _ _ _, (readShort_spells hname) _ _ _,
    (readBinding_spells.optional _) _ _ _, Prod.mk.injEq, not_not, not_and]
  constructor
  · rintro ⟨version, _, rfl, rfl, refs, _, ⟨⟨hr, hrn⟩, rfl⟩, key, _, ⟨⟨hk, hkn⟩, rfl⟩, flag, _, rfl, hflag,
      binding, _, ⟨⟨hsome, hb⟩, rfl⟩, rfl, rfl⟩
    have heq : flag = if binding.isSome then 1 else 0 := by
      split_ifs with h
      · exact hsome.mp h
      · by_contra hne
        exact h (hsome.mpr (hflag hne))
    refine ⟨⟨⟨⟨hr, fun r h => (hrn r h).1⟩, ⟨hk, hkn⟩, fun x h => (hb x h).1⟩,
      ⟨fun r h => (hrn r h).2, fun x h => (hb x h).2⟩⟩, ?_⟩
    simp only [EdgeTable.bytes, flagged, heq, List.append_assoc, List.cons_append]
  · rintro ⟨⟨hw, hs⟩, rfl⟩
    simp only [EdgeTable.bytes, flagged, List.append_assoc, List.cons_append]
    refine ⟨1, _, rfl, rfl, _, _, ⟨⟨hw.references.1, fun r h => ⟨hw.references.2 r h, hs.references r h⟩⟩, rfl⟩,
      _, _, ⟨hw.key, rfl⟩, _, _, rfl, ?_, e.binding, rest,
      ⟨⟨?_, fun x h => ⟨hw.binding x h, hs.binding x h⟩⟩, rfl⟩, rfl, rfl⟩
    · split_ifs <;> simp
    · split_ifs with h <;> simp [h]

structure GraphMembership.Writable (m : GraphMembership) : Prop where
  graph : IsName m.graph
  aliasName : IsName m.aliasName
  labels : m.labels ≠ [] ∧ m.labels.length ≤ 255
  named : ∀ l ∈ m.labels, IsName l

lemma encodeMembership_eq_ok {m : GraphMembership} : encodeMembership m = .ok b ↔ m.Writable ∧ b = m.bytes := by
  have hlabels : ∀ {x : Bytes}, writeAll (nameBytes "a label is 1..255 bytes") m.labels = .ok x ↔
      (∀ l ∈ m.labels, IsName l) ∧ x = m.labels.flatMap short :=
    writeAll_eq_ok fun _ _ => nameBytes_eq_ok
  simp only [encodeMembership, bind_eq_ok, nameBytes_eq_ok, refuse_eq_ok, exists_const, hlabels, pure_eq_ok,
    not_or, not_lt, GraphMembership.bytes, shortList]
  constructor
  · rintro ⟨_, ⟨hg, rfl⟩, _, ⟨ha, rfl⟩, hl, _, ⟨hn, rfl⟩, rfl⟩
    exact ⟨⟨hg, ha, hl, hn⟩, rfl⟩
  · rintro ⟨⟨hg, ha, hl, hn⟩, rfl⟩
    exact ⟨_, ⟨hg, rfl⟩, _, ⟨ha, rfl⟩, hl, _, ⟨hn, rfl⟩, rfl⟩

lemma readMembership_spells : Spells readMembership GraphMembership.bytes GraphMembership.Writable := by
  intro b m rest
  have hname : Spells readGraphName short IsName := nameText_spells
  simp only [readMembership, bind_eq_ok, Prod.exists, byte_eq_ok, refuse_eq_ok, exists_const, pure_eq_ok,
    hname _ _ _, (hname.many _) _ _ _, Prod.mk.injEq, not_not, not_and]
  constructor
  · rintro ⟨g, _, ⟨hg, rfl⟩, a, _, ⟨ha, rfl⟩, edge, _, rfl, hedge, count, _, rfl, hcount, labels, _,
      ⟨⟨hlen, hn⟩, rfl⟩, rfl, rfl⟩
    have heq : (if decide (edge = 1) then 1 else 0) = edge := by
      by_cases h : edge = 1
      · simp [h]
      · have hzero : edge = 0 := by
          by_contra hne
          exact h (hedge hne)
        simp [hzero]
    have hlt := count.toNat_lt
    refine ⟨⟨hg, ha, ⟨?_, by simp only; omega⟩, hn⟩, ?_⟩
    · rintro rfl
      exact hcount (UInt8.toNat_inj.mp hlen.symm)
    · simp only [GraphMembership.bytes, shortList, heq, hlen, UInt8.ofNat_toNat, List.append_assoc,
        List.cons_append]
  · rintro ⟨hw, rfl⟩
    simp only [GraphMembership.bytes, shortList, List.append_assoc, List.cons_append]
    have hcount := toNat_count hw.labels.2
    refine ⟨_, _, ⟨hw.graph, rfl⟩, _, _, ⟨hw.aliasName, rfl⟩, _, _, rfl, ?_, _, _, rfl, ?_, m.labels, rest,
      ⟨⟨hcount.symm, hw.named⟩, rfl⟩, ?_, rfl⟩
    · split_ifs <;> simp
    · intro h
      rw [h] at hcount
      exact hw.labels.1 (List.eq_nil_of_length_eq_zero hcount.symm)
    · have hedge : decide ((if m.edge then 1 else 0 : UInt8) = 1) = m.edge := by
        cases m.edge <;> rfl
      rw [hedge]

/-- What a table may say of the graphs it belongs to. -/
def MembershipsOk (l : List GraphMembership) : Prop :=
  l ≠ [] ∧ l.length ≤ 255 ∧ ∀ m ∈ l, m.Writable

lemma encodeMemberships_eq_ok {l : List GraphMembership} (hne : l ≠ []) :
    encodeMemberships l = .ok b ↔ MembershipsOk l ∧ b = membershipsBytes l := by
  have hall : ∀ {x : Bytes}, writeAll encodeMembership l = .ok x ↔
      (∀ m ∈ l, m.Writable) ∧ x = l.flatMap GraphMembership.bytes :=
    writeAll_eq_ok fun _ _ => encodeMembership_eq_ok
  simp only [encodeMemberships, bind_eq_ok, refuse_eq_ok, exists_const, hall, pure_eq_ok, not_lt, MembershipsOk,
    membershipsBytes, shortList]
  constructor
  · rintro ⟨hlen, _, ⟨hm, rfl⟩, rfl⟩
    exact ⟨⟨hne, hlen, hm⟩, rfl⟩
  · rintro ⟨⟨-, hlen, hm⟩, rfl⟩
    exact ⟨hlen, _, ⟨hm, rfl⟩, rfl⟩

lemma decodeMemberships_spells : Spells decodeMemberships membershipsBytes MembershipsOk := by
  intro b l rest
  simp only [decodeMemberships, bind_eq_ok, Prod.exists, byte_eq_ok, refuse_eq_ok, exists_const, pure_eq_ok,
    (readShort_spells readMembership_spells) _ _ _, Prod.mk.injEq, not_not, MembershipsOk, membershipsBytes]
  constructor
  · rintro ⟨version, _, rfl, rfl, out, _, ⟨⟨hlen, hm⟩, rfl⟩, hne, rfl, rfl⟩
    exact ⟨⟨hne, hlen, hm⟩, rfl⟩
  · rintro ⟨⟨hne, hlen, hm⟩, rfl⟩
    exact ⟨1, _, rfl, rfl, l, rest, ⟨⟨hlen, hm⟩, rfl⟩, hne, rfl, rfl⟩

/-! ## Spellings of a record -/

/-- The name and the tails, as a payload spells them. -/
structure TailSpelling where
  name : String
  declared : Option (List (String × String))
  rules : Option (List (FieldRule Constant))
  schema : Option String
  edge : Option EdgeTable
  key : Option KeyTail
  graphs : Option (List GraphMembership)

namespace TailSpelling

def Tailless (w : TailSpelling) : Prop :=
  w.declared.isNone ∧ w.rules.isNone ∧ w.schema.isNone ∧ w.edge.isNone ∧ w.key.isNone ∧ w.graphs.isNone

instance (w : TailSpelling) : Decidable w.Tailless := inferInstanceAs (Decidable (_ ∧ _))

def tails (w : TailSpelling) : Bytes :=
  optionBytes (counted declaredBytes) w.declared ++ (optionBytes (counted FieldRule.bytes) w.rules ++
    (optionBytes short w.schema ++ (optionBytes EdgeTable.bytes w.edge ++ (optionBytes KeyTail.bytes w.key ++
      optionBytes membershipsBytes w.graphs))))

def bytes (w : TailSpelling) : Bytes := if w.Tailless then utf8 w.name else long w.name ++ w.tails

structure Fits (w : TailSpelling) : Prop where
  declared : ∀ l ∈ w.declared, l.length < 256 ^ 2 ∧ ∀ d ∈ l, IsName d.1 ∧ IsName d.2
  rules : ∀ l ∈ w.rules, l.length < 256 ^ 2 ∧ ∀ r ∈ l, FieldRule.Fits r
  schema : ∀ x ∈ w.schema, schemaNameOk x
  edge : ∀ e ∈ w.edge, e.Writable ∧ e.Storable
  key : ∀ k ∈ w.key, k.Fits
  graphs : ∀ l ∈ w.graphs, MembershipsOk l

/-- What a spelling of the tails means. -/
structure Means (serde : Serde) (w : TailSpelling) (t : Tails) : Prop where
  name : t.name = w.name
  declared : t.declared = w.declared.getD []
  rules : List.Forall₂ (FieldRule.Means serde) (w.rules.getD []) t.rules
  schema : t.schema = w.schema
  edge : t.edge = w.edge
  key : Option.Rel (KeyTail.Means serde) w.key t.key
  graphs : t.graphs = w.graphs.getD []

/-- The flags of a byte that say which tails there are. -/
structure Flagged (x : UInt8) (w : TailSpelling) : Prop where
  declared : w.declared.isSome ↔ x &&& 4 ≠ 0
  rules : w.rules.isSome ↔ x &&& 8 ≠ 0
  schema : w.schema.isSome ↔ x &&& 16 ≠ 0
  edge : w.edge.isSome ↔ x &&& 32 ≠ 0
  key : w.key.isSome ↔ x &&& 64 ≠ 0
  graphs : w.graphs.isSome ↔ x &&& 128 ≠ 0

end TailSpelling

/-- A record as its payload spells it. -/
structure Spelling where
  id : UInt32
  layout : UInt32
  timestamps : Bool
  drop : Option DropState
  tails : TailSpelling

def Catalog.tails (c : Catalog) : Tails where
  name := c.name
  declared := c.declared
  rules := c.rules
  schema := c.schema
  edge := c.edge
  key := c.key
  graphs := c.graphs

namespace Spelling

def flags (w : Spelling) : UInt8 :=
  catalogFlags w.timestamps w.drop.isSome w.tails.declared.isSome w.tails.rules.isSome w.tails.schema.isSome
    w.tails.edge.isSome w.tails.key.isSome w.tails.graphs.isSome

def bytes (w : Spelling) : Bytes :=
  bigEndian 4 w.id.toNat ++ (bigEndian 4 w.layout.toNat ++ (w.flags ::
    (optionBytes DropState.bytes w.drop ++ w.tails.bytes)))

structure Fits (w : Spelling) : Prop where
  id : w.id ≠ 0
  layout : w.layout ≠ 0
  name : IsName w.tails.name
  tails : w.tails.Fits

/-- What a spelling of a record means. -/
structure Means (serde : Serde) (w : Spelling) (c : Catalog) : Prop where
  id : c.id = w.id
  layout : c.layout = w.layout
  timestamps : c.timestamps = w.timestamps
  drop : c.drop = w.drop
  tails : w.tails.Means serde c.tails

end Spelling

/-! ## Flags -/

lemma catalogFlags_bits : ∀ a d t r s e k g : Bool,
    (catalogFlags a d t r s e k g &&& 1 = 1 ↔ a) ∧ (catalogFlags a d t r s e k g &&& 2 ≠ 0 ↔ d) := by
  decide +kernel

lemma catalogFlags_mask : ∀ a d t r s e k g : Bool,
    catalogFlags a d t r s e k g &&& tailMask = 0 ↔ (t || r || s || e || k || g) = false := by
  decide +kernel

lemma catalogFlags_tails : ∀ a d t r s e k g : Bool,
    (t ↔ catalogFlags a d t r s e k g &&& 4 ≠ 0) ∧ (r ↔ catalogFlags a d t r s e k g &&& 8 ≠ 0) ∧
    (s ↔ catalogFlags a d t r s e k g &&& 16 ≠ 0) ∧ (e ↔ catalogFlags a d t r s e k g &&& 32 ≠ 0) ∧
    (k ↔ catalogFlags a d t r s e k g &&& 64 ≠ 0) ∧ (g ↔ catalogFlags a d t r s e k g &&& 128 ≠ 0) := by
  decide +kernel

lemma eq_catalogFlags_of_lt : ∀ n < 256, UInt8.ofNat n =
    catalogFlags (decide (UInt8.ofNat n &&& 1 = 1)) (decide (UInt8.ofNat n &&& 2 ≠ 0))
      (decide (UInt8.ofNat n &&& 4 ≠ 0)) (decide (UInt8.ofNat n &&& 8 ≠ 0))
      (decide (UInt8.ofNat n &&& 16 ≠ 0)) (decide (UInt8.ofNat n &&& 32 ≠ 0))
      (decide (UInt8.ofNat n &&& 64 ≠ 0)) (decide (UInt8.ofNat n &&& 128 ≠ 0)) := by
  decide +kernel

/-- **A byte is the flags of what is found in it.** -/
lemma eq_catalogFlags (x : UInt8) : x =
    catalogFlags (decide (x &&& 1 = 1)) (decide (x &&& 2 ≠ 0)) (decide (x &&& 4 ≠ 0)) (decide (x &&& 8 ≠ 0))
      (decide (x &&& 16 ≠ 0)) (decide (x &&& 32 ≠ 0)) (decide (x &&& 64 ≠ 0)) (decide (x &&& 128 ≠ 0)) := by
  have := eq_catalogFlags_of_lt x.toNat x.toNat_lt
  rwa [UInt8.ofNat_toNat] at this

/-- Every bit of the byte is some flag. -/
lemma and_not_flags (x : UInt8) : x &&& ~~~ (1 ||| 2 ||| tailMask) = 0 := by
  have hall : ~~~ (1 ||| 2 ||| tailMask) = 0 := by decide
  rw [hall, UInt8.and_zero]

/-- No flag of a tail. -/
lemma mask_eq_zero {x : UInt8} : x &&& tailMask = 0 ↔
    x &&& 4 = 0 ∧ x &&& 8 = 0 ∧ x &&& 16 = 0 ∧ x &&& 32 = 0 ∧ x &&& 64 = 0 ∧ x &&& 128 = 0 := by
  have h := catalogFlags_mask (decide (x &&& 1 = 1)) (decide (x &&& 2 ≠ 0)) (decide (x &&& 4 ≠ 0))
    (decide (x &&& 8 ≠ 0)) (decide (x &&& 16 ≠ 0)) (decide (x &&& 32 ≠ 0)) (decide (x &&& 64 ≠ 0))
    (decide (x &&& 128 ≠ 0))
  rw [← eq_catalogFlags] at h
  rw [h]
  simp [and_assoc]

lemma TailSpelling.Flagged.tailless_iff {x : UInt8} {w : TailSpelling} (h : w.Flagged x) :
    w.Tailless ↔ x &&& tailMask = 0 := by
  have hnone : ∀ {α : Type} {o : Option α} {m : UInt8}, (o.isSome ↔ m ≠ 0) → (o.isNone ↔ m = 0) := by
    intro α o m ho
    rw [← not_iff_not, ← ne_eq (a := m), ← ho]
    cases o <;> simp
  rw [mask_eq_zero, TailSpelling.Tailless, hnone h.declared, hnone h.rules, hnone h.schema, hnone h.edge,
    hnone h.key, hnone h.graphs]

namespace Spelling

variable {w : Spelling} {x : UInt8}

lemma flagged (w : Spelling) : w.tails.Flagged w.flags := by
  obtain ⟨h4, h8, h16, h32, h64, h128⟩ := catalogFlags_tails w.timestamps w.drop.isSome
    w.tails.declared.isSome w.tails.rules.isSome w.tails.schema.isSome w.tails.edge.isSome
    w.tails.key.isSome w.tails.graphs.isSome
  exact ⟨h4, h8, h16, h32, h64, h128⟩

/-- The flags of a byte are those of a spelling that has what it says. -/
lemma flags_eq (ht : w.timestamps = decide (x &&& 1 = 1)) (hdrop : w.drop.isSome ↔ x &&& 2 ≠ 0)
    (h : w.tails.Flagged x) : w.flags = x := by
  have hbit : ∀ {o : Bool} {p : Prop} [Decidable p], (o ↔ p) → o = decide p := by
    intro o p _ h
    rw [Bool.eq_iff_iff, decide_eq_true_iff]
    exact h
  rw [flags, ht, hbit hdrop, hbit h.declared, hbit h.rules, hbit h.schema, hbit h.edge, hbit h.key,
    hbit h.graphs, ← eq_catalogFlags]

end Spelling

/-! ## Reading a record -/

variable {serde : Serde}

lemma rel_lists {α ω : Type} {P : ω → Prop} {R : ω → α → Prop} {n : ℕ} {o : Option (List ω)} {xs : List α} :
    (∃ o', Option.Rel (fun ws xs => ws.length < n ∧ List.Forall₂ (fun w x => P w ∧ R w x) ws xs) o o' ∧
      o'.getD [] = xs) ↔
      (∀ l ∈ o, l.length < n ∧ ∀ w ∈ l, P w) ∧ List.Forall₂ R (o.getD []) xs := by
  constructor
  · rintro ⟨o', h, rfl⟩
    cases h with
    | none => simp
    | some h =>
        obtain ⟨hP, hR⟩ := (List.forall₂_and_left _ _).mp h.2
        exact ⟨by simpa using ⟨h.1, hP⟩, hR⟩
  · rintro ⟨hP, hR⟩
    cases o with
    | none =>
        cases hR
        exact ⟨none, .none, rfl⟩
    | some l =>
        have hl := hP l rfl
        exact ⟨some xs, .some ⟨hl.1, (List.forall₂_and_left _ _).mpr ⟨hl.2, hR⟩⟩, rfl⟩

/-- **The tails are read as what their spelling means.** -/
lemma readTails_eq_ok {x : UInt8} {t : Tails} : readTails serde x b = .ok t ↔
    ∃ w : TailSpelling, w.Flagged x ∧ (utf8 w.name).length < 256 ^ 2 ∧ w.Fits ∧ w.Means serde t ∧
      b = long w.name ++ w.tails := by
  simp only [readTails, bind_eq_ok, Prod.exists, longText_spells _ _ _, refuse_eq_ok, exists_const,
    ((readCounted_spells readDeclared_spells).optional _) _ _ _,
    ((readCounted_reads decodeRule_reads).optional _) _ _ _, (readSchema_spells.optional _) _ _ _,
    (EdgeTable.decode_spells.optional _) _ _ _, (decodeKeySpec_reads.optional _) _ _ _,
    (decodeMemberships_spells.optional _) _ _ _, pure_eq_ok, not_not]
  constructor
  · rintro ⟨name, _, ⟨hname, rfl⟩, declared, _, ⟨⟨h4, hdeclared⟩, rfl⟩, rules, _, ⟨wrules, ⟨h8, hrules⟩, rfl⟩,
      schema, _, ⟨⟨h16, hschema⟩, rfl⟩, edge, _, ⟨⟨h32, hedge⟩, rfl⟩, key, _, ⟨wkey, ⟨h64, hkey⟩, rfl⟩, graphs,
      _, ⟨⟨h128, hgraphs⟩, rfl⟩, rfl, rfl⟩
    obtain ⟨hkfits, hkrel⟩ := rel_and.mp hkey
    obtain ⟨hrfits, hrrel⟩ := rel_lists.mp ⟨rules, hrules, rfl⟩
    exact ⟨⟨name, declared, wrules, schema, edge, wkey, graphs⟩, ⟨h4, h8, h16, h32, h64, h128⟩, hname,
      ⟨hdeclared, hrfits, hschema, hedge, hkfits, hgraphs⟩, ⟨rfl, rfl, hrrel, rfl, rfl, hkrel, rfl⟩,
      by simp only [TailSpelling.tails, List.append_nil]⟩
  · rintro ⟨w, hflag, hname, hfits, hmeans, rfl⟩
    obtain ⟨rules, hrules, hget⟩ := rel_lists.mpr ⟨hfits.rules, hmeans.rules⟩
    refine ⟨w.name, _, ⟨hname, rfl⟩, w.declared, _, ⟨⟨hflag.declared, hfits.declared⟩, rfl⟩, rules, _,
      ⟨w.rules, ⟨hflag.rules, hrules⟩, rfl⟩, w.schema, _, ⟨⟨hflag.schema, hfits.schema⟩, rfl⟩, w.edge, _,
      ⟨⟨hflag.edge, hfits.edge⟩, rfl⟩, t.key, _, ⟨w.key, ⟨hflag.key, rel_and.mpr ⟨hfits.key, hmeans.key⟩⟩, rfl⟩,
      w.graphs, [], ⟨⟨hflag.graphs, hfits.graphs⟩, (List.append_nil _).symm⟩, rfl, ?_⟩
    obtain ⟨name, declared, rules', schema, edge, key, graphs⟩ := t
    obtain ⟨rfl, rfl, -, rfl, rfl, -, rfl⟩ := hmeans
    rw [hget]

/-- The name alone, or behind its length with the tails. -/
lemma readName_eq_ok {x : UInt8} {t : Tails} : readName serde x b = .ok t ∧ IsName t.name ↔
    ∃ w : TailSpelling, w.Flagged x ∧ IsName w.name ∧ w.Fits ∧ w.Means serde t ∧ b = w.bytes := by
  unfold readName
  split_ifs with hmask
  · simp only [bind_eq_ok, fromUtf8_eq_ok, pure_eq_ok]
    constructor
    · rintro ⟨⟨name, rfl, rfl⟩, hname⟩
      obtain ⟨h4, h8, h16, h32, h64, h128⟩ := mask_eq_zero.mp hmask
      refine ⟨⟨name, none, none, none, none, none, none⟩, ?_, hname, ?_, ?_, rfl⟩
      · exact ⟨by simp [h4], by simp [h8], by simp [h16], by simp [h32], by simp [h64], by simp [h128]⟩
      · exact ⟨by simp, by simp, by simp, by simp, by simp, by simp⟩
      · exact ⟨rfl, rfl, .nil, rfl, rfl, .none, rfl⟩
    · rintro ⟨w, hflag, hname, -, hmeans, rfl⟩
      have htailless := hflag.tailless_iff.mpr hmask
      have hbytes := htailless
      simp only [TailSpelling.Tailless, Option.isNone_iff_eq_none] at htailless
      obtain ⟨h4, h8, h16, h32, h64, h128⟩ := htailless
      have hrules := hmeans.rules
      have hkey := hmeans.key
      rw [h8] at hrules
      rw [h64] at hkey
      have ht : ({ name := w.name } : Tails) = t := by
        obtain ⟨name, declared, rules, schema, edge, key, graphs⟩ := t
        cases hrules
        cases hkey
        simp only [Tails.mk.injEq]
        exact ⟨hmeans.name.symm, (hmeans.declared.trans (by rw [h4]; rfl)).symm, trivial,
          (hmeans.schema.trans h16).symm, (hmeans.edge.trans h32).symm, trivial,
          (hmeans.graphs.trans (by rw [h128]; rfl)).symm⟩
      exact ⟨⟨w.name, if_pos hbytes, ht⟩, hmeans.name ▸ hname⟩
  · rw [readTails_eq_ok]
    constructor
    · rintro ⟨⟨w, hflag, -, hfits, hmeans, rfl⟩, hname⟩
      have hne : ¬ w.Tailless := fun h => hmask (hflag.tailless_iff.mp h)
      exact ⟨w, hflag, hmeans.name ▸ hname, hfits, hmeans, (if_neg hne).symm⟩
    · rintro ⟨w, hflag, hname, hfits, hmeans, rfl⟩
      have hne : ¬ w.Tailless := fun h => hmask (hflag.tailless_iff.mp h)
      have hlt : (utf8 w.name).length < 256 ^ 2 := by
        have := hname.2
        omega
      exact ⟨⟨w, hflag, hlt, hfits, hmeans, if_neg hne⟩, hmeans.name ▸ hname⟩

/-- The state of a drop, when the flags say so. -/
lemma optional_readDrop {c : Prop} [Decidable c] {o : Option DropState} :
    Reading.optional c readDrop b = .ok (o, rest) ↔
      (o.isSome ↔ c) ∧ b = optionBytes DropState.bytes o ++ rest ∧ (o.isSome → rest ≠ []) := by
  unfold Reading.optional
  split_ifs with hc
  · simp only [bind_eq_ok, Prod.exists, readDrop_eq_ok, pure_eq_ok, Prod.mk.injEq]
    constructor
    · rintro ⟨d, _, ⟨rfl, hne⟩, rfl, rfl⟩
      exact ⟨by simp [hc], rfl, fun _ => hne⟩
    · rintro ⟨hsome, rfl, hne⟩
      obtain ⟨d, rfl⟩ := Option.isSome_iff_exists.mp (hsome.mpr hc)
      exact ⟨d, rest, ⟨rfl, hne rfl⟩, rfl, rfl⟩
  · simp only [pure_eq_ok, Prod.mk.injEq]
    constructor
    · rintro ⟨rfl, rfl⟩
      exact ⟨by simp [hc], rfl, by simp⟩
    · rintro ⟨hsome, rfl, -⟩
      cases o with
      | none => exact ⟨rfl, rfl⟩
      | some d => exact absurd (hsome.mp rfl) hc

lemma TailSpelling.bytes_ne_nil {w : TailSpelling} (h : IsName w.name) : w.bytes ≠ [] := by
  rw [TailSpelling.bytes]
  split_ifs
  · rw [ne_eq, utf8_eq_nil]
    exact h.1
  · intro hnil
    have := congrArg List.length hnil
    simp [long] at this

/-- **A payload is accepted just when it is a spelling of a record, and read as what that means.** -/
lemma parseBody_eq_ok {c : Catalog} :
    parseBody serde b = .ok c ↔ ∃ w : Spelling, w.Fits ∧ w.Means serde c ∧ b = w.bytes := by
  have hdomain : ∀ {i l : ℕ} {s : String}, ¬ (i = 0 ∨ l = 0 ∨ s = "" ∨ 255 < (utf8 s).length) ↔
      (i ≠ 0 ∧ l ≠ 0) ∧ IsName s := by
    intro i l s
    simp only [not_or, not_lt, IsName, and_assoc, ne_eq]
  simp only [parseBody, bind_eq_ok, Prod.exists, refuse_eq_ok, exists_const, number_u32, byte_eq_ok,
    optional_readDrop, hdomain, pure_eq_ok, and_not_flags, not_true_eq_false, not_false_eq_true, true_and,
    ne_eq, not_lt]
  constructor
  · rintro ⟨hlen, _, _, ⟨id, rfl, rfl⟩, _, _, ⟨layout, rfl, rfl⟩, flags, _, rfl, drop, _, ⟨hdrop, rfl, -⟩, t, ht,
      ⟨⟨hid, hlayout⟩, hname⟩, rfl⟩
    obtain ⟨w, hflag, hwname, hfits, hmeans, rfl⟩ := readName_eq_ok.mp ⟨ht, hname⟩
    rw [UInt32.ofNat_toNat, UInt32.ofNat_toNat]
    refine ⟨⟨id, layout, decide (flags &&& 1 = 1), drop, w⟩, ⟨?_, ?_, hwname, hfits⟩,
      ⟨rfl, rfl, rfl, rfl, hmeans⟩, ?_⟩
    · rintro rfl
      exact hid rfl
    · rintro rfl
      exact hlayout rfl
    · rw [Spelling.bytes, Spelling.flags_eq rfl hdrop hflag]
  · rintro ⟨w, hfits, hmeans, rfl⟩
    obtain ⟨h1, h2⟩ := catalogFlags_bits w.timestamps w.drop.isSome w.tails.declared.isSome
      w.tails.rules.isSome w.tails.schema.isSome w.tails.edge.isSome w.tails.key.isSome w.tails.graphs.isSome
    have hne := TailSpelling.bytes_ne_nil hfits.name
    have hpos := List.length_pos_iff.mpr hne
    obtain ⟨ht, hname⟩ := readName_eq_ok.mpr ⟨w.tails, w.flagged, hfits.name, hfits.tails, hmeans.tails, rfl⟩
    refine ⟨?_, _, _, ⟨w.id, rfl, rfl⟩, _, _, ⟨w.layout, rfl, rfl⟩, w.flags, _, rfl, w.drop, w.tails.bytes,
      ⟨h2.symm, rfl, fun _ => hne⟩, c.tails, ht, ⟨⟨?_, ?_⟩, hname⟩, ?_⟩
    · simp only [Spelling.bytes, List.length_append, List.length_cons, length_bigEndian]
      omega
    · intro h
      exact hfits.id (UInt32.toNat_inj.mp h)
    · intro h
      exact hfits.layout (UInt32.toNat_inj.mp h)
    · have hbit : decide (w.flags &&& 1 = 1) = w.timestamps := by
        rw [Bool.eq_iff_iff, decide_eq_true_iff]
        exact h1
      rw [UInt32.ofNat_toNat, UInt32.ofNat_toNat, hbit, ← hmeans.id, ← hmeans.layout, ← hmeans.timestamps,
        ← hmeans.drop]
      rfl

/-! ## Writing a record -/

lemma listed_eq_some {α : Type} {l x : List α} : listed l = some x ↔ l = x ∧ x ≠ [] := by
  unfold listed
  cases l with
  | nil => simp [eq_comm]
  | cons y l =>
      simp only [List.isEmpty_cons, Bool.false_eq_true, if_false, Option.some.injEq]
      constructor
      · rintro rfl
        exact ⟨rfl, by simp⟩
      · exact fun h => h.1

lemma listed_getD {α : Type} (l : List α) : (listed l).getD [] = l := by
  cases l <;> rfl

lemma listed_isSome {α : Type} (l : List α) : (listed l).isSome = !l.isEmpty := by
  cases l <;> rfl

lemma listed_getD_of_ne {α : Type} {o : Option (List α)} (h : o ≠ some []) : listed (o.getD []) = o := by
  cases o with
  | none => rfl
  | some l =>
      cases l with
      | nil => exact absurd rfl h
      | cons x l => rfl

namespace TailSpelling

/-- The tails as they are written. -/
def of (serde : Serde) (t : Tails) : TailSpelling where
  name := t.name
  declared := listed t.declared
  rules := (listed t.rules).map fun l => l.map (FieldRule.of serde)
  schema := t.schema
  edge := t.edge
  key := t.key.map (KeyTail.of serde)
  graphs := listed t.graphs

end TailSpelling

def Spelling.of (serde : Serde) (c : Catalog) : Spelling where
  id := c.id
  layout := c.layout
  timestamps := c.timestamps
  drop := c.drop
  tails := TailSpelling.of serde c.tails

/-- Tails that can be written. -/
structure Catalog.Writable (serde : Serde) (c : Catalog) : Prop where
  declared : ∀ l ∈ listed c.declared, l.length < 256 ^ 2 ∧ ∀ d ∈ l, IsName d.1 ∧ IsName d.2
  rules : ∀ l ∈ listed c.rules, l.length < 256 ^ 2 ∧ ∀ r ∈ l, FieldRule.Writable serde r
  schema : ∀ x ∈ c.schema, schemaNameOk x
  edge : ∀ e ∈ c.edge, e.Writable
  key : ∀ k ∈ c.key, k.Writable serde
  graphs : ∀ l ∈ listed c.graphs, MembershipsOk l

lemma catalogTails_eq_ok {c : Catalog} : catalogTails serde c = .ok b ↔
    c.Writable serde ∧ b = (TailSpelling.of serde c.tails).tails := by
  have hdeclared : ∀ {x : Bytes}, writeOption (writeCounted "at most 65535 declared column types" encodeDeclared)
      (listed c.declared) = .ok x ↔ (∀ l ∈ listed c.declared, l.length < 256 ^ 2 ∧
        ∀ d ∈ l, IsName d.1 ∧ IsName d.2) ∧ x = optionBytes (counted declaredBytes) (listed c.declared) :=
    writeOption_eq_ok fun _ _ => writeCounted_eq_ok fun _ _ => encodeDeclared_eq_ok
  have hrules : ∀ {x : Bytes}, writeOption (writeCounted "at most 65535 column rules" (encodeRule serde))
      (listed c.rules) = .ok x ↔ (∀ l ∈ listed c.rules, l.length < 256 ^ 2 ∧
        ∀ r ∈ l, FieldRule.Writable serde r) ∧
          x = optionBytes (counted fun r => (FieldRule.of serde r).bytes) (listed c.rules) :=
    writeOption_eq_ok fun _ _ => writeCounted_eq_ok fun _ _ => encodeRule_eq_ok
  have hschema : ∀ {x : Bytes}, writeOption encodeSchema c.schema = .ok x ↔
      (∀ y ∈ c.schema, schemaNameOk y) ∧ x = optionBytes short c.schema :=
    writeOption_eq_ok fun _ _ => encodeSchema_eq_ok
  have hedge : ∀ {x : Bytes}, writeOption EdgeTable.encode c.edge = .ok x ↔
      (∀ e ∈ c.edge, e.Writable) ∧ x = optionBytes EdgeTable.bytes c.edge :=
    writeOption_eq_ok fun _ _ => EdgeTable.encode_eq_ok
  have hkey : ∀ {x : Bytes}, writeOption (encodeKeySpec serde) c.key = .ok x ↔
      (∀ k ∈ c.key, k.Writable serde) ∧ x = optionBytes (fun k => (KeyTail.of serde k).bytes) c.key :=
    writeOption_eq_ok fun _ _ => encodeKeySpec_eq_ok
  have hgraphs : ∀ {x : Bytes}, writeOption encodeMemberships (listed c.graphs) = .ok x ↔
      (∀ l ∈ listed c.graphs, MembershipsOk l) ∧ x = optionBytes membershipsBytes (listed c.graphs) := by
    intro x
    cases hl : listed c.graphs with
    | none => simp [writeOption, optionBytes, eq_comm]
    | some l => simp [writeOption, optionBytes, encodeMemberships_eq_ok (listed_eq_some.mp hl).2]
  simp only [catalogTails, bind_eq_ok, hdeclared, hrules, hschema, hedge, hkey, hgraphs, pure_eq_ok]
  have htails : (TailSpelling.of serde c.tails).tails = optionBytes (counted declaredBytes) (listed c.declared) ++
      (optionBytes (counted fun r => (FieldRule.of serde r).bytes) (listed c.rules) ++
        (optionBytes short c.schema ++ (optionBytes EdgeTable.bytes c.edge ++
          (optionBytes (fun k => (KeyTail.of serde k).bytes) c.key ++
            optionBytes membershipsBytes (listed c.graphs))))) := by
    simp only [TailSpelling.tails, TailSpelling.of, Catalog.tails, optionBytes_map, counted, List.length_map,
      List.flatMap_map]
    rfl
  rw [htails]
  constructor
  · rintro ⟨_, ⟨h4, rfl⟩, _, ⟨h8, rfl⟩, _, ⟨h16, rfl⟩, _, ⟨h32, rfl⟩, _, ⟨h64, rfl⟩, _, ⟨h128, rfl⟩, rfl⟩
    exact ⟨⟨h4, h8, h16, h32, h64, h128⟩, rfl⟩
  · rintro ⟨⟨h4, h8, h16, h32, h64, h128⟩, rfl⟩
    exact ⟨_, ⟨h4, rfl⟩, _, ⟨h8, rfl⟩, _, ⟨h16, rfl⟩, _, ⟨h32, rfl⟩, _, ⟨h64, rfl⟩, _, ⟨h128, rfl⟩, rfl⟩

lemma tailless_of {c : Catalog} : (TailSpelling.of serde c.tails).Tailless ↔ c.Tailless := by
  have hlisted : ∀ {α : Type} (l : List α), (listed l).isNone = l.isEmpty := by
    intro α l
    cases l <;> rfl
  simp only [TailSpelling.Tailless, Catalog.Tailless, TailSpelling.of, Catalog.tails, Option.isNone_map, hlisted]

lemma flags_of {c : Catalog} : (Spelling.of serde c).flags = c.flags := by
  simp only [Spelling.flags, Spelling.of, TailSpelling.of, Catalog.tails, Catalog.flags, Option.isSome_map,
    listed_isSome]

lemma Catalog.Tailless.writable {c : Catalog} (h : c.Tailless) : c.Writable serde := by
  obtain ⟨h4, h8, h16, h32, h64, h128⟩ := h
  simp only [List.isEmpty_iff, Option.isNone_iff_eq_none] at h4 h8 h16 h32 h64 h128
  exact ⟨by simp [h4, listed], by simp [h8, listed], by simp [h16], by simp [h32], by simp [h64],
    by simp [h128, listed]⟩

/-- **What is written of a record is its spelling.** -/
lemma catalogBody_eq_ok {c : Catalog} :
    catalogBody serde c = .ok b ↔ c.Writable serde ∧ b = (Spelling.of serde c).bytes := by
  have hnamed : ∀ {x : Bytes}, nameAndTails serde c = .ok x ↔
      c.Writable serde ∧ x = (TailSpelling.of serde c.tails).bytes := by
    intro x
    rw [nameAndTails, TailSpelling.bytes]
    by_cases h : c.Tailless
    · rw [if_pos h, if_pos (tailless_of.mpr h), Except.ok.injEq, eq_comm]
      exact (and_iff_right h.writable).symm
    · rw [if_neg h, if_neg (mt tailless_of.mp h)]
      simp only [bind_eq_ok, catalogTails_eq_ok, pure_eq_ok]
      constructor
      · rintro ⟨_, ⟨hw, rfl⟩, rfl⟩
        exact ⟨hw, rfl⟩
      · rintro ⟨hw, rfl⟩
        exact ⟨_, ⟨hw, rfl⟩, rfl⟩
  simp only [catalogBody, bind_eq_ok, hnamed, pure_eq_ok]
  constructor
  · rintro ⟨_, ⟨hw, rfl⟩, rfl⟩
    exact ⟨hw, by rw [Spelling.bytes, flags_of]; rfl⟩
  · rintro ⟨hw, rfl⟩
    exact ⟨_, ⟨hw, rfl⟩, by rw [Spelling.bytes, flags_of]; rfl⟩

/-- What the catalog holds of a table: a number, a layout and a name, constants that are spelt as what they
are, a key that says something, and edges between rows of some table. -/
structure Catalog.Storable (serde : Serde) (c : Catalog) : Prop where
  id : c.id ≠ 0
  layout : c.layout ≠ 0
  name : IsName c.name
  rules : ∀ r ∈ c.rules, FieldRule.Storable serde r
  edge : ∀ e ∈ c.edge, e.Storable
  key : ∀ k ∈ c.key, k.Storable serde

namespace Spelling

lemma fits_of {c : Catalog} (hw : c.Writable serde) (h : c.Storable serde) : (of serde c).Fits where
  id := h.id
  layout := h.layout
  name := h.name
  tails :=
    { declared := hw.declared
      rules := by
        intro l hl
        obtain ⟨x, hx, rfl⟩ := Option.map_eq_some_iff.mp hl
        obtain ⟨hlen, hall⟩ := hw.rules x hx
        refine ⟨by simpa using hlen, fun r hr => ?_⟩
        obtain ⟨y, hy, rfl⟩ := List.mem_map.mp hr
        exact (hall y hy).fits
      schema := hw.schema
      edge := fun e he => ⟨hw.edge e he, h.edge e he⟩
      key := by
        intro k hk
        obtain ⟨x, hx, rfl⟩ := Option.map_eq_some_iff.mp hk
        exact KeyTail.fits_of (hw.key x hx) (h.key x hx).nonempty
      graphs := hw.graphs }

lemma means_of {c : Catalog} (h : c.Storable serde) : (of serde c).Means serde c where
  id := rfl
  layout := rfl
  timestamps := rfl
  drop := rfl
  tails :=
    { name := rfl
      declared := (listed_getD _).symm
      rules := by
        have hget : ((listed c.rules).map fun l => l.map (FieldRule.of serde)).getD [] =
            c.rules.map (FieldRule.of serde) := by
          cases c.rules <;> rfl
        have hall : List.Forall₂ (FieldRule.Means serde) (c.rules.map (FieldRule.of serde)) c.rules := by
          rw [List.forall₂_map_left_iff, List.forall₂_same]
          exact fun r hr => FieldRule.means_of (h.rules r hr)
        rw [← hget] at hall
        exact hall
      schema := rfl
      edge := rfl
      key := by
        cases hk : c.key with
        | none => simp [of, TailSpelling.of, Catalog.tails, hk]
        | some k => simpa [of, TailSpelling.of, Catalog.tails, hk] using
            Option.Rel.some (KeyTail.means_of (h.key k hk))
      graphs := (listed_getD _).symm }

/-- A spelling as it would be written: no tail for an empty list, and every part plain. -/
structure Plain (serde : Serde) (w : Spelling) : Prop where
  declared : w.tails.declared ≠ some []
  rules : w.tails.rules ≠ some []
  constants : ∀ l ∈ w.tails.rules, ∀ r ∈ l, FieldRule.Plain serde r
  key : ∀ k ∈ w.tails.key, k.Plain serde

lemma rules_of_means {ws : List (FieldRule Constant)} {rs : List (FieldRule Value)}
    (h : List.Forall₂ (FieldRule.Means serde) ws rs) (hp : ∀ r ∈ ws, FieldRule.Plain serde r)
    (hf : ∀ r ∈ ws, FieldRule.Fits r) :
    (∀ r ∈ rs, FieldRule.Writable serde r) ∧ rs.map (FieldRule.of serde) = ws := by
  induction h with
  | nil => simp
  | @cons w r ws rs hr _ ih =>
      rw [List.forall_mem_cons] at hp hf
      obtain ⟨hwritable, heq⟩ := FieldRule.Plain.of_means hp.1 hf.1 hr
      obtain ⟨hall, hmap⟩ := ih hp.2 hf.2
      exact ⟨List.forall_mem_cons.mpr ⟨hwritable, hall⟩, by rw [List.map_cons, heq, hmap]⟩

lemma listed_rules {o : Option (List (FieldRule Constant))} {rs : List (FieldRule Value)} (hne : o ≠ some [])
    (hm : List.Forall₂ (FieldRule.Means serde) (o.getD []) rs) (hp : ∀ l ∈ o, ∀ r ∈ l, FieldRule.Plain serde r)
    (hf : ∀ l ∈ o, l.length < 256 ^ 2 ∧ ∀ r ∈ l, FieldRule.Fits r) :
    (∀ l ∈ listed rs, l.length < 256 ^ 2 ∧ ∀ r ∈ l, FieldRule.Writable serde r) ∧
      ((listed rs).map fun l => l.map (FieldRule.of serde)) = o := by
  cases o with
  | none =>
      cases hm
      exact ⟨by simp [listed], rfl⟩
  | some l =>
      obtain ⟨hlen, hfits⟩ := hf l rfl
      obtain ⟨hwritable, hmap⟩ := rules_of_means hm (hp l rfl) hfits
      rw [Option.getD_some] at hmap
      have hlisted : listed rs = some rs := by
        rw [listed_eq_some]
        refine ⟨rfl, ?_⟩
        rintro rfl
        exact hne (by rw [← hmap]; rfl)
      have hsame : rs.length < 256 ^ 2 := by
        rw [← List.length_map (FieldRule.of serde), hmap]
        exact hlen
      rw [hlisted]
      refine ⟨?_, by rw [Option.map_some, hmap]⟩
      intro x hx
      rw [← Option.some.inj hx]
      exact ⟨hsame, hwritable⟩

lemma key_of_means {o : Option KeyTail} {k : Option KeySpec} (hm : Option.Rel (KeyTail.Means serde) o k)
    (hp : ∀ x ∈ o, x.Plain serde) (hf : ∀ x ∈ o, x.Fits) :
    (∀ x ∈ k, x.Writable serde) ∧ k.map (KeyTail.of serde) = o := by
  cases hm with
  | none => simp
  | @some w k hk =>
      obtain ⟨hwritable, heq⟩ := KeyTail.Plain.of_means (hp w rfl) (hf w rfl) hk
      exact ⟨by simpa using hwritable, by rw [Option.map_some, heq]⟩

/-- **A plain spelling is the one that is written of what it means.** -/
lemma Plain.of_means {w : Spelling} {c : Catalog} (h : w.Plain serde) (hf : w.Fits) (hm : w.Means serde c) :
    c.Writable serde ∧ of serde c = w := by
  obtain ⟨id, layout, timestamps, drop, ⟨name, declared, rules, schema, edge, key, graphs⟩⟩ := w
  obtain ⟨hrules, hrulesEq⟩ := listed_rules h.rules hm.tails.rules h.constants hf.tails.rules
  obtain ⟨hkey, hkeyEq⟩ := key_of_means hm.tails.key h.key hf.tails.key
  have hschema : c.schema = schema := hm.tails.schema
  have hedge : c.edge = edge := hm.tails.edge
  have hdeclared : listed c.declared = declared := by
    have hc : c.declared = declared.getD [] := hm.tails.declared
    rw [hc, listed_getD_of_ne h.declared]
  have hgraphs : listed c.graphs = graphs := by
    have hc : c.graphs = graphs.getD [] := hm.tails.graphs
    rw [hc, listed_getD_of_ne]
    intro hnil
    exact (hf.tails.graphs [] hnil).1 rfl
  refine ⟨⟨?_, hrules, ?_, ?_, hkey, ?_⟩, ?_⟩
  · rw [hdeclared]
    exact hf.tails.declared
  · rw [hschema]
    exact hf.tails.schema
  · rw [hedge]
    exact fun e he => (hf.tails.edge e he).1
  · rw [hgraphs]
    exact hf.tails.graphs
  · simp only [of, TailSpelling.of, Catalog.tails, Spelling.mk.injEq, TailSpelling.mk.injEq]
    exact ⟨hm.id, hm.layout, hm.timestamps, hm.drop, hm.tails.name, hdeclared, hrulesEq, hschema, hedge, hkeyEq,
      hgraphs⟩

end Spelling

/-! ## Packets -/

lemma length_magic : magic.length = 8 := by
  rw [magic, List.length_append]
  rfl

/-- The packet of a spelling. -/
def Spelling.Packet (w : Spelling) (p : Bytes) : Prop := packet magic w.bytes = .ok p

lemma parseCatalog_eq_ok {p : Bytes} {c : Catalog} :
    parseCatalog serde p = .ok c ↔ ∃ w : Spelling, w.Fits ∧ w.Means serde c ∧ w.Packet p := by
  simp only [parseCatalog, bind_eq_ok, unpack_eq_ok length_magic, parseBody_eq_ok]
  constructor
  · rintro ⟨_, hp, w, hfits, hmeans, rfl⟩
    exact ⟨w, hfits, hmeans, hp⟩
  · rintro ⟨w, hfits, hmeans, hp⟩
    exact ⟨_, hp, w, hfits, hmeans, rfl⟩

lemma catalogBytes_eq_ok {p : Bytes} {c : Catalog} :
    catalogBytes serde c = .ok p ↔ c.Writable serde ∧ (Spelling.of serde c).Packet p := by
  simp only [catalogBytes, bind_eq_ok, catalogBody_eq_ok]
  constructor
  · rintro ⟨_, ⟨hw, rfl⟩, hp⟩
    exact ⟨hw, hp⟩
  · rintro ⟨hw, hp⟩
    exact ⟨_, ⟨hw, rfl⟩, hp⟩

/-- **A record that can be stored is read back.** -/
lemma parseCatalog_catalogBytes {p : Bytes} {c : Catalog} (h : c.Storable serde)
    (hp : catalogBytes serde c = .ok p) : parseCatalog serde p = .ok c := by
  obtain ⟨hw, hp⟩ := catalogBytes_eq_ok.mp hp
  exact parseCatalog_eq_ok.mpr ⟨_, Spelling.fits_of hw h, Spelling.means_of h, hp⟩

/-- **A record in a plain spelling is written the same.** -/
lemma catalogBytes_parseCatalog {w : Spelling} {p : Bytes} {c : Catalog} (hf : w.Fits)
    (hm : w.Means serde c) (hp : w.Packet p) (h : w.Plain serde) : catalogBytes serde c = .ok p := by
  obtain ⟨hw, heq⟩ := h.of_means hf hm
  exact catalogBytes_eq_ok.mpr ⟨hw, heq ▸ hp⟩

/-! ## What is not this build's -/

open Descriptor (Unsupported)

lemma EdgeTable.decode_unknown {v : UInt8} (hv : v ≠ 1) : Unsupported (EdgeTable.decode (v :: rest)) :=
  .after rfl (Descriptor.refuse_unsupported hv).bind

lemma decodeKeySpec_unknown {v : UInt8} (hv : v ≠ 1) : Unsupported (decodeKeySpec serde (v :: rest)) :=
  .after rfl (Descriptor.refuse_unsupported hv).bind

lemma decodeMemberships_unknown {v : UInt8} (hv : v ≠ 1) : Unsupported (decodeMemberships (v :: rest)) :=
  .after rfl (Descriptor.refuse_unsupported hv).bind

lemma optional_unsupported {α : Type} {c : Prop} [Decidable c] {d : Reader Error α} (hc : c)
    (h : Unsupported (d b)) : Unsupported (Reading.optional c d b) := by
  rw [Reading.optional, if_pos hc]
  exact h.bind

namespace Spelling

/-- What stands before the name. -/
def head (w : Spelling) : Bytes :=
  bigEndian 4 w.id.toNat ++ (bigEndian 4 w.layout.toNat ++ (w.flags :: optionBytes DropState.bytes w.drop))

/-- What stands before the edge table. -/
def beforeEdge (w : Spelling) : Bytes :=
  w.head ++ (long w.tails.name ++ (optionBytes (counted declaredBytes) w.tails.declared ++
    (optionBytes (counted FieldRule.bytes) w.tails.rules ++ optionBytes short w.tails.schema)))

/-- What stands before the key. -/
def beforeKey (w : Spelling) : Bytes := w.beforeEdge ++ optionBytes EdgeTable.bytes w.tails.edge

/-- What stands before the memberships. -/
def beforeGraphs (w : Spelling) : Bytes := w.beforeKey ++ optionBytes KeyTail.bytes w.tails.key

/-- **What the tails are refused with, the record is refused with.** -/
lemma parseBody_unsupported {w : Spelling} (hne : rest ≠ [])
    (h : Unsupported (readName serde w.flags rest)) : Unsupported (parseBody serde (w.head ++ rest)) := by
  obtain ⟨-, h2⟩ := catalogFlags_bits w.timestamps w.drop.isSome w.tails.declared.isSome
    w.tails.rules.isSome w.tails.schema.isSome w.tails.edge.isSome w.tails.key.isSome w.tails.graphs.isSome
  have hdrop : Reading.optional (w.flags &&& 2 ≠ 0) readDrop (optionBytes DropState.bytes w.drop ++ rest) =
      .ok (w.drop, rest) := optional_readDrop.mpr ⟨h2.symm, rfl, fun _ => hne⟩
  have hpos := List.length_pos_iff.mpr hne
  have hlen : ¬ (w.head ++ rest).length < 10 := by
    simp only [head, List.length_append, List.length_cons, length_bigEndian]
    omega
  refine .after (x := ()) (refuse_eq_ok.mpr hlen) ?_
  simp only [head, List.append_assoc, List.cons_append]
  refine .after (number_eq_ok.mpr ⟨w.id.toNat_lt, rfl⟩) (.after (number_eq_ok.mpr ⟨w.layout.toNat_lt, rfl⟩)
    (.after rfl (.after (x := ()) (refuse_eq_ok.mpr ?_) (.after hdrop h.bind))))
  rw [and_not_flags]
  simp

/-- **A tail of another version is refused**, whatever stands behind its version. -/
lemma parseBody_unknown_version {w : Spelling} {c : Catalog} (hf : w.Fits) (hm : w.Means serde c) {v : UInt8}
    (hv : v ≠ 1) (post : Bytes) :
    (w.tails.edge.isSome → Unsupported (parseBody serde (w.beforeEdge ++ v :: post))) ∧
    (w.tails.key.isSome → Unsupported (parseBody serde (w.beforeKey ++ v :: post))) ∧
    (w.tails.graphs.isSome → Unsupported (parseBody serde (w.beforeGraphs ++ v :: post))) := by
  have hflag := w.flagged
  have hfits := hf.tails
  have hlong : (utf8 w.tails.name).length < 256 ^ 2 := by
    have := hf.name.2
    omega
  obtain ⟨rules, hrules, -⟩ := rel_lists.mpr ⟨hfits.rules, hm.tails.rules⟩
  have hname : ∀ {rest}, longText tailError (long w.tails.name ++ rest) = .ok (w.tails.name, rest) :=
    fun {_} => (longText_spells _ _ _).mpr ⟨hlong, rfl⟩
  have hdeclared : ∀ {rest}, Reading.optional (w.flags &&& 4 ≠ 0) (readCounted readDeclared)
      (optionBytes (counted declaredBytes) w.tails.declared ++ rest) = .ok (w.tails.declared, rest) :=
    fun {_} => ((readCounted_spells readDeclared_spells).optional _ _ _ _).mpr
      ⟨⟨hflag.declared, hfits.declared⟩, rfl⟩
  have hread : ∀ {rest}, Reading.optional (w.flags &&& 8 ≠ 0) (readCounted (decodeRule serde))
      (optionBytes (counted FieldRule.bytes) w.tails.rules ++ rest) = .ok (rules, rest) :=
    fun {_} => ((readCounted_reads decodeRule_reads).optional _ _ _ _).mpr
      ⟨w.tails.rules, ⟨hflag.rules, hrules⟩, rfl⟩
  have hschema : ∀ {rest}, Reading.optional (w.flags &&& 16 ≠ 0) readSchema
      (optionBytes short w.tails.schema ++ rest) = .ok (w.tails.schema, rest) :=
    fun {_} => (readSchema_spells.optional _ _ _ _).mpr ⟨⟨hflag.schema, hfits.schema⟩, rfl⟩
  have hedge : ∀ {rest}, Reading.optional (w.flags &&& 32 ≠ 0) EdgeTable.decode
      (optionBytes EdgeTable.bytes w.tails.edge ++ rest) = .ok (w.tails.edge, rest) :=
    fun {_} => (EdgeTable.decode_spells.optional _ _ _ _).mpr ⟨⟨hflag.edge, hfits.edge⟩, rfl⟩
  have hkey : ∀ {rest}, Reading.optional (w.flags &&& 64 ≠ 0) (decodeKeySpec serde)
      (optionBytes KeyTail.bytes w.tails.key ++ rest) = .ok (c.key, rest) :=
    fun {_} => (decodeKeySpec_reads.optional _ _ _ _).mpr
      ⟨w.tails.key, ⟨hflag.key, rel_and.mpr ⟨hfits.key, hm.tails.key⟩⟩, rfl⟩
  have hmask : ¬ w.tails.Tailless → ∀ {rest}, readName serde w.flags rest = readTails serde w.flags rest := by
    intro hne rest
    rw [readName, if_neg (mt hflag.tailless_iff.mpr hne)]
  refine ⟨fun hsome => ?_, fun hsome => ?_, fun hsome => ?_⟩
  · have hne : ¬ w.tails.Tailless := by
      rintro ⟨-, -, -, h, -, -⟩
      rw [Option.isNone_iff_eq_none.mp h] at hsome
      cases hsome
    simp only [beforeEdge, List.append_assoc]
    refine parseBody_unsupported (by simp [long]) ?_
    rw [hmask hne]
    exact .after hname (.after hdeclared (.after hread (.after hschema
      (optional_unsupported (hflag.edge.mp hsome) (EdgeTable.decode_unknown hv)).bind)))
  · have hne : ¬ w.tails.Tailless := by
      rintro ⟨-, -, -, -, h, -⟩
      rw [Option.isNone_iff_eq_none.mp h] at hsome
      cases hsome
    simp only [beforeKey, beforeEdge, List.append_assoc]
    refine parseBody_unsupported (by simp [long]) ?_
    rw [hmask hne]
    exact .after hname (.after hdeclared (.after hread (.after hschema (.after hedge
      (optional_unsupported (hflag.key.mp hsome) (decodeKeySpec_unknown hv)).bind))))
  · have hne : ¬ w.tails.Tailless := by
      rintro ⟨-, -, -, -, -, h⟩
      rw [Option.isNone_iff_eq_none.mp h] at hsome
      cases hsome
    simp only [beforeGraphs, beforeKey, beforeEdge, List.append_assoc]
    refine parseBody_unsupported (by simp [long]) ?_
    rw [hmask hne]
    exact .after hname (.after hdeclared (.after hread (.after hschema (.after hedge (.after hkey
      (optional_unsupported (hflag.graphs.mp hsome) (decodeMemberships_unknown hv)).bind)))))

end Spelling

/-- `SUPPORTED_LOGICAL_FEATURES` -/
def supportedFeatures : UInt64 := 0x1ffffff

/-- `admit_features` -/
def admitFeatures (features supported : UInt64) : Except Error Unit :=
  refuse (features &&& 1 = 0 ∨ features &&& ~~~ supported ≠ 0)
    (.unsupported s!"logical index features {features}")

/-- **Catalog records and index descriptors.**  A record of a table that can be stored is read back as it
was written, and so is the descriptor of any index; a descriptor that is accepted is the one that would be
written, and so is a record in a plain spelling; and what is of another build is refused as such: a family,
a version, an option, a state, an expression or an envelope of a descriptor, a version of a tail of a
record, a feature of the file. -/
theorem descriptor_codecs (serde : Serde) :
    (∀ c p, catalogBytes serde c = .ok p → c.Storable serde → parseCatalog serde p = .ok c) ∧
    (∀ i p, Descriptor.encode i = .ok p → i.Storable → Descriptor.decode p = .ok i) ∧
    (∀ p i, Descriptor.decode p = .ok i → i.Storable ∧ Descriptor.encode i = .ok p) ∧
    (∀ p c, parseCatalog serde p = .ok c → ∃ w : Spelling, w.Fits ∧ w.Means serde c ∧ w.Packet p ∧
      (w.Plain serde → catalogBytes serde c = .ok p)) ∧
    (∀ b, 15 ≤ b.length → (∀ family, ¬ (b.getD 12 0 = Descriptor.familyByte family ∧
        Descriptor.KnownVersion family (UInt16.ofNat (bigEndianNat (slice b 13 2))))) →
      Unsupported (Descriptor.decodeBody b)) ∧
    (∀ b i, Descriptor.decodeBody b = .ok i →
      (∀ x : Bytes, x.length = Descriptor.width i.family → Descriptor.UnknownOption i.family x →
        Unsupported (Descriptor.decodeBody (splice b 15 x))) ∧
      (∀ s : UInt8, 2 < s →
        Unsupported (Descriptor.decodeBody (splice b (15 + Descriptor.width i.family) [s]))) ∧
      (∀ t : UInt8, i.expression.isSome → 2 < t →
        Unsupported (Descriptor.decodeBody (splice b i.expressionAt [t])))) ∧
    (∀ m payload p : Bytes, m.length = 8 → utf8 "E4IDX" <+: m → m ≠ Descriptor.magic →
      packet m payload = .ok p → Unsupported (Descriptor.decode p)) ∧
    (∀ (w : Spelling) c, w.Fits → w.Means serde c → ∀ v : UInt8, v ≠ 1 → ∀ post,
      (w.tails.edge.isSome → Unsupported (parseBody serde (w.beforeEdge ++ v :: post))) ∧
      (w.tails.key.isSome → Unsupported (parseBody serde (w.beforeKey ++ v :: post))) ∧
      (w.tails.graphs.isSome → Unsupported (parseBody serde (w.beforeGraphs ++ v :: post)))) ∧
    (∀ features, features &&& ~~~ supportedFeatures ≠ 0 →
      Unsupported (admitFeatures features supportedFeatures)) := by
  refine ⟨fun c p hp h => parseCatalog_catalogBytes h hp, ?_, ?_, ?_, ?_, ?_, ?_, ?_, ?_⟩
  · intro i p hp h
    exact Descriptor.decode_eq_ok.mpr ⟨h, hp⟩
  · intro p i h
    exact Descriptor.decode_eq_ok.mp h
  · intro p c h
    obtain ⟨w, hf, hm, hp⟩ := parseCatalog_eq_ok.mp h
    exact ⟨w, hf, hm, hp, fun hplain => catalogBytes_parseCatalog hf hm hp hplain⟩
  · exact fun b hlen h => Descriptor.decodeBody_unknown_family hlen h
  · exact fun b i h => Descriptor.decodeBody_unknown h
  · exact fun m payload p hm hstarts hne hp => Descriptor.decode_unknown_envelope hm hstarts hne hp
  · exact fun w c hf hm v hv post => Spelling.parseBody_unknown_version hf hm hv post
  · exact fun features h => Descriptor.refuse_unsupported (.inr h)

/-- A full-text index, by its trigrams, half built. -/
def titles : Descriptor.IndexInfo where
  id := 7
  collection := 3
  name := "titles"
  field := "title"
  family := .text
  kind := .text
  unique := false
  state := .building 40
  encodingVersion := 1
  tree := none
  expression := none
  analyzer := some .trigram

/-- A table of a schema, with a rule for a column and a key of its own. -/
def books : Catalog where
  id := 3
  name := "books"
  layout := 5
  timestamps := true
  declared := [("title", "VARCHAR(80)")]
  rules := [("title", { default := some (.constant (.string "untitled")), notNull := true, references := none })]
  schema := some "library"
  edge := none
  key := some { column := some "isbn", default := some .ulid }
  graphs := [{ graph := "base", aliasName := "book", edge := false, labels := ["Book"] }]
  drop := none

/-- `serde_json`, where it is not asked. -/
def noJson : Serde where
  text := fun _ => ""
  parse := fun _ => none

lemma books_storable : books.Storable noJson where
  id := by decide
  layout := by decide
  name := ⟨by decide, by decide⟩
  rules := by simp [books, FieldRule.Storable, DefaultValue.Storable, StorableConstant]
  edge := by simp [books]
  key := by
    intro k hk
    rw [← Option.some.inj hk]
    exact ⟨by simp, by simp [DefaultValue.Storable]⟩

/-- A body that is short enough makes a packet. -/
lemma exists_encode {i : Descriptor.IndexInfo}
    (h : okAnd (Descriptor.encodeBody i) (fun b => decide (b.length ≤ pad - 14)) = true) :
    ∃ p, Descriptor.encode i = .ok p := by
  obtain ⟨body, hbody, hlen⟩ := exists_of_okAnd h
  obtain ⟨p, hp⟩ := exists_packet Descriptor.magic (of_decide_eq_true hlen)
  refine ⟨p, ?_⟩
  rw [Descriptor.encode, hbody]
  exact hp

theorem descriptor_codecs_books : (∃ p, Descriptor.encode titles = .ok p ∧ Descriptor.decode p = .ok titles) ∧
    (∃ p, catalogBytes noJson books = .ok p ∧ parseCatalog noJson p = .ok books) := by
  obtain ⟨hcatalog, hindex, -⟩ := descriptor_codecs noJson
  constructor
  · have hfits : okAnd (Descriptor.encodeBody titles) (fun b => decide (b.length ≤ pad - 14)) = true := by
      decide +kernel
    obtain ⟨p, hp⟩ := exists_encode hfits
    exact ⟨p, hp, hindex _ _ hp ⟨by decide, by decide, ⟨by decide, by decide⟩, ⟨by decide, by decide⟩, by decide⟩⟩
  · have hfits : okAnd (catalogBody noJson books) (fun b => decide (b.length ≤ pad - 14)) = true := by
      decide +kernel
    obtain ⟨body, hbody, hlen⟩ := exists_of_okAnd hfits
    obtain ⟨p, hpacket⟩ := exists_packet magic (of_decide_eq_true hlen)
    have hp : catalogBytes noJson books = .ok p := by
      rw [catalogBytes, hbody]
      exact hpacket
    exact ⟨p, hp, hcatalog _ _ hp books_storable⟩

/-- An index without a name can be encoded, but not read back: the names are checked where an index is
created. -/
theorem encode_unnamed : ¬ ∀ i p, Descriptor.encode i = .ok p → Descriptor.decode p = .ok i := by
  intro h
  have hfits : okAnd (Descriptor.encodeBody { titles with name := "" })
      (fun b => decide (b.length ≤ pad - 14)) = true := by
    decide +kernel
  obtain ⟨p, hp⟩ := exists_encode hfits
  exact (Descriptor.decode_eq_ok.mp (h _ p hp)).1.name.1 rfl

end Engine.CatalogRecord
