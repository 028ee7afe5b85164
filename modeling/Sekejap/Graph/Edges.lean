import Sekejap.Collections.BinaryJson
import Sekejap.Collections.IndexBuild

/-!
# Edges

What the tree of a database holds of its graph (`core/engine/src/index/graph`): every edge twice — the
primary posting under its source, with its bag of properties, and an empty mirror under its
destination — the names of edge types and contexts, the allocator of edge ids, and the endpoint sets,
which hold one key for every entity that has an edge of a (context, type, direction).

A tuple-keyed write puts the edge of id 0 of its tuple; `create_edge` puts one more edge beside it,
under an id of its own.
-/

open Collections (EntityId)

open Fallible

namespace Engine.Graph

/-! ## Keys -/

/-- The tuple of an edge. -/
structure EdgeKey where
  source : EntityId
  context : ℕ
  edgeType : ℕ
  destination : EntityId
  deriving DecidableEq, Repr

/-- An edge: its tuple, and 0 or the id `create_edge` handed out. -/
structure EdgeId where
  key : EdgeKey
  id : ℕ
  deriving DecidableEq, Repr

/-- The order of the primary postings. -/
def EdgeId.rank (e : EdgeId) : ℕ ×ₗ ℕ ×ₗ ℕ ×ₗ ℕ ×ₗ ℕ ×ₗ ℕ ×ₗ ℕ :=
  toLex (e.key.source.collection, toLex (e.key.source.sequence, toLex (e.key.context,
    toLex (e.key.edgeType, toLex (e.key.destination.collection,
      toLex (e.key.destination.sequence, e.id))))))

lemma EdgeId.rank_injective : Function.Injective EdgeId.rank := by
  rintro ⟨⟨⟨a, b⟩, c, d, e, f⟩, g⟩ ⟨⟨⟨a', b'⟩, c', d', e', f'⟩, g'⟩ h
  simpa [EdgeId.rank, and_assoc] using h

instance : LinearOrder EdgeId := orderOfRank EdgeId.rank EdgeId.rank_injective

/-- `DIR_OUT` and `DIR_IN` -/
inductive Dir where
  | out
  | into
  deriving DecidableEq, Repr

/-- A key of an endpoint set. -/
structure EndpointKey where
  context : ℕ
  edgeType : ℕ
  dir : Dir
  entity : EntityId
  deriving DecidableEq, Repr

/-- The order of rows, and of the keys of an endpoint set. -/
def entityRank (e : EntityId) : ℕ ×ₗ ℕ := toLex (e.collection, e.sequence)

lemma entityRank_injective : Function.Injective entityRank := by
  rintro ⟨a, b⟩ ⟨a', b'⟩ h
  simpa [entityRank] using h

instance : LinearOrder EntityId := orderOfRank entityRank entityRank_injective

def Dir.byte : Dir → ℕ
  | out => 0
  | into => 1

def EndpointKey.rank (k : EndpointKey) : ℕ ×ₗ ℕ ×ₗ ℕ ×ₗ EntityId :=
  toLex (k.context, toLex (k.edgeType, toLex (k.dir.byte, k.entity)))

lemma EndpointKey.rank_injective : Function.Injective EndpointKey.rank := by
  rintro ⟨a, b, c, d⟩ ⟨a', b', c', d'⟩ h
  have hbyte : c.byte = c'.byte → c = c' := by cases c <;> cases c' <;> simp [Dir.byte]
  simp only [EndpointKey.rank, EmbeddingLike.apply_eq_iff_eq, Prod.mk.injEq] at h
  obtain ⟨rfl, rfl, hc, rfl⟩ := h
  rw [hbyte hc]

instance : LinearOrder EndpointKey := orderOfRank EndpointKey.rank EndpointKey.rank_injective

/-- All of a finite set, in order. -/
def ascending {α : Type} [LinearOrder α] (s : Finset α) : List α := Scan.take s s.card none

@[simp] lemma mem_ascending {α : Type} [LinearOrder α] {s : Finset α} {a : α} :
    a ∈ ascending s ↔ a ∈ s := by
  constructor
  · intro h
    exact (Scan.mem_of_mem_take h).1
  · intro h
    rcases (Scan.length_take_le s s.card none).lt_or_eq with hlt | heq
    · exact Scan.mem_take_of_short hlt h (Scan.past_none a)
    · have hsub : (ascending s).toFinset ⊆ s := by
        intro b hb
        exact (Scan.mem_of_mem_take (List.mem_toFinset.1 hb)).1
      have hcard : s.card ≤ (ascending s).toFinset.card := by
        rw [ascending, List.toFinset_card_of_nodup (Scan.take_nodup _ _ _)]
        exact heq.ge
      rw [← Finset.eq_of_subset_of_card_le hsub hcard] at h
      exact List.mem_toFinset.1 h

lemma ascending_empty {α : Type} [LinearOrder α] : ascending (∅ : Finset α) = [] := by
  simp [ascending, Scan.take]

/-- The end of an edge a direction names. -/
def EdgeKey.near (k : EdgeKey) : Dir → EntityId
  | .out => k.source
  | .into => k.destination

/-- The key one end of an edge files. -/
def EdgeKey.endpoint (k : EdgeKey) (d : Dir) : EndpointKey := ⟨k.context, k.edgeType, d, k.near d⟩

/-- `ends`: the two keys of an edge. -/
def EdgeKey.ends (k : EdgeKey) : List EndpointKey := [k.endpoint .out, k.endpoint .into]

/-! ## What the tree holds -/

structure GraphHeader where
  nextType : ℕ
  nextContext : ℕ
  typeCount : ℕ
  contextCount : ℕ
  deriving DecidableEq, Repr

/-- The two kinds of interned name. -/
inductive NameKind where
  | edgeType
  | context
  deriving DecidableEq, Repr

/-- The next identity of a kind. -/
def GraphHeader.next (h : GraphHeader) : NameKind → ℕ
  | .edgeType => h.nextType
  | .context => h.nextContext

/-- A kind as a refusal names it. -/
def NameKind.what : NameKind → String
  | edgeType => "edge type name"
  | context => "graph context name"

inductive DropMode where
  | restrict
  | cascade
  deriving DecidableEq, Repr

/-- The keyspaces of the graph.  An edge is under its key in `primary` and in `reverse`; `endpoints` has
the nodes that the edges of a type begin or end at, where the feature is declared. -/
structure Keyspaces where
  /-- `GRAPH_FEATURE`, and the header that comes with it -/
  header : Option GraphHeader
  /-- `EDGE_ID_FEATURE` -/
  edgeIdFeature : Bool
  /-- the edge-id allocator -/
  edgeIds : Option ℕ
  /-- `ENDPOINT_FEATURE` -/
  endpointFeature : Bool
  names : NameKind → String → Option ℕ
  /-- the name of the edge table an edge type belongs to -/
  bound : ℕ → Option String
  /-- 0x71 -/
  primary : Finmap fun _ : EdgeId => Bytes
  /-- 0x72 -/
  reverse : Finmap fun _ : EdgeId => Bytes
  /-- 0x7E -/
  endpoints : Finset EndpointKey
  /-- the mode in the descriptor of the table that is being dropped -/
  dropMode : DropMode

namespace Keyspaces

def empty : Keyspaces where
  header := none
  edgeIdFeature := false
  edgeIds := none
  endpointFeature := false
  names := fun _ _ => none
  bound := fun _ => none
  primary := ∅
  reverse := ∅
  endpoints := ∅
  dropMode := .restrict

/-- The postings of a direction: under the source, or under the destination. -/
def postings (g : Keyspaces) : Dir → Finset EdgeId
  | .out => g.primary.keys
  | .into => g.reverse.keys

/-- The edges at one end of an entity. -/
def incident (g : Keyspaces) (d : Dir) (e : EntityId) : Finset EdgeId :=
  (g.postings d).filter fun x => x.key.near d = e

/-- The edges of one tuple, in a direction. -/
def tuple (g : Keyspaces) (d : Dir) (k : EdgeKey) : Finset EdgeId :=
  (g.postings d).filter fun x => x.key = k

end Keyspaces

/-! ## Property bags -/

/-- `MAX_EDGE_PROPERTY_BYTES` -/
def maxEdgePropertyBytes : ℕ := 64 * 1024

/-- `EMPTY_PROPERTIES` -/
def emptyProperties : Bytes := [1, 8, 0]

def encodeProperties : Value → Except Error Bytes
  | .object [] => .ok emptyProperties
  | .object (m :: members) => do
      let binary ← (binaryJson (.object (m :: members))).mapError .invalid
      refuse (maxEdgePropertyBytes < binary.length + 1)
        (.invalid "encoded edge properties exceed 64 KiB")
      pure (1 :: binary)
  | _ => .error (.invalid "edge properties must be an object")

def decodeProperties (b : Bytes) : Except Error Value := do
  refuse (b.head? ≠ some 1 ∨ maxEdgePropertyBytes < b.length)
    (.corrupt "edge property encoding/size")
  if b = emptyProperties then pure (.object [])
  else do
    let v ← (readBinaryJson b.tail).mapError .corrupt
    match v with
    | .object members => pure (.object members)
    | _ => throw (.corrupt "edge properties are not an object")

/-- **A bag that was written is read back.** -/
lemma decodeProperties_encodeProperties {v : Value} {b : Bytes} (hv : v.WellFormed)
    (h : encodeProperties v = .ok b) : ∃ v', decodeProperties b = .ok v' := by
  cases v with
  | object members =>
      cases members with
      | nil =>
          cases h
          exact ⟨.object [], rfl⟩
      | cons m members =>
          simp only [encodeProperties, bind_eq_ok, mapError_eq_ok, refuse_eq_ok, pure_eq_ok] at h
          obtain ⟨binary, hb, _, hlen, rfl⟩ := h
          have hlt : binary.length < 2 ^ 64 := by
            rw [maxEdgePropertyBytes] at hlen
            omega
          have hread := readBinaryJson_binaryJson hv hb hlt
          have hfits : ¬ ((1 :: binary).head? ≠ some 1 ∨ maxEdgePropertyBytes < (1 :: binary).length) := by
            simpa using hlen
          rw [decodeProperties, refuse, if_neg hfits]
          by_cases hempty : (1 :: binary : Bytes) = emptyProperties
          · exact ⟨.object [], by simp [bind, Except.bind, hempty, pure, Except.pure]⟩
          · refine ⟨(Value.object (m :: members)).canonical, ?_⟩
            simp [bind, Except.bind, hempty, hread, Except.mapError, Value.canonical, pure, Except.pure]
  | null => cases h
  | bool b => cases h
  | number n => cases h
  | string s => cases h
  | array items => cases h

end Engine.Graph
