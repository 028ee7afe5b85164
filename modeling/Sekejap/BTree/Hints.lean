import Sekejap.Lib.ByteOrder

/-!
# Append hints

A handle of a tree remembers, for up to sixteen runs of keys, the leaf the run was last written to and
the separators that leaf stands between (`TagHints` of `core/kernel/src/btree.rs`).  A separator that is
too long to be held arms nothing.
-/

open Bytes

namespace BTree

/-- `FENCE_MAX` -/
def fenceMax : ℕ := 48

/-- A separator, held inline. -/
structure Fence where
  key : Bytes
  fits : key.length ≤ fenceMax
  deriving DecidableEq, Repr

/-- `Fence::of` -/
def Fence.of (key : Bytes) : Option Fence :=
  if h : key.length ≤ fenceMax then some ⟨key, h⟩ else none

/-- The fences of one leaf, as a descent found them. -/
structure LeafFences where
  lower : Option Fence
  upper : Option Fence
  armable : Bool
  deriving DecidableEq, Repr

namespace LeafFences

/-- `LeafFences::NONE` -/
def unfenced : LeafFences := ⟨none, none, true⟩

def narrowLower (f : LeafFences) (key : Bytes) : LeafFences :=
  match Fence.of key with
  | some fence => { f with lower := some fence }
  | none => { f with armable := false }

def narrowUpper (f : LeafFences) (key : Bytes) : LeafFences :=
  match Fence.of key with
  | some fence => { f with upper := some fence }
  | none => { f with armable := false }

/-- What the left page of a split at a separator inherits. -/
def below (f : LeafFences) (sep : Bytes) : LeafFences := f.narrowUpper sep

/-- What the right page inherits. -/
def above (f : LeafFences) (sep : Bytes) : LeafFences := f.narrowLower sep

variable {f : LeafFences} {key : Bytes}

end LeafFences

/-- One remembered leaf; `tree` is zero in a free slot. -/
structure TagHint where
  tree : ℕ
  tag : UInt8
  leaf : ℕ
  /-- the leaf's `next_leaf` when the hint was armed -/
  next : ℕ
  lower : Option Fence
  upper : Option Fence
  used : ℕ
  deriving DecidableEq, Repr

namespace TagHint

/-- `TagHint::FREE` -/
def free : TagHint := ⟨0, 0, 0, 0, none, none, 0⟩

/-- Lower fence inclusive, upper exclusive. -/
def claims (h : TagHint) (tree : ℕ) (tag : UInt8) (key : Bytes) : Bool :=
  decide (h.tree = tree) && decide (h.tag = tag)
    && h.lower.all (fun l => decide (l.key ≤ key)) && h.upper.all (fun u => decide (key < u.key))

/-- The test of `arm`: the slot names the leaf, or covers an interval of the tag that overlaps. -/
def overlaps (h : TagHint) (tree : ℕ) (tag : UInt8) (leaf : ℕ) (fences : LeafFences) : Bool :=
  decide (h.tree = tree)
    && (decide (h.leaf = leaf)
      || (decide (h.tag = tag)
        && fences.upper.all (fun u => h.lower.all fun l => decide (l.key < u.key))
        && h.upper.all (fun u => fences.lower.all fun l => decide (l.key < u.key))))

end TagHint

/-- The hints of one handle. -/
structure TagHints where
  slots : List TagHint
  clock : ℕ
  enabled : Bool
  deriving DecidableEq, Repr

namespace TagHints

/-- The leaf that may hold a key without a descent, and the `next_leaf` it had when armed. -/
def find (t : TagHints) (tree : ℕ) (key : Bytes) : Option (ℕ × ℕ) × TagHints :=
  match t.enabled, key with
  | true, tag :: _ =>
      match t.slots.findIdx? (fun h => h.claims tree tag key) with
      | none => (none, t)
      | some i =>
          let h := t.slots.getD i .free
          (some (h.leaf, h.next),
            { t with slots := t.slots.set i { h with used := t.clock + 1 }, clock := t.clock + 1 })
  | _, _ => (none, t)

/-- The slot used least recently, the first of these. -/
def victim (slots : List TagHint) : ℕ :=
  (slots.zipIdx.foldl (fun best (h, i) => if h.used < best.2 then (i, h.used) else best)
    (0, 2 ^ 64 - 1)).1

/-- Remember a leaf for a key's tag between the fences a descent found. -/
def arm (t : TagHints) (tree : ℕ) (key : Bytes) (leaf next : ℕ) (fences : LeafFences) : TagHints :=
  match t.enabled && fences.armable, key with
  | true, tag :: _ =>
      let first := t.slots.findIdx? fun h => h.overlaps tree tag leaf fences
      let slots := t.slots.map fun h => if h.overlaps tree tag leaf fences then .free else h
      let place := (first <|> slots.findIdx? fun h => decide (h.tree = 0)).getD (victim slots)
      ⟨slots.set place ⟨tree, tag, leaf, next, fences.lower, fences.upper, t.clock + 1⟩, t.clock + 1,
        t.enabled⟩
  | _, _ => t

/-- Forget one leaf. -/
def forgetLeaf (t : TagHints) (tree leaf : ℕ) : TagHints :=
  { t with slots := t.slots.map fun h => if h.tree = tree ∧ h.leaf = leaf then .free else h }

end TagHints

end BTree
