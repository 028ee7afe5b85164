import Sekejap.BTree.Pool

/-!
# Descents and separators

The ways from the root of a tree to a leaf, and the way a new separator takes back up
(`core/kernel/src/btree.rs`).  A path lists the interior pages that were passed, the lowest first.  A
descent that was not at a leaf after so many pages has not come to its end: `Stop.spin`.
-/

open Bytes Page

namespace BTree

/-- The features a build is compiled with, as far as they decide where a record goes. -/
structure Features where
  sqliteBalance : Bool
  keyspaceAppend : Bool
  deriving DecidableEq, Repr

/-- The bytes a page has for its slots and records. -/
def usable : ℕ := pageSize - headerLen

/-- `Vec::insert` -/
def insertAt {α : Type} (l : List α) (i : ℕ) (a : α) : Option (List α) :=
  if i ≤ l.length then some (l.insertIdx i a) else none

section

variable {σ : Type} (P : Pool σ) (treeId turns : ℕ)

/-- The fences of the child of a page a descent takes. -/
def narrow (p : TreePage) (i : ℕ) (fences : LeafFences) : Option LeafFences := do
  let fences ← if 0 < i then (validatedKey (p.slot (i - 1))).map fences.narrowLower else some fences
  if i < p.nentries then (validatedKey (p.slot i)).map fences.narrowUpper else some fences

/-- What a descent for a write comes to: the leaf, what its guard shows, the path and the fences. -/
structure Landing where
  leaf : ℕ
  image : Bytes
  path : List ℕ
  fences : LeafFences

/-- The loop of `descend_for_write_fenced`: a frozen child is moved to a fresh page. -/
def descendForWriteFrom (key : Bytes) : ℕ → ℕ → List ℕ → LeafFences → Act σ Landing
  | 0, _, _, _ => throw .spin
  | turns + 1, cur, path, fences => do
      let p ← openCached P cur
      if p.treeId ≠ treeId then fail (.corrupt cur "page belongs to another tree")
      if p.kind = .leaf then
        let image ← getMut P cur
        return ⟨cur, image, path, fences⟩
      let i ← orPanic (upperBound p key)
      let fences ← orPanic (narrow p i fences)
      let child ← childAt P p i
      if ← look fun s => P.isFrozen s child then
        let fresh ← shadowPage P child
        patchChild P cur i fresh
        descendForWriteFrom key turns fresh (cur :: path) fences
      else descendForWriteFrom key turns child (cur :: path) fences

/-- `descend_for_write_fenced` -/
def descendForWriteFenced (key : Bytes) : Act σ Landing := do
  let h ← handle
  if ← look fun s => P.isFrozen s h.root then
    let root ← shadowPage P h.root
    modifyHandle fun h => { h with root }
  let h ← handle
  descendForWriteFrom P treeId key turns h.root [] .unfenced

/-- A new root above the old one. -/
def growRoot (sep : Bytes) (right : ℕ) : Act σ Unit := do
  let left := (← handle).root
  let no ← call P.allocate
  let b := PageMut.setChild0 (PageMut.init .interior treeId no) left
  write P no b
  let b ← ofExcept (PageMut.insertSlot b 0 (encInterior sep right))
  write P no (PageMut.finalise b 0)
  modifyHandle fun h => { h with root := no }

/-- An interior page is cut in two around its records and a new one.  The first entry of the right page
is promoted: its key goes up, its child becomes the right page's `child0`. -/
def splitInterior (parent i : ℕ) (cell : Bytes) : Act σ (Bytes × ℕ) := do
  let p ← openCached P parent
  let recs ← orPanic (insertAt p.slots i cell)
  let p ← openCached P parent
  let oldChild0 := p.child0
  let sp ← ofExcept (Fallible.orElse (splitPoint recs usable) .tooLarge)
  let promoted ← orPanic (recs[sp]?)
  let up ← orPanic (validatedKey promoted)
  let rightChild0 ← orPanic (validatedChild promoted)
  let rightNo ← call P.allocate
  let image ← ofExcept (buildPage .interior treeId rightNo (recs.drop (sp + 1)) rightChild0)
  write P rightNo image
  let image ← ofExcept (buildPage .interior treeId parent (recs.take sp) oldChild0)
  let _ ← getMut P parent
  write P parent image
  return (up, rightNo)

/-- `insert_separator` -/
def insertSeparator : List ℕ → Bytes → ℕ → Act σ Unit
  | [], sep, right => growRoot P treeId sep right
  | parent :: path, sep, right => do
      let cell := encInterior sep right
      let p ← openCached P parent
      let i ← orPanic (upperBound p sep)
      if cell.length + 4 ≤ p.freeSpace then
        let b ← getMut P parent
        let b ← ofExcept (PageMut.insertSlot b i cell)
        write P parent (PageMut.finalise b 0)
      else
        let (up, rightNo) ← splitInterior P treeId parent i cell
        insertSeparator path up rightNo

/-- Re-arm the hint of a key's run on the page a split left the record in. -/
def armAfterSplit (key : Bytes) (fences : Option LeafFences) (page next : ℕ)
    (side : LeafFences → LeafFences) : Act σ Unit :=
  match fences with
  | none => pure ()
  | some f => modifyHandle fun h =>
      { h with tags := h.tags.map fun t => t.arm treeId key page next (side f) }

/-- Forget the hints on one leaf. -/
def forgetLeaf (leaf : ℕ) : Act σ Unit :=
  modifyHandle fun h => { h with tags := h.tags.map fun t => t.forgetLeaf treeId leaf }

/-- Whether the first key right of a leaf has another tag, as the parent on the path tells. -/
def rightmostByParent (path : List ℕ) (leaf : ℕ) (tag : UInt8) : Act σ (Option Bool) :=
  match path with
  | [] => pure none
  | parent :: _ => do
      let p ← openCached P parent
      if p.kind = .interior ∧ p.treeId = treeId then
        let children ← orPanic (p.slots.mapM validatedChild)
        match (p.child0 :: children).idxOf? leaf with
        | some pos =>
            if pos < p.nentries then
              let key ← orPanic (validatedKey (p.slot pos))
              return some (decide (key.head? ≠ some tag))
            else return none
        | none => return none
      else return none

/-- Is this leaf the rightmost one of the new record's own key tag? -/
def keyspaceRightmost (feature : Bool) (path : List ℕ) (leaf oldNext : ℕ) (rec : Bytes) : Act σ Bool :=
  if feature = false then pure false
  else do
    let key ← orPanic (validatedKey rec)
    match key.head? with
    | none => return false
    | some tag =>
        match ← rightmostByParent P treeId path leaf tag with
        | some answer => return answer
        | none =>
            let p ← openCached P oldNext
            if p.kind ≠ .leaf ∨ p.treeId ≠ treeId ∨ p.nentries = 0 then return false
            let first ← orPanic (validatedKey (p.slot 0))
            return decide (first.head? ≠ some tag)

end

end BTree
