import Sekejap.BTree.Descent

/-!
# Splits that copy

A record that does not fit in its leaf: `split_leaf_and_insert_vec` and `redistribute_neighbors_vec` of
`core/kernel/src/btree.rs`, which copy every record of the pages they touch.  The leaf is handed to them
under its guard: its number, and what the guard shows.
-/

open Bytes Page

namespace BTree

/-- Where the greedy packing of the records starts a new page, and their number. -/
def greedyFrom (usable : ℕ) : List ℕ → ℕ → ℕ → List ℕ
  | [], i, _ => [i]
  | size :: sizes, i, used =>
      if usable < used + size then i :: greedyFrom usable sizes (i + 1) size
      else greedyFrom usable sizes (i + 1) (used + size)

/-- The cuts of a leaf that takes three pages. -/
def threeCuts (recs : List Bytes) : Option (ℕ × ℕ) :=
  match greedyFrom usable (recs.map fun r => r.length + 4) 0 0 with
  | [a, b, n] => if 0 = a ∨ a = b ∨ b = n then none else some (a, b)
  | _ => none

/-- The windows of children to redistribute over: where one starts, and how many children it has. -/
def windows (pos children : ℕ) : List (ℕ × ℕ) :=
  (if 3 ≤ children then [(min (pos - 1) (children - 3), 3)] else [])
    ++ (if pos + 1 < children then [(pos, 2)] else [])
    ++ if 0 < pos then [(pos - 1, 2)] else []

section

variable {σ : Type} (P : Pool σ) (features : Features) (treeId turns : ℕ)

/-! ## Redistribution -/

/-- The records of a window, and the leaf after it; none where a child is no leaf. -/
def gatherVec (leaf : ℕ) (current : List Bytes) (currentNext : ℕ) :
    List ℕ → List Bytes → ℕ → Act σ (Option (List Bytes × ℕ))
  | [], all, next => pure (some (all, next))
  | no :: ids, all, _ =>
      if no = leaf then gatherVec leaf current currentNext ids (all ++ current) currentNext
      else do
        let p ← openCached P no
        if p.treeId ≠ treeId then fail (.corrupt no "redistribution sibling identity")
        if p.kind ≠ .leaf then return none
        gatherVec leaf current currentNext ids (all ++ p.slots) p.nextLeaf

/-- The separators inside the window, for the pages as they stand. -/
def separatorsVec (all : List Bytes) (cuts ids : List ℕ) (start : ℕ) :
    List ℕ → List Bytes → Option (List Bytes)
  | [], pr => some pr
  | j :: js, pr => do
      let cell ← all[cuts.getD j 0]?
      let key ← validatedKey cell
      separatorsVec all cuts ids start js (pr.set (start + j - 1) (encInterior key (ids.getD (start + j) 0)))

/-- Frozen pages of the window are moved to fresh ones. -/
def shadowWindow (leaf : ℕ) : List ℕ → Act σ (List ℕ)
  | [] => pure []
  | id :: ids => do
      let fresh ← if id ≠ leaf then do
          if ← look fun s => P.isFrozen s id then shadowPage P id else pure id
        else pure id
      let rest ← shadowWindow leaf ids
      return fresh :: rest

/-- The leaves of the window, and the separators that point at them. -/
def imagesVec (all : List Bytes) (cuts ids : List ℕ) (start groups next : ℕ) :
    List ℕ → List Bytes → List Bytes → Act σ (List Bytes × List Bytes)
  | [], images, pr => pure (images, pr)
  | j :: js, images, pr => do
      let no := ids.getD (start + j) 0
      let after := if j + 1 < groups then ids.getD (start + j + 1) 0 else next
      let recs := (all.drop (cuts.getD j 0)).take (cuts.getD (j + 1) 0 - cuts.getD j 0)
      let image ← ofExcept (buildPage .leaf treeId no recs after)
      let pr ← if 0 < start + j then do
          let cell ← orPanic (if 0 < j then all[cuts.getD j 0]? else pr[start + j - 1]?)
          let key ← orPanic (validatedKey cell)
          pure (pr.set (start + j - 1) (encInterior key no))
        else pure pr
      imagesVec all cuts ids start groups next js (images ++ [image]) pr

/-- The guards of the window's pages other than the leaf's. -/
def guardWindow (leaf : ℕ) : List ℕ → Act σ Unit
  | [] => pure ()
  | id :: ids => do
      if id ≠ leaf then let _ ← getMut P id
      guardWindow leaf ids

/-- New images for the window's pages other than the leaf's. -/
def installWindow (leaf : ℕ) : List (ℕ × Bytes) → Act σ Unit
  | [] => pure ()
  | (id, image) :: rest => do
      if id ≠ leaf then write P id image
      installWindow leaf rest

/-- What is installed when every image has been built: guards first, then images. -/
def installImages (leaf parent pos start : ℕ) (ids : List ℕ) (images : List Bytes)
    (parentImage : Bytes) : Act σ Unit := do
  guardWindow P leaf ids
  let _ ← getMut P parent
  installWindow P leaf (ids.zip images)
  let image ← orPanic images[pos - start]?
  write P leaf image
  write P parent parentImage
  modifyHandle fun h => { h with lastLeaf := none }
  ids.forM (forgetLeaf treeId)

/-- One window; false where it is left as it is.  There are never more groups than pages past the test. -/
def redistributeWindowVec (leaf parent pos : ℕ) (current : List Bytes) (currentNext : ℕ)
    (parentRecs : List Bytes) (childIds : List ℕ) (start count : ℕ) : Act σ Bool := do
  match ← gatherVec P treeId leaf current currentNext ((childIds.drop start).take count) [] 0 with
  | none => return false
  | some (all, next) =>
      match neighborCellCuts (all.map fun r => r.length + 4) usable count with
      | none => return false
      | some cuts =>
          let groups := cuts.length - 1
          if count < groups then return false
          let pr ← orPanic (separatorsVec all cuts childIds start (List.range' 1 (groups - 1)) parentRecs)
          match buildPage .interior treeId parent pr (childIds.getD 0 0) with
          | .error .tooLarge => return false
          | .error e => fail e
          | .ok _ =>
              let fresh ← shadowWindow P leaf ((childIds.drop start).take count)
              let ids := childIds.take start ++ fresh ++ childIds.drop (start + count)
              let (images, pr) ← imagesVec treeId all cuts ids start groups next (List.range groups) [] pr
              let parentImage ← ofExcept (buildPage .interior treeId parent pr (ids.getD 0 0))
              installImages P treeId leaf parent pos start ((ids.drop start).take groups) images parentImage
              return true

/-- The windows, until one takes the records. -/
def redistributeWindowsVec (leaf parent pos : ℕ) (current : List Bytes) (currentNext : ℕ)
    (parentRecs : List Bytes) (childIds : List ℕ) : List (ℕ × ℕ) → Act σ Bool
  | [] => pure false
  | (start, count) :: rest => do
      if ← redistributeWindowVec P treeId leaf parent pos current currentNext parentRecs childIds start
          count then return true
      redistributeWindowsVec leaf parent pos current currentNext parentRecs childIds rest

/-- `redistribute_neighbors_vec` -/
def redistributeNeighborsVec (leaf : ℕ) (path : List ℕ) (current : List Bytes) (currentNext : ℕ) :
    Act σ Bool :=
  match path with
  | [] => pure false
  | parent :: _ => do
      let p ← openCached P parent
      if p.kind ≠ .interior ∨ p.treeId ≠ treeId then
        fail (.corrupt parent "redistribution parent identity")
      let children ← orPanic (p.slots.mapM validatedChild)
      let childIds := p.child0 :: children
      match childIds.idxOf? leaf with
      | none => fail (.corrupt parent "redistribution child missing")
      | some pos =>
          redistributeWindowsVec P treeId leaf parent pos current currentNext p.slots childIds
            (windows pos childIds.length)

/-! ## The split -/

/-- What the right page of a split starts with goes up, and the hint of the key's run is armed. -/
def finishSplit (leaf : ℕ) (path : List ℕ) (sep : Bytes) (rightNo oldNext : ℕ) (inLeft : Bool)
    (key : Bytes) (fences : Option LeafFences) : Act σ Unit := do
  if oldNext = 0 then modifyHandle fun h => { h with lastLeaf := some rightNo }
  insertSeparator P treeId path sep rightNo
  if inLeft then armAfterSplit treeId key fences leaf rightNo (·.below sep)
  else armAfterSplit treeId key fences rightNo oldNext (·.above sep)

def splitInTwoVec (leaf : ℕ) (path : List ℕ) (place : ℕ) (recs : List Bytes) (sp oldNext : ℕ)
    (key : Bytes) (fences : Option LeafFences) : Act σ Unit := do
  let cell ← orPanic recs[sp]?
  let sep ← orPanic (validatedKey cell)
  let rightNo ← call P.allocate
  let image ← ofExcept (buildPage .leaf treeId rightNo (recs.drop sp) oldNext)
  write P rightNo image
  let image ← ofExcept (buildPage .leaf treeId leaf (recs.take sp) rightNo)
  write P leaf image
  finishSplit P treeId leaf path sep rightNo oldNext (decide (place < sp)) key fences

/-- The separators of a split in three; the second one's path is sought from the root, as the first may
have split its ancestors. -/
def finishThree (leaf : ℕ) (path : List ℕ) (midSep rightSep : Bytes) (midNo rightNo oldNext : ℕ)
    (place a b : ℕ) (key : Bytes) (fences : Option LeafFences) : Act σ Unit := do
  modifyHandle fun h => { h with lastLeaf := none }
  insertSeparator P treeId path midSep midNo
  let landing ← descendForWriteFenced P treeId turns rightSep
  insertSeparator P treeId landing.path rightSep rightNo
  if oldNext = 0 then modifyHandle fun h => { h with lastLeaf := some rightNo }
  if place < a then armAfterSplit treeId key fences leaf midNo (·.below midSep)
  else if place < b then
    armAfterSplit treeId key fences midNo rightNo fun f => (f.above midSep).below rightSep
  else armAfterSplit treeId key fences rightNo oldNext (·.above rightSep)

def splitInThreeVec (leaf : ℕ) (path : List ℕ) (place : ℕ) (recs : List Bytes) (a b oldNext : ℕ)
    (key : Bytes) (fences : Option LeafFences) : Act σ Unit := do
  let midNo ← call P.allocate
  let rightNo ← call P.allocate
  let leftImage ← ofExcept (buildPage .leaf treeId leaf (recs.take a) midNo)
  let midImage ← ofExcept (buildPage .leaf treeId midNo ((recs.drop a).take (b - a)) rightNo)
  let rightImage ← ofExcept (buildPage .leaf treeId rightNo (recs.drop b) oldNext)
  let midSep ← orPanic (recs[a]?.bind validatedKey)
  let rightSep ← orPanic (recs[b]?.bind validatedKey)
  write P midNo midImage
  write P rightNo rightImage
  write P leaf leftImage
  finishThree P treeId turns leaf path midSep rightSep midNo rightNo oldNext place a b key fences

/-- Whether the record goes behind all others of its leaf, and each side of that cut fits. -/
def atTail (recs : List Bytes) (place : ℕ) : Bool :=
  decide (0 < place) && decide (place + 1 = recs.length) && decide (bytesOf (recs.take place) ≤ usable)
    && decide (bytesOf (recs.drop place) ≤ usable)

/-- `split_leaf_and_insert_vec` -/
def splitLeafAndInsertVec (leaf : ℕ) (image : Bytes) (path : List ℕ) (place : ℕ) (cell key : Bytes)
    (fences : Option LeafFences) : Act σ Unit := do
  let p ← ofExcept (TreePage.ofBytes image leaf)
  let oldNext := p.nextLeaf
  let recs ← orPanic (insertAt p.slots place cell)
  let atPoint ← if atTail recs place then
      if oldNext = 0 then pure true
      else keyspaceRightmost P treeId features.keyspaceAppend path leaf oldNext cell
    else pure false
  let done ← if features.sqliteBalance ∧ atPoint = false ∧ (oldNext ≠ 0 ∨ place + 1 ≠ recs.length) then
      redistributeNeighborsVec P treeId leaf path recs oldNext
    else pure false
  if done then return ()
  match if atPoint then some place else splitPoint recs usable with
  | some sp => splitInTwoVec P treeId leaf path place recs sp oldNext key fences
  | none =>
      match threeCuts recs with
      | none => fail .tooLarge
      | some (a, b) => splitInThreeVec P treeId turns leaf path place recs a b oldNext key fences

end

end BTree
