import Sekejap.BTree.Split

/-!
# Splits that borrow

The same split with every record left where it is: `split_core` and `redistribute_neighbors_ref` of
`core/kernel/src/btree.rs`.  A record is named by a `SlotRef` into one of a few page images, the images
are copies in a scratch that is kept between splits, and the separators a redistribution rebuilds are
written into an arena of the scratch.  The lists of the scratch are cleared before they are filled, so
only its byte buffers are handed from one split to the next.
-/

open Bytes Page

namespace BTree

/-! ## The scratch -/

/-- `frame::LEAF`: the splitting leaf's image. -/
def frameLeaf : ℕ := 0
/-- `frame::REC`: the incoming record. -/
def frameRec : ℕ := 1
/-- `frame::SIB0`; the second sibling's is the next. -/
def frameSib : ℕ := 2
/-- `frame::PARENT` -/
def frameParent : ℕ := 4
/-- `frame::SEPS`: separators that were rebuilt. -/
def frameSeps : ℕ := 5

/-- The reusable buffers. -/
structure SplitScratch where
  leafImg : Bytes
  /-- sibling page images, two pages -/
  sib : Bytes
  parent : Bytes
  /-- built page images, four pages -/
  out : Bytes
  /-- separators, three pages -/
  seps : Bytes
  cuts : CutBuffers
  leafImg_length : leafImg.length = pageSize
  sib_length : sib.length = 2 * pageSize
  parent_length : parent.length = pageSize
  out_length : out.length = 4 * pageSize
  seps_length : seps.length = 3 * pageSize

/-- `SplitScratch::new` -/
def SplitScratch.new : SplitScratch where
  leafImg := List.replicate pageSize 0
  sib := List.replicate (2 * pageSize) 0
  parent := List.replicate pageSize 0
  out := List.replicate (4 * pageSize) 0
  seps := List.replicate (3 * pageSize) 0
  cuts := ⟨[], [], [], []⟩
  leafImg_length := List.length_replicate
  sib_length := List.length_replicate
  parent_length := List.length_replicate
  out_length := List.length_replicate
  seps_length := List.length_replicate

/-- `copy_from_slice` into a part of a buffer. -/
def copyInto (b : Bytes) (off : ℕ) (x : Bytes) : Option Bytes :=
  if off + x.length ≤ b.length then some (b.splice off x) else none

/-- Write one interior record into the arena, and name it. -/
def pushSep (seps : Bytes) (off : ℕ) (key : Bytes) (child : ℕ) : Option (Bytes × ℕ × SlotRef) := do
  let len := 6 + key.length
  let seps ← copyInto seps off (leBytes 2 key.length)
  let seps ← copyInto seps (off + 2) key
  let seps ← copyInto seps (off + 2 + key.length) (leBytes 4 child)
  return (seps, off + len, ⟨frameSeps, off % 2 ^ 16, len % 2 ^ 16⟩)

/-- Re-point a separator of the arena at a different child. -/
def patchSepChild (seps : Bytes) (s : SlotRef) (child : ℕ) : Option Bytes :=
  copyInto seps (s.off + s.len - 4) (leBytes 4 child)

/-- The slots of a page, in one of the images. -/
def TreePage.slotRefs (p : TreePage) (frame : ℕ) : List SlotRef :=
  (List.range p.nentries).map fun i => ⟨frame, (p.slotBounds i).1, (p.slotBounds i).2⟩

section

variable {σ : Type} (P : Pool σ) (features : Features) (treeId turns : ℕ)

/-- `build_page_into` of a part of the buffer for built images. -/
def buildOut (out : Bytes) (part : ℕ) (kind : PageKind) (pageNo : ℕ) (recs : List Bytes)
    (child0OrNext : ℕ) : Except Error Unit × Bytes :=
  let built := buildPageInto kind treeId pageNo recs child0OrNext
  (built.1, out.splice (part * pageSize) built.2)

/-- The image that was built there. -/
def outPart (out : Bytes) (part : ℕ) : Bytes := out.slice (part * pageSize) pageSize

/-- `build_page_into` with `?`: the buffer that is left. -/
def buildOutOk (out : Bytes) (part : ℕ) (kind : PageKind) (pageNo : ℕ) (recs : List Bytes)
    (child0OrNext : ℕ) : Act σ Bytes :=
  match buildOut treeId out part kind pageNo recs child0OrNext with
  | (.ok (), out) => pure out
  | (.error e, _) => fail e

/-! ## Redistribution -/

/-- What has been gathered of a window: its records, the leaf after it, the siblings' images. -/
structure Gathered where
  win : List SlotRef
  next : ℕ
  nsib : ℕ
  sib : Bytes

/-- The records of a window, each sibling's image copied into the scratch. -/
def gatherRef (leaf : ℕ) (current : List SlotRef) (currentNext : ℕ) :
    List ℕ → Gathered → Act σ (Option Gathered × Bytes)
  | [], g => pure (some g, g.sib)
  | no :: ids, g =>
      if no = leaf then
        gatherRef leaf current currentNext ids { g with win := g.win ++ current, next := currentNext }
      else do
        let p ← openCached P no
        if p.treeId ≠ treeId then fail (.corrupt no "redistribution sibling identity")
        if p.kind ≠ .leaf then return (none, g.sib)
        let sib ← orPanic (copyInto g.sib (g.nsib * pageSize) p.b)
        let idx := if g.nsib = 0 then frameSib else frameSib + 1
        gatherRef leaf current currentNext ids ⟨g.win ++ p.slotRefs idx, p.nextLeaf, g.nsib + 1, sib⟩

/-- The separators inside the window go into the arena. -/
def separatorsRef (frames : List Bytes) (win : List SlotRef) (cuts ids : List ℕ) (start : ℕ) :
    List ℕ → Bytes → ℕ → List SlotRef → Option (Bytes × ℕ × List SlotRef)
  | [], seps, off, pr => some (seps, off, pr)
  | j :: js, seps, off, pr => do
      let s ← win[cuts.getD j 0]?
      let key ← validatedKey (recOf frames s)
      let (seps, off, sep) ← pushSep seps off key (ids.getD (start + j) 0)
      separatorsRef frames win cuts ids start js seps off (pr.set (start + j - 1) sep)

/-- The separator on the window's left keeps its key and is re-pointed. -/
def leftSeparatorRef (frames : List Bytes) (pr0 : List SlotRef) (ids : List ℕ) (start : ℕ)
    (seps : Bytes) (off : ℕ) (pr : List SlotRef) : Option (Bytes × List SlotRef) :=
  if 0 < start then do
    let s ← pr0[start - 1]?
    let key ← validatedKey (recOf frames s)
    let (seps, _, sep) ← pushSep seps off key (ids.getD start 0)
    return (seps, pr.set (start - 1) sep)
  else some (seps, pr)

/-- The separators of the arena are pointed at the pages as they are after any shadowing. -/
def patchSeps (pr : List SlotRef) (ids : List ℕ) (start : ℕ) : List ℕ → Bytes → Option Bytes
  | [], seps => some seps
  | j :: js, seps => do
      let s ← pr[start + j - 1]?
      let seps ← patchSepChild seps s (ids.getD (start + j) 0)
      patchSeps pr ids start js seps

/-- The leaves of the window, into the buffer. -/
def imagesRef (frames : List Bytes) (win : List SlotRef) (cuts ids : List ℕ) (start groups next : ℕ) :
    List ℕ → Bytes → Act σ Bytes
  | [], out => pure out
  | j :: js, out => do
      let no := ids.getD (start + j) 0
      let after := if j + 1 < groups then ids.getD (start + j + 1) 0 else next
      let slots := (win.drop (cuts.getD j 0)).take (cuts.getD (j + 1) 0 - cuts.getD j 0)
      let out ← buildOutOk treeId out j .leaf no (slots.map (recOf frames)) after
      imagesRef frames win cuts ids start groups next js out

/-- The buffers a window leaves to the next one. -/
structure WindowScratch where
  sib : Bytes
  out : Bytes
  seps : Bytes
  cuts : CutBuffers

/-- One window; false where it is left as it is. -/
def redistributeWindowRef (leaf parentNo pos : ℕ) (leafImg cell parent : Bytes) (current : List SlotRef)
    (currentNext : ℕ) (pr0 : List SlotRef) (ids : List ℕ) (start count : ℕ) (sc : WindowScratch) :
    Act σ (Bool × WindowScratch) := do
  match ← gatherRef P treeId leaf current currentNext ((ids.drop start).take count) ⟨[], 0, 0, sc.sib⟩ with
  | (none, sib) => return (false, { sc with sib })
  | (some g, _) =>
      let sib := g.sib
      match neighborCellCutsInto (g.win.map fun s => s.len + 4) usable count sc.cuts with
      | (false, bufs) => return (false, { sc with sib, cuts := bufs })
      | (true, bufs) =>
          let cuts := bufs.cuts
          let groups := cuts.length - 1
          if count < groups then return (false, { sc with sib, cuts := bufs })
          let frames := [leafImg, cell, sib.slice 0 pageSize, sib.slice pageSize pageSize, parent]
          let (seps, off, pr) ← orPanic
            (separatorsRef frames g.win cuts ids start (List.range' 1 (groups - 1)) sc.seps 0 pr0)
          let (seps, pr) ← orPanic (leftSeparatorRef frames pr0 ids start seps off pr)
          let (built, out) :=
            buildOut treeId sc.out 3 .interior parentNo (pr.map (recOf (frames ++ [seps]))) (ids.getD 0 0)
          match built with
          | .error .tooLarge => return (false, ⟨sib, out, seps, bufs⟩)
          | .error e => fail e
          | .ok () =>
              let fresh ← shadowWindow P leaf ((ids.drop start).take count)
              let newids := ids.take start ++ fresh ++ ids.drop (start + count)
              let seps ← orPanic (patchSeps pr newids start (List.range' 1 (groups - 1)) seps)
              let seps ← orPanic (if 0 < start then patchSeps pr newids start [0] seps else some seps)
              let frames := frames ++ [seps]
              let out ← imagesRef treeId frames g.win cuts newids start groups g.next (List.range groups) out
              let out ← buildOutOk treeId out 3 .interior parentNo (pr.map (recOf frames))
                (newids.getD 0 0)
              installImages P treeId leaf parentNo pos start ((newids.drop start).take groups)
                ((List.range groups).map (outPart out)) (outPart out 3)
              return (true, ⟨sib, out, seps, bufs⟩)

/-- The windows, until one takes the records. -/
def redistributeWindowsRef (leaf parentNo pos : ℕ) (leafImg cell parent : Bytes)
    (current : List SlotRef) (currentNext : ℕ) (pr0 : List SlotRef) (ids : List ℕ) :
    List (ℕ × ℕ) → WindowScratch → Act σ Bool
  | [], _ => pure false
  | (start, count) :: rest, sc => do
      let (done, sc) ← redistributeWindowRef P treeId leaf parentNo pos leafImg cell parent current
        currentNext pr0 ids start count sc
      if done then return true
      redistributeWindowsRef leaf parentNo pos leafImg cell parent current currentNext pr0 ids rest sc

/-- `redistribute_neighbors_ref` -/
def redistributeNeighborsRef (leaf : ℕ) (path : List ℕ) (leafImg cell : Bytes) (current : List SlotRef)
    (currentNext : ℕ) (sc : SplitScratch) : Act σ Bool :=
  match path with
  | [] => pure false
  | parentNo :: _ => do
      let p ← openCached P parentNo
      if p.kind ≠ .interior ∨ p.treeId ≠ treeId then
        fail (.corrupt parentNo "redistribution parent identity")
      let pr0 := p.slotRefs frameParent
      let children ← orPanic (p.slots.mapM validatedChild)
      let parent ← orPanic (copyInto sc.parent 0 p.b)
      let ids := p.child0 :: children
      match ids.idxOf? leaf with
      | none => fail (.corrupt parentNo "redistribution child missing")
      | some pos =>
          redistributeWindowsRef P treeId leaf parentNo pos leafImg cell parent current currentNext pr0 ids
            (windows pos ids.length) ⟨sc.sib, sc.out, sc.seps, sc.cuts⟩

/-! ## The split -/

/-- The loop over the slots for the cut in three: where the pages break, and how often. -/
def breaksFrom (usable : ℕ) : List SlotRef → ℕ → ℕ → ℕ → ℕ → ℕ → ℕ × ℕ × ℕ
  | [], _, _, breaks, a, b => (breaks, a, b)
  | s :: slots, i, used, breaks, a, b =>
      if usable < used + (s.len + 4) then
        breaksFrom usable slots (i + 1) (s.len + 4) (breaks + 1) (if breaks = 0 then i else a)
          (if breaks = 1 then i else b)
      else breaksFrom usable slots (i + 1) (used + (s.len + 4)) breaks a b

/-- The cuts of a leaf that takes three pages. -/
def threeCutsRef (slots : List SlotRef) : Option (ℕ × ℕ) :=
  match breaksFrom usable slots 0 0 0 0 0 with
  | (breaks, a, b) =>
      if breaks ≠ 2 ∨ 0 = a ∨ a = b ∨ b = slots.length then none else some (a, b)

def splitInTwoRef (leaf : ℕ) (path : List ℕ) (place : ℕ) (frames : List Bytes) (slots : List SlotRef)
    (sp oldNext : ℕ) (key : Bytes) (fences : Option LeafFences) (out : Bytes) : Act σ Unit := do
  let s ← orPanic slots[sp]?
  let sep ← orPanic (validatedKey (recOf frames s))
  let rightNo ← call P.allocate
  let out ← buildOutOk treeId out 1 .leaf rightNo ((slots.drop sp).map (recOf frames)) oldNext
  write P rightNo (outPart out 1)
  let out ← buildOutOk treeId out 0 .leaf leaf ((slots.take sp).map (recOf frames)) rightNo
  write P leaf (outPart out 0)
  finishSplit P treeId leaf path sep rightNo oldNext (decide (place < sp)) key fences

def splitInThreeRef (leaf : ℕ) (path : List ℕ) (place : ℕ) (frames : List Bytes)
    (slots : List SlotRef) (a b oldNext : ℕ) (key : Bytes) (fences : Option LeafFences) (out : Bytes) :
    Act σ Unit := do
  let midNo ← call P.allocate
  let rightNo ← call P.allocate
  let out ← buildOutOk treeId out 0 .leaf leaf ((slots.take a).map (recOf frames)) midNo
  let out ← buildOutOk treeId out 1 .leaf midNo (((slots.drop a).take (b - a)).map (recOf frames)) rightNo
  let out ← buildOutOk treeId out 2 .leaf rightNo ((slots.drop b).map (recOf frames)) oldNext
  let midSep ← orPanic (slots[a]?.bind fun s => validatedKey (recOf frames s))
  let rightSep ← orPanic (slots[b]?.bind fun s => validatedKey (recOf frames s))
  write P midNo (outPart out 1)
  write P rightNo (outPart out 2)
  write P leaf (outPart out 0)
  finishThree P treeId turns leaf path midSep rightSep midNo rightNo oldNext place a b key fences

/-- What the slots take in a page. -/
def bytesOfSlots (slots : List SlotRef) : ℕ := (slots.map fun s => s.len + 4).sum

/-- The test for an append, on slots. -/
def atTailRef (slots : List SlotRef) (place : ℕ) : Bool :=
  decide (0 < place) && decide (place + 1 = slots.length)
    && decide (bytesOfSlots (slots.take place) ≤ usable)
    && decide (bytesOfSlots (slots.drop place) ≤ usable)

/-- `split_leaf_and_insert_ref`, and `split_core`. -/
def splitLeafAndInsertRef (sc : SplitScratch) (leaf : ℕ) (image : Bytes) (path : List ℕ) (place : ℕ)
    (cell key : Bytes) (fences : Option LeafFences) : Act σ Unit := do
  let p ← ofExcept (TreePage.ofBytes image leaf)
  let oldNext := p.nextLeaf
  let leafImg ← orPanic (copyInto sc.leafImg 0 image)
  let slots ← orPanic (insertAt (p.slotRefs frameLeaf) place ⟨frameRec, 0, cell.length % 2 ^ 16⟩)
  let frames := [leafImg, cell]
  let atPoint ← if atTailRef slots place then
      if oldNext = 0 then pure true
      else keyspaceRightmost P treeId features.keyspaceAppend path leaf oldNext cell
    else pure false
  let done ← if features.sqliteBalance ∧ atPoint = false ∧ (oldNext ≠ 0 ∨ place + 1 ≠ slots.length) then
      redistributeNeighborsRef P treeId leaf path leafImg cell slots oldNext sc
    else pure false
  if done then return ()
  match if atPoint then some place else splitPointRef slots usable with
  | some sp => splitInTwoRef P treeId leaf path place frames slots sp oldNext key fences sc.out
  | none =>
      match threeCutsRef slots with
      | none => fail .tooLarge
      | some (a, b) =>
          splitInThreeRef P treeId turns leaf path place frames slots a b oldNext key fences sc.out

end

end BTree
