import Sekejap.BTree.Cells
import Sekejap.BTree.Cuts
import Sekejap.BTree.Hints

/-!
# Pages of a tree

A call of the tree (`core/kernel/src/btree.rs`) moves the buffer pool and the handle of the tree, and ends
in a result, in an error, or in a panic: `Act`.  The pool is what it does on a page number (`Pool`): a
guard is the number of its page, and what is written through it is there at once.  Pins, frames and
evictions are the pool's own affair.

* `TreePage` — a page whose slots and records have been checked, and the checks.
* **`TreePage.slot_eq_encInterior`** — what the readers without checks return of an interior page's records.
-/

open Bytes Page

namespace BTree

/-- What ends a call early. -/
inductive Stop where
  | error (e : Error)
  | panic
  /-- a loop was not through in the turns it was given -/
  | spin
  deriving DecidableEq, Repr

/-- What the tree asks of the buffer pool. -/
structure Pool (σ : Type) where
  get : ℕ → σ → Except Error Bytes × σ
  getMut : ℕ → σ → Except Error Bytes × σ
  /-- through the guard of a page -/
  write : ℕ → Bytes → σ → σ
  allocate : σ → Except Error ℕ × σ
  freePage : ℕ → σ → Except Error Unit × σ
  freeShadowPage : ℕ → ℕ → σ → Except Error Unit × σ
  isFrozen : σ → ℕ → Bool
  pageCount : σ → ℕ
  /-- `write_generation`, and `stamp_generation` -/
  writeGeneration : σ → ℕ
  compactCells : σ → Bool
  /-- the record allowance of `resource_limits` -/
  recordBytes : σ → Option ℕ

/-- A pool that keeps every page it has allocated in memory: page `i` is the `i`th image. -/
def Pool.memory : Pool (List Bytes) where
  get no s := (match s[no]? with
    | some b => .ok b
    | none => .error (.io "failed to fill whole buffer"), s)
  getMut no s := (match s[no]? with
    | some b => .ok b
    | none => .error (.io "failed to fill whole buffer"), s)
  write no b s := s.set no b
  allocate s := (.ok s.length, s ++ [PageMut.finalise (PageMut.init .free 0 s.length) 0])
  freePage _ s := (.ok (), s)
  freeShadowPage _ _ s := (.ok (), s)
  isFrozen _ _ := false
  pageCount s := s.length
  writeGeneration _ := 0
  compactCells _ := false
  recordBytes _ := none

/-- The handle of a tree. -/
structure Handle where
  root : ℕ
  lastLeaf : Option ℕ
  tags : Option TagHints
  deriving DecidableEq, Repr

/-- The pool, and the handle of the tree. -/
structure World (σ : Type) where
  pool : σ
  tree : Handle

/-- What a call of the tree does. -/
abbrev Act (σ : Type) := ExceptT Stop (StateM (World σ))

section Acts

variable {σ α : Type}

def fail (e : Error) : Act σ α := throw (.error e)

/-- The value that has to be there: an index in bounds, a record that can be read. -/
def orPanic : Option α → Act σ α
  | some a => pure a
  | none => throw .panic

def ofExcept : Except Error α → Act σ α
  | .ok a => pure a
  | .error e => fail e

/-- An operation of the pool. -/
def call (f : σ → Except Error α × σ) : Act σ α := fun w =>
  match f w.pool with
  | (.ok a, s) => (.ok a, { w with pool := s })
  | (.error e, s) => (.error (.error e), { w with pool := s })

/-- Look at the pool. -/
def look (f : σ → α) : Act σ α := fun w => (.ok (f w.pool), w)

/-- The handle. -/
def handle : Act σ Handle := fun w => (.ok w.tree, w)

def modifyHandle (f : Handle → Handle) : Act σ Unit := fun w => (.ok (), { w with tree := f w.tree })

variable (P : Pool σ)

/-- `pool.get_mut`: a frozen page must not be written. -/
def getMut (no : ℕ) : Act σ Bytes := do
  if ← look fun s => P.isFrozen s no then throw .panic
  call (P.getMut no)

def write (no : ℕ) (b : Bytes) : Act σ Unit := fun w => (.ok (), { w with pool := P.write no b w.pool })

end Acts

/-! ## Pages that have been checked -/

/-- `validate_records` -/
def validateRecords (p : PageRef) : Except Error Unit :=
  match p.kind with
  | .leaf | .interior => (List.range p.nentries).forM fun i => do
      let _ ← decodeRecord (p.slot i) p.pageNo p.kind
  | _ => .ok ()

/-- A page whose slots and records have been checked. -/
structure TreePage where
  b : Bytes
  no : ℕ
  opened : PageRef.openResident b no = .ok ⟨b⟩
  records : validateRecords ⟨b⟩ = .ok ()

namespace TreePage

/-- `PageRef::open_resident` and `validate_records`.  `open_cached` does the same: the bit of a frame that
spares it the checks says that they have passed. -/
def ofBytes (b : Bytes) (no : ℕ) : Except Error TreePage :=
  match h : PageRef.openResident b no with
  | .error e => .error e
  | .ok _ =>
      match h' : validateRecords ⟨b⟩ with
      | .error e => .error e
      | .ok () => .ok ⟨b, no, by rw [h, (openInner_ok h).1], h'⟩

/-- The page is the bytes it was read from. -/
lemma b_of_ofBytes {b : Bytes} {no : ℕ} {p : TreePage} (h : ofBytes b no = .ok p) : p.b = b := by
  unfold ofBytes at h
  split at h
  · cases h
  · split at h
    · cases h
    · cases h
      rfl

variable (p : TreePage)

def kind : PageKind := PageRef.kind ⟨p.b⟩
def treeId : ℕ := PageRef.treeId ⟨p.b⟩
def nentries : ℕ := Page.nentries p.b
def nextLeaf : ℕ := Page.nextLeaf p.b
def child0 : ℕ := p.nextLeaf
def lsn : ℕ := PageRef.lsn ⟨p.b⟩
def freeSpace : ℕ := Page.freeSpace p.b
def slot (i : ℕ) : Bytes := Page.slot p.b i

/-- The records of the page. -/
def slots : List Bytes := (List.range p.nentries).map p.slot

/-- Where a record lies. -/
def slotBounds (i : ℕ) : ℕ × ℕ := Page.slotBounds p.b i

lemma length : p.b.length = pageSize := (openInner_ok p.opened).2.1

lemma slotBounds_le {i : ℕ} (h : i < p.nentries) :
    (p.slotBounds i).1 + (p.slotBounds i).2 ≤ pageSize := ((openInner_slots p.opened).2.2 i h).2

lemma length_slot {i : ℕ} (h : i < p.nentries) : (p.slot i).length = (p.slotBounds i).2 := by
  rw [slot, Page.slot, length_slice_of_le (by rw [p.length]; exact p.slotBounds_le h)]
  rfl

@[simp] lemma length_slots : p.slots.length = p.nentries := by simp [slots]

lemma mem_slots {r : Bytes} : r ∈ p.slots ↔ ∃ i < p.nentries, p.slot i = r := by
  simp [slots]

lemma length_le_of_mem {r : Bytes} (h : r ∈ p.slots) : r.length + headerLen + slotLen ≤ pageSize := by
  obtain ⟨i, hi, rfl⟩ := p.mem_slots.1 h
  obtain ⟨hdir, -, hslots⟩ := openInner_slots p.opened
  have := hslots i hi
  have hn : 1 * slotLen ≤ Page.nentries p.b * slotLen := Nat.mul_le_mul_right _ (by
    change 0 < Page.nentries p.b
    exact lt_of_le_of_lt (Nat.zero_le i) hi)
  rw [p.length_slot hi]
  change (Page.slotBounds p.b i).2 + headerLen + slotLen ≤ pageSize
  omega

lemma decoded_of_forM {l : List ℕ} {f : ℕ → Except Error DecodedRecord}
    (h : (l.forM fun i => do let _ ← f i) = .ok ()) : ∀ i ∈ l, ∃ d, f i = .ok d := by
  induction l with
  | nil => simp
  | cons j l ih =>
      simp only [List.forM, Fallible.bind_eq_ok] at h
      obtain ⟨u, ⟨d, hd, -⟩, hrest⟩ := h
      intro i hi
      rcases List.mem_cons.1 hi with rfl | hi
      · exact ⟨d, hd⟩
      · exact ih hrest i hi

lemma decoded {i : ℕ} (hk : p.kind = .leaf ∨ p.kind = .interior) (hi : i < p.nentries) :
    ∃ d, decodeRecord (p.slot i) p.no p.kind = .ok d := by
  have hrec := p.records
  have hno : PageRef.pageNo ⟨p.b⟩ = p.no := (openInner_ok p.opened).2.2.1
  have hforM : (List.range p.nentries).forM (fun i => do
      let _ ← decodeRecord (p.slot i) p.no p.kind) = .ok () := by
    rw [validateRecords] at hrec
    rw [← hno]
    rcases hk with hk | hk
    all_goals
      have hk' : PageRef.kind ⟨p.b⟩ = _ := hk
      rw [hk'] at hrec
      rw [hk]
      exact hrec
  exact decoded_of_forM hforM i (List.mem_range.2 hi)

/-- **The records of an interior page are separators and children.** -/
lemma slot_eq_encInterior {i : ℕ} (hk : p.kind = .interior) (hi : i < p.nentries) :
    ∃ key child, p.slot i = encInterior key child ∧ validatedKey (p.slot i) = some key
      ∧ validatedChild (p.slot i) = some child := by
  obtain ⟨d, hd⟩ := p.decoded (Or.inr hk) hi
  rw [hk] at hd
  have hle := p.length_le_of_mem (p.mem_slots.2 ⟨i, hi, rfl⟩)
  obtain ⟨key, child, rfl, hkey, hchild⟩ := decodeRecord_interior (by omega) hd
  exact ⟨key, child, eq_encInterior hd, hkey, hchild⟩

lemma getElem?_slots {i : ℕ} (h : i < p.nentries) : p.slots[i]? = some (p.slot i) := by
  rw [slots, List.getElem?_map, List.getElem?_range h]
  rfl

end TreePage

/-- What is read of a list is read of its elements. -/
lemma mapM_getElem? {α β : Type} {f : α → Option β} {l : List α} {ys : List β} (h : l.mapM f = some ys) :
    ys.length = l.length ∧ ∀ (i : ℕ) (x : α), l[i]? = some x → ∃ y, f x = some y ∧ ys[i]? = some y := by
  induction l generalizing ys with
  | nil =>
      rw [List.mapM_nil] at h
      cases h
      exact ⟨rfl, fun i x hx => by simp at hx⟩
  | cons a l ih =>
      rw [List.mapM_cons] at h
      simp only [Option.bind_eq_bind, Option.bind_eq_some_iff, Option.pure_def, Option.some.injEq] at h
      obtain ⟨y, hy, ys, hys, rfl⟩ := h
      obtain ⟨hlen, hget⟩ := ih hys
      refine ⟨by rw [List.length_cons, List.length_cons, hlen], fun i x hx => ?_⟩
      cases i with
      | zero =>
          cases hx
          exact ⟨y, hy, rfl⟩
      | succ i => exact hget i x hx

/-! ## Searches in a page -/

/-- The loop of `lower_bound` and `upper_bound`: `before` says whether a record comes before the place. -/
def bisect (before : ℕ → Option Bool) : ℕ → ℕ → ℕ → Option ℕ
  | 0, lo, _ => some lo
  | turns + 1, lo, hi =>
      if lo < hi then do
        let mid := (lo + hi) / 2
        if ← before mid then bisect before turns (mid + 1) hi else bisect before turns lo mid
      else some lo

/-- Index of the first entry whose key is above a key. -/
def upperBound (p : TreePage) (key : Bytes) : Option ℕ :=
  bisect (fun i => (validatedKey (p.slot i)).map fun k => decide (k ≤ key)) p.nentries 0 p.nentries

/-! ## Building pages -/

/-- The insert loop of `build_page_into`: the page so far, and whether a record did not fit. -/
def appendSlots : List Bytes → Bytes → Except Error Unit × Bytes
  | [], b => (.ok (), b)
  | r :: recs, b =>
      match PageMut.insertSlot b (Page.nentries b) r with
      | .ok b => appendSlots recs b
      | .error e => (.error e, b)

/-- `build_page_into`: what is left in the buffer, and whether a record did not fit. -/
def buildPageInto (kind : PageKind) (treeId pageNo : ℕ) (recs : List Bytes) (child0OrNext : ℕ) :
    Except Error Unit × Bytes :=
  match appendSlots recs (PageMut.init kind treeId pageNo) with
  | (.ok (), b) => (.ok (), PageMut.finalise (PageMut.setNextLeaf b child0OrNext) 0)
  | (.error e, b) => (.error e, b)

/-- `build_page` -/
def buildPage (kind : PageKind) (treeId pageNo : ℕ) (recs : List Bytes) (child0OrNext : ℕ) :
    Except Error Bytes :=
  match buildPageInto kind treeId pageNo recs child0OrNext with
  | (.ok (), b) => .ok b
  | (.error e, _) => .error e

/-- What the records take in a page, their slots included. -/
def bytesOf (recs : List Bytes) : ℕ := (recs.map fun r => r.length + 4).sum

@[simp] lemma bytesOf_nil : bytesOf [] = 0 := rfl

@[simp] lemma bytesOf_cons (r : Bytes) (recs : List Bytes) :
    bytesOf (r :: recs) = r.length + 4 + bytesOf recs := by simp [bytesOf]

@[simp] lemma bytesOf_append (recs more : List Bytes) :
    bytesOf (recs ++ more) = bytesOf recs + bytesOf more := by simp [bytesOf]

lemma bytesOf_eq (recs : List Bytes) : bytesOf recs = (recs.map List.length).sum + recs.length * slotLen := by
  have hslot : slotLen = 4 := rfl
  induction recs with
  | nil => rfl
  | cons r recs ih =>
      rw [bytesOf_cons, ih, List.map_cons, List.sum_cons, List.length_cons, hslot]
      omega

section Building

variable {b : Bytes} {recs : List Bytes} {fp : ℕ}

lemma insertSlot_tooLarge {r : Bytes} {i : ℕ} (h : Page.freeSpace b < r.length + slotLen) :
    PageMut.insertSlot b i r = .error .tooLarge := by
  rw [PageMut.insertSlot]
  simp only [gt_iff_lt, h, if_true, ite_self]

/-- Records that fit are appended. -/
lemma appendSlots_ok (more : List Bytes) (h : Slots b recs fp)
    (hfit : headerLen + recs.length * slotLen + bytesOf more ≤ fp) :
    ∃ b', appendSlots more b = (.ok (), b')
      ∧ Slots b' (recs ++ more) (fp - (bytesOf more - more.length * slotLen)) ∧ Envelope b b' := by
  induction more generalizing b recs fp with
  | nil => exact ⟨b, rfl, by simpa using h, Envelope.refl b⟩
  | cons r more ih =>
      have hslot : slotLen = 4 := rfl
      rw [bytesOf_cons] at hfit
      obtain ⟨b1, hb1, hs1, he1⟩ := slots_insertSlot (i := recs.length) (r := r) h le_rfl (by
        rw [hslot] at hfit ⊢
        omega)
      rw [List.insertIdx_length_self] at hs1
      obtain ⟨b2, hb2, hs2, he2⟩ := ih hs1 (by
        rw [List.length_append, List.length_singleton]
        rw [hslot] at hfit ⊢
        omega)
      refine ⟨b2, ?_, ?_, he1.trans he2⟩
      · rw [appendSlots, h.count, hb1]
        exact hb2
      · have hlow : more.length * slotLen ≤ bytesOf more := by
          rw [hslot]
          clear ih hb2 hs2 hfit
          induction more with
          | nil => simp
          | cons a more ih =>
              rw [List.length_cons, bytesOf_cons]
              omega
        rw [List.append_assoc, List.singleton_append] at hs2
        have hfp : fp - (bytesOf (r :: more) - (r :: more).length * slotLen)
            = fp - r.length - (bytesOf more - more.length * slotLen) := by
          rw [bytesOf_cons, List.length_cons, hslot] at *
          omega
        rw [hfp]
        exact hs2

/-- Records that do not fit are not all appended. -/
lemma appendSlots_tooLarge (more : List Bytes) (h : Slots b recs fp)
    (hfit : fp < headerLen + recs.length * slotLen + bytesOf more) :
    ∃ b', appendSlots more b = (.error .tooLarge, b') ∧ b'.length = pageSize := by
  induction more generalizing b recs fp with
  | nil =>
      have := h.dir
      rw [bytesOf_nil] at hfit
      omega
  | cons r more ih =>
      have hslot : slotLen = 4 := rfl
      rw [bytesOf_cons] at hfit
      rw [appendSlots, h.count]
      by_cases hroom : headerLen + (recs.length + 1) * slotLen + r.length ≤ fp
      · obtain ⟨b1, hb1, hs1, -⟩ := slots_insertSlot (i := recs.length) (r := r) h le_rfl hroom
        rw [List.insertIdx_length_self] at hs1
        rw [hb1]
        refine ih hs1 ?_
        rw [List.length_append, List.length_singleton]
        rw [hslot] at hfit hroom ⊢
        omega
      · have hfree := h.freeSpace
        have hdir := h.dir
        rw [insertSlot_tooLarge (by
          rw [hfree]
          rw [hslot] at hdir hroom ⊢
          omega)]
        exact ⟨b, rfl, h.length⟩

/-- **A page is built of records that fit, and lists them.** -/
lemma buildPageInto_ok (kind : PageKind) (treeId pageNo next : ℕ) (hfit : bytesOf recs ≤ pageSize - headerLen) :
    ∃ b fp, buildPageInto kind treeId pageNo recs next = (.ok (), b) ∧ Slots b recs fp
      ∧ (recs.map List.length).sum + fp ≤ pageSize
      ∧ (treeId < 256 ^ 2 → pageNo < 256 ^ 4 → Ident b kind treeId pageNo)
      ∧ (next < 256 ^ 4 → Page.nextLeaf b = next) := by
  obtain ⟨b, hb, hs, he⟩ := appendSlots_ok recs (slots_init kind treeId pageNo) (by
    rw [List.length_nil]
    simp only [headerLen, pageSize] at *
    omega)
  rw [List.nil_append] at hs
  refine ⟨PageMut.finalise (PageMut.setNextLeaf b next) 0, _, ?_, (hs.setNextLeaf next).finalise 0, ?_, ?_, ?_⟩
  · rw [buildPageInto, hb]
  · have hsum := bytesOf_eq recs
    simp only [headerLen, slotLen, pageSize] at *
    omega
  · intro ht hp
    exact (((ident_init kind ht hp).envelope he).setNextLeaf next).finalise 0
  · intro hn
    have hlen : (PageMut.setNextLeaf b next).length = pageSize := (hs.setNextLeaf next).length
    rw [Page.nextLeaf, PageMut.finalise, u32At_splice_of_ne (by omega) (by rw [hlen]; decide),
      PageMut.setNextLeaf, u32At_splice_leBytes _ _ hn]

/-- **A page is not built of records that do not fit.** -/
lemma buildPageInto_tooLarge (kind : PageKind) (treeId pageNo next : ℕ)
    (hfit : pageSize - headerLen < bytesOf recs) :
    ∃ b, buildPageInto kind treeId pageNo recs next = (.error .tooLarge, b) ∧ b.length = pageSize := by
  obtain ⟨b, hb, hlen⟩ := appendSlots_tooLarge recs (slots_init kind treeId pageNo) (by
    rw [List.length_nil]
    simp only [headerLen, pageSize] at *
    omega)
  exact ⟨b, by rw [buildPageInto, hb], hlen⟩

lemma length_buildPageInto (kind : PageKind) (treeId pageNo : ℕ) (recs : List Bytes) (next : ℕ) :
    (buildPageInto kind treeId pageNo recs next).2.length = pageSize := by
  rcases le_or_gt (bytesOf recs) (pageSize - headerLen) with hfit | hfit
  · obtain ⟨b, fp, hb, hs, -⟩ := buildPageInto_ok kind treeId pageNo next hfit
    rw [hb]
    exact hs.length
  · obtain ⟨b, hb, hlen⟩ := buildPageInto_tooLarge kind treeId pageNo next hfit
    rw [hb]
    exact hlen

end Building

/-! ## Pages of the pool -/

section Acts

variable {σ : Type} (P : Pool σ)

/-- `pool.get` and `open_cached`. -/
def openCached (no : ℕ) : Act σ TreePage := do
  let b ← call (P.get no)
  ofExcept (TreePage.ofBytes b no)

/-- Duplicate a frozen page under a fresh page number. -/
def shadowPage (page : ℕ) : Act σ ℕ := do
  let content ← call (P.get page)
  let no ← call P.allocate
  write P no (PageMut.finalise (content.splice 12 (leBytes 4 no)) 0)
  call (P.freeShadowPage page (u64At content 24))
  return no

/-- Point entry `i` of an interior page at a new child. -/
def patchChild (page i newChild : ℕ) : Act σ Unit := do
  let b ← getMut P page
  let p ← ofExcept (TreePage.ofBytes b page)
  if i = 0 then
    if p.kind ≠ .interior then fail (.corrupt page "child patch reached a non-interior page")
    write P page (PageMut.finalise (PageMut.setChild0 b newChild) 0)
  else
    if p.kind ≠ .interior ∨ p.nentries < i then
      fail (.corrupt page "child patch slot is out of bounds")
    let _ ← orPanic (validatedChild (p.slot (i - 1)))
    let (off, len) := p.slotBounds (i - 1)
    write P page (PageMut.finalise (b.splice (off + len - 4) (leBytes 4 newChild)) 0)

/-- `child_at` -/
def childAt (p : TreePage) (index : ℕ) : Act σ ℕ := do
  let child ← if index = 0 then pure p.child0 else orPanic (validatedChild (p.slot (index - 1)))
  let count ← look P.pageCount
  if child = 0 ∨ count ≤ child then
    fail (.corrupt p.no "interior child pointer is outside the data file")
  return child

end Acts

end BTree
