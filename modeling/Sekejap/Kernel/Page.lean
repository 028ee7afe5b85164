import Sekejap.Lib.Crc32c

/-!
# The slotted page

One page format for the whole file (`core/kernel/src/page.rs`): a 40-byte header, a directory of
`(offset, length)` pairs growing forward from it, and payloads growing backward from the end of
the page.  The functions here are the byte operations of the source; `Slots b recs fp` is what
they mean — the page `b` lists the records `recs`, and its payload area starts at `fp`.

Every mutator is described once in those terms (here `slots_init`, `slots_insertSlot`; the removal and
the compaction of slots in modules of their own), and every header field a mutator does not own is untouched
(`Envelope`).  Nothing above this file looks at a byte of a page.
-/

open Bytes Crc32c

/-- The failures the storage layers report, with the source's texts. -/
inductive Error where
  | io (why : String)
  | corrupt (pageNo : ℕ) (why : String)
  | tooLarge
  | readOnly
  | writerLocked
  | corruptWal (offset : ℕ) (why : String)
  | storePoisoned
  | outOfBudget
  | unsupportedFormat (found : ℕ)
  | resourceLimit (why : String)
  deriving DecidableEq, Repr

namespace Page

def pageSize : ℕ := 4096
def headerLen : ℕ := 40
def magic : ℕ := 0x53454B32
def version : ℕ := 1
def slotLen : ℕ := 4
/-- The disk format, stamped into bytes 18–19 of every page. -/
def formatVersion : ℕ := 2
def formatAt : ℕ := 18
def maxRecordLen : ℕ := pageSize - headerLen - slotLen

end Page

open Page

inductive PageKind where
  | free | metaPage | leaf | interior | overflow
  deriving DecidableEq, Repr

namespace PageKind

def toU16 : PageKind → ℕ
  | .free => 0 | .metaPage => 1 | .leaf => 2 | .interior => 3 | .overflow => 4

def fromU16 : ℕ → Option PageKind
  | 0 => some .free | 1 => some .metaPage | 2 => some .leaf | 3 => some .interior
  | 4 => some .overflow | _ => none

@[simp] lemma fromU16_toU16 (k : PageKind) : fromU16 k.toU16 = some k := by cases k <;> rfl

lemma toU16_lt (k : PageKind) : k.toU16 < 256 ^ 2 := by cases k <;> decide

end PageKind

namespace Page

def nentries (b : Bytes) : ℕ := u16At b 10
def freePtr (b : Bytes) : ℕ := u16At b 16
def nextLeaf (b : Bytes) : ℕ := u32At b 20
/-- The disk-format stamp a page image carries. -/
def formatVersionOf (b : Bytes) : ℕ := u16At b formatAt

def freeSpace (b : Bytes) : ℕ := freePtr b - (headerLen + nentries b * slotLen)

/-- Entry `i`'s pair in the slot directory. -/
def slotBounds (b : Bytes) (i : ℕ) : ℕ × ℕ :=
  (u16At b (headerLen + i * slotLen), u16At b (headerLen + i * slotLen + 2))

def slot (b : Bytes) (i : ℕ) : Bytes := b.slice (slotBounds b i).1 (slotBounds b i).2

/-- Checksum over everything except the checksum field itself. -/
def checksum (b : Bytes) : ℕ :=
  (crc32cAppend (crc32c (b.slice 0 36)) (b.slice 40 (pageSize - 40))).toNat

/-- Stamp the generation and the format, then the checksum: the one place a page image leaves
for the medium. -/
def sealPage (b : Bytes) (gen : ℕ) : Bytes :=
  let b := b.splice 24 (leBytes 8 gen)
  let b := b.splice formatAt (leBytes 2 formatVersion)
  b.splice 36 (leBytes 4 (checksum b))

end Page

namespace PageMut

/-- A blank page: every byte zero but the identity fields. -/
def init (kind : PageKind) (treeId pageNo : ℕ) : Bytes :=
  let b : Bytes := List.replicate pageSize 0
  let b := b.splice 0 (leBytes 4 magic)
  let b := b.splice 4 (leBytes 2 version)
  let b := b.splice 6 (leBytes 2 kind.toU16)
  let b := b.splice 8 (leBytes 2 treeId)
  let b := b.splice 12 (leBytes 4 pageNo)
  let b := b.splice 16 (leBytes 2 pageSize)
  b.splice formatAt (leBytes 2 formatVersion)

def setNextLeaf (b : Bytes) (p : ℕ) : Bytes := b.splice 20 (leBytes 4 p)

def setChild0 (b : Bytes) (p : ℕ) : Bytes := setNextLeaf b p

/-- Insert `rec` so that it becomes entry `i`, shifting later slots right. -/
def insertSlot (b : Bytes) (i : ℕ) (rec : Bytes) : Except Error Bytes :=
  let n := nentries b
  if i > n then .error .tooLarge
  else if rec.length + slotLen > freeSpace b then .error .tooLarge
  else
    let newPtr := freePtr b - rec.length
    let b := b.splice newPtr rec
    let b := b.splice 16 (leBytes 2 newPtr)
    let start := headerLen + i * slotLen
    let b := b.splice (start + slotLen) (b.slice start ((n - i) * slotLen))
    let b := b.splice start (leBytes 2 newPtr)
    let b := b.splice (start + 2) (leBytes 2 rec.length)
    .ok (b.splice 10 (leBytes 2 (n + 1)))

/-- Remove entry `i`.  The payload bytes are abandoned in place. -/
def removeSlot (b : Bytes) (i : ℕ) : Bytes :=
  let n := nentries b
  let start := headerLen + (i + 1) * slotLen
  let b := b.splice (start - slotLen) (b.slice start ((n - (i + 1)) * slotLen))
  b.splice 10 (leBytes 2 (n - 1))

/-- The write-back loop of `compact`: payload `i` of the snapshot goes right below `ptr`. -/
def compactLoop : List Bytes → ℕ → ℕ → Bytes → Bytes
  | [], _, ptr, b => b.splice 16 (leBytes 2 ptr)
  | payload :: rest, i, ptr, b =>
      let ptr := ptr - payload.length
      let b := b.splice ptr payload
      compactLoop rest (i + 1) ptr (b.splice (headerLen + i * slotLen) (leBytes 2 ptr))

/-- Rewrite every live payload packed against the end of the page, in slot order. -/
def compact (b : Bytes) : Bytes :=
  compactLoop ((List.range (nentries b)).map (Page.slot b)) 0 pageSize b

/-- Close out a mutation. -/
def finalise (b : Bytes) (lsn : ℕ) : Bytes := b.splice 24 (leBytes 8 lsn)

end PageMut

/-- A page whose header and slot directory were checked. -/
structure PageRef where
  b : Bytes
  deriving DecidableEq, Repr

namespace PageRef

/-- Every pair of the slot directory lies between the free pointer and the end of the page. -/
def slotsInBounds (b : Bytes) : Bool :=
  (List.range (nentries b)).all fun i =>
    freePtr b ≤ (slotBounds b i).1 && (slotBounds b i).1 + (slotBounds b i).2 ≤ pageSize

def openInner (b : Bytes) (want : ℕ) (verifyCrc : Bool) : Except Error PageRef :=
  let bad why := Except.error (Error.corrupt want why)
  if b.length ≠ pageSize then bad "wrong buffer length"
  else if u32At b 0 ≠ magic then bad "bad magic"
  else if u16At b 4 ≠ version then bad "unknown format version"
  else if verifyCrc ∧ u32At b 36 ≠ checksum b then bad "checksum mismatch"
  else if formatVersionOf b ≠ formatVersion then .error (.unsupportedFormat (formatVersionOf b))
  else if u32At b 12 ≠ want then bad "page_no mismatch"
  else if PageKind.fromU16 (u16At b 6) = none then bad "unknown page kind"
  else if headerLen + nentries b * slotLen > pageSize then bad "nentries exceeds page"
  else if freePtr b < headerLen + nentries b * slotLen ∨ freePtr b > pageSize then
    bad "free pointer is outside the page payload area"
  else if slotsInBounds b = false then bad "slot out of bounds"
  else .ok ⟨b⟩

/-- `PageRef::open`: verify and open a page just off the medium, checksum included. -/
def openChecked (b : Bytes) (want : ℕ) : Except Error PageRef := openInner b want true

/-- Open a resident page: every structural check, no checksum. -/
def openResident (b : Bytes) (want : ℕ) : Except Error PageRef := openInner b want false

def kind (p : PageRef) : PageKind := (PageKind.fromU16 (u16At p.b 6)).getD .free
def treeId (p : PageRef) : ℕ := u16At p.b 8
def nentries (p : PageRef) : ℕ := Page.nentries p.b
def pageNo (p : PageRef) : ℕ := u32At p.b 12
def nextLeaf (p : PageRef) : ℕ := Page.nextLeaf p.b
def child0 (p : PageRef) : ℕ := p.nextLeaf
def lsn (p : PageRef) : ℕ := u64At p.b 24
def freeSpace (p : PageRef) : ℕ := Page.freeSpace p.b
def slot (p : PageRef) (i : ℕ) : Bytes := Page.slot p.b i

end PageRef

/-! ## Reading around an overwrite -/

namespace Page

lemma u16At_splice_of_ne {b x : Bytes} {off p : ℕ} (h : p + 2 ≤ off ∨ off + x.length ≤ p)
    (hb : p + 2 ≤ b.length) : u16At (b.splice off x) p = u16At b p := by
  rcases h with h | h
  · rw [u16At, slice_splice_before h hb, u16At]
  · rw [u16At, slice_splice_after h, u16At]

lemma u32At_splice_of_ne {b x : Bytes} {off p : ℕ} (h : p + 4 ≤ off ∨ off + x.length ≤ p)
    (hb : p + 4 ≤ b.length) : u32At (b.splice off x) p = u32At b p := by
  rcases h with h | h
  · rw [u32At, slice_splice_before h hb, u32At]
  · rw [u32At, slice_splice_after h, u32At]

lemma u16At_splice_leBytes (b : Bytes) (off : ℕ) {v : ℕ} (h : v < 256 ^ 2) :
    u16At (b.splice off (leBytes 2 v)) off = v := by
  have := slice_splice_self b off (leBytes 2 v)
  rw [length_leBytes] at this
  rw [u16At, this, leNat_leBytes_of_lt h]

lemma u32At_splice_leBytes (b : Bytes) (off : ℕ) {v : ℕ} (h : v < 256 ^ 4) :
    u32At (b.splice off (leBytes 4 v)) off = v := by
  have := slice_splice_self b off (leBytes 4 v)
  rw [length_leBytes] at this
  rw [u32At, this, leNat_leBytes_of_lt h]

/-! ## What a page lists -/

/-- The page `b` lists the records `recs`, and its payload area starts at `fp`. -/
structure Slots (b : Bytes) (recs : List Bytes) (fp : ℕ) : Prop where
  length : b.length = pageSize
  count : nentries b = recs.length
  ptr : freePtr b = fp
  dir : headerLen + recs.length * slotLen ≤ fp
  top : fp ≤ pageSize
  bounds : ∀ i r, recs[i]? = some r →
    fp ≤ (slotBounds b i).1 ∧ (slotBounds b i).1 + (slotBounds b i).2 ≤ pageSize
  slot : ∀ i r, recs[i]? = some r → Page.slot b i = r

/-- `b'` has the header fields of `b`, but for the entry count and the free pointer. -/
structure Envelope (b b' : Bytes) : Prop where
  length : b'.length = b.length
  low : b'.slice 0 10 = b.slice 0 10
  pageNo : b'.slice 12 4 = b.slice 12 4
  high : b'.slice 18 22 = b.slice 18 22

namespace Envelope

lemma refl (b : Bytes) : Envelope b b := ⟨rfl, rfl, rfl, rfl⟩

lemma trans {a b c : Bytes} (h : Envelope a b) (h' : Envelope b c) : Envelope a c :=
  ⟨h'.length.trans h.length, h'.low.trans h.low, h'.pageNo.trans h.pageNo, h'.high.trans h.high⟩

/-- An overwrite of the entry count, of the free pointer or past the header. -/
lemma splice {b x : Bytes} {off : ℕ} (hl : b.length = pageSize)
    (h : (off = 10 ∨ off = 16) ∧ x.length = 2 ∨ headerLen ≤ off ∧ off + x.length ≤ pageSize) :
    Envelope b (b.splice off x) := by
  simp only [headerLen, pageSize] at *
  refine ⟨by rw [length_splice]; omega, ?_, ?_, ?_⟩
  · exact slice_splice_before (by omega) (by omega)
  · rcases h with ⟨rfl | rfl, hx⟩ | ⟨h, hx⟩
    · exact slice_splice_after (by omega)
    · exact slice_splice_before (by omega) (by omega)
    · exact slice_splice_before (by omega) (by omega)
  · rcases h with ⟨rfl | rfl, hx⟩ | ⟨h, hx⟩
    · exact slice_splice_after (by omega)
    · exact slice_splice_after (by omega)
    · exact slice_splice_before (by omega) (by omega)

lemma u16At_low {b b' : Bytes} (h : Envelope b b') {p : ℕ} (hp : p + 2 ≤ 10) :
    u16At b' p = u16At b p := by
  have e := congrArg (fun x => Bytes.slice x p 2) h.low
  simp only [slice_slice _ (show p + 2 ≤ 10 by omega), Nat.zero_add] at e
  rw [u16At, u16At, e]

lemma u32At_low {b b' : Bytes} (h : Envelope b b') {p : ℕ} (hp : p + 4 ≤ 10) :
    u32At b' p = u32At b p := by
  have e := congrArg (fun x => Bytes.slice x p 4) h.low
  simp only [slice_slice _ (show p + 4 ≤ 10 by omega), Nat.zero_add] at e
  rw [u32At, u32At, e]

lemma u16At_high {b b' : Bytes} (h : Envelope b b') {p : ℕ} (hp : 18 ≤ p) (hp' : p + 2 ≤ 40) :
    u16At b' p = u16At b p := by
  have e := congrArg (fun x => Bytes.slice x (p - 18) 2) h.high
  simp only [slice_slice _ (show p - 18 + 2 ≤ 22 by omega), Nat.add_sub_cancel' hp] at e
  rw [u16At, u16At, e]

lemma u32At_pageNo {b b' : Bytes} (h : Envelope b b') : u32At b' 12 = u32At b 12 := by
  rw [u32At, u32At, h.pageNo]

end Envelope

lemma Slots.slot_length {b : Bytes} {recs : List Bytes} {fp i : ℕ} {r : Bytes}
    (h : Slots b recs fp) (hi : recs[i]? = some r) : (slotBounds b i).2 = r.length := by
  have hs := h.slot i r hi
  have hb := h.bounds i r hi
  rw [← hs, Page.slot, length_slice_of_le (by rw [h.length]; exact hb.2)]

lemma Slots.freeSpace {b : Bytes} {recs : List Bytes} {fp : ℕ} (h : Slots b recs fp) :
    Page.freeSpace b = fp - (headerLen + recs.length * slotLen) := by
  rw [Page.freeSpace, h.ptr, h.count]

/-- The records of a page, read back. -/
lemma Slots.map_slot {b : Bytes} {recs : List Bytes} {fp : ℕ} (h : Slots b recs fp) :
    (List.range (nentries b)).map (Page.slot b) = recs := by
  refine List.ext_getElem? fun i => ?_
  rw [List.getElem?_map, h.count]
  rcases lt_or_ge i recs.length with hi | hi
  · rw [List.getElem?_range hi, Option.map_some, List.getElem?_eq_getElem hi]
    exact congrArg some (h.slot i _ (List.getElem?_eq_getElem hi))
  · rw [List.getElem?_eq_none (by simpa using hi), List.getElem?_eq_none hi, Option.map_none]

/-- A page that lists `recs` still does after an overwrite of the header alone. -/
lemma Slots.of_eq {b b' : Bytes} {recs : List Bytes} {fp : ℕ} (h : Slots b recs fp)
    (hl : b'.length = pageSize) (hn : nentries b' = nentries b) (hp : freePtr b' = freePtr b)
    (hd : ∀ p n, headerLen ≤ p → b'.slice p n = b.slice p n) : Slots b' recs fp := by
  have hb : ∀ i, slotBounds b' i = slotBounds b i := by
    intro i
    rw [slotBounds, slotBounds, u16At, u16At, u16At, u16At, hd _ _ (by omega), hd _ _ (by omega)]
  refine ⟨hl, hn.trans h.count, hp.trans h.ptr, h.dir, h.top, ?_, ?_⟩
  · intro i r hi; rw [hb]; exact h.bounds i r hi
  · intro i r hi
    have := h.bounds i r hi
    have := h.dir
    rw [Page.slot, hb, hd _ _ (by omega)]
    exact h.slot i r hi

/-! ## What each mutator does to the list -/

lemma length_init (kind : PageKind) (treeId pageNo : ℕ) :
    (PageMut.init kind treeId pageNo).length = pageSize := by
  simp only [PageMut.init, length_splice, length_leBytes, List.length_replicate, formatAt]
  decide

lemma slots_init (kind : PageKind) (treeId pageNo : ℕ) :
    Slots (PageMut.init kind treeId pageNo) [] pageSize := by
  refine ⟨length_init _ _ _, ?_, ?_, by decide, le_rfl, by simp, by simp⟩
  · have h0 : u16At (List.replicate pageSize 0 : Bytes) 10 = 0 := by
      rw [u16At, slice_replicate, leNat_replicate_zero]
    simp only [nentries, PageMut.init, formatAt]
    repeat
      rw [u16At_splice_of_ne (by simp only [length_leBytes]; omega)
        (by simp only [length_splice, length_leBytes, List.length_replicate, pageSize]; omega)]
    rw [h0, List.length_nil]
  · simp only [freePtr, PageMut.init, formatAt]
    rw [u16At_splice_of_ne (by simp only [length_leBytes]; omega)
      (by simp only [length_splice, length_leBytes, List.length_replicate, pageSize]; omega),
      u16At_splice_leBytes _ _ (by decide)]

section insertSlot

variable {b r : Bytes} {recs : List Bytes} {fp i : ℕ}

/-- The page `insertSlot` builds, before the entry count is raised. -/
private def opened (b : Bytes) (i : ℕ) (r : Bytes) (n fp : ℕ) : Bytes :=
  let b := b.splice (fp - r.length) r
  let b := b.splice 16 (leBytes 2 (fp - r.length))
  let start := headerLen + i * slotLen
  let b := b.splice (start + slotLen) (b.slice start ((n - i) * slotLen))
  let b := b.splice start (leBytes 2 (fp - r.length))
  b.splice (start + 2) (leBytes 2 r.length)

private lemma length_opened (h : Slots b recs fp) (hi : i ≤ recs.length)
    (hfit : headerLen + (recs.length + 1) * slotLen + r.length ≤ fp) :
    (opened b i r recs.length fp).length = pageSize := by
  have := h.length; have := h.top
  simp only [opened, length_splice, length_leBytes, length_slice, pageSize, headerLen,
    slotLen] at *
  omega

/-- Past the directory, `opened` has the new payload and otherwise the old bytes. -/
private lemma slice_opened_payload (h : Slots b recs fp) (hi : i ≤ recs.length) {p n : ℕ}
    (hp : headerLen + (recs.length + 1) * slotLen ≤ p) :
    (opened b i r recs.length fp).slice p n = (b.splice (fp - r.length) r).slice p n := by
  have := h.length; have := h.top
  simp only [pageSize, headerLen, slotLen] at *
  simp only [opened, headerLen, slotLen]
  rw [slice_splice_after (by simp only [length_leBytes]; omega),
    slice_splice_after (by simp only [length_leBytes]; omega),
    slice_splice_after (by rw [length_slice]; omega),
    slice_splice_after (by simp only [length_leBytes]; omega)]

/-- The directory of `opened`: the new pair at `i`, the later pairs one place further. -/
private lemma slotBounds_opened (h : Slots b recs fp) (hi : i ≤ recs.length)
    (hfit : headerLen + (recs.length + 1) * slotLen + r.length ≤ fp) {j : ℕ}
    (hj : j ≤ recs.length) :
    slotBounds (opened b i r recs.length fp) j =
      if j < i then slotBounds b j else if j = i then (fp - r.length, r.length)
      else slotBounds b (j - 1) := by
  have hl := h.length; have ht := h.top
  simp only [pageSize, headerLen, slotLen] at *
  set b1 := b.splice (fp - r.length) r with hb1
  set b2 := b1.splice 16 (leBytes 2 (fp - r.length)) with hb2
  have hl1 : b1.length = 4096 := by rw [hb1, length_splice]; omega
  have hl2 : b2.length = 4096 := by rw [hb2, length_splice, length_leBytes]; omega
  have hlen3 : (b2.slice (40 + i * 4) ((recs.length - i) * 4)).length = (recs.length - i) * 4 := by
    rw [length_slice_of_le (by omega)]
  set b3 := b2.splice (40 + i * 4 + 4) (b2.slice (40 + i * 4) ((recs.length - i) * 4)) with hb3
  have hl3 : b3.length = 4096 := by rw [hb3, length_splice, hlen3]; omega
  set b4 := b3.splice (40 + i * 4) (leBytes 2 (fp - r.length)) with hb4
  have hl4 : b4.length = 4096 := by rw [hb4, length_splice, length_leBytes]; omega
  have ho : opened b i r recs.length fp = b4.splice (40 + i * 4 + 2) (leBytes 2 r.length) := rfl
  have old : ∀ p, 40 ≤ p → p + 2 ≤ 40 + recs.length * 4 → u16At b2 p = u16At b p := by
    intro p hp hp'
    rw [hb2, u16At_splice_of_ne (by simp only [length_leBytes]; omega) (by omega), hb1,
      u16At_splice_of_ne (by omega) (by omega)]
  rcases lt_trichotomy j i with hji | rfl | hji
  · rw [if_pos hji, ho]
    refine Prod.ext ?_ ?_ <;> simp only [slotBounds, headerLen, slotLen] <;>
    · rw [u16At_splice_of_ne (by simp only [length_leBytes]; omega) (by omega), hb4,
        u16At_splice_of_ne (by simp only [length_leBytes]; omega) (by omega), hb3,
        u16At_splice_of_ne (by omega) (by omega), old _ (by omega) (by omega)]
  · rw [if_neg (lt_irrefl _), if_pos rfl, ho]
    refine Prod.ext ?_ ?_
    · show u16At _ _ = _
      simp only [headerLen, slotLen]
      rw [u16At_splice_of_ne (by simp only [length_leBytes]; omega) (by omega), hb4,
        u16At_splice_leBytes _ _ (by omega)]
    · exact u16At_splice_leBytes _ _ (by omega)
  · rw [if_neg (by omega), if_neg (by omega), ho]
    have moved : ∀ p, 40 + i * 4 + 4 ≤ p → p + 2 ≤ 40 + (recs.length + 1) * 4 →
        u16At b3 p = u16At b (p - 4) := by
      intro p hp hp'
      have := old (p - 4) (by omega) (by omega)
      rw [← this, hb3, u16At, slice_splice_inside hp (by omega), slice_slice _ (by omega), u16At]
      exact congrArg (fun q => leNat (b2.slice q 2)) (by omega)
    refine Prod.ext ?_ ?_ <;> simp only [slotBounds, headerLen, slotLen]
    · rw [u16At_splice_of_ne (by simp only [length_leBytes]; omega) (by omega), hb4,
        u16At_splice_of_ne (by simp only [length_leBytes]; omega) (by omega),
        moved _ (by omega) (by omega)]
      exact congrArg (u16At b) (by omega)
    · rw [u16At_splice_of_ne (by simp only [length_leBytes]; omega) (by omega), hb4,
        u16At_splice_of_ne (by simp only [length_leBytes]; omega) (by omega),
        moved _ (by omega) (by omega)]
      exact congrArg (u16At b) (by omega)

lemma insertSlot_eq (h : Slots b recs fp) (hi : i ≤ recs.length)
    (hfit : headerLen + (recs.length + 1) * slotLen + r.length ≤ fp) :
    PageMut.insertSlot b i r
      = .ok ((opened b i r recs.length fp).splice 10 (leBytes 2 (recs.length + 1))) := by
  have hfs := h.freeSpace
  simp only [PageMut.insertSlot, h.count, h.ptr, hfs]
  rw [if_neg (by omega), if_neg (by simp only [slotLen] at *; omega)]
  rfl

/-- The directory after `insertSlot`: the new pair at `i`, the later pairs one place further. -/
lemma slotBounds_insertSlot (h : Slots b recs fp) (hi : i ≤ recs.length)
    (hfit : headerLen + (recs.length + 1) * slotLen + r.length ≤ fp) {b' : Bytes}
    (hb' : PageMut.insertSlot b i r = .ok b') {j : ℕ} (hj : j ≤ recs.length) :
    slotBounds b' j = if j < i then slotBounds b j else if j = i then (fp - r.length, r.length)
      else slotBounds b (j - 1) := by
  rw [insertSlot_eq h hi hfit] at hb'
  obtain rfl := Except.ok.inj hb'
  have hdir : ∀ p n, headerLen ≤ p → ((opened b i r recs.length fp).splice 10
      (leBytes 2 (recs.length + 1))).slice p n = (opened b i r recs.length fp).slice p n := by
    intro p n hp
    exact slice_splice_after (by simp only [length_leBytes, headerLen] at *; omega)
  rw [← slotBounds_opened h hi hfit hj, slotBounds, slotBounds, u16At, u16At, u16At, u16At,
    hdir _ _ (by omega), hdir _ _ (by omega)]

/-- **`insertSlot` inserts into the list.** -/
theorem slots_insertSlot (h : Slots b recs fp) (hi : i ≤ recs.length)
    (hfit : headerLen + (recs.length + 1) * slotLen + r.length ≤ fp) :
    ∃ b', PageMut.insertSlot b i r = .ok b' ∧ Slots b' (recs.insertIdx i r) (fp - r.length)
      ∧ Envelope b b' := by
  have hl := h.length; have ht := h.top
  have hol := length_opened (r := r) h hi hfit
  refine ⟨_, insertSlot_eq h hi hfit, ?_, ?_⟩
  · set o := opened b i r recs.length fp with ho
    have hdir : ∀ p n, headerLen ≤ p →
        (o.splice 10 (leBytes 2 (recs.length + 1))).slice p n = o.slice p n := by
      intro p n hp
      exact slice_splice_after (by simp only [length_leBytes, headerLen] at *; omega)
    have hb : ∀ j, j ≤ recs.length →
        slotBounds (o.splice 10 (leBytes 2 (recs.length + 1))) j
          = if j < i then slotBounds b j else if j = i then (fp - r.length, r.length)
            else slotBounds b (j - 1) :=
      fun j hj => slotBounds_insertSlot h hi hfit (insertSlot_eq h hi hfit) hj
    have hpay : ∀ p n, fp ≤ p →
        (o.splice 10 (leBytes 2 (recs.length + 1))).slice p n = b.slice p n := by
      intro p n hp
      rw [hdir _ _ (by omega), ho, slice_opened_payload h hi (by omega),
        slice_splice_after (by omega)]
    have hnew : (o.splice 10 (leBytes 2 (recs.length + 1))).slice (fp - r.length) r.length = r := by
      rw [hdir _ _ (by omega), ho, slice_opened_payload h hi (by omega), slice_splice_self]
    have hlen : (recs.insertIdx i r).length = recs.length + 1 :=
      List.length_insertIdx_of_le_length hi _
    refine ⟨?_, ?_, ?_, ?_, by omega, ?_, ?_⟩
    · rw [length_splice_of_le (by rw [hol, length_leBytes]; decide), hol]
    · rw [nentries, u16At_splice_leBytes _ _ ?_, hlen]
      simp only [pageSize, headerLen, slotLen] at *; omega
    · have : u16At o 16 = fp - r.length := by
        simp only [pageSize, headerLen, slotLen] at *
        have h16 : ∀ (c x : Bytes) (off : ℕ), 40 ≤ off → c.length = 4096 →
            u16At (c.splice off x) 16 = u16At c 16 := fun c x off hoff hc =>
          u16At_splice_of_ne (by omega) (by omega)
        have l1 : (b.splice (fp - r.length) r).length = 4096 := by rw [length_splice]; omega
        have l2 : ((b.splice (fp - r.length) r).splice 16
            (leBytes 2 (fp - r.length))).length = 4096 := by
          rw [length_splice, length_leBytes]; omega
        simp only [ho, opened, headerLen, slotLen]
        rw [h16 _ _ _ (by omega) (by
            rw [length_splice, length_splice, length_leBytes, length_slice]; omega),
          h16 _ _ _ (by omega) (by rw [length_splice, length_slice]; omega),
          h16 _ _ _ (by omega) l2, u16At_splice_leBytes _ _ (by omega)]
      rw [freePtr, u16At_splice_of_ne (by simp only [length_leBytes]; omega)
        (by rw [hol]; decide), this]
    · rw [hlen]; omega
    · intro j q hj
      have hjl : j ≤ recs.length := by
        have := (List.getElem?_eq_some_iff.mp hj).1; omega
      rw [hb j hjl]
      rcases lt_trichotomy j i with hji | rfl | hji
      · rw [if_pos hji]
        rw [List.getElem?_insertIdx_of_lt hji] at hj
        have := h.bounds j q hj; omega
      · rw [if_neg (lt_irrefl _), if_pos rfl]
        simp only [pageSize, headerLen, slotLen] at *; omega
      · rw [if_neg (by omega), if_neg (by omega)]
        rw [List.getElem?_insertIdx_of_gt hji] at hj
        have := h.bounds (j - 1) q hj; omega
    · intro j q hj
      have hjl : j ≤ recs.length := by
        have := (List.getElem?_eq_some_iff.mp hj).1; omega
      rw [Page.slot, hb j hjl]
      rcases lt_trichotomy j i with hji | rfl | hji
      · rw [List.getElem?_insertIdx_of_lt hji] at hj
        rw [if_pos hji, hpay _ _ (h.bounds j q hj).1]
        exact h.slot j q hj
      · rw [if_neg (lt_irrefl _), if_pos rfl]
        rw [List.getElem?_insertIdx_self, if_pos hi] at hj
        rw [← Option.some.inj hj]; exact hnew
      · rw [List.getElem?_insertIdx_of_gt hji] at hj
        rw [if_neg (by omega), if_neg (by omega), hpay _ _ (h.bounds (j - 1) q hj).1]
        exact h.slot (j - 1) q hj
  · simp only [pageSize, headerLen, slotLen] at *
    have hs3 : ((b.splice (fp - r.length) r).splice 16 (leBytes 2 (fp - r.length))).length
        = 4096 := by rw [length_splice, length_splice, length_leBytes]; omega
    refine Envelope.trans (Envelope.splice hl (Or.inr ⟨?_, ?_⟩)) <|
      Envelope.trans (Envelope.splice ?_ (Or.inl ⟨Or.inr rfl, length_leBytes _ _⟩)) <|
      Envelope.trans (Envelope.splice hs3 (Or.inr ⟨?_, ?_⟩)) <|
      Envelope.trans (Envelope.splice ?_ (Or.inr ⟨?_, ?_⟩)) <|
      Envelope.trans (Envelope.splice ?_ (Or.inr ⟨?_, ?_⟩)) <|
      Envelope.splice hol (Or.inl ⟨Or.inl rfl, length_leBytes _ _⟩)
    all_goals
      simp only [pageSize, headerLen, slotLen, length_splice, length_leBytes, length_slice]
      omega

end insertSlot

/-! ## Identity fields, and what `open` accepts -/

/-- The identity fields of a page: what `open` checks besides the slot directory. -/
structure Ident (b : Bytes) (kind : PageKind) (treeId pageNo : ℕ) : Prop where
  length : b.length = pageSize
  magic : u32At b 0 = Page.magic
  version : u16At b 4 = Page.version
  kind : u16At b 6 = kind.toU16
  treeId : u16At b 8 = treeId
  pageNo : u32At b 12 = pageNo
  format : formatVersionOf b = formatVersion

lemma ident_init (kind : PageKind) {treeId pageNo : ℕ} (ht : treeId < 256 ^ 2)
    (hp : pageNo < 256 ^ 4) : Ident (PageMut.init kind treeId pageNo) kind treeId pageNo := by
  refine ⟨length_init _ _ _, ?_, ?_, ?_, ?_, ?_, ?_⟩
  all_goals
    simp (disch := (simp only [length_splice, length_leBytes, List.length_replicate, pageSize]; omega)) only
      [PageMut.init, formatAt, formatVersionOf, u16At_splice_of_ne, u32At_splice_of_ne]
  · exact u32At_splice_leBytes _ _ (by decide)
  · exact u16At_splice_leBytes _ _ (by decide)
  · exact u16At_splice_leBytes _ _ kind.toU16_lt
  · exact u16At_splice_leBytes _ _ ht
  · exact u32At_splice_leBytes _ _ hp
  · exact u16At_splice_leBytes _ _ (by decide)

section ident

variable {b : Bytes} {kind : PageKind} {treeId pageNo : ℕ} {recs : List Bytes} {fp : ℕ}

lemma Ident.envelope {b' : Bytes} (h : Ident b kind treeId pageNo) (e : Envelope b b') :
    Ident b' kind treeId pageNo :=
  ⟨e.length.trans h.length, (e.u32At_low (by omega)).trans h.magic,
    (e.u16At_low (by omega)).trans h.version, (e.u16At_low (by omega)).trans h.kind,
    (e.u16At_low (by omega)).trans h.treeId, e.u32At_pageNo.trans h.pageNo,
    (e.u16At_high (by decide) (by decide)).trans h.format⟩

/-- An overwrite of the link, the generation or the checksum keeps the identity. -/
lemma Ident.splice_high {off : ℕ} {x : Bytes} (h : Ident b kind treeId pageNo)
    (ho : 20 ≤ off) (hx : off + x.length ≤ headerLen) :
    Ident (b.splice off x) kind treeId pageNo := by
  have hl := h.length
  simp only [pageSize, headerLen] at *
  have h4 : ∀ p, p + 4 ≤ 20 → u32At (b.splice off x) p = u32At b p := fun p hp =>
    u32At_splice_of_ne (by omega) (by omega)
  have h2 : ∀ p, p + 2 ≤ 20 → u16At (b.splice off x) p = u16At b p := fun p hp =>
    u16At_splice_of_ne (by omega) (by omega)
  exact ⟨by rw [length_splice]; simp only [pageSize]; omega, (h4 _ (by omega)).trans h.magic,
    (h2 _ (by omega)).trans h.version, (h2 _ (by omega)).trans h.kind,
    (h2 _ (by omega)).trans h.treeId, (h4 _ (by omega)).trans h.pageNo,
    (h2 18 (by omega)).trans h.format⟩

lemma Slots.splice_high {off : ℕ} {x : Bytes} (h : Slots b recs fp) (ho : 18 ≤ off)
    (hx : off + x.length ≤ headerLen) : Slots (b.splice off x) recs fp := by
  have hl := h.length
  simp only [pageSize, headerLen] at *
  refine h.of_eq (by rw [length_splice]; simp only [pageSize]; omega) ?_ ?_ ?_
  · exact u16At_splice_of_ne (by omega) (by omega)
  · exact u16At_splice_of_ne (by omega) (by omega)
  · intro p n hp
    exact slice_splice_after (by simp only [headerLen] at hp; omega)

lemma Ident.setNextLeaf (h : Ident b kind treeId pageNo) (p : ℕ) :
    Ident (PageMut.setNextLeaf b p) kind treeId pageNo :=
  h.splice_high (by omega) (by rw [length_leBytes]; decide)

lemma Slots.setNextLeaf (h : Slots b recs fp) (p : ℕ) :
    Slots (PageMut.setNextLeaf b p) recs fp :=
  h.splice_high (by omega) (by rw [length_leBytes]; decide)

lemma Ident.finalise (h : Ident b kind treeId pageNo) (lsn : ℕ) :
    Ident (PageMut.finalise b lsn) kind treeId pageNo :=
  h.splice_high (by omega) (by rw [length_leBytes]; decide)

lemma Slots.finalise (h : Slots b recs fp) (lsn : ℕ) : Slots (PageMut.finalise b lsn) recs fp :=
  h.splice_high (by omega) (by rw [length_leBytes]; decide)

lemma Slots.sealPage (h : Slots b recs fp) (gen : ℕ) : Slots (sealPage b gen) recs fp :=
  ((h.splice_high (by omega) (by rw [length_leBytes]; decide)).splice_high (by decide)
    (by rw [length_leBytes]; decide)).splice_high (by omega) (by rw [length_leBytes]; decide)

lemma Ident.sealPage (h : Ident b kind treeId pageNo) (gen : ℕ) :
    Ident (sealPage b gen) kind treeId pageNo := by
  have h1 : Ident (b.splice 24 (leBytes 8 gen)) kind treeId pageNo :=
    h.splice_high (by omega) (by rw [length_leBytes]; decide)
  rw [Page.sealPage]
  refine Ident.splice_high ?_ (by omega) (by rw [length_leBytes]; decide)
  have hl := h1.length
  simp only [pageSize] at hl
  have h4 : ∀ p, p + 4 ≤ 18 → u32At ((b.splice 24 (leBytes 8 gen)).splice formatAt
      (leBytes 2 formatVersion)) p = u32At (b.splice 24 (leBytes 8 gen)) p := fun p hp =>
    u32At_splice_of_ne (by simp only [formatAt]; omega) (by omega)
  have h2 : ∀ p, p + 2 ≤ 18 → u16At ((b.splice 24 (leBytes 8 gen)).splice formatAt
      (leBytes 2 formatVersion)) p = u16At (b.splice 24 (leBytes 8 gen)) p := fun p hp =>
    u16At_splice_of_ne (by simp only [formatAt]; omega) (by omega)
  refine ⟨?_, (h4 _ (by omega)).trans h1.magic, (h2 _ (by omega)).trans h1.version,
    (h2 _ (by omega)).trans h1.kind, (h2 _ (by omega)).trans h1.treeId,
    (h4 _ (by omega)).trans h1.pageNo, u16At_splice_leBytes _ _ (by decide)⟩
  rw [length_splice, length_leBytes]
  simp only [formatAt, pageSize]; omega

lemma checksum_lt (b : Bytes) : checksum b < 256 ^ 4 := UInt32.toNat_lt _

/-- The checksum does not cover its own field. -/
lemma checksum_splice {x : Bytes} (h : b.length = pageSize) (hx : x.length = 4) :
    checksum (b.splice 36 x) = checksum b := by
  simp only [pageSize] at h
  rw [checksum, checksum, slice_splice_before (by omega) (by omega),
    slice_splice_after (by omega)]

/-- A sealed page verifies. -/
lemma checksum_sealPage (h : b.length = pageSize) (gen : ℕ) :
    u32At (Page.sealPage b gen) 36 = checksum (Page.sealPage b gen) := by
  have hl : ((b.splice 24 (leBytes 8 gen)).splice formatAt (leBytes 2 formatVersion)).length
      = pageSize := by
    simp only [length_splice, length_leBytes, formatAt, pageSize] at *; omega
  simp only [Page.sealPage]
  rw [u32At_splice_leBytes _ _ (checksum_lt _), checksum_splice hl (length_leBytes _ _)]

/-- **`open` accepts a page that lists records and names itself.** -/
lemma openInner_eq_ok (h : Ident b kind treeId pageNo) (hs : Slots b recs fp) {verifyCrc : Bool}
    (hc : verifyCrc = true → u32At b 36 = checksum b) :
    PageRef.openInner b pageNo verifyCrc = .ok ⟨b⟩ := by
  have hdir := hs.dir; have htop := hs.top
  have hin : PageRef.slotsInBounds b = true := by
    simp only [PageRef.slotsInBounds, List.all_eq_true, List.mem_range, hs.count, hs.ptr]
    intro i hi
    have := hs.bounds i _ (List.getElem?_eq_getElem hi)
    simpa using this
  simp only [PageRef.openInner]
  rw [if_neg (not_not.mpr h.length), if_neg (not_not.mpr h.magic), if_neg (not_not.mpr h.version),
    if_neg (fun hx => hx.2 (hc hx.1)), if_neg (not_not.mpr h.format),
    if_neg (not_not.mpr h.pageNo), if_neg (by rw [h.kind]; simp), hs.count, hs.ptr,
    if_neg (by omega), if_neg (by omega), if_neg (by rw [hin]; simp)]

lemma Ident.kind_eq (h : Ident b kind treeId pageNo) : PageRef.kind ⟨b⟩ = kind := by
  rw [PageRef.kind, h.kind, PageKind.fromU16_toU16, Option.getD_some]

/-- A guard that refuses was passed. -/
private lemma passes {α : Type} {c : Prop} [Decidable c] {e : Error} {x : Except Error α} {y : α} :
    (if c then .error e else x) = .ok y ↔ ¬c ∧ x = .ok y := by
  by_cases hc : c
  · simp [hc]
  · simp [hc]

/-- What `open` establishes about the bytes it accepts. -/
lemma openInner_ok {verifyCrc : Bool} {p : PageRef}
    (h : PageRef.openInner b pageNo verifyCrc = .ok p) :
    p = ⟨b⟩ ∧ b.length = pageSize ∧ u32At b 12 = pageNo
      ∧ (verifyCrc = true → u32At b 36 = checksum b) := by
  simp only [PageRef.openInner, passes] at h
  obtain ⟨h1, -, -, h4, -, h6, -, -, -, -, h⟩ := h
  exact ⟨(Except.ok.inj h).symm, not_not.mp h1, not_not.mp h6, fun hv => by
    by_contra hne; exact h4 ⟨hv, hne⟩⟩

/-- The slot directory of a page that `open` accepts. -/
lemma openInner_slots {verifyCrc : Bool} {p : PageRef}
    (h : PageRef.openInner b pageNo verifyCrc = .ok p) :
    headerLen + nentries b * slotLen ≤ freePtr b ∧ freePtr b ≤ pageSize
      ∧ ∀ i < nentries b, freePtr b ≤ (slotBounds b i).1
        ∧ (slotBounds b i).1 + (slotBounds b i).2 ≤ pageSize := by
  simp only [PageRef.openInner, passes] at h
  obtain ⟨-, -, -, -, -, -, -, h8, h9, h10, -⟩ := h
  rw [Bool.not_eq_false, PageRef.slotsInBounds, List.all_eq_true] at h10
  refine ⟨by omega, by omega, fun i hi => ?_⟩
  simpa using h10 i (List.mem_range.2 hi)

end ident

-- unification must not run the slot directory
attribute [irreducible] PageMut.insertSlot

end Page
