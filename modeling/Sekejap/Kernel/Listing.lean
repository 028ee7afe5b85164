import Sekejap.Kernel.Compact

/-!
# A page as a list of records

What a page is for: a list of byte strings and the room left beside it.  Any calls of `PageMut`
(`core/kernel/src/page.rs`) on an initialised page do to the bytes what they do to the list.

* **`Listing`** — the list and the room.
* **`Holds`** — the bytes hold the listing; kept by each call (`Holds.perform`).
* **`runCalls_lists`** — any calls on an initialised page.
-/

open Bytes Page

namespace Page

/-- The calls that change a page. -/
inductive PageCall
  | insertSlot (i : ℕ) (rec : Bytes)
  | removeSlot (i : ℕ)
  | compact
  deriving DecidableEq, Repr

/-- The slots of a page, in order. -/
def records (b : Bytes) : List Bytes := (List.range (nentries b)).map (Page.slot b)

namespace PageCall

/-- What a call answers, and the page after it; nothing where the assertion of `remove_slot` fails. -/
def perform (b : Bytes) : PageCall → Option (Except Error Unit × Bytes)
  | insertSlot i rec =>
      match PageMut.insertSlot b i rec with
      | .ok b' => some (.ok (), b')
      | .error e => some (.error e, b)
  | removeSlot i => if i < nentries b then some (.ok (), PageMut.removeSlot b i) else none
  | compact => some (.ok (), PageMut.compact b)

end PageCall

/-- Calls one after the other: their answers, and the page after the last. -/
def runCalls (b : Bytes) : List PageCall → Option (List (Except Error Unit) × Bytes)
  | [] => some ([], b)
  | call :: calls => do
      let (answer, b) ← call.perform b
      let (answers, b) ← runCalls b calls
      pure (answer :: answers, b)

/-! ## The list -/

/-- The records of a page, and the bytes it has left for more. -/
structure Listing where
  recs : List Bytes
  room : ℕ
  deriving DecidableEq, Repr

namespace Listing

/-- What the records take, each with its place in the directory. -/
def size (recs : List Bytes) : ℕ := (recs.map fun r => r.length + slotLen).sum

/-- No records, and the whole page. -/
def empty : Listing := ⟨[], pageSize - headerLen⟩

/-- The call on the list: a record goes in where there is a place and room for it, a removed one gives back
its place alone, and compaction gives back all that the records do not take. -/
def perform (l : Listing) : PageCall → Option (Except Error Unit × Listing)
  | .insertSlot i rec =>
      if i ≤ l.recs.length ∧ rec.length + slotLen ≤ l.room then
        some (.ok (), ⟨l.recs.insertIdx i rec, l.room - (rec.length + slotLen)⟩)
      else some (.error .tooLarge, l)
  | .removeSlot i =>
      if i < l.recs.length then some (.ok (), ⟨l.recs.eraseIdx i, l.room + slotLen⟩) else none
  | .compact => some (.ok (), ⟨l.recs, pageSize - headerLen - size l.recs⟩)

def runCalls (l : Listing) : List PageCall → Option (List (Except Error Unit) × Listing)
  | [] => some ([], l)
  | call :: calls => do
      let (answer, l) ← l.perform call
      let (answers, l) ← runCalls l calls
      pure (answer :: answers, l)

lemma size_eq (recs : List Bytes) : size recs = (recs.map List.length).sum + recs.length * slotLen := by
  induction recs with
  | nil => rfl
  | cons r recs ih =>
      rw [size] at ih ⊢
      rw [List.map_cons, List.sum_cons, ih, List.map_cons, List.sum_cons, List.length_cons, Nat.succ_mul]
      omega

end Listing

/-! ## The page holds the list -/

/-- The page holds the records and has the room; its payloads are apart, and its header is in order. -/
structure Holds (kind : PageKind) (treeId pageNo : ℕ) (b : Bytes) (l : Listing) : Prop where
  slots : Slots b l.recs (freePtr b)
  room : freeSpace b = l.room
  payload : (l.recs.map List.length).sum + freePtr b ≤ pageSize
  separate : Separate b l.recs.length
  ident : Ident b kind treeId pageNo

section holds

variable {kind : PageKind} {treeId pageNo : ℕ} {b : Bytes} {l : Listing}

lemma Holds.records (h : Holds kind treeId pageNo b l) : Page.records b = l.recs := h.slots.map_slot

lemma holds_init (ht : treeId < 256 ^ 2) (hp : pageNo < 256 ^ 4) :
    Holds kind treeId pageNo (PageMut.init kind treeId pageNo) Listing.empty := by
  have h := slots_init kind treeId pageNo
  have hptr := h.ptr
  refine ⟨?_, by rw [h.freeSpace]; rfl, ?_, ?_, ident_init kind ht hp⟩
  · rw [hptr]
    exact h
  · rw [hptr]
    exact Nat.le_refl pageSize
  · intro i j hi
    cases hi

/-- The room is what lies between the directory and the payloads. -/
lemma Holds.room_eq (h : Holds kind treeId pageNo b l) :
    headerLen + l.recs.length * slotLen + l.room = freePtr b := by
  have := h.slots.freeSpace
  have := h.slots.dir
  have := h.room
  omega

lemma sum_length_insertIdx {recs : List Bytes} {i : ℕ} (hi : i ≤ recs.length) (r : Bytes) :
    ((recs.insertIdx i r).map List.length).sum = r.length + (recs.map List.length).sum := by
  rw [((List.perm_insertIdx r recs hi).map List.length).sum_eq, List.map_cons, List.sum_cons]

lemma sum_length_eraseIdx_le (recs : List Bytes) (i : ℕ) :
    ((recs.eraseIdx i).map List.length).sum ≤ (recs.map List.length).sum :=
  ((List.eraseIdx_sublist recs i).map List.length).sum_le_sum fun _ _ => Nat.zero_le _

/-- A record that goes in lies below all others. -/
lemma separate_insertSlot {recs : List Bytes} {fp i : ℕ} {r b' : Bytes} (h : Slots b recs fp)
    (hi : i ≤ recs.length) (hfit : headerLen + (recs.length + 1) * slotLen + r.length ≤ fp)
    (hb' : PageMut.insertSlot b i r = .ok b') (hseparate : Separate b recs.length) :
    Separate b' (recs.length + 1) := by
  have hold : ∀ j, j < recs.length → fp ≤ (slotBounds b j).1 := fun j hj =>
    (h.bounds j _ (List.getElem?_eq_getElem hj)).1
  have hnew : fp - r.length + r.length = fp := Nat.sub_add_cancel (by omega)
  intro j k hj hk hne
  rw [slotBounds_insertSlot h hi hfit hb' (Nat.le_of_lt_succ hj),
    slotBounds_insertSlot h hi hfit hb' (Nat.le_of_lt_succ hk)]
  split_ifs with hji hki hki' hji' hki hki' hki hki'
  · exact hseparate j k (by omega) (by omega) hne
  · exact Or.inr (hnew.le.trans (hold j (by omega)))
  · exact hseparate j (k - 1) (by omega) (by omega) (by omega)
  · exact Or.inl (hnew.le.trans (hold k (by omega)))
  · omega
  · exact Or.inl (hnew.le.trans (hold (k - 1) (by omega)))
  · exact hseparate (j - 1) k (by omega) (by omega) (by omega)
  · exact Or.inr (hnew.le.trans (hold (j - 1) (by omega)))
  · exact hseparate (j - 1) (k - 1) (by omega) (by omega) (by omega)

/-- **A record goes in** exactly where there is a place and room for it. -/
lemma Holds.insertSlot (h : Holds kind treeId pageNo b l) (i : ℕ) (r : Bytes) :
    if i ≤ l.recs.length ∧ r.length + slotLen ≤ l.room then
      ∃ b', PageMut.insertSlot b i r = .ok b' ∧ Holds kind treeId pageNo b'
        ⟨l.recs.insertIdx i r, l.room - (r.length + slotLen)⟩
    else PageMut.insertSlot b i r = .error .tooLarge := by
  have hroom := h.room_eq
  split_ifs with hfit
  · obtain ⟨hi, hlen⟩ := hfit
    have hdir : headerLen + (l.recs.length + 1) * slotLen + r.length ≤ freePtr b := by
      rw [Nat.succ_mul]
      omega
    obtain ⟨b', hb', hslots, henv⟩ := slots_insertSlot h.slots hi hdir
    have hptr := hslots.ptr
    have hlength := List.length_insertIdx_of_le_length hi r
    refine ⟨b', hb', ?_, ?_, ?_, ?_, h.ident.envelope henv⟩
    · rw [hptr]
      exact hslots
    · rw [hslots.freeSpace, hlength]
      simp only [headerLen, slotLen] at *
      omega
    · have := h.payload
      rw [hptr, sum_length_insertIdx hi]
      omega
    · rw [hlength]
      exact separate_insertSlot h.slots hi hdir hb' h.separate
  · rw [PageMut.insertSlot]
    simp only [h.slots.count, h.room]
    split_ifs with hi hlen
    · rfl
    · rfl
    · omega

lemma Holds.removeSlot (h : Holds kind treeId pageNo b l) {i : ℕ} (hi : i < l.recs.length) :
    Holds kind treeId pageNo (PageMut.removeSlot b i) ⟨l.recs.eraseIdx i, l.room + slotLen⟩ := by
  obtain ⟨hslots, henv⟩ := slots_removeSlot h.slots hi
  have hptr := hslots.ptr
  have hlength := List.length_eraseIdx_of_lt hi
  refine ⟨?_, ?_, ?_, ?_, h.ident.envelope henv⟩
  · rw [hptr]
    exact hslots
  · have := h.room_eq
    rw [hslots.freeSpace, hlength]
    simp only [headerLen, slotLen] at *
    omega
  · have := h.payload
    have := sum_length_eraseIdx_le l.recs i
    rw [hptr]
    simp only
    omega
  · rw [hlength]
    intro j k hj hk hne
    rw [slotBounds_removeSlot h.slots hi hj, slotBounds_removeSlot h.slots hi hk]
    refine h.separate _ _ ?_ ?_ ?_
    all_goals
      split_ifs
      all_goals omega

lemma Holds.compact (h : Holds kind treeId pageNo b l) :
    Holds kind treeId pageNo (PageMut.compact b) ⟨l.recs, pageSize - headerLen - Listing.size l.recs⟩ := by
  obtain ⟨hslots, henv⟩ := slots_compact h.slots h.payload
  have hptr := hslots.ptr
  refine ⟨?_, ?_, ?_, separate_compact h.slots h.payload, h.ident.envelope henv⟩
  · rw [hptr]
    exact hslots
  · rw [hslots.freeSpace, Listing.size_eq]
    simp only [headerLen, slotLen]
    omega
  · have := h.payload
    rw [hptr]
    simp only
    omega

/-- **One call** does to the page what it does to the list. -/
lemma Holds.perform (h : Holds kind treeId pageNo b l) (call : PageCall) :
    Option.Rel (fun x y => x.1 = y.1 ∧ Holds kind treeId pageNo x.2 y.2) (call.perform b) (l.perform call) := by
  cases call with
  | insertSlot i rec =>
      have hinsert := h.insertSlot i rec
      rw [PageCall.perform, Listing.perform]
      split_ifs at hinsert ⊢ with hfit
      · obtain ⟨b', hb', hholds⟩ := hinsert
        rw [hb']
        exact Option.Rel.some ⟨rfl, hholds⟩
      · rw [hinsert]
        exact Option.Rel.some ⟨rfl, h⟩
  | removeSlot i =>
      rw [PageCall.perform, Listing.perform, h.slots.count]
      split_ifs with hi
      · exact Option.Rel.some ⟨rfl, h.removeSlot hi⟩
      · exact Option.Rel.none
  | compact => exact Option.Rel.some ⟨rfl, h.compact⟩

/-- **Any calls** do to the page what they do to the list. -/
lemma Holds.runCalls (h : Holds kind treeId pageNo b l) (calls : List PageCall) :
    Option.Rel (fun x y => x.1 = y.1 ∧ Holds kind treeId pageNo x.2 y.2) (Page.runCalls b calls)
      (l.runCalls calls) := by
  induction calls generalizing b l with
  | nil => exact Option.Rel.some ⟨rfl, h⟩
  | cons call calls ih =>
      rw [Page.runCalls, Listing.runCalls]
      have hcall := h.perform call
      generalize call.perform b = x, l.perform call = y at hcall
      cases hcall with
      | none => exact Option.Rel.none
      | @some x y hxy =>
          have hrest := ih hxy.2
          simp only [Option.bind_eq_bind, Option.bind_some]
          generalize Page.runCalls x.2 calls = u, y.2.runCalls calls = v at hrest
          cases hrest with
          | none => exact Option.Rel.none
          | @some u v huv => exact Option.Rel.some ⟨congrArg₂ List.cons hxy.1 huv.1, huv.2⟩

/-- The sealed page is opened. -/
lemma Holds.openChecked (h : Holds kind treeId pageNo b l) (gen : ℕ) :
    PageRef.openChecked (sealPage b gen) pageNo = .ok ⟨sealPage b gen⟩ :=
  openInner_eq_ok (h.ident.sealPage gen) (h.slots.sealPage gen) fun _ => checksum_sealPage h.slots.length gen

end holds

/-- **The slotted page is a list of records.**  Any calls on an initialised page answer as on the list, and
stop where they would; the slots are then the records of the list, and the free space its room.  A record
is refused exactly where the index is past the end or the room too small, and the page is then as it was;
compaction gives back all that the records do not take; no payload touches the directory or another; and the
sealed page is opened. -/
theorem runCalls_lists (kind : PageKind) (treeId : UInt16) (pageNo : UInt32) (calls : List PageCall) :
    (runCalls (PageMut.init kind treeId.toNat pageNo.toNat) calls).map
        (fun x => (x.1, Listing.mk (records x.2) (freeSpace x.2))) = Listing.empty.runCalls calls
    ∧ ∀ answers b, runCalls (PageMut.init kind treeId.toNat pageNo.toNat) calls = some (answers, b) →
      (∀ i rec, (records b).length < i ∨ freeSpace b < rec.length + slotLen →
        PageCall.perform b (.insertSlot i rec) = some (.error .tooLarge, b))
      ∧ (∀ i rec, i ≤ (records b).length → rec.length + slotLen ≤ freeSpace b →
        ∃ b', PageMut.insertSlot b i rec = .ok b' ∧ records b' = (records b).insertIdx i rec)
      ∧ (∀ i < (records b).length, records (PageMut.removeSlot b i) = (records b).eraseIdx i)
      ∧ records (PageMut.compact b) = records b
      ∧ freeSpace (PageMut.compact b) = pageSize - headerLen - ((records b).map fun r => r.length + slotLen).sum
      ∧ (∀ i < nentries b, headerLen + nentries b * slotLen ≤ (slotBounds b i).1
        ∧ (slotBounds b i).1 + (slotBounds b i).2 ≤ pageSize)
      ∧ Separate b (nentries b)
      ∧ ∀ gen : UInt64, PageRef.openChecked (sealPage b gen.toNat) pageNo.toNat
          = .ok ⟨sealPage b gen.toNat⟩ := by
  have hruns := (@holds_init kind treeId.toNat pageNo.toNat treeId.toNat_lt pageNo.toNat_lt).runCalls calls
  generalize runCalls (PageMut.init kind treeId.toNat pageNo.toNat) calls = u,
    Listing.empty.runCalls calls = v at hruns
  constructor
  · cases hruns with
    | none => rfl
    | @some x y hxy =>
        obtain ⟨hanswers, hholds⟩ := hxy
        rw [Option.map_some, hholds.records, hholds.room, hanswers]
  · intro answers b hb
    obtain ⟨l, hholds⟩ : ∃ l, Holds kind treeId.toNat pageNo.toNat b l := by
      cases hruns with
      | none => cases hb
      | @some x y hxy =>
          cases hb
          exact ⟨y.2, hxy.2⟩
    have hinsert := hholds.insertSlot
    rw [hholds.records, hholds.room]
    refine ⟨?_, ?_, ?_, ?_, ?_, ?_, ?_, ?_⟩
    · intro i rec hrefused
      have hi := hinsert i rec
      rw [if_neg (by omega)] at hi
      rw [PageCall.perform, hi]
    · intro i rec hi hrec
      have hgoes := hinsert i rec
      rw [if_pos ⟨hi, hrec⟩] at hgoes
      obtain ⟨b', hb', hholds'⟩ := hgoes
      exact ⟨b', hb', hholds'.records⟩
    · intro i hi
      exact (hholds.removeSlot hi).records
    · exact hholds.compact.records
    · exact hholds.compact.room
    · intro i hi
      rw [hholds.slots.count] at hi ⊢
      have := hholds.slots.bounds i _ (List.getElem?_eq_getElem hi)
      have := hholds.slots.dir
      omega
    · rw [hholds.slots.count]
      exact hholds.separate
    · intro gen
      exact hholds.openChecked gen.toNat

/-- A record goes in before another, which is removed, and the page is compacted. -/
theorem runCalls_lists_three : ∃ b, runCalls (PageMut.init .leaf 7 9)
        [.insertSlot 0 [1, 2], .insertSlot 0 [3], .removeSlot 1, .compact]
      = some ([.ok (), .ok (), .ok (), .ok ()], b)
    ∧ records b = [[3]] ∧ freeSpace b = 4051 ∧ PageRef.openChecked (sealPage b 5) 9 = .ok ⟨sealPage b 5⟩ := by
  obtain ⟨hlist, hthen⟩ :=
    runCalls_lists .leaf 7 9 [.insertSlot 0 [1, 2], .insertSlot 0 [3], .removeSlot 1, .compact]
  have hempty : Listing.empty.runCalls [.insertSlot 0 [1, 2], .insertSlot 0 [3], .removeSlot 1, .compact]
      = some ([.ok (), .ok (), .ok (), .ok ()], ⟨[[3]], 4051⟩) := by decide
  obtain ⟨⟨answers, b⟩, hb, heq⟩ := Option.map_eq_some_iff.1 (hlist.trans hempty)
  simp only [Prod.mk.injEq, Listing.mk.injEq] at heq
  obtain ⟨rfl, hrecords, hroom⟩ := heq
  obtain ⟨-, -, -, -, -, -, -, hopen⟩ := hthen _ b hb
  exact ⟨b, hb, hrecords, hroom, hopen 5⟩

end Page
