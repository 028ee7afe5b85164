import Sekejap.Kernel.Page

/-!
# Removing and compacting

What the two mutators that take room away and give it back do to the list of a page's records
(`core/kernel/src/page.rs`): **`slots_removeSlot`**, **`slots_compact`**.
-/

open Bytes Page

namespace Page

/-- No two of the first `n` payloads of a page share a byte. -/
def Separate (b : Bytes) (n : ℕ) : Prop :=
  ∀ i j, i < n → j < n → i ≠ j → (slotBounds b i).1 + (slotBounds b i).2 ≤ (slotBounds b j).1
    ∨ (slotBounds b j).1 + (slotBounds b j).2 ≤ (slotBounds b i).1

section removeSlot

variable {b : Bytes} {recs : List Bytes} {fp i : ℕ}

/-- What `removeSlot` leaves of the page: the directory closes over the pair at `i`, and the payloads stay. -/
private lemma slice_removeSlot (h : Slots b recs fp) (hi : i < recs.length) :
    (∃ b1, b1.length = pageSize ∧ Envelope b b1 ∧ u16At b1 16 = u16At b 16
      ∧ PageMut.removeSlot b i = b1.splice 10 (leBytes 2 (recs.length - 1)))
    ∧ (∀ p, p + 2 ≤ 40 + i * 4 → 40 ≤ p → u16At (PageMut.removeSlot b i) p = u16At b p)
    ∧ (∀ p, 40 + i * 4 ≤ p → p + 2 ≤ 40 + (recs.length - 1) * 4 →
      u16At (PageMut.removeSlot b i) p = u16At b (p + 4))
    ∧ ∀ p n, fp ≤ p → (PageMut.removeSlot b i).slice p n = b.slice p n := by
  have hl := h.length
  have ht := h.top
  have hd := h.dir
  simp only [pageSize, headerLen, slotLen] at hl ht hd
  have hstart : headerLen + (i + 1) * slotLen - slotLen = 40 + i * 4 := by
    simp only [headerLen, slotLen]
    omega
  have hx : (b.slice (headerLen + (i + 1) * slotLen) ((recs.length - (i + 1)) * slotLen)).length
      = (recs.length - (i + 1)) * 4 := by
    simp only [headerLen, slotLen]
    exact length_slice_of_le (by omega)
  set x := b.slice (headerLen + (i + 1) * slotLen) ((recs.length - (i + 1)) * slotLen) with hxdef
  set b1 := b.splice (40 + i * 4) x with hb1
  have hl1 : b1.length = 4096 := by rw [hb1, length_splice_of_le (by omega), hl]
  have hb' : PageMut.removeSlot b i = b1.splice 10 (leBytes 2 (recs.length - 1)) := by
    rw [PageMut.removeSlot]
    simp only [h.count]
    rw [hstart, ← hxdef, ← hb1]
  have hhigh : ∀ p n, 40 ≤ p → (b1.splice 10 (leBytes 2 (recs.length - 1))).slice p n = b1.slice p n :=
    fun p n hp => slice_splice_after (by rw [length_leBytes]; omega)
  refine ⟨⟨b1, hl1, ?_, ?_, hb'⟩, ?_, ?_, ?_⟩
  · refine Envelope.splice h.length (Or.inr ⟨by simp [headerLen], ?_⟩)
    rw [hx]
    simp only [pageSize]
    omega
  · rw [hb1, u16At_splice_of_ne (by omega) (by omega)]
  · intro p hp hp'
    rw [hb', u16At, hhigh _ _ hp', hb1, slice_splice_before hp (by omega), u16At]
  · intro p hp hp'
    rw [hb', u16At, hhigh _ _ (by omega), hb1, slice_splice_inside hp (by rw [hx]; omega), hxdef,
      slice_slice _ (by simp only [slotLen]; omega), u16At]
    congr 2
    simp only [headerLen, slotLen]
    omega
  · intro p n hp
    rw [hb', hhigh _ _ (by omega), hb1, slice_splice_after (by rw [hx]; omega)]

/-- The directory after `removeSlot`: the later pairs one place back. -/
lemma slotBounds_removeSlot (h : Slots b recs fp) (hi : i < recs.length) {j : ℕ} (hj : j < recs.length - 1) :
    slotBounds (PageMut.removeSlot b i) j = slotBounds b (if j < i then j else j + 1) := by
  obtain ⟨-, hlow, hmoved, -⟩ := slice_removeSlot h hi
  refine Prod.ext ?_ ?_ <;> simp only [slotBounds, headerLen, slotLen]
  all_goals
    split_ifs with hji
    · rw [hlow _ (by omega) (by omega)]
    · rw [hmoved _ (by omega) (by omega)]
      exact congrArg (u16At b) (by omega)

/-- **`removeSlot` removes from the list.** -/
theorem slots_removeSlot (h : Slots b recs fp) (hi : i < recs.length) :
    Slots (PageMut.removeSlot b i) (recs.eraseIdx i) fp ∧ Envelope b (PageMut.removeSlot b i) := by
  have hd := h.dir
  have ht := h.top
  simp only [pageSize, headerLen, slotLen] at hd ht
  obtain ⟨⟨b1, hl1, henv, hptr, hb'⟩, -, -, hpayload⟩ := slice_removeSlot h hi
  have hbounds := fun j hj => @slotBounds_removeSlot b recs fp i h hi j hj
  have hget : ∀ (j : ℕ) (r : Bytes), (recs.eraseIdx i)[j]? = some r →
      j < recs.length - 1 ∧ recs[if j < i then j else j + 1]? = some r := by
    intro j r hj
    have hlt := (List.getElem?_eq_some_iff.1 hj).1
    rw [List.length_eraseIdx_of_lt hi] at hlt
    rw [List.getElem?_eraseIdx] at hj
    refine ⟨hlt, ?_⟩
    split_ifs at hj ⊢ <;> exact hj
  refine ⟨⟨?_, ?_, ?_, ?_, h.top, ?_, ?_⟩, ?_⟩
  · rw [hb', length_splice_of_le (by rw [length_leBytes, hl1]; decide), hl1]
  · rw [nentries, hb', u16At_splice_leBytes _ _ (by omega), List.length_eraseIdx_of_lt hi]
  · rw [freePtr, hb', u16At_splice_of_ne (by rw [length_leBytes]; omega) (by rw [hl1]; decide), hptr]
    exact h.ptr
  · rw [List.length_eraseIdx_of_lt hi]
    simp only [headerLen, slotLen]
    omega
  · intro j r hj
    obtain ⟨hlt, hr⟩ := hget j r hj
    rw [hbounds j hlt]
    exact h.bounds _ r hr
  · intro j r hj
    obtain ⟨hlt, hr⟩ := hget j r hj
    rw [Page.slot, hbounds j hlt, hpayload _ _ (h.bounds _ r hr).1]
    exact h.slot _ r hr
  · rw [hb']
    exact henv.trans (Envelope.splice hl1 (Or.inl ⟨Or.inl rfl, length_leBytes _ _⟩))

end removeSlot

section compact

variable {b : Bytes}

/-- `compactLoop` on its way: the records of `done` lie at `ptr` and above, those of `left` are still to
be written, and the directory has their lengths. -/
private structure Packing (b : Bytes) (done left : List Bytes) (ptr : ℕ) : Prop where
  length : b.length = pageSize
  count : nentries b = done.length + left.length
  room : headerLen + (done.length + left.length) * slotLen + (left.map List.length).sum ≤ ptr
  top : ptr ≤ pageSize
  bounds : ∀ i r, done[i]? = some r →
    ptr ≤ (slotBounds b i).1 ∧ (slotBounds b i).1 + (slotBounds b i).2 ≤ pageSize
  slot : ∀ i r, done[i]? = some r → Page.slot b i = r
  lens : ∀ i r, left[i]? = some r → (slotBounds b (done.length + i)).2 = r.length
  separate : Separate b done.length

private lemma Packing.step {done left : List Bytes} {r : Bytes} {ptr : ℕ}
    (h : Packing b done (r :: left) ptr) :
    Packing ((b.splice (ptr - r.length) r).splice (headerLen + done.length * slotLen)
      (leBytes 2 (ptr - r.length))) (done ++ [r]) left (ptr - r.length)
    ∧ Envelope b ((b.splice (ptr - r.length) r).splice (headerLen + done.length * slotLen)
      (leBytes 2 (ptr - r.length))) := by
  have hl := h.length
  have ht := h.top
  have hroom := h.room
  simp only [pageSize, headerLen, slotLen, List.length_cons, List.map_cons, List.sum_cons] at hl ht hroom ⊢
  set b1 := b.splice (ptr - r.length) r with hb1
  have hl1 : b1.length = 4096 := by rw [hb1, length_splice_of_le (by omega), hl]
  set b2 := b1.splice (40 + done.length * 4) (leBytes 2 (ptr - r.length)) with hb2
  have hl2 : b2.length = 4096 := by
    rw [hb2, length_splice_of_le (by rw [length_leBytes]; omega), hl1]
  have hdir : ∀ p, p + 2 ≤ 40 + done.length * 4 ∨ 40 + done.length * 4 + 2 ≤ p →
      p + 2 ≤ ptr - r.length → u16At b2 p = u16At b p := by
    intro p hp hp'
    rw [hb2, u16At_splice_of_ne (by rw [length_leBytes]; exact hp) (by omega), hb1,
      u16At_splice_of_ne (Or.inl hp') (by omega)]
  have hbounds : ∀ j, j < done.length + 1 + left.length → j ≠ done.length →
      slotBounds b2 j = slotBounds b j := by
    intro j hj hne
    refine Prod.ext ?_ ?_ <;> simp only [slotBounds, headerLen, slotLen] <;>
      exact hdir _ (by omega) (by omega)
  have hnew : slotBounds b2 done.length = (ptr - r.length, r.length) := by
    refine Prod.ext ?_ ?_ <;> simp only [slotBounds, headerLen, slotLen]
    · rw [hb2, u16At_splice_leBytes _ _ (by omega)]
    · rw [hdir _ (by omega) (by omega)]
      exact h.lens 0 r rfl
  have hpay : ∀ p n, ptr ≤ p → b2.slice p n = b.slice p n := by
    intro p n hp
    rw [hb2, slice_splice_after (by rw [length_leBytes]; omega), hb1, slice_splice_after (by omega)]
  refine ⟨⟨hl2, ?_, ?_, by simp only [pageSize]; omega, ?_, ?_, ?_, ?_⟩, ?_⟩
  · rw [nentries, hb2, u16At_splice_of_ne (by omega) (by omega), hb1, u16At_splice_of_ne (by omega) (by omega)]
    have := h.count
    rw [nentries] at this
    rw [this, List.length_append, List.length_cons, List.length_singleton]
    omega
  · rw [List.length_append, List.length_singleton]
    simp only [headerLen, slotLen]
    omega
  · intro i s hi
    rw [List.getElem?_append] at hi
    split_ifs at hi with hlt
    · have := h.bounds i s hi
      rw [hbounds i (by omega) (by omega)]
      omega
    · have hlen := (List.getElem?_eq_some_iff.1 hi).1
      rw [List.length_singleton] at hlen
      obtain rfl : i = done.length := by omega
      rw [hnew]
      simp only [pageSize]
      omega
  · intro i s hi
    rw [List.getElem?_append] at hi
    split_ifs at hi with hlt
    · have := h.bounds i s hi
      rw [Page.slot, hbounds i (by omega) (by omega), hpay _ _ (by omega)]
      exact h.slot i s hi
    · have hlen := (List.getElem?_eq_some_iff.1 hi).1
      rw [List.length_singleton] at hlen
      obtain rfl : i = done.length := by omega
      rw [Nat.sub_self, List.getElem?_cons_zero] at hi
      cases hi
      rw [Page.slot, hnew, hb2, slice_splice_after (by rw [length_leBytes]; omega), hb1]
      exact slice_splice_self _ _ _
  · intro i s hi
    rw [List.length_append, List.length_singleton,
      hbounds _ (by have := (List.getElem?_eq_some_iff.1 hi).1; omega) (by omega)]
    have := h.lens (i + 1) s hi
    rw [← this]
    congr 2
    omega
  · -- the new payload lies below `ptr`, and all others above
    have hbelow : ∀ j, j < done.length → ptr ≤ (slotBounds b j).1 := fun j hj =>
      (h.bounds j _ (List.getElem?_eq_getElem hj)).1
    intro i j hi hj hne
    rw [List.length_append, List.length_singleton] at hi hj
    rcases Nat.lt_succ_iff_lt_or_eq.1 hi with hi | rfl
    · rw [hbounds i (by omega) (by omega)]
      rcases Nat.lt_succ_iff_lt_or_eq.1 hj with hj | rfl
      · rw [hbounds j (by omega) (by omega)]
        exact h.separate i j hi hj hne
      · have := hbelow i hi
        rw [hnew]
        exact Or.inr (by simp only; omega)
    · have := hbelow j (by omega)
      rw [hbounds j (by omega) (by omega), hnew]
      exact Or.inl (by simp only; omega)
  · have h1 : Envelope b b1 := Envelope.splice h.length (Or.inr ⟨by simp only [headerLen]; omega, by
      simp only [pageSize]
      omega⟩)
    exact h1.trans (Envelope.splice (by rw [hl1]; rfl) (Or.inr ⟨by simp [headerLen], by
      rw [length_leBytes]
      simp only [pageSize]
      omega⟩))

private lemma slots_compactLoop {done left : List Bytes} {ptr : ℕ} (h : Packing b done left ptr) :
    Slots (PageMut.compactLoop left done.length ptr b) (done ++ left) (ptr - (left.map List.length).sum)
    ∧ Envelope b (PageMut.compactLoop left done.length ptr b)
    ∧ Separate (PageMut.compactLoop left done.length ptr b) (done ++ left).length := by
  induction left generalizing b done ptr with
  | nil =>
      have hl := h.length
      have ht := h.top
      have hroom := h.room
      simp only [pageSize, headerLen, slotLen, List.length_nil, List.map_nil, List.sum_nil] at hl ht hroom
      rw [PageMut.compactLoop, List.append_nil, List.map_nil, List.sum_nil, Nat.sub_zero]
      have hhigh : ∀ p n, 40 ≤ p → (b.splice 16 (leBytes 2 ptr)).slice p n = b.slice p n := fun p n hp =>
        slice_splice_after (by rw [length_leBytes]; omega)
      have hbounds : ∀ j, slotBounds (b.splice 16 (leBytes 2 ptr)) j = slotBounds b j := by
        intro j
        refine Prod.ext ?_ ?_ <;> simp only [slotBounds, headerLen, slotLen, u16At] <;>
          rw [hhigh _ _ (by omega)]
      refine ⟨⟨?_, ?_, ?_, ?_, h.top, ?_, ?_⟩,
        Envelope.splice h.length (Or.inl ⟨Or.inr rfl, length_leBytes _ _⟩), ?_⟩
      · rw [length_splice_of_le (by rw [length_leBytes]; omega)]
        exact h.length
      · rw [nentries, u16At_splice_of_ne (by omega) (by omega)]
        exact h.count
      · rw [freePtr, u16At_splice_leBytes _ _ (by omega)]
      · simp only [headerLen, slotLen]
        omega
      · intro i r hi
        rw [hbounds]
        exact h.bounds i r hi
      · intro i r hi
        have := (h.bounds i r hi).1
        rw [Page.slot, hbounds, hhigh _ _ (by omega)]
        exact h.slot i r hi
      · intro i j hi hj hne
        rw [hbounds, hbounds]
        exact h.separate i j hi hj hne
  | cons r left ih =>
      obtain ⟨hstep, henv⟩ := h.step
      have hloop := ih hstep
      rw [List.append_assoc, List.singleton_append, List.length_append, List.length_singleton] at hloop
      obtain ⟨hs, he, hseparate⟩ := hloop
      rw [PageMut.compactLoop, List.map_cons, List.sum_cons, ← Nat.sub_sub]
      exact ⟨hs, henv.trans he, hseparate⟩

private lemma packing_nil {recs : List Bytes} {fp : ℕ} (h : Slots b recs fp)
    (hsum : (recs.map List.length).sum + fp ≤ pageSize) : Packing b [] recs pageSize := by
  refine ⟨h.length, by rw [h.count, List.length_nil, Nat.zero_add], ?_, le_rfl, by simp, by simp, ?_, ?_⟩
  · have := h.dir
    rw [List.length_nil, Nat.zero_add]
    omega
  · intro i r hi
    rw [List.length_nil, Nat.zero_add]
    exact h.slot_length hi
  · intro i j hi
    cases hi

/-- **`compact` keeps the list, and packs it against the end of the page.** -/
theorem slots_compact {recs : List Bytes} {fp : ℕ} (h : Slots b recs fp)
    (hsum : (recs.map List.length).sum + fp ≤ pageSize) :
    Slots (PageMut.compact b) recs (pageSize - (recs.map List.length).sum)
    ∧ Envelope b (PageMut.compact b) := by
  rw [PageMut.compact, h.map_slot]
  obtain ⟨hs, he, -⟩ := slots_compactLoop (packing_nil h hsum)
  exact ⟨hs, he⟩

lemma separate_compact {recs : List Bytes} {fp : ℕ} (h : Slots b recs fp)
    (hsum : (recs.map List.length).sum + fp ≤ pageSize) : Separate (PageMut.compact b) recs.length := by
  rw [PageMut.compact, h.map_slot]
  exact (slots_compactLoop (packing_nil h hsum)).2.2

end compact

end Page
