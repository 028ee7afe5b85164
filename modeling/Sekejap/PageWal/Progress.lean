import Sekejap.PageWal.Safety

/-!
# A writer that has room goes on

The invariant says what an operation leaves when it returns; here is when it does return.
`Roomy n σ` is room for the dirty frames of `σ` and `n` more, with no checkpoint falling due on
the way.  Every frame that is written out keeps it (`Roomy.spec_writeOut`), and so does a whole
commit, which uses two frames of its own: **`spec_publishTransaction_roomy`**.

Every call of the writer is answered, so an operation that cannot fail is a piece of a run that
comes to its end (`Reachable.carried`).  The last section puts such pieces together to a run that
commits a page, lowers the cap and is stopped with another change of the page in its log.
-/

open Bytes Page Crc32c Proc

namespace PageWal

/-- The page is whole once it is sealed. -/
def Sealable (p : ℕ) (b : Bytes) : Prop :=
  (sealPage b 1).length = page ∧ PageRef.openChecked (sealPage b 1) p = .ok ⟨sealPage b 1⟩

/-- **Room for every dirty frame, `n` more and as many new pages**, short of what makes a
checkpoint due. -/
structure Roomy (n : ℕ) (σ : Store) : Prop where
  wal : σ.state.endOff + (σ.pool.dirty.size + n) * frameLen < 4 * 1024 * 1024
  walLimit : 2 * (σ.state.endOff + (σ.pool.dirty.size + n) * frameLen + 1) ≤ σ.state.walLimit
  cap : 2 * (σ.state.endOff + (σ.pool.dirty.size + n) * frameLen + 1)
    + (σ.pool.nextPage + n) * page ≤ σ.state.cap
  data : (σ.pool.nextPage + n) * page ≤ σ.state.dataLimit
  tracked : σ.state.latest.size + (σ.pool.dirty.size + n) ≤ σ.state.trackedLimit
  tx : σ.state.tx + n ≤ u64Max
  pages : σ.state.pages ≤ σ.pool.nextPage
  nextPage : σ.pool.nextPage + n ≤ u32Max
  pool : ∀ p b, σ.pool.dirty[p]? = some b → p < σ.pool.nextPage ∧ Sealable p b
  identity : σ.state.identity.length = 16
  hintOpen : σ.pager.hintOpen = true
  sync : σ.pager.sync ≠ .off

/-- A page of records, as the pool has it when it is finished. -/
lemma sealable_of_slots {b : Bytes} {kind : PageKind} {treeId p fp : ℕ} {recs : List Bytes}
    (hi : Ident b kind treeId p) (hs : Slots b recs fp) : Sealable p (PageMut.finalise b 0) := by
  have hs' := (hs.finalise 0).sealPage 1
  refine ⟨hs'.length, openInner_eq_ok ((hi.finalise 0).sealPage 1) hs' fun _ => ?_⟩
  exact checksum_sealPage (hs.finalise 0).length 1

section pager

variable {X : Error → Pager → Disk → Prop} {P : Pager} {w : Disk}

open Pager

/-- A frame that fits is appended. -/
lemma spec_append_room {Q : Unit → Pager → Disk → Prop} {b : Bytes} (hb : b.length = frameLen)
    (hr : P.Room) (h64 : P.state.endOff + frameLen ≤ u64Max)
    (hQ : Q () { P with state := { P.state with endOff := P.state.endOff + frameLen } }
      (w.putWal P.state.endOff b)) :
    Spec Disk.exec (fun _ _ => True) (append b) Q X P w := by
  have hc : checkedAdd64 P.state.endOff frameLen = .ok (P.state.endOff + frameLen) := if_pos h64
  rw [append, spec_bind, spec_current]
  dsimp only
  rw [spec_bind, hb, hc, spec_ofExcept_ok]
  simp only [spec_bind, spec_refuseIf, spec_writeWal, spec_update]
  have h1 := hr.walCap
  have h2 := hr.cap
  have h3 := hr.walLimit
  exact ⟨fun h => by omega, fun _ => ⟨fun h => by omega, fun _ => ⟨trivial, hQ⟩⟩⟩

/-- **A page that fits is written.** -/
lemma spec_writeAt_room {Q : Unit → Pager → Disk → Prop} {p : ℕ} {b : Bytes}
    (hid : P.state.identity.length = 16) (hl : b.length = page)
    (ho : PageRef.openChecked b p = .ok ⟨b⟩) (ht : P.Tracked p) (hp : p + 1 ≤ u32Max)
    (hd : max P.state.pages (p + 1) * page ≤ P.state.dataLimit) (hr : (P.grown p).Room)
    (h64 : P.state.endOff + frameLen ≤ u64Max)
    (hQ : Q () ((P.grown p).framed p b) (w.putWal P.state.endOff (P.nextFrame p b))) :
    Spec Disk.exec (fun _ _ => True) (writeAt b (p * page)) Q X P w := by
  have hdiv : p * page / page = p := Nat.mul_div_cancel _ (by decide)
  have hmod : p * page % page = 0 := Nat.mul_mod_left _ _
  have htr : ¬ (p ∉ P.state.latest ∧ P.state.latest.size ≥ P.state.trackedLimit) := by
    rintro ⟨h1, h2⟩
    rcases ht with h | h
    · exact h1 h
    · omega
  have hfl : (frame 1 p P.state.tx 0 b P.state.identity).length = frameLen := length_frame hl hid
  simp only [writeAt, track, grow, appendImage, spec_bind, spec_current, spec_refuseIf, hdiv, ho,
    spec_ofExcept_ok, spec_update]
  refine ⟨fun h => by omega, fun _ => ⟨fun h => by omega, fun _ => ⟨fun h => absurd h htr, fun _ =>
    ⟨fun h => by omega, fun _ => ⟨fun h => by omega, fun _ => ?_⟩⟩⟩⟩⟩
  exact spec_append_room hfl hr h64 hQ

end pager

section roomy

variable {n : ℕ} {σ : Store} {w : Disk} {X : Error → Store → Disk → Prop}

open Store

/-- `σ` with a dirty frame written out. -/
def Store.written (σ : Store) (p : ℕ) (b : Bytes) : Store :=
  { σ with
    pager := (σ.pager.grown p).framed p (sealPage b 1)
    pool := { σ.pool with dirty := σ.pool.dirty.erase p } }

lemma Roomy.size_pos {p : ℕ} {b : Bytes} (hb : σ.pool.dirty[p]? = some b) :
    0 < σ.pool.dirty.size ∧ (σ.pool.dirty.erase p).size = σ.pool.dirty.size - 1 := by
  have hmem : p ∈ σ.pool.dirty := Std.ExtTreeMap.mem_iff_isSome_getElem?.2 (by rw [hb]; rfl)
  have hpos : σ.pool.dirty.size ≠ 0 := fun h0 => by
    rw [Std.ExtTreeMap.eq_empty_iff_size_eq_zero.2 h0] at hmem
    exact Std.ExtTreeMap.not_mem_empty hmem
  exact ⟨Nat.pos_of_ne_zero hpos, by
    rw [Std.ExtTreeMap.size_erase, if_pos (Std.ExtTreeMap.contains_iff_mem.2 hmem)]⟩

/-- A dirty frame fits. -/
lemma Roomy.room (h : Roomy n σ) {p : ℕ} {b : Bytes} (hb : σ.pool.dirty[p]? = some b) :
    (σ.pager.grown p).Room ∧ σ.pager.Tracked p := by
  have hpos := (Roomy.size_pos hb).1
  have hp := (h.pool p b hb).1
  have hmax : max σ.state.pages (p + 1) * page ≤ (σ.pool.nextPage + n) * page :=
    Nat.mul_le_mul_right _ ((max_le h.pages hp).trans (Nat.le_add_right _ _))
  have hone : frameLen ≤ (σ.pool.dirty.size + n) * frameLen :=
    Nat.le_mul_of_pos_left _ (by omega)
  have hwal := h.wal
  have hlimit := h.walLimit
  have hcap := h.cap
  have hc : walCap = 16 * 1024 * 1024 := rfl
  refine ⟨⟨?_, ?_, ?_⟩, Or.inr ?_⟩
  · show σ.state.endOff + frameLen ≤ walCap
    omega
  · show σ.state.endOff + frameLen + max σ.state.pages (p + 1) * page ≤ σ.state.cap
    omega
  · show σ.state.endOff + frameLen ≤ σ.state.walLimit
    omega
  · have := h.tracked
    show σ.state.latest.size < σ.state.trackedLimit
    omega

/-- **Writing a frame out uses the room that was kept for it.** -/
lemma Roomy.written (h : Roomy n σ) {p : ℕ} {b : Bytes} (hb : σ.pool.dirty[p]? = some b) :
    Roomy n (σ.written p b) := by
  obtain ⟨hpos, hsize⟩ := Roomy.size_pos hb
  have hused : σ.state.endOff + frameLen + (σ.pool.dirty.size - 1 + n) * frameLen
      = σ.state.endOff + (σ.pool.dirty.size + n) * frameLen := by
    obtain ⟨m, hm⟩ : ∃ m, σ.pool.dirty.size = m + 1 := ⟨_, (Nat.succ_pred hpos.ne').symm⟩
    rw [hm, Nat.add_sub_cancel]
    ring
  constructor
  · show σ.state.endOff + frameLen + ((σ.pool.dirty.erase p).size + n) * frameLen < _
    rw [hsize, hused]; exact h.wal
  · show 2 * (σ.state.endOff + frameLen + ((σ.pool.dirty.erase p).size + n) * frameLen + 1) ≤ _
    rw [hsize, hused]; exact h.walLimit
  · show 2 * (σ.state.endOff + frameLen + ((σ.pool.dirty.erase p).size + n) * frameLen + 1) + _ ≤ _
    rw [hsize, hused]; exact h.cap
  · exact h.data
  · have hins := @Std.ExtTreeMap.size_insert_le _ _ _ σ.state.latest _ p
      ⟨σ.state.endOff, frameCrc (imageFrame σ.state.identity σ.state.tx (p, sealPage b 1))⟩
    have := h.tracked
    show (σ.state.latest.insert p ⟨σ.state.endOff,
        frameCrc (imageFrame σ.state.identity σ.state.tx (p, sealPage b 1))⟩).size
      + ((σ.pool.dirty.erase p).size + n) ≤ σ.state.trackedLimit
    rw [hsize]
    omega
  · exact h.tx
  · exact max_le h.pages (h.pool p b hb).1
  · exact h.nextPage
  · intro q c hq
    change (σ.pool.dirty.erase p)[q]? = some c at hq
    rw [getElem?_erase] at hq
    split_ifs at hq
    exact h.pool q c hq
  · exact h.identity
  · exact h.hintOpen
  · exact h.sync

/-- **A dirty frame is written out.** -/
lemma Roomy.spec_writeOut {Q : Unit → Store → Disk → Prop} (h : Roomy n σ) (p : ℕ)
    (hnone : σ.pool.dirty[p]? = none → Q () σ w)
    (hsome : ∀ b w', σ.pool.dirty[p]? = some b → Q () (σ.written p b) w') :
    Spec Disk.exec (fun _ _ => True) (writeOut p) Q X σ w := by
  rw [writeOut, spec_bind, spec_current]
  cases hb : σ.pool.dirty[p]? with
  | none => exact hnone hb
  | some b =>
      obtain ⟨hlt, hlen, hopen⟩ := h.pool p b hb
      obtain ⟨hroom, htracked⟩ := h.room hb
      have hd : max σ.state.pages (p + 1) * page ≤ σ.state.dataLimit :=
        (Nat.mul_le_mul_right _ ((max_le h.pages hlt).trans (Nat.le_add_right _ _))).trans h.data
      have hwal : σ.state.endOff + frameLen ≤ walCap := hroom.walCap
      simp only [spec_bind, spec_onPager, spec_updatePool]
      refine spec_writeAt_room h.identity hlen hopen htracked (by have := h.nextPage; omega) hd hroom
        (hwal.trans (by decide)) ?_
      exact hsome b _ hb

/-- Frames are written out in any order. -/
lemma Roomy.spec_flush : ∀ (order : List ℕ) {σ : Store} {w : Disk}, Roomy n σ →
    Spec Disk.exec (fun _ _ => True) (flush order) (fun _ σ' _ => Roomy n σ') X σ w
  | [], σ, w, h => h
  | p :: order, σ, w, h => by
      rw [flush, spec_bind]
      refine h.spec_writeOut p (fun _ => spec_flush order h) fun b w' hb => ?_
      exact spec_flush order (h.written hb)

lemma Roomy.spec_flushAll (order : List ℕ) (h : Roomy n σ) :
    Spec Disk.exec (fun _ _ => True) (flushAll order) (fun _ σ' _ => Roomy n σ') X σ w := by
  rw [flushAll, spec_bind]
  refine (Roomy.spec_flush order h).mono (fun _ σ' w' h' => ?_) fun _ _ _ h => h
  rw [spec_bind, spec_current]
  exact Roomy.spec_flush _ h'

/-- A frame more is dirty. -/
lemma Roomy.insert (h : Roomy (n + 1) σ) {p : ℕ} {b : Bytes} (hp : p < σ.pool.nextPage)
    (hb : Sealable p b) :
    Roomy n { σ with pool := { σ.pool with dirty := σ.pool.dirty.insert p b } } := by
  have hsize := @Std.ExtTreeMap.size_insert_le _ _ _ σ.pool.dirty _ p b
  have hle : ((σ.pool.dirty.insert p b).size + n) * frameLen
      ≤ (σ.pool.dirty.size + (n + 1)) * frameLen := Nat.mul_le_mul_right _ (by omega)
  have h1 := h.wal
  have h2 := h.walLimit
  have h3 := h.cap
  have h4 := h.tracked
  have h5 := h.tx
  have h6 := h.nextPage
  have h7 : (σ.pool.nextPage + n) * page ≤ (σ.pool.nextPage + (n + 1)) * page :=
    Nat.mul_le_mul_right _ (by omega)
  refine ⟨lt_of_le_of_lt (Nat.add_le_add_left hle _) h1, ?_, ?_, h7.trans h.data, ?_, ?_, h.pages,
    (by show σ.pool.nextPage + n ≤ u32Max; omega), ?_, h.identity, h.hintOpen, h.sync⟩
  · show 2 * (σ.state.endOff + ((σ.pool.dirty.insert p b).size + n) * frameLen + 1)
      ≤ σ.state.walLimit
    omega
  · show 2 * (σ.state.endOff + ((σ.pool.dirty.insert p b).size + n) * frameLen + 1)
      + (σ.pool.nextPage + n) * page ≤ σ.state.cap
    omega
  · show σ.state.latest.size + ((σ.pool.dirty.insert p b).size + n) ≤ σ.state.trackedLimit
    omega
  · show σ.state.tx + n ≤ _
    omega
  · intro q c hq
    change (σ.pool.dirty.insert p b)[q]? = some c at hq
    rw [getElem?_insert] at hq
    split_ifs at hq with he
    · cases hq
      exact he ▸ ⟨hp, hb⟩
    · exact h.pool q c hq

/-- A page more at the end of the file. -/
lemma Roomy.extend (h : Roomy (n + 1) σ) :
    Roomy n { σ with pool := { σ.pool with nextPage := σ.pool.nextPage + 1 } } := by
  have hle : (σ.pool.dirty.size + n) * frameLen ≤ (σ.pool.dirty.size + (n + 1)) * frameLen :=
    Nat.mul_le_mul_right _ (by omega)
  have hpages : σ.pool.nextPage + 1 + n = σ.pool.nextPage + (n + 1) := by omega
  have h1 := h.wal
  have h2 := h.walLimit
  have h3 := h.cap
  have h4 := h.tracked
  have h5 := h.tx
  refine ⟨lt_of_le_of_lt (Nat.add_le_add_left hle _) h1, ?_, ?_, ?_, ?_, ?_,
    h.pages.trans (Nat.le_succ _), ?_, fun p b hb => ?_, h.identity, h.hintOpen, h.sync⟩
  · show 2 * (σ.state.endOff + (σ.pool.dirty.size + n) * frameLen + 1) ≤ σ.state.walLimit
    omega
  · show 2 * (σ.state.endOff + (σ.pool.dirty.size + n) * frameLen + 1)
      + (σ.pool.nextPage + 1 + n) * page ≤ σ.state.cap
    rw [hpages]
    omega
  · show (σ.pool.nextPage + 1 + n) * page ≤ σ.state.dataLimit
    rw [hpages]
    exact h.data
  · show σ.state.latest.size + (σ.pool.dirty.size + n) ≤ σ.state.trackedLimit
    omega
  · show σ.state.tx + n ≤ u64Max
    omega
  · show σ.pool.nextPage + 1 + n ≤ u32Max
    rw [hpages]
    exact h.nextPage
  · exact ⟨Nat.lt_succ_of_lt (h.pool p b hb).1, (h.pool p b hb).2⟩

/-- Short of half the allowances, no checkpoint is due. -/
lemma Roomy.not_due (h : Roomy n σ) : σ.pager.checkpointDue = false := by
  have h1 := h.wal
  have h2 := h.walLimit
  have h3 := h.cap
  have h4 : σ.state.pages * page ≤ (σ.pool.nextPage + n) * page :=
    Nat.mul_le_mul_right _ (h.pages.trans (Nat.le_add_right _ _))
  have hx : 0 ≤ (σ.pool.dirty.size + n) * frameLen := Nat.zero_le _
  simp only [Pager.checkpointDue, decide_eq_false_iff_not, not_le]
  refine lt_max_of_lt_left (lt_min (lt_min ?_ ?_) ?_)
  · show σ.state.endOff < 4 * 1024 * 1024
    omega
  · show σ.state.endOff < (σ.state.cap - σ.state.pages * page) / 2
    omega
  · show σ.state.endOff < σ.state.walLimit / 2
    omega

/-- Publishing uses the room of one frame. -/
lemma Roomy.published (h : Roomy (n + 1) σ) :
    Roomy n { σ with pager := σ.pager.published, dirty := false } := by
  have hused : σ.state.endOff + frameLen + (σ.pool.dirty.size + n) * frameLen
      = σ.state.endOff + (σ.pool.dirty.size + (n + 1)) * frameLen := by ring
  have h1 := h.wal
  have h2 := h.walLimit
  have h3 := h.cap
  have h4 := h.tracked
  have h5 := h.tx
  have h6 := h.nextPage
  have h7 : (σ.pool.nextPage + n) * page ≤ (σ.pool.nextPage + (n + 1)) * page :=
    Nat.mul_le_mul_right _ (by omega)
  refine ⟨?_, ?_, ?_, h7.trans h.data, ?_, ?_, h.pages,
    (by show σ.pool.nextPage + n ≤ u32Max; omega), h.pool, h.identity, h.hintOpen, h.sync⟩
  · show σ.state.endOff + frameLen + (σ.pool.dirty.size + n) * frameLen < 4 * 1024 * 1024
    omega
  · show 2 * (σ.state.endOff + frameLen + (σ.pool.dirty.size + n) * frameLen + 1)
      ≤ σ.state.walLimit
    omega
  · show 2 * (σ.state.endOff + frameLen + (σ.pool.dirty.size + n) * frameLen + 1)
      + (σ.pool.nextPage + n) * page ≤ σ.state.cap
    omega
  · show σ.state.latest.size + (σ.pool.dirty.size + n) ≤ σ.state.trackedLimit
    omega
  · show σ.state.tx + 1 + n ≤ u64Max
    omega

/-- **The commit frame, the barrier and the hint.** -/
lemma Roomy.spec_publish {Q : Unit → Pager → Disk → Prop} {X : Error → Pager → Disk → Prop}
    (h : Roomy (n + 1) σ) (hQ : ∀ w', Q () σ.pager.published w') :
    Spec Disk.exec (fun _ _ => True) Pager.publish Q X σ.pager w := by
  have htx : checkedAdd64 σ.state.tx 1 = .ok (σ.state.tx + 1) := if_pos (by have := h.tx; omega)
  have hone : frameLen ≤ (σ.pool.dirty.size + (n + 1)) * frameLen :=
    Nat.le_mul_of_pos_left _ (by omega)
  have h1 := h.wal
  have h2 := h.walLimit
  have h3 := h.cap
  have h4 : σ.state.pages * page ≤ (σ.pool.nextPage + (n + 1)) * page :=
    Nat.mul_le_mul_right _ (h.pages.trans (Nat.le_add_right _ _))
  have hc : walCap = 16 * 1024 * 1024 := rfl
  have hu : u64Max = 2 ^ 64 - 1 := rfl
  have hroom : σ.pager.Room := by
    refine ⟨?_, ?_, ?_⟩
    · show σ.state.endOff + frameLen ≤ walCap
      omega
    · show σ.state.endOff + frameLen + σ.state.pages * page ≤ σ.state.cap
      omega
    · show σ.state.endOff + frameLen ≤ σ.state.walLimit
      omega
  have hlen : (frame 2 u32Max σ.state.tx σ.state.pages (commitBody σ.state.txCrc)
      σ.state.identity).length = frameLen := length_commitFrame h.identity _ _
  rw [Pager.publish, spec_bind, spec_current]
  dsimp only
  rw [spec_bind, htx, spec_ofExcept_ok, spec_bind]
  refine spec_append_room hlen hroom (by show σ.state.endOff + frameLen ≤ u64Max; omega) ?_
  rw [spec_bind]
  refine spec_barrier h.sync ?_
  rw [spec_syncWal]
  refine ⟨trivial, ?_⟩
  rw [spec_bind, spec_current, spec_bind, spec_attempt]
  refine spec_writeHint' h.hintOpen rfl trivial trivial ?_
  rw [spec_bind, spec_update, spec_ofExcept_ok]
  exact hQ _

/-- **A commit that has room returns**, and no checkpoint is due. -/
lemma spec_publishTransaction_roomy (h : Roomy (n + 2) σ) (h0 : σ.pool.dirty[0]? = none)
    (hread : ∃ b, readPage w.data.contents w.wal.contents σ.state.latest 0 = .ok b)
    (hv : σ.nextHeader.Valid) (hpos : 0 < σ.pool.nextPage) (order : List ℕ) :
    Spec Disk.exec (fun _ _ => True) (publishTransaction none order)
      (fun due σ' _ => due = false ∧ Roomy n σ') X σ w := by
  obtain ⟨c, hc⟩ := hread
  obtain ⟨q, hq, hi, hs⟩ := Header.oneSlot_page .metaPage σ.nextHeader.bytes
    (show 0 < 2 ^ 32 by norm_num) (by rw [Header.length_bytes hv]; decide)
  have hseal : Sealable 0 (PageMut.finalise q 0) := by
    obtain ⟨b, hb, hi', hs', hc'⟩ := Header.page_spec hv (show 0 < 2 ^ 32 by norm_num)
    obtain rfl : sealPage (PageMut.finalise q 0) 1 = b := by
      rw [Header.page, hq] at hb
      exact Except.ok.inj hb
    exact ⟨hs'.length, openInner_eq_ok hi' hs' fun _ => hc'.symm⟩
  refine spec_poisoning ?_
  rw [spec_bind, spec_current, spec_bind, load, spec_bind, spec_current]
  simp only [h0, giveUp, spec_bind, spec_pure, spec_onPager, Pager.readAt, spec_current,
    spec_dataContents, spec_walContents, hc, spec_ofExcept_ok, hq, spec_updatePool]
  refine ⟨trivial, trivial, ?_⟩
  refine ((h.insert hpos hseal).spec_flushAll order).mono (fun _ σ' w' h' => ?_) fun _ _ _ h => h
  refine h'.spec_publish fun w'' => ?_
  rw [spec_modify]
  exact ⟨h'.published.not_due, h'.published⟩

end roomy

/-! ## Pieces of a run -/

lemma spec_writable' {σ : Store} {w : Disk} {G : Disk → Disk → Prop}
    {Q : Unit → Store → Disk → Prop} {X : Error → Store → Disk → Prop} (hp : σ.poisoned = false)
    (hQ : Q () σ w) : Spec Disk.exec G Store.writable Q X σ w := by
  rw [Store.writable, spec_bind, spec_current, spec_refuseIf]
  exact ⟨(fun h => by rw [hp] at h; cases h), fun _ => hQ⟩

section pieces

variable {n : ℕ} {s : Sys} {σ : Store} {τ : Tag} {g : Ghost}

/-- Every call is answered. -/
lemma Disk.exec_answered {β : Type} (e : Call β) (w : Disk) : ∃ r w', Disk.exec e w r w' := by
  cases e with
  | excludeReaders => exact ⟨false, w, Or.inr ⟨rfl, rfl⟩⟩
  | lockGate => exact ⟨(), _, rfl⟩
  | unlock => exact ⟨(), _, rfl⟩
  | readers => exact ⟨0, _, rfl⟩
  | _ => exact ⟨_, _, rfl, rfl⟩

/-- The tree may do anything. -/
abbrev Free : Holdings → Act → Prop := fun _ _ => True

/-- **An operation that cannot fail is carried through.** -/
lemma Reachable.carried (st : Stage) {Q : st.Result → Store → Disk → Prop}
    (h : Reachable Free (s.start σ st))
    (hQ : Spec Disk.exec (fun _ _ => True) st.proc Q (fun _ _ _ => False) σ s.disk) :
    ∃ r σ' w', Q r σ' w'
      ∧ Reachable Free (({ s.start σ st with disk := w' } : Sys).finish σ' st (.ok r)) := by
  obtain ⟨⟨r, σ'⟩, w', hr, hend⟩ := Prog.exists_ret Disk.exec_answered
    (P := fun p w => Reachable Free { s.start σ st with disk := w, job := .busy st p })
    (fun hp hx => .step hp (.call rfl hx)) h hQ
  cases r with
  | error e => exact hend.elim
  | ok r => exact ⟨r, σ', w', hend, .step hr (.finish rfl)⟩

/-- The writer rests on a usable handle that has room for `n` frames. -/
structure Resting (n : ℕ) (σ : Store) (s : Sys) : Prop where
  reach : Reachable Free s
  job : s.job = .idle σ
  poisoned : σ.poisoned = false
  roomy : Roomy n σ

lemma Reachable.atRest (h : Reachable Free s) (hj : s.job = .idle σ) :
    ∃ τ g, AtRest τ g σ s.disk := by
  obtain ⟨τ, -, -, -, hjob⟩ := h.inv_files
  rw [hj] at hjob
  obtain ⟨g, hr, -⟩ := hjob
  exact ⟨τ, g, hr⟩

/-- **Page 0 can always be read**: the last one framed, or the checkpoint's metadata. -/
lemma PagerOk.readPage_zero {P : Pager} {w : Disk} (hP : PagerOk g P) (hf : FilesOk g w) :
    ∃ b, readPage w.data.contents w.wal.contents P.state.latest 0 = .ok b := by
  have ht := hP.tracks hf
  rcases ht 0 with ⟨hn, -⟩ | ⟨r, b, -, hb, -⟩
  · obtain ⟨b, hb, -⟩ := Header.page_spec hf.valid (show 0 < 2 ^ 32 by norm_num)
    exact ⟨b, readPage_meta hn hf.dataOk.metadata hf.valid hb⟩
  · exact ⟨b, readPage_tracked ht hb⟩

/-- **A publication with room returns**, and what it published is acknowledged. -/
lemma published_of_roomy {order : List ℕ} (h : Reachable Free (s.start σ (.publish none order)))
    (hrest : AtRest τ g σ s.disk) (hp : σ.poisoned = false) (hd : σ.dirty = true)
    (hr : Roomy (n + 2) σ) :
    ∃ s' σ', Resting n σ' s' ∧ s'.acked = σ.pendingImage s.disk ∧ σ'.dirty = false
      ∧ σ'.state.freeHead = σ.state.freeHead ∧ σ'.state.cap = σ.state.cap
      ∧ σ'.pool.nextPage = σ.pool.nextPage := by
  have hσ := hrest.usable hp
  have h0 : σ.pool.dirty[0]? = none := by
    cases hb : σ.pool.dirty[0]? with
    | none => rfl
    | some b =>
        rcases hσ.store.dirty 0 b hb with ⟨h2, -⟩ | ⟨-, hh⟩
        · omega
        · cases hh
  have hpos : 0 < σ.pool.nextPage := by have := hσ.root; rw [RootOk] at this; omega
  have hgo : Spec Disk.exec (fun _ _ => True) (Store.commitPublish none order)
      (fun due σ' w' => due = false ∧ Roomy n σ'
        ∧ ∃ g', Published (τ.aim (pending g σ)) σ g' σ' w') (fun _ _ _ => False) σ s.disk := by
    have hset : ¬ σ.settled = true := by
      rw [Store.settled, hd]; simp
    rw [Store.commitPublish, spec_bind]
    refine spec_writable' hp ?_
    rw [spec_bind, spec_current, if_neg hset]
    have hroomy := spec_publishTransaction_roomy (X := fun _ _ _ => False) hr h0
      (hσ.store.pager.readPage_zero hrest.calm.files)
      (hσ.store.nextHeader_valid hrest.calm.files hσ.root) hpos order
    have hpub : Spec Disk.exec (Guar (τ.aim (pending g σ)))
        (Store.publishTransaction none order)
        (fun _ σ' w' => ∃ g', Published (τ.aim (pending g σ)) σ g' σ' w') (fun _ _ _ => True) σ s.disk :=
      spec_publishTransaction (hrest.calm.aim _) hσ.store hσ.root rfl fun _ _ _ _ => trivial
    exact (hroomy.and hpub).mono (fun _ _ _ h => ⟨h.1.1, h.1.2, h.2⟩) fun _ _ _ h => h
  obtain ⟨due, σ', w', ⟨rfl, hroom, g', hpub⟩, hreach⟩ := h.carried _ hgo
  refine ⟨_, σ', ⟨hreach, rfl, hpub.poisoned.trans hp, hroom⟩, ?_, hpub.dirty, hpub.freeHead,
    hpub.cap, hpub.nextPage⟩
  show (if σ.poisoned = true then s.acked else σ.pendingImage s.disk) = _
  rw [if_neg (by rw [hp]; decide)]

/-- A commit of a handle at rest. -/
lemma Resting.publish (h : Resting (n + 2) σ s) (hd : σ.dirty = true) (order : List ℕ) :
    ∃ s' σ', Resting n σ' s' ∧ s'.acked = σ.pendingImage s.disk ∧ σ'.dirty = false
      ∧ σ'.state.freeHead = σ.state.freeHead ∧ σ'.state.cap = σ.state.cap
      ∧ σ'.pool.nextPage = σ.pool.nextPage := by
  obtain ⟨τ, g, hrest⟩ := h.reach.atRest h.job
  have hreach : Reachable Free (s.start σ (.publish none order)) :=
    .step h.reach (.start h.job trivial fun a he => by cases he)
  exact published_of_roomy hreach hrest h.poisoned hd h.roomy

/-- **A tree operation begins**; nothing has to be folded first. -/
lemma Resting.beginMutation (h : Resting (n + 1) σ s) :
    ∃ s', Resting (n + 1) { σ with dirty := true } s' ∧ s'.disk = s.disk ∧ s'.acked = s.acked := by
  have hlimit : ¬ (σ.state.endOff + frameLen > σ.state.walLimit) := by
    have hone : frameLen ≤ (σ.pool.dirty.size + (n + 1)) * frameLen :=
      Nat.le_mul_of_pos_left _ (by omega)
    have := h.roomy.walLimit
    omega
  have hgo : Spec Disk.exec (fun _ _ => True) Store.beginMutation
      (fun _ σ' w' => σ' = { σ with dirty := true } ∧ w' = s.disk) (fun _ _ _ => False) σ s.disk := by
    have hskip : ¬ σ.pager.checkpointDue = true ∧ ¬ σ.state.endOff + frameLen > σ.state.walLimit :=
      ⟨by rw [h.roomy.not_due]; decide, hlimit⟩
    rw [Store.beginMutation, spec_bind]
    refine spec_writable' h.poisoned ?_
    rw [spec_bind, Store.foldCommittedWalIfAtCap, spec_bind, spec_current]
    simp only [spec_ite]
    exact ⟨fun _ => ⟨rfl, rfl⟩, fun _ => ⟨fun _ => ⟨rfl, rfl⟩, fun hn => absurd hskip hn⟩⟩
  obtain ⟨r, σ', w', ⟨rfl, rfl⟩, hreach⟩ := Reachable.carried .beginMutation
    (.step h.reach (.start h.job trivial fun a he => by cases he)) hgo
  exact ⟨_, ⟨hreach, rfl, h.poisoned, ⟨h.roomy.wal, h.roomy.walLimit, h.roomy.cap, h.roomy.data,
    h.roomy.tracked, h.roomy.tx, h.roomy.pages, h.roomy.nextPage, h.roomy.pool, h.roomy.identity,
    h.roomy.hintOpen, h.roomy.sync⟩⟩, rfl, rfl⟩

/-- **A page is changed** in the pool. -/
lemma Resting.edit (h : Resting (n + 1) σ s) (hd : σ.dirty = true) {p : ℕ} {b : Bytes} (h2 : 2 ≤ p)
    (hp : p < σ.pool.nextPage) (hb : Sealable p b) :
    ∃ s', Resting n { σ with pool := { σ.pool with dirty := σ.pool.dirty.insert p b } } s'
      ∧ s'.disk = s.disk ∧ s'.acked = s.acked := by
  obtain ⟨τ, g, hrest⟩ := h.reach.atRest h.job
  have hσ := (hrest.usable h.poisoned).store
  have hgo : Spec Disk.exec (fun _ _ => True) (Store.mutate (.edit none p b))
      (fun _ σ' w' => σ' = { σ with pool := { σ.pool with dirty := σ.pool.dirty.insert p b } }
        ∧ w' = s.disk) (fun _ _ _ => False) σ s.disk := by
    refine spec_poisoning ?_
    rw [Store.act, spec_bind, Store.load, spec_bind, spec_current]
    cases hq : σ.pool.dirty[p]? with
    | some c => exact ⟨rfl, rfl⟩
    | none =>
        have hread := hσ.page_eq hrest.calm.files h2 hp
        rw [Store.pendingPage, hq] at hread
        obtain ⟨c, hc⟩ : ∃ c, readPage s.disk.data.contents s.disk.wal.contents σ.state.latest p
            = .ok c := by
          cases hr : readPage s.disk.data.contents s.disk.wal.contents σ.state.latest p with
          | ok c => exact ⟨c, rfl⟩
          | error e => simp only [hr] at hread; cases hread
        simp only [Store.giveUp, spec_bind, spec_pure, spec_onPager, Pager.readAt, spec_current,
          spec_dataContents, spec_walContents, hc, spec_ofExcept_ok, spec_updatePool]
        exact ⟨trivial, trivial, trivial, trivial⟩
  obtain ⟨r, σ', w', ⟨rfl, rfl⟩, hreach⟩ := Reachable.carried (.act (.edit none p b))
    (.step h.reach (.start h.job ⟨h.poisoned, hd, h2, hp⟩ fun a he => trivial)) hgo
  refine ⟨_, ⟨hreach, ?_, h.poisoned, h.roomy.insert hp hb⟩, ?_, ?_⟩ <;> cases r <;> rfl

/-- The handle once a new cap is set and not yet committed. -/
def Store.withCap (σ : Store) (bytes : ℕ) : Store :=
  { σ with
    pager := { σ.pager with state := { σ.pager.state with cap := bytes } }
    dirty := true }

lemma Effect.rests {g' : Ghost} {σ' : Store} {w' : Disk} {st : Stage} {r : st.Result}
    (h : Effect τ g σ g' σ' w' st (.ok r)) (hst : st.Plain) : AtRest τ g' σ' w' := by
  cases h with
  | still _ h _ => exact h
  | settled _ h _ => exact h
  | acted _ _ h _ => exact h
  | published => exact hst.elim
  | reloaded hst' h => cases st <;> exact absurd hst (by simp [Stage.Plain, Stage.Reloads] at *)

/-- **The cap is set**, and the commit that persists it returns. -/
lemma Resting.setCap {m : ℕ} (h : Resting m σ s) (hd : σ.dirty = false) (bytes : ℕ) (hb : bytes ≤ u64Max)
    (hfit : σ.state.endOff + σ.state.pages * page + 2 * frameLen ≤ bytes)
    (hr : Roomy (n + 2) (σ.withCap bytes)) (order : List ℕ) :
    ∃ s' σ', Resting n σ' s' ∧ σ'.dirty = false ∧ σ'.state.freeHead = σ.state.freeHead
      ∧ σ'.state.cap = bytes ∧ σ'.pool.nextPage = σ.pool.nextPage := by
  obtain ⟨τ, g, hrest⟩ := h.reach.atRest h.job
  have hgo : Spec Disk.exec (fun _ _ => True) (Store.setCapState bytes)
      (fun _ σ' w' => σ' = σ.withCap bytes ∧ w' = s.disk) (fun _ _ _ => False) σ s.disk := by
    rw [Store.setCapState, spec_bind]
    refine spec_writable' h.poisoned ?_
    rw [spec_bind, spec_current]
    simp only [spec_bind, spec_refuseIf, spec_onPager, spec_update, spec_modify]
    exact ⟨(fun hf => by rw [hd] at hf; cases hf), fun _ =>
      ⟨fun hf => absurd hfit (not_le.2 hf), fun _ => ⟨rfl, trivial⟩⟩⟩
  have hmeets : Meets τ g σ s.disk (.setCap bytes none order) := meets_setCap hrest hb
  obtain ⟨r, σ', w', ⟨⟨rfl, rfl⟩, g', heff⟩, hreach⟩ :=
    Reachable.carried (.setCap bytes none order)
      (.step h.reach (.start h.job hb fun a he => by cases he)) (Spec.and hgo hmeets)
  obtain ⟨s', σ', hs', -, hd', hfree, hcap, hnext⟩ :=
    published_of_roomy hreach (heff.rests trivial) h.poisoned rfl hr
  exact ⟨s', σ', hs', hd', hfree, hcap, hnext⟩

/-- **A new page, for which a dirty frame is given up**: an uncommitted page is in the log. -/
lemma Resting.allocate (h : Resting (n + 1) σ s) (hd : σ.dirty = true)
    (h0 : σ.state.freeHead = 0) {v : ℕ} {b : Bytes} (hv : σ.pool.dirty[v]? = some b) :
    ∃ s' σ', Reachable Free s' ∧ s'.job = .idle σ' ∧ s'.acked = s.acked ∧ σ'.poisoned = false
      ∧ σ'.state.cap = σ.state.cap ∧ σ'.state.endOff = σ.state.endOff + frameLen
      ∧ σ'.state.lastCommit = σ.state.lastCommit := by
  have hr := h.roomy.extend
  have hgo : Spec Disk.exec (fun _ _ => True) (Store.mutate (.allocate (some v)))
      (fun _ σ' _ => σ'.poisoned = false
        ∧ σ'.state.cap = σ.state.cap ∧ σ'.state.endOff = σ.state.endOff + frameLen
        ∧ σ'.state.lastCommit = σ.state.lastCommit) (fun _ _ _ => False) σ s.disk := by
    have hn : ¬ σ.pool.nextPage + 1 > u32Max := by have := h.roomy.nextPage; omega
    refine spec_poisoning ?_
    rw [Store.act, spec_bind, Store.allocate, spec_bind, spec_onPager, Pager.popFreePage, spec_bind,
      spec_current]
    have h0' : σ.pager.state.freeHead = 0 := h0
    simp only [h0', if_true, spec_pure, spec_bind, spec_current, spec_refuseIf, spec_updatePool,
      Store.giveUp]
    refine ⟨fun hf => absurd hf hn, fun _ => ?_⟩
    refine hr.spec_writeOut v (fun hf => ?_) fun b' w' _ => ⟨h.poisoned, rfl, rfl, rfl⟩
    rw [hv] at hf
    cases hf
  obtain ⟨r, σ', w', ⟨hp, hcap, hend, hlast⟩, hreach⟩ :=
    Reachable.carried (.act (.allocate (some v)))
      (.step h.reach (.start h.job ⟨h.poisoned, hd, trivial⟩ fun a he => trivial)) hgo
  exact ⟨_, σ', hreach, rfl, (by cases r <;> rfl), hp, hcap, hend, hlast⟩

/-- After a commit nothing is behind its frame. -/
lemma Resting.endOff_eq (h : Resting n σ s) (hd : σ.dirty = false) :
    σ.state.endOff = σ.state.lastCommit := by
  obtain ⟨τ, g, hrest⟩ := h.reach.atRest h.job
  have hσ := hrest.usable h.poisoned
  have hP := hσ.store.pager
  show σ.pager.state.endOff = σ.pager.state.lastCommit
  rw [hP.endOff, hP.lastCommit, (hσ.clean hd).tail]
  simp

end pieces

/-! ## A run -/

/-- Page 2 as a leaf with one record. -/
def oneLeaf (rec : Bytes) : Bytes :=
  PageMut.finalise ((PageMut.insertSlot (PageMut.init .leaf 1 2) 0 rec).toOption.getD []) 0

lemma sealable_oneLeaf (rec : Bytes) (h : rec.length ≤ 4000) : Sealable 2 (oneLeaf rec) := by
  obtain ⟨b, hb, hs, he⟩ := slots_insertSlot (r := rec) (i := 0) (slots_init .leaf 1 2) le_rfl
    (by simp only [List.length_nil, pageSize, headerLen, slotLen]; omega)
  rw [oneLeaf, hb]
  exact sealable_of_slots ((ident_init .leaf (by decide) (by decide)).envelope he) hs

/-- A new database has room for its first transactions. -/
lemma newSys_resting : Resting 100 (freshStore (List.replicate 16 1) 0 .full) newSys := by
  have hsize : ((∅ : Std.ExtTreeMap ℕ Bytes).insert 2
      (PageMut.finalise (PageMut.init .leaf 1 2) 0)).size ≤ 1 := Std.ExtTreeMap.size_insert_le
  have hle : (((∅ : Std.ExtTreeMap ℕ Bytes).insert 2
      (PageMut.finalise (PageMut.init .leaf 1 2) 0)).size + 100) * frameLen ≤ 101 * frameLen :=
    Nat.mul_le_mul_right _ (by omega)
  have hempty : (∅ : Index).size = 0 := Std.ExtTreeMap.size_empty
  have hu : u64Max = 2 ^ 64 - 1 := rfl
  have hu' : u32Max = 2 ^ 32 - 1 := rfl
  have hf : frameLen = 4144 := rfl
  have hp : page = 4096 := rfl
  refine ⟨.fresh newSys_fresh, rfl, rfl, ⟨?_, ?_, ?_, ?_, ?_, ?_, ?_, ?_, ?_, by decide, rfl,
    by decide⟩⟩
  · show 0 + (((∅ : Std.ExtTreeMap ℕ Bytes).insert 2 _).size + 100) * frameLen < 4 * 1024 * 1024
    omega
  · show 2 * (0 + (((∅ : Std.ExtTreeMap ℕ Bytes).insert 2 _).size + 100) * frameLen + 1) ≤ u64Max
    omega
  · show 2 * (0 + (((∅ : Std.ExtTreeMap ℕ Bytes).insert 2 _).size + 100) * frameLen + 1)
      + (3 + 100) * page ≤ u64Max
    omega
  · show (3 + 100) * page ≤ u64Max
    omega
  · show (∅ : Index).size + (((∅ : Std.ExtTreeMap ℕ Bytes).insert 2 _).size + 100) ≤ u64Max
    omega
  · show 1 + 100 ≤ u64Max
    omega
  · show 2 ≤ 3
    omega
  · show 3 + 100 ≤ u32Max
    omega
  · intro p b hb
    change ((∅ : Std.ExtTreeMap ℕ Bytes).insert 2 _)[p]? = some b at hb
    rw [getElem?_insert] at hb
    by_cases h2 : 2 = p
    · rw [if_pos h2] at hb
      obtain rfl := Option.some.inj hb
      subst h2
      have hseal := sealable_of_slots (ident_init .leaf (show 1 < 256 ^ 2 by decide)
        (show 2 < 256 ^ 4 by decide)) (slots_init .leaf 1 2)
      exact ⟨show 2 < 3 by omega, hseal⟩
    · rw [if_neg h2] at hb
      simp at hb

/-- **A run that commits, and is stopped in the middle of a transaction**: a database is created,
its cap is lowered, a record is committed, and of another change of the page a frame is already in
the log. -/
lemma exists_stoppedRun : ∃ s σ, Reachable Free s ∧ s.job = .idle σ ∧ σ.poisoned = false
    ∧ s.acked.page 2 = some (sealPage (oneLeaf [1, 2, 3]) 1) ∧ s.acked.cap = 10000000
    ∧ σ.state.cap = 10000000 ∧ σ.state.endOff = σ.state.lastCommit + frameLen := by
  -- the first commit creates the database
  obtain ⟨s₁, σ₁, h₁, -, hd₁, hfree₁, hcap₁, hnext₁⟩ := newSys_resting.publish (n := 98) rfl []
  obtain ⟨hw, hl, hc, hda, ht, htx, hpg, hn, hpool, hid, hho, hsy⟩ := h₁.roomy
  have hf : frameLen = 4144 := rfl
  have hp : page = 4096 := rfl
  have hnext₁' : σ₁.pool.nextPage = 3 := hnext₁
  have hpages : σ₁.state.pages * page ≤ 3 * page := Nat.mul_le_mul_right _ (hnext₁' ▸ hpg)
  -- the cap is lowered
  obtain ⟨s₂, σ₂, h₂, hd₂, hfree₂, hcap₂, hnext₂⟩ := (show Resting 98 σ₁ s₁ from h₁).setCap hd₁
    10000000 (by decide) (by omega) (n := 96) ⟨hw, hl, by
      show 2 * (σ₁.state.endOff + (σ₁.pool.dirty.size + 98) * frameLen + 1)
        + (σ₁.pool.nextPage + 98) * page ≤ 10000000
      rw [hnext₁']
      omega, hda, ht, htx, hpg, hn, hpool, hid, hho, hsy⟩ []
  have hfree₂' : σ₂.state.freeHead = 0 := (hfree₂.trans hfree₁).trans rfl
  have hnext₂' : σ₂.pool.nextPage = 3 := hnext₂.trans hnext₁'
  -- a record is written and committed
  obtain ⟨s₃, h₃, -, -⟩ := (show Resting (95 + 1) σ₂ s₂ from h₂).beginMutation
  obtain ⟨s₄, h₄, hdisk₄, -⟩ := h₃.edit rfl le_rfl (show 2 < σ₂.pool.nextPage by omega)
    (sealable_oneLeaf [1, 2, 3] (by decide))
  obtain ⟨s₅, σ₅, h₅, hacked₅, hd₅, hfree₅, hcap₅, hnext₅⟩ :=
    (show Resting (93 + 2) _ s₄ from h₄).publish rfl []
  have hcap₅' : σ₅.state.cap = 10000000 := hcap₅.trans hcap₂
  have hnext₅' : σ₅.pool.nextPage = 3 := hnext₅.trans hnext₂'
  have hend₅ := h₅.endOff_eq hd₅
  -- the page is changed once more, and given up for a new one
  obtain ⟨s₆, h₆, -, hacked₆⟩ := (show Resting (92 + 1) σ₅ s₅ from h₅).beginMutation
  obtain ⟨s₇, h₇, -, hacked₇⟩ := h₆.edit rfl le_rfl (show 2 < σ₅.pool.nextPage by omega)
    (sealable_oneLeaf [4, 5] (by decide))
  obtain ⟨s₈, σ₈, h₈, hj₈, hacked₈, hp₈, hcap₈, hend₈, hlast₈⟩ :=
    (show Resting (91 + 1) _ s₇ from h₇).allocate rfl (hfree₅.trans hfree₂')
      (v := 2) (b := oneLeaf [4, 5]) (by rw [getElem?_insert, if_pos rfl])
  have hacked : s₈.acked = s₅.acked := hacked₈.trans (hacked₇.trans hacked₆)
  refine ⟨s₈, σ₈, h₈, hj₈, hp₈, ?_, ?_, hcap₈.trans hcap₅', ?_⟩
  · rw [hacked, hacked₅]
    have h2 : (2 : ℕ) ≠ 1 ∧ 2 < σ₂.pool.nextPage := ⟨by decide, by omega⟩
    simp only [Store.pendingImage, if_pos h2, if_neg (show (2 : ℕ) ≠ 0 by decide),
      Store.pendingPage, getElem?_insert, if_true]
  · rw [hacked, hacked₅]
    exact hcap₂
  · rw [hend₈, hlast₈]
    exact congrArg (· + frameLen) hend₅

end PageWal
