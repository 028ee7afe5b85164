import Sekejap.PageWal.Files

/-!
# What the pager's operations do

One rule for each operation of `Sekejap.PageWal.Pager`: what has to hold before it so that every
call keeps the guarantee `G` and its outcome is the one asked for.  An operation that succeeds has
the effect the rule names, and one that refuses leaves the disk as it was; callers use these rules
and never look inside.
-/

open Bytes Page Crc32c Proc

namespace PageWal

namespace Pager

/-- `grow` -/
def grown (P : Pager) (p : ℕ) : Pager :=
  { P with state := { P.state with pages := max P.state.pages (p + 1) } }

/-- One image frame more. -/
def framed (P : Pager) (p : ℕ) (b : Bytes) : Pager :=
  { P with state := { P.state with
      endOff := P.state.endOff + frameLen
      txCrc := crc32cAppend P.state.txCrc (imageFrame P.state.identity P.state.tx (p, b))
      latest := P.state.latest.insert p
        ⟨P.state.endOff, frameCrc (imageFrame P.state.identity P.state.tx (p, b))⟩ } }

/-- The frame of the next image. -/
def nextFrame (P : Pager) (p : ℕ) (b : Bytes) : Bytes :=
  imageFrame P.state.identity P.state.tx (p, b)

/-- One frame more is within every allowance. -/
structure Room (P : Pager) : Prop where
  walCap : P.state.endOff + frameLen ≤ walCap
  cap : P.state.endOff + frameLen + P.state.pages * page ≤ P.state.cap
  walLimit : P.state.endOff + frameLen ≤ P.state.walLimit

/-- Page `p` may enter the index. -/
def Tracked (P : Pager) (p : ℕ) : Prop :=
  p ∈ P.state.latest ∨ P.state.latest.size < P.state.trackedLimit

end Pager

section rules

variable {G : Disk → Disk → Prop} {X : Error → Pager → Disk → Prop} {P : Pager} {w : Disk}

open Pager

lemma checkedAdd64_ok {a b n : ℕ} (h : checkedAdd64 a b = .ok n) : n = a + b := by
  rw [checkedAdd64] at h
  split at h
  · exact (Except.ok.inj h).symm
  · cases h

lemma spec_update {Q : Unit → Pager → Disk → Prop} (f : State → State) :
    Spec Disk.exec G (update f) Q X P w ↔ Q () { P with state := f P.state } w := Iff.rfl

lemma spec_barrier {Q : Unit → Pager → Disk → Prop} {e : Call (Except Error Unit)}
    (hs : P.sync ≠ .off) (h : Spec Disk.exec G (try' e) Q X P w) :
    Spec Disk.exec G (barrier e) Q X P w := by
  rw [barrier, spec_bind, spec_current, if_neg hs]
  exact h

lemma spec_append {Q : Unit → Pager → Disk → Prop} {b : Bytes} (hb : b.length = frameLen)
    (hX : ∀ e, X e P w)
    (hQ : P.Room → G w (w.putWal P.state.endOff b)
      ∧ Q () { P with state := { P.state with endOff := P.state.endOff + frameLen } }
          (w.putWal P.state.endOff b)) :
    Spec Disk.exec G (append b) Q X P w := by
  rw [append, spec_bind, spec_current]
  dsimp only
  rw [spec_bind, hb]
  cases hc : checkedAdd64 P.state.endOff frameLen with
  | error e => exact hX e
  | ok n =>
      obtain rfl := checkedAdd64_ok hc
      rw [spec_ofExcept_ok]
      simp only [spec_bind, spec_refuseIf, spec_writeWal, spec_update]
      refine ⟨fun _ => hX _, fun h1 => ⟨fun _ => hX _, fun h2 => ?_⟩⟩
      push Not at h1 h2
      exact hQ ⟨h1.1, h1.2, h2⟩

lemma spec_grow {Q : Unit → Pager → Disk → Prop} {p : ℕ} (hX : ∀ e, X e P w)
    (hQ : p + 1 ≤ u32Max → max P.state.pages (p + 1) * page ≤ P.state.dataLimit →
      Q () (P.grown p) w) : Spec Disk.exec G (grow p) Q X P w := by
  simp only [grow, spec_bind, spec_current, spec_refuseIf, spec_update]
  refine ⟨fun _ => hX _, fun h1 => ⟨fun _ => hX _, fun h2 => ?_⟩⟩
  push Not at h1 h2
  exact hQ h1 h2

lemma spec_track {Q : Unit → Pager → Disk → Prop} {p : ℕ} (hX : ∀ e, X e P w)
    (hQ : P.Tracked p → Q () P w) : Spec Disk.exec G (track p) Q X P w := by
  simp only [track, spec_bind, spec_current, spec_refuseIf]
  refine ⟨fun _ => hX _, fun h => hQ ?_⟩
  rw [Tracked]
  by_contra hc
  push Not at hc
  exact h hc

lemma spec_appendImage {Q : Unit → Pager → Disk → Prop} {p : ℕ} {b : Bytes}
    (hid : P.state.identity.length = 16) (hb : b.length = page) (hX : ∀ e, X e P w)
    (hQ : P.Room → G w (w.putWal P.state.endOff (P.nextFrame p b))
      ∧ Q () (P.framed p b) (w.putWal P.state.endOff (P.nextFrame p b))) :
    Spec Disk.exec G (appendImage p b) Q X P w := by
  rw [appendImage, spec_bind, spec_current]
  dsimp only
  rw [spec_bind]
  have hl : (frame 1 p P.state.tx 0 b P.state.identity).length = frameLen := length_frame hb hid
  refine spec_append hl hX fun hr => ?_
  rw [spec_update]
  exact hQ hr

/-- **A page write**: checked, then one frame more. -/
lemma spec_writeAt {Q : Unit → Pager → Disk → Prop} {p : ℕ} {b : Bytes}
    (hid : P.state.identity.length = 16) (hX : ∀ e P', P' = P ∨ P' = P.grown p → X e P' w)
    (hQ : b.length = page → PageRef.openChecked b p = .ok ⟨b⟩ → P.Tracked p → p + 1 ≤ u32Max →
      max P.state.pages (p + 1) * page ≤ P.state.dataLimit → (P.grown p).Room →
      G w (w.putWal P.state.endOff (P.nextFrame p b))
        ∧ Q () ((P.grown p).framed p b) (w.putWal P.state.endOff (P.nextFrame p b))) :
    Spec Disk.exec G (writeAt b (p * page)) Q X P w := by
  have hdiv : p * page / page = p := Nat.mul_div_cancel _ (by decide)
  simp only [writeAt, spec_bind, spec_refuseIf, hdiv]
  refine ⟨fun _ => hX _ _ (Or.inl rfl), fun h1 => ⟨fun _ => hX _ _ (Or.inl rfl), fun _ => ?_⟩⟩
  push Not at h1
  cases ho : PageRef.openChecked b p with
  | error e => exact hX _ _ (Or.inl rfl)
  | ok r =>
      obtain rfl : r = ⟨b⟩ := (openInner_ok ho).1
      rw [spec_ofExcept_ok]
      refine spec_track (fun e => hX _ _ (Or.inl rfl)) fun ht => ?_
      refine spec_grow (fun e => hX _ _ (Or.inl rfl)) fun hg hl => ?_
      exact spec_appendImage (P := P.grown p) hid h1.2 (fun e => hX _ _ (Or.inr rfl))
        fun hr => hQ h1.2 ho ht hg hl hr

lemma spec_readAt {Q : Bytes → Pager → Disk → Prop} {p : ℕ} (hG : G w w) (hX : ∀ e, X e P w)
    (hQ : ∀ b, readPage w.data.contents w.wal.contents P.state.latest p = .ok b → Q b P w) :
    Spec Disk.exec G (Pager.readAt p) Q X P w := by
  simp only [Pager.readAt, spec_bind, spec_current, spec_dataContents, spec_walContents]
  refine ⟨hG, hG, ?_⟩
  cases hr : readPage w.data.contents w.wal.contents P.state.latest p with
  | error e => exact hX e
  | ok b => exact hQ b hr

/-- A free page as it is framed. -/
structure FreeImage (p : ℕ) (slot b : Bytes) : Prop where
  length : b.length = page
  opens : PageRef.openChecked b p = .ok ⟨b⟩
  kind : PageRef.kind ⟨b⟩ = .free
  nentries : PageRef.nentries ⟨b⟩ = 1
  slot_eq : PageRef.slot ⟨b⟩ 0 = slot

lemma freeImage_spec {p : ℕ} {slot : Bytes} (hp : p < 2 ^ 32) (hs : slot.length ≤ maxRecordLen) :
    ∃ b, freeImage p slot = .ok b ∧ FreeImage p slot b := by
  obtain ⟨q, hq, hi, hsl⟩ := Header.oneSlot_page .free slot hp hs
  have hlen := hsl.length
  have hcrc : Intact (sealPage (PageMut.finalise q 0) 1) := by
    refine (checksum_sealPage ?_ 1).symm
    simp only [sealPage, length_splice, length_leBytes, formatAt, pageSize, PageMut.finalise] at *
    omega
  refine ⟨sealPage (PageMut.finalise q 0) 1, ?_, hlen, openInner_eq_ok hi hsl fun _ => hcrc.symm,
    hi.kind_eq, hsl.count, hsl.slot 0 _ rfl⟩
  rw [freeImage, hq]
  rfl

/-- What the head of the free list must look like to be popped. -/
structure FreeLink (P : Pager) (b : Bytes) (next : ℕ) : Prop where
  two_le : 2 ≤ P.state.freeHead
  lt : P.state.freeHead < P.state.pages
  opens : PageRef.openChecked b P.state.freeHead = .ok ⟨b⟩
  kind : PageRef.kind ⟨b⟩ = .free
  nentries : PageRef.nentries ⟨b⟩ = 1
  slot : (PageRef.slot ⟨b⟩ 0).length = 4
  next_eq : next = u32At (PageRef.slot ⟨b⟩ 0) 0
  ne : next ≠ P.state.freeHead
  range : next = 0 ∨ (2 ≤ next ∧ next < P.state.pages)

/-- **A page is popped**: marked taken by one frame more, and the head moves to its link. -/
lemma spec_popFreePage {Q : Option ℕ → Pager → Disk → Prop}
    (hid : P.state.identity.length = 16) (hlt : P.state.pages < 2 ^ 32) (hG : G w w)
    (hX : ∀ e, X e P w) (hnone : P.state.freeHead = 0 → Q none P w)
    (hsome : ∀ b next t, readPage w.data.contents w.wal.contents P.state.latest P.state.freeHead
        = .ok b → FreeLink P b next → P.Tracked P.state.freeHead → P.Room →
      FreeImage P.state.freeHead takenSlot t →
      G w (w.putWal P.state.endOff (P.nextFrame P.state.freeHead t))
        ∧ Q (some P.state.freeHead)
            { P.framed P.state.freeHead t with
              state := { (P.framed P.state.freeHead t).state with freeHead := next } }
            (w.putWal P.state.endOff (P.nextFrame P.state.freeHead t))) :
    Spec Disk.exec G popFreePage Q X P w := by
  rw [popFreePage, spec_bind, spec_current]
  dsimp only
  rw [spec_ite]
  refine ⟨fun h0 => hnone h0, fun h0 => ?_⟩
  simp only [spec_bind, spec_refuseIf]
  refine ⟨fun _ => hX _, fun h1 => ?_⟩
  push Not at h1
  refine spec_track hX fun ht => ?_
  refine spec_readAt hG hX fun b hb => ?_
  cases ho : PageRef.openChecked b P.state.freeHead with
  | error e => exact hX e
  | ok r =>
      obtain rfl : r = ⟨b⟩ := (openInner_ok ho).1
      simp only [spec_ofExcept_ok]
      refine ⟨fun _ => hX _, fun h2 => ⟨fun _ => hX _, fun h3 => ?_⟩⟩
      push Not at h2 h3
      have htaken : takenSlot.length ≤ maxRecordLen := by decide
      obtain ⟨t, htk, htf⟩ := freeImage_spec (lt_trans h1.2 hlt) htaken
      rw [htk, spec_ofExcept_ok]
      refine spec_appendImage hid htf.length hX fun hr => ?_
      simp only [spec_update, spec_pure]
      refine hsome b _ t hb ⟨h1.1, h1.2, ho, h2.1, h2.2.1, h2.2.2, rfl, h3.1, ?_⟩ ht hr htf
      by_cases hz : u32At (PageRef.slot ⟨b⟩ 0) 0 = 0
      · exact Or.inl hz
      · exact Or.inr (h3.2 hz)

/-- **A page is pushed**: one frame more, a free page that links to the old head. -/
lemma spec_pushFreePage {Q : Unit → Pager → Disk → Prop} {p : ℕ}
    (hid : P.state.identity.length = 16)
    (hX : ∀ e P', P' = P ∨ P' = P.grown p → X e P' w)
    (hQ : ∀ b, 2 ≤ p → P.Tracked p → p + 1 ≤ u32Max →
      max P.state.pages (p + 1) * page ≤ P.state.dataLimit → (P.grown p).Room →
      FreeImage p (leBytes 4 P.state.freeHead) b →
      G w (w.putWal P.state.endOff (P.nextFrame p b))
        ∧ Q () { (P.grown p).framed p b with
              state := { ((P.grown p).framed p b).state with freeHead := p } }
            (w.putWal P.state.endOff (P.nextFrame p b))) :
    Spec Disk.exec G (pushFreePage p) Q X P w := by
  simp only [pushFreePage, spec_bind, spec_refuseIf]
  refine ⟨fun _ => hX _ _ (Or.inl rfl), fun h1 => ?_⟩
  refine spec_track (fun e => hX _ _ (Or.inl rfl)) fun ht => ?_
  refine spec_grow (fun e => hX _ _ (Or.inl rfl)) fun hg hl => ?_
  rw [spec_current]
  have hu : u32Max = 2 ^ 32 - 1 := rfl
  have hlink : (leBytes 4 P.state.freeHead).length ≤ maxRecordLen := by
    rw [length_leBytes]; decide
  have hp32 : p < 2 ^ 32 := by omega
  obtain ⟨b, hb, hbf⟩ := freeImage_spec hp32 hlink
  have hb' : freeImage p (leBytes 4 (P.grown p).state.freeHead) = .ok b := hb
  rw [hb', spec_ofExcept_ok]
  have hid' : (P.grown p).state.identity.length = 16 := hid
  refine spec_appendImage hid' hbf.length (fun e => hX _ _ (Or.inr rfl)) fun hr => ?_
  rw [spec_update]
  exact hQ b (by omega) ht hg hl hr hbf

/-- The hint the state publishes. -/
def State.hint (s : State) (publishedTx publishedEnd : ℕ) : Hint :=
  ⟨s.identity, s.floor, publishedTx, publishedEnd % 2 ^ 32⟩

lemma spec_writeHint' {Q : Unit → Pager → Disk → Prop} {tx e : ℕ} {k : Hint}
    (ho : P.hintOpen = true) (hk : P.state.hint tx e = k)
    (hG₁ : G w (w.putHint .first (hintEncode k)))
    (hG₂ : G (w.putHint .first (hintEncode k))
      ((w.putHint .first (hintEncode k)).putHint .second (hintEncode k)))
    (hQ : Q () { P with state := { P.state with hintCurrent := true, hintPublished := true } }
      ((w.putHint .first (hintEncode k)).putHint .second (hintEncode k))) :
    Spec Disk.exec G (Pager.writeHint tx e) Q X P w := by
  subst hk
  simp only [Pager.writeHint, spec_bind, spec_current, spec_refuseIf, spec_update,
    PageWal.spec_writeHint]
  exact ⟨fun hf => absurd (ho.symm.trans hf) (by decide), fun _ => ⟨hG₁, hG₂, hQ⟩⟩

end rules

end PageWal
