import Sekejap.PageWal.Writer

/-!
# The handle and the files agree

`PagerOk g P` and `StoreOk k g σ` say that the writer's bookkeeping describes the files: its
offsets, index and checksum are those of the log of `g`, every page it has handed out since the
last commit is either framed or dirty in the pool, and it is within its allowances.

The rules of this file carry that through the pool: writing frames out, loading, allocating and
freeing.  `cur g σ` is the page the transaction will commit; **writing a frame out does not change
it** (`spec_flush`).
-/

open Bytes Page Crc32c Proc

namespace PageWal

/-- **The pager's state describes the files.** -/
structure PagerOk (g : Ghost) (P : Pager) : Prop where
  identity : P.state.identity = g.id
  features : P.state.features = g.disk.features
  floor : P.state.floor = g.disk.tx
  tx : P.state.tx = g.tx
  endOff : P.state.endOff = logEnd g.txns + g.tail.length * frameLen
  lastCommit : P.state.lastCommit = logEnd g.txns
  latest : P.state.latest = trackImages g.id g.tx (logEnd g.txns) g.tail g.index
  committed : P.state.committed = g.index
  committedPages : P.state.committedPages = g.version.pages
  txCrc : P.state.txCrc = framesCrc g.id g.tx g.tail
  pages_ge : g.version.pages ≤ P.state.pages
  pages_lt : P.state.pages < 2 ^ 32
  tail_lt : ∀ i ∈ g.tail, i.1 < P.state.pages
  freeHead : P.state.freeHead = 0 ∨ (2 ≤ P.state.freeHead ∧ P.state.freeHead < P.state.pages)
  cap : P.state.endOff + P.state.pages * page ≤ P.state.cap
  cap_lt : P.state.cap ≤ u64Max
  wal_le : P.state.endOff ≤ P.state.walLimit
  data_le : P.state.pages * page ≤ P.state.dataLimit
  tracked_le : P.state.latest.size ≤ P.state.trackedLimit
  hintOpen : P.hintOpen = true
  sync : P.sync ≠ .off

/-- The committed part of the files is within the runtime allowances `(data, wal, tracked)`. -/
structure Within (g : Ghost) (limits : ℕ × ℕ × ℕ) : Prop where
  data : g.version.pages * page ≤ limits.1
  wal : logEnd g.txns ≤ limits.2.1
  tracked : g.index.size ≤ limits.2.2

/-- What may be different in the middle of an operation: while a transaction is being committed,
page 0 is dirty as well and holds the bytes `header`; while a page is being allocated, the page
`fresh` is not dirty yet. -/
structure Slack where
  header : Option Bytes
  fresh : Option ℕ

def Slack.tight : Slack := ⟨none, none⟩

/-- **The handle describes the files.** -/
structure StoreOk (k : Slack) (g : Ghost) (σ : Store) : Prop where
  pager : PagerOk g σ.pager
  limits : σ.limits = (σ.state.dataLimit, σ.state.walLimit, σ.state.trackedLimit)
  pages_le : σ.state.pages ≤ σ.pool.nextPage
  nextPage_le : σ.pool.nextPage ≤ u32Max
  dirty : ∀ p b, σ.pool.dirty[p]? = some b → (2 ≤ p ∧ p < σ.pool.nextPage) ∨ (p = 0 ∧ k.header = some b)
  tail : ∀ i ∈ g.tail, 2 ≤ i.1 ∨ (i.1 = 0 ∧ ∃ b, k.header = some b ∧ i.2 = sealPage b 1)
  header : ∀ b, k.header = some b → g.Image (0, sealPage b 1)
  cover : ∀ p, g.version.pages ≤ p → p < σ.pool.nextPage →
    (∃ i ∈ g.tail, i.1 = p) ∨ p ∈ σ.pool.dirty ∨ k.fresh = some p

/-- **Between two operations, and between the frames of one**: the files are intact, the gate is
free and the hint serves readers. -/
structure Calm (τ : Tag) (g : Ghost) (w : Disk) : Prop where
  files : FilesOk g w
  kept : Kept τ g w
  held : w.held = .none
  hints : HintsFine τ.acked.header.tx w

/-- The committed part of the files is not past the bookkeeping. -/
structure Behind (g : Ghost) (s : State) : Prop where
  identity : s.identity = g.id
  features : s.features = g.disk.features
  pages : g.version.pages ≤ s.pages
  endOff : logEnd g.txns ≤ s.endOff
  latest : g.index.size ≤ s.latest.size

/-- **What is left when an operation failed**: enough for a rollback. -/
structure Fallen (τ : Tag) (σ : Store) (w : Disk) : Prop where
  calm : ∃ g, Calm τ g w ∧ Behind g σ.state ∧ Within g σ.limits
  sync : σ.pager.sync ≠ .off

section pager

variable {τ : Tag} {g : Ghost} {P : Pager} {w : Disk}

lemma size_le_trackImages (id : Bytes) (tx : ℕ) : ∀ (us : List (ℕ × Bytes)) (off : ℕ) (idx : Index),
    idx.size ≤ (trackImages id tx off us idx).size
  | [], _, _ => le_rfl
  | i :: us, off, idx => by
      refine le_trans ?_ (size_le_trackImages id tx us _ _)
      rw [Std.ExtTreeMap.size_insert]
      split_ifs <;> omega

lemma PagerOk.behind (hP : PagerOk g P) : Behind g P.state where
  identity := hP.identity
  features := hP.features
  pages := hP.pages_ge
  endOff := by have := hP.endOff; omega
  latest := by rw [hP.latest]; exact size_le_trackImages _ _ _ _ _

lemma Behind.grown (h : Behind g P.state) (p : ℕ) : Behind g (P.grown p).state :=
  ⟨h.identity, h.features, h.pages.trans (le_max_left _ _), h.endOff, h.latest⟩

lemma StoreOk.within {k : Slack} {σ : Store} (hσ : StoreOk k g σ) : Within g σ.limits := by
  have hP := hσ.pager
  have hb := hP.behind
  rw [hσ.limits]
  exact ⟨le_trans (Nat.mul_le_mul_right _ hb.pages) hP.data_le, hb.endOff.trans hP.wal_le,
    hb.latest.trans hP.tracked_le⟩

/-- Whatever an operation did to the handle before it failed. -/
lemma StoreOk.fallen {k : Slack} {σ σ' : Store} (hσ : StoreOk k g σ) (hc : Calm τ g w)
    (hb : Behind g σ'.state) (hl : σ'.limits = σ.limits) (hs : σ'.pager.sync = σ.pager.sync) :
    Fallen τ σ' w :=
  ⟨⟨g, hc, hb, hl ▸ hσ.within⟩, hs ▸ hσ.pager.sync⟩

/-- Nothing happened to the handle. -/
lemma StoreOk.fallen_self {k : Slack} {σ : Store} (hσ : StoreOk k g σ) (hc : Calm τ g w) :
    Fallen τ σ w := hσ.fallen hc hσ.pager.behind rfl rfl

lemma PagerOk.length_identity (hP : PagerOk g P) (hf : FilesOk g w) :
    P.state.identity.length = 16 := by rw [hP.identity]; exact hf.valid.identity

lemma PagerOk.endOff_eq (hP : PagerOk g P) (hf : FilesOk g w) :
    P.state.endOff = g.walBytes.length := by rw [hP.endOff, hf.length_wal]

lemma PagerOk.nextFrame_eq (hP : PagerOk g P) (p : ℕ) (b : Bytes) :
    P.nextFrame p b = imageFrame g.id g.tx (p, b) := by
  rw [Pager.nextFrame, hP.identity, hP.tx]

/-- The bookkeeping of one image more; `n` is the free head afterwards. -/
lemma PagerOk.framed (hP : PagerOk g P) {p n : ℕ} {b : Bytes} (hp : p + 1 ≤ u32Max)
    (hr : (P.grown p).Room) (ht : P.Tracked p)
    (hd : max P.state.pages (p + 1) * page ≤ P.state.dataLimit)
    (hh : n = 0 ∨ (2 ≤ n ∧ n < max P.state.pages (p + 1))) :
    PagerOk (g.withImage (p, b))
      { (P.grown p).framed p b with
        state := { ((P.grown p).framed p b).state with freeHead := n } } := by
  have hu : u32Max = 2 ^ 32 - 1 := rfl
  have hpl := hP.pages_lt
  constructor
  · exact hP.identity
  · exact hP.features
  · exact hP.floor
  · exact hP.tx
  · show P.state.endOff + frameLen = logEnd g.txns + (g.tail ++ [(p, b)]).length * frameLen
    rw [hP.endOff, List.length_append, List.length_singleton, Nat.add_mul, Nat.one_mul,
      Nat.add_assoc]
  · exact hP.lastCommit
  · show P.state.latest.insert p ⟨P.state.endOff,
        frameCrc (imageFrame P.state.identity P.state.tx (p, b))⟩
      = trackImages g.id g.tx (logEnd g.txns) (g.tail ++ [(p, b)]) g.index
    rw [trackImages_append, hP.latest, hP.endOff, hP.identity, hP.tx]
  · exact hP.committed
  · exact hP.committedPages
  · show crc32cAppend P.state.txCrc (imageFrame P.state.identity P.state.tx (p, b))
      = framesCrc g.id g.tx (g.tail ++ [(p, b)])
    rw [framesCrc_append, hP.txCrc, hP.identity, hP.tx]
  · exact le_trans hP.pages_ge (le_max_left _ _)
  · show max P.state.pages (p + 1) < 2 ^ 32
    omega
  · intro i hi
    show i.1 < max P.state.pages (p + 1)
    rcases List.mem_append.1 hi with hi | hi
    · have := hP.tail_lt i hi; omega
    · rw [List.mem_singleton.1 hi]
      show p < max P.state.pages (p + 1)
      omega
  · exact hh
  · exact hr.cap
  · exact hP.cap_lt
  · exact hr.walLimit
  · exact hd
  · show (P.state.latest.insert p _).size ≤ P.state.trackedLimit
    rw [Std.ExtTreeMap.size_insert]
    have := hP.tracked_le
    rcases ht with ht | ht
    · rw [if_pos (Std.ExtTreeMap.contains_iff_mem.2 ht)]; exact this
    · split_ifs <;> omega
  · exact hP.hintOpen
  · exact hP.sync

/-- A page below the extent does not grow it. -/
lemma Pager.grown_of_lt {p : ℕ} (h : p < P.state.pages) : P.grown p = P := by
  have : max P.state.pages (p + 1) = P.state.pages := by omega
  rw [Pager.grown, this]

/-- **One image more keeps everything calm.** -/
lemma Calm.image (hc : Calm τ g w) (hP : PagerOk g P) {p : ℕ} {b : Bytes} (hi : g.Image (p, b))
    (hroom : P.state.endOff + frameLen ≤ walCap) :
    Guar τ w (w.putWal P.state.endOff (P.nextFrame p b))
      ∧ Calm τ (g.withImage (p, b)) (w.putWal P.state.endOff (P.nextFrame p b)) := by
  have he := hP.endOff_eq hc.files
  rw [hP.nextFrame_eq, he]
  rw [he] at hroom
  obtain ⟨hG, hh, hkept⟩ := guar_image hc.files hc.kept hi hroom hc.held hc.hints
  exact ⟨hG, hc.files.image hi hroom, hkept, hc.held, hh⟩

lemma Calm.guar (hc : Calm τ g w) : Guar τ w w :=
  guar_same hc.files hc.kept.good rfl rfl rfl fun _ => hc.hints

end pager

/-! ## The pool -/

/-- The page the open transaction will commit, when it changed it. -/
def cur (g : Ghost) (σ : Store) (p : ℕ) : Option Bytes :=
  match σ.pool.dirty[p]? with
  | some b => some (sealPage b 1)
  | none => overlay (fun _ => none) g.tail p

/-- Everything of a handle that writing frames out does not touch. -/
def Store.core (σ : Store) : Store :=
  { σ with
    pager := { σ.pager with
      state := { σ.state with pages := 0, endOff := 0, txCrc := 0, latest := ∅ } }
    pool := { σ.pool with dirty := ∅ } }

/-- Frames were written out, and nothing else happened. -/
structure Flushed (g : Ghost) (σ : Store) (g' : Ghost) (σ' : Store) : Prop where
  tail : ∃ more, g' = { g with tail := g.tail ++ more }
  cur : PageWal.cur g' σ' = PageWal.cur g σ
  core : σ'.core = σ.core
  dirty : ∀ p, p ∈ σ'.pool.dirty → p ∈ σ.pool.dirty

lemma Flushed.refl (g : Ghost) (σ : Store) : Flushed g σ g σ :=
  ⟨⟨[], by simp⟩, rfl, rfl, fun _ h => h⟩

lemma Flushed.trans {g g' g'' : Ghost} {σ σ' σ'' : Store} (h₁ : Flushed g σ g' σ')
    (h₂ : Flushed g' σ' g'' σ'') : Flushed g σ g'' σ'' := by
  obtain ⟨more, rfl⟩ := h₁.tail
  obtain ⟨more', rfl⟩ := h₂.tail
  exact ⟨⟨more ++ more', by simp⟩, h₂.cur.trans h₁.cur, h₂.core.trans h₁.core,
    fun p hp => h₁.dirty p (h₂.dirty p hp)⟩

section rules

variable {τ : Tag} {g : Ghost} {k : Slack} {σ : Store} {w : Disk}
variable {X : Error → Store → Disk → Prop}

open Store

lemma spec_onPager {α : Type} {G : Disk → Disk → Prop} {Q : α → Store → Disk → Prop}
    (m : Proc Call Error Pager α) :
    Spec Disk.exec G (onPager m) Q X σ w ↔
      Spec Disk.exec G m (fun a P w' => Q a { σ with pager := P } w')
        (fun e P w' => X e { σ with pager := P } w') σ.pager w := spec_zoom _ _ _

lemma spec_updatePool {G : Disk → Disk → Prop} {Q : Unit → Store → Disk → Prop} (f : Pool → Pool) :
    Spec Disk.exec G (updatePool f) Q X σ w ↔ Q () { σ with pool := f σ.pool } w := Iff.rfl

lemma getElem?_erase {m : Std.ExtTreeMap ℕ Bytes} (p q : ℕ) :
    (m.erase p)[q]? = if p = q then none else m[q]? := by
  rw [Std.ExtTreeMap.getElem?_erase]
  simp only [Nat.compare_eq_eq]

lemma getElem?_insert {m : Std.ExtTreeMap ℕ Bytes} (p q : ℕ) (b : Bytes) :
    (m.insert p b)[q]? = if p = q then some b else m[q]? := by
  rw [Std.ExtTreeMap.getElem?_insert]
  simp only [Nat.compare_eq_eq]

/-- The image a dirty frame is written out as is one the transaction may carry. -/
lemma StoreOk.image (hσ : StoreOk k g σ) {p : ℕ} {b : Bytes} (hb : σ.pool.dirty[p]? = some b)
    (hl : (sealPage b 1).length = page)
    (ho : PageRef.openChecked (sealPage b 1) p = .ok ⟨sealPage b 1⟩) (hp : p + 1 ≤ u32Max) :
    g.Image (p, sealPage b 1) := by
  have hu : u32Max = 2 ^ 32 - 1 := rfl
  rcases hσ.dirty p b hb with ⟨h2, -⟩ | ⟨rfl, hh⟩
  · exact ⟨show p ≠ 1 by omega, show p < 2 ^ 32 by omega, hl, ho, fun h0 => by
      have : p = 0 := h0
      omega⟩
  · exact hσ.header b hh

/-- The bookkeeping after a frame was written out. -/
lemma StoreOk.writtenOut (hσ : StoreOk k g σ) {p : ℕ} {b : Bytes}
    (hb : σ.pool.dirty[p]? = some b) (hp : p + 1 ≤ u32Max) (hr : (σ.pager.grown p).Room)
    (ht : σ.pager.Tracked p) (hd : max σ.state.pages (p + 1) * page ≤ σ.state.dataLimit)
    (hv2 : 2 ≤ g.version.pages) :
    StoreOk k (g.withImage (p, sealPage b 1))
      { σ with
        pager := (σ.pager.grown p).framed p (sealPage b 1)
        pool := { σ.pool with dirty := σ.pool.dirty.erase p } } := by
  have hP := hσ.pager
  have hv := hP.pages_ge
  have hfh := hP.freeHead
  have hframed := hP.framed (b := sealPage b 1) (n := σ.state.freeHead) hp hr ht hd
    (hfh.imp_right fun h => ⟨h.1, lt_of_lt_of_le h.2 (le_max_left _ _)⟩)
  have hpn : p + 1 ≤ σ.pool.nextPage ∨ p = 0 := by
    rcases hσ.dirty p b hb with ⟨-, hlt⟩ | ⟨h0, -⟩
    · exact Or.inl hlt
    · exact Or.inr h0
  refine ⟨hframed, hσ.limits, ?_, hσ.nextPage_le, ?_, ?_, hσ.header, ?_⟩
  · show max σ.state.pages (p + 1) ≤ σ.pool.nextPage
    have : σ.state.pages ≤ σ.pool.nextPage := hσ.pages_le
    have : g.version.pages ≤ σ.state.pages := hv
    omega
  · intro q c hq
    rw [getElem?_erase] at hq
    split_ifs at hq
    exact hσ.dirty q c hq
  · intro i hi
    rcases List.mem_append.1 hi with hi | hi
    · exact hσ.tail i hi
    · rw [List.mem_singleton.1 hi]
      rcases hσ.dirty p b hb with ⟨h2, -⟩ | ⟨h0, hh⟩
      · exact Or.inl h2
      · exact Or.inr ⟨h0, b, hh, rfl⟩
  · intro q hq hlt
    rcases hσ.cover q hq hlt with ⟨i, hi, he⟩ | hd | hfr
    · exact Or.inl ⟨i, List.mem_append_left _ hi, he⟩
    · by_cases hqp : p = q
      · exact Or.inl ⟨(p, sealPage b 1), by simp [Ghost.withImage], hqp⟩
      · refine Or.inr (Or.inl ?_)
        rw [Std.ExtTreeMap.mem_iff_isSome_getElem?] at hd ⊢
        show ((σ.pool.dirty.erase p)[q]?).isSome = true
        rw [getElem?_erase, if_neg hqp]
        exact hd
    · exact Or.inr (Or.inr hfr)

lemma cur_writtenOut {p : ℕ} {b : Bytes} (hb : σ.pool.dirty[p]? = some b) (P : Pager) :
    cur (g.withImage (p, sealPage b 1))
      { σ with pager := P, pool := { σ.pool with dirty := σ.pool.dirty.erase p } } = cur g σ := by
  funext q
  simp only [cur, getElem?_erase, Ghost.withImage, overlay_append]
  by_cases hq : p = q
  · subst hq
    simp [hb]
  · rw [if_neg hq, Function.update_of_ne (Ne.symm hq)]

/-- **A frame is written out.** -/
lemma spec_writeOut {Q : Unit → Store → Disk → Prop} {p : ℕ} (hc : Calm τ g w)
    (hσ : StoreOk k g σ) (hX : ∀ e σ', Fallen τ σ' w → X e σ' w)
    (hQ : ∀ g' σ' w', Calm τ g' w' → StoreOk k g' σ' → Flushed g σ g' σ' →
      p ∉ σ'.pool.dirty → Q () σ' w') :
    Spec Disk.exec (Guar τ) (writeOut p) Q X σ w := by
  rw [writeOut, spec_bind, spec_current]
  cases hb : σ.pool.dirty[p]? with
  | none =>
      refine hQ g σ w hc hσ (Flushed.refl g σ) ?_
      rw [Std.ExtTreeMap.mem_iff_isSome_getElem?, hb]
      simp
  | some b =>
      simp only [spec_bind, spec_onPager]
      refine spec_writeAt (hσ.pager.length_identity hc.files) ?_ ?_
      · rintro e P' (rfl | rfl)
        · exact hX e _ (hσ.fallen_self hc)
        · exact hX e _ (hσ.fallen hc (hσ.pager.behind.grown p) rfl rfl)
      · intro hl ho ht hp hd hr
        obtain ⟨hG, hc'⟩ := hc.image hσ.pager (hσ.image hb hl ho hp) hr.walCap
        refine ⟨hG, ?_⟩
        rw [spec_updatePool]
        refine hQ _ _ _ hc' (hσ.writtenOut hb hp hr ht hd hc.files.version.two_le)
          ?_ ?_
        · refine ⟨⟨[(p, sealPage b 1)], rfl⟩, cur_writtenOut hb _, rfl, fun q hq => ?_⟩
          rw [Std.ExtTreeMap.mem_iff_isSome_getElem?] at hq ⊢
          change ((σ.pool.dirty.erase p)[q]?).isSome = true at hq
          rw [getElem?_erase] at hq
          split_ifs at hq
          · cases hq
          · exact hq
        · rw [Std.ExtTreeMap.mem_iff_isSome_getElem?]
          show ¬ ((σ.pool.dirty.erase p)[p]?).isSome = true
          rw [getElem?_erase, if_pos rfl]
          simp

/-- The postcondition of writing frames out: the transaction is the same, and so is the page it
will commit. -/
def FlushPost (τ : Tag) (k : Slack) (g : Ghost) (σ : Store) (gone : ℕ → Prop) (σ' : Store)
    (w' : Disk) : Prop :=
  ∃ g', Calm τ g' w' ∧ StoreOk k g' σ' ∧ Flushed g σ g' σ' ∧ ∀ p, gone p → p ∉ σ'.pool.dirty

lemma FlushPost.refl (hc : Calm τ g w) (hσ : StoreOk k g σ) :
    FlushPost τ k g σ (fun _ => False) σ w :=
  ⟨g, hc, hσ, Flushed.refl g σ, fun _ h => h.elim⟩

lemma FlushPost.trans {r r' : ℕ → Prop} {g' : Ghost} {σ' σ'' : Store} {w'' : Disk}
    (h₁ : Flushed g σ g' σ') (hg : ∀ p, r p → p ∉ σ'.pool.dirty)
    (h₂ : FlushPost τ k g' σ' r' σ'' w'') :
    FlushPost τ k g σ (fun p => r p ∨ r' p) σ'' w'' := by
  obtain ⟨g'', hc, hσ, hf, hgone⟩ := h₂
  refine ⟨g'', hc, hσ, h₁.trans hf, ?_⟩
  rintro p (hp | hp)
  · exact fun hd => hg p hp (hf.dirty p hd)
  · exact hgone p hp

/-- **Frames are written out in any order.** -/
lemma spec_flush : ∀ (order : List ℕ) {g : Ghost} {σ : Store} {w : Disk}, Calm τ g w →
    StoreOk k g σ → (∀ e σ' w', Fallen τ σ' w' → X e σ' w') →
    Spec Disk.exec (Guar τ) (flush order)
      (fun _ σ' w' => FlushPost τ k g σ (· ∈ order) σ' w') X σ w
  | [], g, σ, w, hc, hσ, hX => by
      rw [flush, spec_pure]
      obtain ⟨g', h1, h2, h3, -⟩ := FlushPost.refl hc hσ
      exact ⟨g', h1, h2, h3, by simp⟩
  | p :: order, g, σ, w, hc, hσ, hX => by
      rw [flush, spec_bind]
      refine spec_writeOut hc hσ (fun e σ' => hX e σ' w) fun g' σ' w' hc' hσ' hf hp => ?_
      refine (spec_flush order hc' hσ' hX).mono (fun _ σ'' w'' h => ?_) fun _ _ _ h => h
      obtain ⟨g'', h1, h2, h3, h4⟩ :=
        FlushPost.trans (r := (· = p)) hf (fun q hq => by subst hq; exact hp) h
      refine ⟨g'', h1, h2, h3, fun q hq => h4 q ?_⟩
      rcases List.mem_cons.1 hq with rfl | hq
      · exact Or.inl rfl
      · exact Or.inr hq

/-- **A flush leaves nothing dirty.** -/
lemma spec_flushAll (order : List ℕ) (hc : Calm τ g w) (hσ : StoreOk k g σ)
    (hX : ∀ e σ' w', Fallen τ σ' w' → X e σ' w') :
    Spec Disk.exec (Guar τ) (flushAll order)
      (fun _ σ' w' => FlushPost τ k g σ (fun _ => True) σ' w') X σ w := by
  rw [flushAll, spec_bind]
  refine (spec_flush order hc hσ hX).mono ?_ fun _ _ _ h => h
  rintro _ σ' w' ⟨g', hc', hσ', hf, hgone⟩
  rw [spec_bind, spec_current]
  refine (spec_flush _ hc' hσ' hX).mono ?_ fun _ _ _ h => h
  rintro _ σ'' w'' ⟨g'', hc'', hσ'', hf', hgone'⟩
  refine ⟨g'', hc'', hσ'', hf.trans hf', fun p _ hp => ?_⟩
  exact hgone' p (Std.ExtTreeMap.mem_keys.2 (hf'.dirty p hp)) hp

lemma spec_giveUp (victim : Option ℕ) (hc : Calm τ g w) (hσ : StoreOk k g σ)
    (hX : ∀ e σ' w', Fallen τ σ' w' → X e σ' w') :
    Spec Disk.exec (Guar τ) (giveUp victim)
      (fun _ σ' w' => FlushPost τ k g σ (fun _ => False) σ' w') X σ w := by
  cases victim with
  | none => exact FlushPost.refl hc hσ
  | some v =>
      refine spec_writeOut hc hσ (fun e σ' => hX e σ' w) fun g' σ' w' hc' hσ' hf _ => ?_
      exact ⟨g', hc', hσ', hf, fun _ h => h.elim⟩

/-- **A page is loaded**; what it holds is what the pool or the pager has of it. -/
lemma spec_load {victim : Option ℕ} {p : ℕ} (hc : Calm τ g w) (hσ : StoreOk k g σ)
    (hX : ∀ e σ' w', Fallen τ σ' w' → X e σ' w') :
    Spec Disk.exec (Guar τ) (load victim p)
      (fun b σ' w' => FlushPost τ k g σ (fun _ => False) σ' w' ∧
        (σ'.pool.dirty[p]? = some b ∨
          readPage w'.data.contents w'.wal.contents σ'.state.latest p = .ok b)) X σ w := by
  rw [load, spec_bind, spec_current]
  cases hb : σ.pool.dirty[p]? with
  | some b => exact ⟨FlushPost.refl hc hσ, Or.inl hb⟩
  | none =>
      simp only [spec_bind]
      refine (spec_giveUp victim hc hσ hX).mono ?_ fun _ _ _ h => h
      rintro _ σ' w' ⟨g', hc', hσ', hf⟩
      rw [spec_onPager]
      refine spec_readAt hc'.guar (fun e => hX e _ _ (hσ'.fallen_self hc')) fun b hr => ?_
      exact ⟨⟨g', hc', hσ', hf⟩, Or.inr hr⟩

end rules

end PageWal
