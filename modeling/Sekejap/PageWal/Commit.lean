import Sekejap.PageWal.Actions

/-!
# Committing a transaction

`pending g σ` is the version the open transaction of a handle amounts to.  `spec_publish` and
`spec_publishTransaction` say what a commit does: if it returns, **`pending` is the committed
version** and its commit frame is on the disk behind a barrier; if it refuses, nothing was
committed.  In between, every call keeps the guarantee of `Sekejap.PageWal.Writer`.
-/

open Bytes Page Crc32c Proc

namespace PageWal

/-- **The version the open transaction amounts to.** -/
def pending (g : Ghost) (σ : Store) : Version where
  header := σ.nextHeader
  pages := σ.pool.nextPage
  page := fun p => (cur g σ p).getD (g.version.page p)

/-- The root the tree reports is a page of the file. -/
def RootOk (σ : Store) : Prop := 2 ≤ σ.root ∧ σ.root < σ.pool.nextPage

/-- The page-0 frame of a transaction, before it is sealed. -/
def headerFrame (h : Header) (b : Bytes) : Prop :=
  ∃ q, PageMut.insertSlot (PageMut.init .metaPage 0 0) 0 h.bytes = .ok q
    ∧ b = PageMut.finalise q 0

section header

variable {g : Ghost} {σ : Store} {w : Disk}

lemma StoreOk.nextHeader_valid (hσ : StoreOk .tight g σ) (hf : FilesOk g w) (hr : RootOk σ) :
    σ.nextHeader.Valid := by
  have hv := hf.valid
  have hu : u32Max = 2 ^ 32 - 1 := rfl
  have hu' : u64Max = 2 ^ 64 - 1 := rfl
  have hP := hσ.pager
  have h1 := hσ.nextPage_le
  have h2 := hP.pages_lt
  refine ⟨?_, ?_, ?_, ?_, ?_, ?_, ?_⟩
  · show σ.root < 2 ^ 32
    have := hr.2
    omega
  · show σ.state.freeHead < 2 ^ 32
    rcases hP.freeHead with h | ⟨-, h⟩
    · have : σ.state.freeHead = 0 := h
      omega
    · have : σ.state.freeHead < σ.pager.state.pages := h
      omega
  · show σ.state.cap < 2 ^ 64
    have : σ.state.cap ≤ u64Max := hP.cap_lt
    omega
  · show σ.pager.state.identity.length = 16
    rw [hP.identity]; exact hv.identity
  · show σ.pager.state.identity ≠ _
    rw [hP.identity]; exact hv.identity_ne
  · show σ.pager.state.tx < 2 ^ 64
    have := hf.version.tx_lt
    rw [hP.tx, Ghost.tx]
    omega
  · show σ.pager.state.features < 2
    rw [hP.features]; exact hv.features

lemma headerFrame_exists {h : Header} (hv : h.Valid) :
    ∃ q, PageMut.insertSlot (PageMut.init .metaPage 0 0) 0 h.bytes = .ok q := by
  obtain ⟨q, hq, -⟩ := Header.oneSlot_page .metaPage h.bytes (show 0 < 2 ^ 32 by norm_num)
    (by rw [Header.length_bytes hv]; decide)
  exact ⟨q, hq⟩

lemma headerFrame_page {h : Header} {b : Bytes} (hb : headerFrame h b) :
    h.page 0 = .ok (sealPage b 1) := by
  obtain ⟨q, hq, rfl⟩ := hb
  rw [Header.page, hq]; rfl

/-- Page 0 is dirty with the header of the transaction. -/
lemma StoreOk.withHeader (hσ : StoreOk .tight g σ) {h : Header} (hv : h.Valid) {b : Bytes}
    (hb : headerFrame h b) (hid : h.identity = g.id) (hft : h.features = g.disk.features)
    (htx : h.tx = g.tx) :
    StoreOk ⟨some b, none⟩ g
      { σ with pool := { σ.pool with dirty := σ.pool.dirty.insert 0 b } } := by
  have hp := headerFrame_page hb
  have h0 : (0 : ℕ) < 2 ^ 32 := by norm_num
  obtain ⟨b', hb', hi, hs, hc⟩ := Header.page_spec hv h0
  have hdec := Header.decode_page hv h0 hp
  cases hp.symm.trans hb'
  refine ⟨hσ.pager, hσ.limits, hσ.pages_le, hσ.nextPage_le, ?_, ?_, ?_, ?_⟩
  · intro q c hq
    change (σ.pool.dirty.insert 0 b)[q]? = some c at hq
    rw [getElem?_insert] at hq
    split_ifs at hq with he
    · exact Or.inr ⟨he.symm, hq⟩
    · rcases hσ.dirty q c hq with h | ⟨-, h⟩
      · exact Or.inl h
      · cases h
  · intro i hi
    rcases hσ.tail i hi with h | ⟨-, c, h, -⟩
    · exact Or.inl h
    · cases h
  · intro c hcb
    cases hcb
    exact ⟨by norm_num, h0, hs.length, openInner_eq_ok hi hs fun _ => hc.symm,
      fun _ => ⟨h, hdec, hid, hft, htx⟩⟩
  · intro q hq hlt
    rcases hσ.cover q hq hlt with h | h | h
    · exact Or.inl h
    · refine Or.inr (Or.inl ?_)
      rw [Std.ExtTreeMap.mem_iff_isSome_getElem?] at h ⊢
      show ((σ.pool.dirty.insert 0 b)[q]?).isSome = true
      rw [getElem?_insert]
      split_ifs
      · rfl
      · exact h
    · cases h

lemma lastHeader_eq {h : Header} {c : Bytes} (hd : Header.decode c 0 = .ok h) :
    ∀ us : List (ℕ × Bytes), (∀ i ∈ us, i.1 = 0 → i.2 = c) → (∃ i ∈ us, i.1 = 0) →
      lastHeader none us = some h := by
  intro us
  induction us using List.reverseRecOn with
  | nil => rintro - ⟨i, hi, -⟩; cases hi
  | append_singleton us i ih =>
      intro hall hex
      rw [lastHeader_append]
      split_ifs with h0
      · rw [hall i (by simp) h0, hd]; rfl
      · refine ih (fun j hj => hall j (by simp [hj])) ?_
        obtain ⟨j, hj, hj0⟩ := hex
        rcases List.mem_append.1 hj with hj | hj
        · exact ⟨j, hj, hj0⟩
        · rw [List.mem_singleton.1 hj] at hj0
          exact absurd hj0 h0

end header

section flushed

variable {g : Ghost} {σ : Store} {w : Disk} {h : Header} {b : Bytes}

lemma cur_clean (hc : ∀ p, p ∉ σ.pool.dirty) (p : ℕ) :
    cur g σ p = overlay (fun _ => none) g.tail p := by
  have : σ.pool.dirty[p]? = none := by
    have := hc p
    rw [Std.ExtTreeMap.mem_iff_isSome_getElem?] at this
    simpa using this
  rw [cur, this]

/-- Once nothing is dirty, the extent of the log is that of the pool. -/
lemma StoreOk.pages_eq {k : Option Bytes} (hσ : StoreOk ⟨k, none⟩ g σ)
    (hc : ∀ p, p ∉ σ.pool.dirty) : σ.state.pages = σ.pool.nextPage := by
  have h1 := hσ.pages_le
  have h2 : g.version.pages ≤ σ.state.pages := hσ.pager.pages_ge
  refine le_antisymm h1 ?_
  rcases Nat.lt_or_ge g.version.pages σ.pool.nextPage with hlt | hge
  · rcases hσ.cover (σ.pool.nextPage - 1) (by omega) (by omega) with ⟨i, hi, he⟩ | hd | hf
    · have : i.1 < σ.state.pages := hσ.pager.tail_lt i hi
      omega
    · exact absurd hd (hc _)
    · cases hf
  · omega

lemma validateExtent_ok {n : ℕ} (hr : 2 ≤ h.root ∧ h.root < n)
    (hf : h.free = 0 ∨ (2 ≤ h.free ∧ h.free < n)) : h.validateExtent n = .ok () := by
  rw [Header.validateExtent, if_neg (by omega), if_neg (by omega)]

/-- **A flushed transaction can be committed**, and this is what it then amounts to. -/
lemma StoreOk.nextOk {v : Version} (hσ : StoreOk ⟨some b, none⟩ g σ) (hf : FilesOk g w)
    (hclean : ∀ p, p ∉ σ.pool.dirty) (h0 : cur g σ 0 = some (sealPage b 1))
    (hb : headerFrame h b) (hv : h.Valid) (hhead : v.header = h) (hpages : v.pages = σ.state.pages)
    (hpage : ∀ p, 2 ≤ p → v.page p = (cur g σ p).getD (g.version.page p))
    (hext : h.validateExtent σ.state.pages = .ok ()) (htx : h.tx < u64Max)
    (hcap : σ.state.endOff + frameLen + σ.state.pages * page ≤ h.cap) :
    NextOk g ⟨g.tail, h, σ.state.pages⟩ v := by
  have hP := hσ.pager
  have hcur := cur_clean (g := g) hclean
  have hp0 := headerFrame_page hb
  have hdec := Header.decode_page hv (by norm_num) hp0
  have hmem : ∃ i ∈ g.tail, i.1 = 0 := by
    rw [← overlay_isSome, ← hcur, h0]; rfl
  have hzero : ∀ i ∈ g.tail, i.1 = 0 → i.2 = sealPage b 1 := by
    intro i hi hi0
    rcases hσ.tail i hi with h2 | ⟨-, c, hc, he⟩
    · omega
    · cases hc; exact he
  have htxg : h.tx = g.tx := by
    obtain ⟨i, hi, hi0⟩ := hmem
    obtain ⟨h', hd', -, -, he⟩ := (hf.tail i hi).header hi0
    rw [hzero i hi hi0, hdec] at hd'
    cases hd'
    exact he
  have hcover : ∀ p, g.version.pages ≤ p → p < σ.state.pages →
      (overlay (fun _ => none) g.tail p).isSome := by
    intro p hp hlt
    rcases hσ.cover p hp (lt_of_lt_of_le hlt hσ.pages_le) with hi | hd | hfr
    · exact overlay_isSome.2 hi
    · exact absurd hd (hclean p)
    · cases hfr
  have hmono : g.version.pages ≤ v.pages := by rw [hpages]; exact hP.pages_ge
  have hcap' : logEnd (g.txns ++ [⟨g.tail, h, σ.state.pages⟩]) + v.pages * page ≤ v.header.cap := by
    rw [logEnd_append, logEnd_singleton, hpages, hhead]
    have : σ.state.endOff = logEnd g.txns + g.tail.length * frameLen := hP.endOff
    show logEnd g.txns + (g.tail.length * frameLen + frameLen) + _ ≤ _
    omega
  refine ⟨⟨hf.tail, hP.tail_lt, hP.pages_lt, lastHeader_eq hdec _ hzero hmem, hext, htxg ▸ htx⟩,
    rfl, ?_, hhead, hpages, hmono, ⟨_, by rw [hhead]; exact hp0, ?_⟩, ?_, ?_, hcap'⟩
  · refine ⟨hhead ▸ hv, hhead ▸ htx, le_trans hf.version.two_le hmono, ?_, ?_⟩
    · rw [hpages]; exact hP.pages_lt
    · intro p h2 hp
      rw [hpage p h2, hcur]
      cases ho : overlay (fun _ => none) g.tail p with
      | some c =>
          obtain ⟨i, hi, hip, hic⟩ := overlay_mem ho
          have := (hf.tail i hi).opens
          rw [hip, hic] at this
          exact this
      | none =>
          refine hf.version.opens p h2 ?_
          by_contra hge
          have := hcover p (by omega) (by omega)
          rw [ho] at this
          cases this
  · show overlay (fun _ => none) g.tail 0 = _
    rw [← hcur, h0]
  · intro p h2 _
    rw [hpage p h2, hcur]; rfl
  · intro p hp hlt
    rw [hpages] at hlt
    exact hcover p hp hlt

end flushed

/-! ## Publishing -/

/-- The pager once the transaction is published. -/
def Pager.published (P : Pager) : Pager :=
  { P with state := { P.state with
      committed := P.state.latest, committedPages := P.state.pages
      endOff := P.state.endOff + frameLen, lastCommit := P.state.endOff + frameLen
      tx := P.state.tx + 1, txCrc := 0, hintCurrent := true, hintPublished := true } }

section publish

variable {τ : Tag} {g : Ghost} {P : Pager} {w : Disk} {T : Txn} {v : Version}
variable {X : Error → Pager → Disk → Prop}

lemma PagerOk.published (hP : PagerOk g P) (hf : FilesOk g w) (hn : NextOk g T v)
    (hp : T.pages = P.state.pages) (hr : P.Room) : PagerOk (g.commit T v) P.published := by
  have hend : P.state.endOff + frameLen = logEnd (g.txns ++ [T]) := by
    rw [logEnd_append, logEnd_singleton, hn.images, hP.endOff]
    omega
  have hidx : P.state.latest = (g.commit T v).index := by
    show _ = indexLog g.id g.t₀ 0 (g.txns ++ [T]) ∅
    rw [hP.latest, indexLog_append, Nat.zero_add, hn.images, hf.fits.tx]
    rfl
  have hvp : v.pages = P.state.pages := hn.pages.trans hp
  constructor
  · exact hP.identity
  · exact hP.features
  · exact hP.floor
  · show P.state.tx + 1 = v.header.tx + 1
    rw [hP.tx, hn.tx_eq]
  · show P.state.endOff + frameLen = logEnd (g.txns ++ [T]) + 0 * frameLen
    rw [hend, Nat.zero_mul, Nat.add_zero]
  · exact hend
  · show P.state.latest = trackImages _ _ _ [] (g.commit T v).index
    rw [hidx]; rfl
  · exact hidx
  · exact hvp.symm
  · rfl
  · exact hvp.le
  · exact hP.pages_lt
  · intro i hi; cases hi
  · exact hP.freeHead
  · exact hr.cap
  · exact hP.cap_lt
  · exact hr.walLimit
  · exact hP.data_le
  · exact hP.tracked_le
  · exact hP.hintOpen
  · exact hP.sync

/-- The hint that is written is the one of the committed log. -/
lemma PagerOk.hint_commit (hP : PagerOk g P) (hf : FilesOk (g.commit T v) w) (hn : NextOk g T v) :
    State.hint { P.state with endOff := P.state.endOff + frameLen } P.state.tx
      (P.state.endOff + frameLen) = (g.commit T v).hint := by
  have hend : P.state.endOff + frameLen = logEnd (g.txns ++ [T]) := by
    rw [logEnd_append, logEnd_singleton, hn.images, hP.endOff]
    omega
  have hlt : logEnd (g.txns ++ [T]) < 2 ^ 32 := hf.hint_valid.publishedEnd
  refine Hint.ext hP.identity hP.floor ?_ ?_
  · show P.state.tx = v.header.tx
    rw [hP.tx, hn.tx_eq]
  · show (P.state.endOff + frameLen) % 2 ^ 32 = logEnd (g.txns ++ [T])
    rw [hend, Nat.mod_eq_of_lt hlt]

/-- **A transaction is published**: commit frame, barrier, both hint copies. -/
lemma spec_publish {Q : Unit → Pager → Disk → Prop} (hc : Calm τ g w) (hP : PagerOk g P)
    (hX : ∀ e, X e P w)
    (hn : P.Room → P.state.tx < u64Max → ∃ T, NextOk g T τ.target ∧ T.pages = P.state.pages)
    (hQ : ∀ T w', NextOk g T τ.target → T.pages = P.state.pages → P.Room →
      FilesOk (g.commit T τ.target) w' → w'.held = .none → w'.commits = τ.commits + 1 →
      HintsFine τ.target.header.tx w' → Q () P.published w') :
    Spec Disk.exec (Guar τ) Pager.publish Q X P w := by
  have hf := hc.files
  obtain ⟨hv, hcm⟩ := hc.kept
  rw [Pager.publish, spec_bind, spec_current]
  dsimp only
  rw [spec_bind]
  cases hadd : checkedAdd64 P.state.tx 1 with
  | error e => exact hX e
  | ok n =>
      have htx : P.state.tx < u64Max := by
        rw [checkedAdd64] at hadd
        split at hadd
        · omega
        · cases hadd
      obtain rfl := checkedAdd64_ok hadd
      rw [spec_ofExcept_ok, spec_bind]
      have hlen : (frame 2 u32Max P.state.tx P.state.pages (commitBody P.state.txCrc)
          P.state.identity).length = frameLen := by
        rw [hP.identity]
        exact length_commitFrame hf.valid.identity _ _
      refine spec_append hlen hX fun hr => ?_
      obtain ⟨T, hnext, hpages⟩ := hn hr htx
      have hframe : frame 2 u32Max P.state.tx P.state.pages (commitBody P.state.txCrc)
          P.state.identity
          = commitFrame g.id g.tx T.pages (framesCrc g.id g.tx g.tail) := by
        rw [hP.identity, hP.tx, hP.txCrc, hpages]; rfl
      have hend := hP.endOff_eq hf
      have hroom := hr.walCap
      rw [hend] at hroom
      have hcomm := hf.commit hnext hroom
      obtain ⟨hG₁, hfine⟩ := guar_commit hf hv hcm hnext hroom hc.held hc.hints
      rw [hframe]
      rw [← hend] at hcomm hG₁ hfine
      refine ⟨hG₁, ?_⟩
      have hne : (w.putWal P.state.endOff (commitFrame g.id g.tx T.pages
          (framesCrc g.id g.tx g.tail))).commits = τ.commits + 1 := by
        rw [Disk.commits_putWal, isCommit_commitFrame hf.valid.identity, hcm]
        simp
      have hfiles := hcomm.barrier
      have hG₂ := guar_commit_barrier hcomm hne hfine
      rw [spec_bind]
      refine spec_barrier hP.sync ?_
      rw [spec_syncWal]
      refine ⟨hG₂, ?_⟩
      have hfine' := hG₂.hints hc.held
      have hgood : Good τ (g.commit T τ.target) (w.putWal P.state.endOff (commitFrame g.id g.tx
          T.pages (framesCrc g.id g.tx g.tail))).barrierWal := Or.inr ⟨rfl, hne⟩
      have hle : τ.acked.header.tx ≤ τ.target.header.tx := by
        rw [hnext.tx_eq, ← hv, Ghost.tx]; omega
      rw [spec_bind, spec_current, spec_bind, spec_attempt]
      refine spec_writeHint' hP.hintOpen (hP.hint_commit hfiles hnext) ?_ ?_ ?_
      · exact guar_putHint hfiles hgood hfine' hle _
      · exact guar_putHint (hfiles.putHint .first _) hgood (hfine'.putHint hfiles hle _) hle _
      · rw [spec_bind, spec_update, spec_ofExcept_ok]
        exact hQ _ _ hnext hpages hr ((hfiles.putHint _ _).putHint _ _) hc.held hne hfiles.putHints

end publish

section transaction

variable {τ : Tag} {g : Ghost} {σ : Store} {w : Disk}
variable {X : Error → Store → Disk → Prop}

open Store

lemma spec_poisoning {α : Type} {G : Disk → Disk → Prop} {Q : α → Store → Disk → Prop}
    {m : Proc Call Error Store α}
    (h : Spec Disk.exec G m Q (fun e σ' w' => X e { σ' with poisoned := true } w') σ w) :
    Spec Disk.exec G (poisoning m) Q X σ w := by
  rw [poisoning, spec_bind, spec_attempt]
  refine h.mono (fun _ _ _ hQ => hQ) fun _ _ _ hX => ?_
  rw [spec_bind, spec_modify]
  exact hX

/-- **The transaction of `σ` is committed**: `σ'` has nothing open, and the disk holds the
version. -/
structure Published (τ : Tag) (σ : Store) (g' : Ghost) (σ' : Store) (w' : Disk) : Prop where
  version : g'.version = τ.target
  tail : g'.tail = []
  commits : w'.commits = τ.commits + 1
  files : FilesOk g' w'
  held : w'.held = .none
  hints : HintsFine τ.target.header.tx w'
  store : StoreOk .tight g' σ'
  freeHead : σ'.state.freeHead = σ.state.freeHead
  cap : σ'.state.cap = σ.state.cap
  nextPage : σ'.pool.nextPage = σ.pool.nextPage
  clean : ∀ p, p ∉ σ'.pool.dirty
  root : σ'.root = σ.root
  poisoned : σ'.poisoned = σ.poisoned
  dirty : σ'.dirty = false

lemma Store.core_fields {σ σ' : Store} (h : σ'.core = σ.core) :
    σ'.state.freeHead = σ.state.freeHead ∧ σ'.pool.nextPage = σ.pool.nextPage
      ∧ σ'.state.cap = σ.state.cap ∧ σ'.state.tx = σ.state.tx ∧ σ'.root = σ.root
      ∧ σ'.poisoned = σ.poisoned := by
  have hs := congrArg (fun s : Store => (s.state.freeHead, s.pool.nextPage, s.state.cap, s.state.tx,
    s.root, s.poisoned)) h
  simp only [Prod.mk.injEq] at hs
  exact hs

/-- **The transaction is committed, or nothing is.** -/
lemma spec_publishTransaction {victim : Option ℕ} {order : List ℕ} (hc : Calm τ g w)
    (hσ : StoreOk .tight g σ) (hr : RootOk σ) (ht : τ.target = pending g σ)
    (hX : ∀ e σ' w', Fallen τ σ' w' → X e { σ' with poisoned := true } w') :
    Spec Disk.exec (Guar τ) (publishTransaction victim order)
      (fun _ σ' w' => ∃ g', Published τ σ g' σ' w') X σ w := by
  have hvalid := hσ.nextHeader_valid hc.files hr
  obtain ⟨q, hq⟩ := headerFrame_exists hvalid
  have hb : headerFrame σ.nextHeader (PageMut.finalise q 0) := ⟨q, hq, rfl⟩
  refine spec_poisoning ?_
  rw [spec_bind, spec_current, spec_bind]
  refine (spec_load hc hσ hX).mono ?_ fun _ _ _ h => h
  intro _ σ₁ w₁ hload
  have ⟨g₁, hc₁, hσ₁, hf₁, _⟩ := hload.1
  rw [spec_bind, hq, spec_ofExcept_ok, spec_bind, spec_updatePool, spec_bind]
  obtain ⟨more, rfl⟩ := hf₁.tail
  have hhd := hσ₁.withHeader hvalid hb hσ.pager.identity hσ.pager.features hσ.pager.tx
  refine (spec_flushAll order hc₁ hhd hX).mono ?_ fun _ _ _ h => h
  intro _ σ₂ w₂ hflush
  have ⟨g₂, hc₂, hσ₂, hf₂, hgone⟩ := hflush
  have hclean : ∀ p, p ∉ σ₂.pool.dirty := fun p => hgone p trivial
  have hpages := hσ₂.pages_eq hclean
  have hcore : σ₂.core = σ.core := hf₂.core.trans hf₁.core
  obtain ⟨hfree, hnext, hcap, htx, hroot, hpois⟩ := Store.core_fields hcore
  have hver : g₂.version = g.version := by
    obtain ⟨more', rfl⟩ := hf₂.tail
    rfl
  have hcur0 : cur g₂ σ₂ 0 = some (sealPage (PageMut.finalise q 0) 1) := by
    rw [hf₂.cur, cur]
    simp only [getElem?_insert, if_true]
  have hcur : ∀ p, 2 ≤ p → cur g₂ σ₂ p = cur g σ p := by
    intro p h2
    rw [hf₂.cur, ← hf₁.cur]
    simp only [cur, getElem?_insert, if_neg (show 0 ≠ p by omega)]
  rw [spec_bind, spec_onPager]
  refine spec_publish hc₂ hσ₂.pager
    (fun e => hX e _ _ (hσ₂.fallen_self hc₂)) ?_ ?_
  · intro hroom hlt
    refine ⟨_, hσ₂.nextOk hc₂.files hclean hcur0 hb hvalid (by rw [ht]; rfl) ?_ ?_ ?_ ?_ ?_, rfl⟩
    · rw [ht, hpages, hnext]; rfl
    · intro p h2
      rw [ht, hcur p h2, hver]; rfl
    · refine validateExtent_ok ?_ ?_
      · rw [hpages, hnext]; exact hr
      · show σ.state.freeHead = 0 ∨ (2 ≤ σ.state.freeHead ∧ σ.state.freeHead < σ₂.state.pages)
        rw [← hfree]
        exact hσ₂.pager.freeHead
    · show σ.state.tx < u64Max
      rw [← htx]; exact hlt
    · show _ ≤ σ.state.cap
      rw [← hcap]; exact hroom.cap
  · intro T w' hn hp hroom hf' hheld hcm' hhints
    rw [spec_bind, spec_modify, spec_bind, spec_current, spec_pure]
    have hP' := hσ₂.pager.published hc₂.files hn hp hroom
    have hvp : (g₂.commit T τ.target).version.pages = σ₂.pool.nextPage := by
      rw [← hpages]; exact hn.pages.trans hp
    refine ⟨_, rfl, rfl, hcm', hf', hheld, hhints, ?_, hfree, hcap, hnext, hclean, hroot, hpois, rfl⟩
    refine ⟨hP', hσ₂.limits, hpages.le, hσ₂.nextPage_le, ?_, ?_, ?_, ?_⟩
    · intro p c hpc
      refine absurd ?_ (hclean p)
      rw [Std.ExtTreeMap.mem_iff_isSome_getElem?]
      exact Option.isSome_iff_exists.2 ⟨c, hpc⟩
    · intro i hi; cases hi
    · intro c hcb; cases hcb
    · intro p hge hlt
      rw [hvp] at hge
      exact absurd hlt (not_lt.2 hge)

end transaction

end PageWal
