import Sekejap.PageWal.Checkpoint

/-!
# Rollback and reopen

Both inspect the files as they are, cut the uncommitted tail off, barrier what is left, publish it
and load its header.  `spec_rollback` and `spec_reopen`: the handle they leave **is the one of the
committed version**, with nothing open; the only error is a root outside the file, which no commit
writes.

`Recovered g s` is the state an inspection finds; what the steps do is said for any guarantee, so
that it holds as well where calls may fail.
-/

open Bytes Page Crc32c Proc

namespace PageWal

/-- **The state an inspection of the files of `g` finds**, whatever the allowances. -/
structure Recovered (g : Ghost) (s : State) : Prop where
  identity : s.identity = g.id
  features : s.features = g.disk.features
  floor : s.floor = g.disk.tx
  tx : s.tx = g.tx
  endOff : s.endOff = logEnd g.txns
  lastCommit : s.lastCommit = logEnd g.txns
  latest : s.latest = g.index
  committed : s.committed = g.index
  pages : s.pages = g.version.pages
  committedPages : s.committedPages = g.version.pages
  txCrc : s.txCrc = 0
  cap : s.cap = g.version.header.cap
  freeHead : s.freeHead = g.version.header.free

/-- The two files as they are mean `g`, whatever is behind its last commit. -/
structure Holds (g : Ghost) (w : Disk) : Prop where
  version : g.version.Ok
  fits : LogFits g.disk g.version g.t₀ g.txns
  data : DataOk g.disk (Covers g.txns) g.version w.data.contents
  wal : ∃ us rest, (∀ i ∈ us, g.Image i) ∧ rest.length < frameLen
    ∧ w.wal.contents = g.logBytes ++ (encodeImages g.id g.tx us ++ rest)
  cap : w.wal.contents.length ≤ walCap

section holds

variable {g : Ghost} {w w' : Disk}

lemma FilesOk.holds (h : FilesOk g w) : Holds g w :=
  ⟨h.version, h.fits, h.dataOk, ⟨g.tail, [], h.tail, by decide, by rw [List.append_nil]; exact h.wal⟩,
    by rw [h.wal]; exact h.cap⟩

lemma Holds.congr (h : Holds g w) (hd : w'.data = w.data) (hw : w'.wal.contents = w.wal.contents) :
    Holds g w' :=
  ⟨h.version, h.fits, by rw [hd]; exact h.data, by rw [hw]; exact h.wal, by rw [hw]; exact h.cap⟩

lemma Holds.valid (h : Holds g w) : g.disk.Valid := h.data.metadata.valid

lemma Holds.length_log (h : Holds g w) : g.logBytes.length = logEnd g.txns :=
  length_encodeLog h.valid.identity _ _ h.fits.log.length_image

/-- **What an inspection finds.** -/
lemma Holds.inspect (h : Holds g w) (cf : ℕ) :
    ∃ s, PageWal.inspect cf w.data.contents w.wal.contents = .ok s ∧ Recovered g s
      ∧ s.dataLimit = u64Max ∧ s.walLimit = u64Max ∧ s.trackedLimit = u64Max := by
  obtain ⟨us, rest, hus, hr, hw⟩ := h.wal
  have hpages := h.data.pagesAfter_eq h.fits h.version.two_le
  refine ⟨_, inspect_fits h.version h.data h.fits hus hw hr h.cap, ?_, rfl, rfl, rfl⟩
  exact ⟨rfl, rfl, rfl, by rw [Ghost.tx, ← h.fits.header]; rfl, rfl, rfl, rfl, rfl, hpages, hpages,
    rfl, by rw [← h.fits.header]; rfl, by rw [← h.fits.header]; rfl⟩

end holds

/-! ## The tail is cut off -/

/-- The log is cut to `n` bytes, unless it has them. -/
def Disk.cut (w : Disk) (n : ℕ) : Disk :=
  if w.wal.contents.length ≠ n then w.pushWal (.setLen n) else w

/-- The pager once its state is published. -/
def Pager.current' (P : Pager) : Pager :=
  { P with
    hintOpen := true
    state := { P.state with hintCurrent := true, hintPublished := true } }

section tail

variable {G : Disk → Disk → Prop} {P : Pager} {w : Disk} {X : Error → Pager → Disk → Prop}

open Pager

@[simp] lemma Disk.data_cut (n : ℕ) : (w.cut n).data = w.data := by
  unfold Disk.cut; split_ifs <;> rfl

@[simp] lemma Disk.held_cut (n : ℕ) : (w.cut n).held = w.held := by
  unfold Disk.cut; split_ifs <;> rfl

@[simp] lemma Disk.commits_cut (n : ℕ) : (w.cut n).commits = w.commits := by
  unfold Disk.cut; split_ifs <;> rfl

/-- **The tail is normalised**: cut, barriered and published. -/
lemma spec_normaliseTail {Q : Unit → Pager → Disk → Prop} {k : Hint} (hs : P.sync ≠ .off)
    (hk : P.state.hint (P.state.tx - 1) P.state.lastCommit = k) (hG₀ : G w w)
    (hG₁ : G w (w.cut P.state.lastCommit))
    (hG₂ : G (w.cut P.state.lastCommit) (w.cut P.state.lastCommit).barrierWal)
    (hG₃ : G (w.cut P.state.lastCommit).barrierWal
      ((w.cut P.state.lastCommit).barrierWal.putHint .first (hintEncode k)))
    (hG₄ : G ((w.cut P.state.lastCommit).barrierWal.putHint .first (hintEncode k))
      ((w.cut P.state.lastCommit).barrierWal.putHints (hintEncode k)))
    (hQ : Q () P.current' ((w.cut P.state.lastCommit).barrierWal.putHints (hintEncode k))) :
    Spec Disk.exec G normaliseTail Q X P w := by
  have hrest : Spec Disk.exec G (do
      barrier .syncWal
      modify fun P => { P with hintOpen := true }
      let P ← current
      writeHint (P.state.tx - 1) P.state.lastCommit) Q X P (w.cut P.state.lastCommit) := by
    rw [spec_bind]
    refine spec_barrier hs ?_
    rw [spec_syncWal]
    refine ⟨hG₂, ?_⟩
    rw [spec_bind, spec_modify, spec_bind, spec_current]
    exact spec_writeHint' rfl hk hG₃ hG₄ hQ
  rw [normaliseTail, spec_bind, spec_current, spec_bind, spec_walContents]
  refine ⟨hG₀, ?_⟩
  dsimp only
  rw [spec_ite]
  refine ⟨fun hne => ?_, fun heq => ?_⟩
  · rw [spec_bind, spec_setLenWal]
    rw [Disk.cut, if_pos hne] at hG₁ hrest
    exact ⟨hG₁, hrest⟩
  · rw [Disk.cut, if_neg heq] at hrest
    exact hrest

/-- **`finish_open` under its own gate.** -/
lemma spec_finishOpen {Q : Unit → Pager → Disk → Prop} (hG : G w (w.hold .gate))
    (h : Spec Disk.exec G normaliseTail
      (fun _ P' w' => G w' (w'.hold .none) ∧ Q () P' (w'.hold .none))
      (fun e P' w' => G w' (w'.hold .none) ∧ X e P' (w'.hold .none)) P (w.hold .gate)) :
    Spec Disk.exec G finishOpen Q X P w := by
  rw [finishOpen, spec_bind, spec_lockGate]
  refine ⟨hG, ?_⟩
  rw [spec_bind, spec_attempt]
  refine h.mono (fun _ P' w' hQ => ?_) fun e P' w' hX => ?_
  · rw [spec_bind, spec_unlock, spec_ofExcept_ok]
    exact hQ
  · rw [spec_bind, spec_unlock, spec_ofExcept_error]
    exact hX

end tail

/-! ## The header is loaded -/

section header

variable {G : Disk → Disk → Prop} {g : Ghost} {σ : Store} {w : Disk}
variable {X : Error → Store → Disk → Prop}

open Store

/-- **The header of the committed version**: the only thing that can be wrong with it is an
extent. -/
lemma spec_loadHeader {Q : Unit → Store → Disk → Prop} (hh : Holds g w) (hr : Recovered g σ.state)
    (hp : σ.pool = .new σ.state.pages) (hG : G w w)
    (hX : ∀ e, g.version.header.validateExtent g.version.pages = .error e →
      X e σ w)
    (hQ : g.version.header.validateExtent g.version.pages = .ok () →
      Q () { σ with root := g.version.header.root } w) :
    Spec Disk.exec G loadHeader Q X σ w := by
  obtain ⟨us, rest, -, -, hw⟩ := hh.wal
  obtain ⟨b, hb, hread⟩ := readPage_zero_fits hh.version hh.data hh.fits hw
  obtain ⟨b', hb', hi, hs, -⟩ := Header.page_spec hh.version.valid (show 0 < 2 ^ 32 by norm_num)
  cases hb.symm.trans hb'
  have hdirty : σ.pool.dirty[0]? = none := by rw [hp]; simp [Pool.new]
  have hnext : σ.pool.nextPage = g.version.pages := by rw [hp]; exact hr.pages
  have hopen : PageRef.openResident b 0 = .ok ⟨b⟩ := openInner_eq_ok hi hs fun h => by cases h
  have hkind : PageRef.kind ⟨b⟩ = .metaPage := hi.kind_eq
  have hn : PageRef.nentries ⟨b⟩ = 1 := hs.count
  have hslot : PageRef.slot ⟨b⟩ 0 = g.version.header.bytes := hs.slot 0 _ rfl
  have hdec : Header.decodeSlot g.version.header.bytes = .ok g.version.header :=
    Header.decodeSlot_bytes hh.version.valid
  have hcap := hh.fits.cap
  have hread' : readPage w.data.contents w.wal.contents σ.pager.state.latest 0 = .ok b := by
    rw [hr.latest]; exact hread
  rw [loadHeader, spec_bind, load, spec_bind, spec_current]
  simp only [hdirty, giveUp, spec_bind, spec_pure, spec_onPager, Pager.readAt, spec_current,
    spec_dataContents, spec_walContents, hread', spec_ofExcept_ok, hopen, spec_refuseIf, hkind, hn,
    ne_eq, not_true_eq_false, or_self, false_implies, true_and, not_false_eq_true, true_implies,
    hslot, hdec]
  refine ⟨hG, hG, ?_⟩
  rw [hnext]
  cases hv : g.version.header.validateExtent g.version.pages with
  | error e => exact hX e hv
  | ok u =>
      -- what is loaded is what the inspection had found
      have hsame : { σ.pager with state := { σ.pager.state with
          freeHead := g.version.header.free, cap := g.version.header.cap } } = σ.pager := by
        have h1 := hr.freeHead
        have h2 := hr.cap
        rw [← h1, ← h2]
      rw [spec_ofExcept_ok]
      simp only [spec_modify, spec_update]
      rw [hsame]
      refine ⟨fun hbad => absurd hbad (not_lt.2 ?_), fun _ => hQ hv⟩
      rw [hr.endOff, hr.pages]
      exact hcap

end header

/-! ## Whole operations -/

section operations

variable {τ : Tag} {g : Ghost} {P : Pager} {σ : Store} {w : Disk}
variable {X : Error → Store → Disk → Prop}

open Store

/-- `g` with nothing open. -/
def Ghost.closed (g : Ghost) : Ghost := { g with tail := [] }

lemma FilesOk.cut (h : FilesOk g w) : FilesOk g.closed (w.cut (logEnd g.txns)) := by
  have hlen := h.length_wal
  unfold Disk.cut
  split_ifs with hne
  · exact h.truncate
  · push Not at hne
    rw [h.wal, hlen] at hne
    have h0 : g.tail = [] := by
      rw [← List.length_eq_zero_iff]
      simp only [frameLen] at hne
      omega
    have : g.closed = g := by rw [Ghost.closed, ← h0]
    rw [this]; exact h

/-- A step under the gate that keeps the committed log where it is. -/
lemma guar_gate {w' : Disk} {g' : Ghost} (h : FilesOk g w) (h' : FilesOk g' w') (hg : Good τ g' w')
    (hd : w'.data = w.data) (ht : g'.txns = g.txns) (ht₀ : g'.t₀ = g.t₀)
    (hid : g'.disk = g.disk) (hh : w'.held = .gate) : Guar τ w w' := by
  refine ⟨.files g' h' hg, fun _ => ⟨hd, ?_, ?_⟩, fun hn => by rw [hh] at hn; cases hn⟩
  · rw [h.endOf_eq, h'.endOf_eq, ht]
  · have hb : g'.logBytes = g.logBytes := by rw [Ghost.logBytes, Ghost.logBytes, Ghost.id, hid, ht, ht₀]
    rw [h.endOf_eq, h.wal, h'.wal, Ghost.walBytes, Ghost.walBytes, hb, ← h.length_log,
      List.take_left, List.take_left]

lemma Recovered.hint (hr : Recovered g P.state) (hf : FilesOk g w) :
    P.state.hint (P.state.tx - 1) P.state.lastCommit = g.closed.hint := by
  have hlt : logEnd g.txns < 2 ^ 32 := hf.hint_valid.publishedEnd
  refine Hint.ext hr.identity hr.floor ?_ ?_
  · show P.state.tx - 1 = g.version.header.tx
    rw [hr.tx, Ghost.tx]; rfl
  · show P.state.lastCommit % 2 ^ 32 = logEnd g.txns
    rw [hr.lastCommit, Nat.mod_eq_of_lt hlt]

/-- **The tail of the files of `g` is normalised** under the gate. -/
lemma spec_normaliseTail_files {Q : Unit → Pager → Disk → Prop} {X : Error → Pager → Disk → Prop}
    (hf : FilesOk g w) (hg : Kept τ g w) (hheld : w.held = .gate) (hr : Recovered g P.state)
    (hs : P.sync ≠ .off)
    (hQ : ∀ w', FilesOk g.closed w' → w'.commits = w.commits → w'.held = .gate →
      HintsFine g.version.header.tx w' → Q () P.current' w') :
    Spec Disk.exec (Guar τ) Pager.normaliseTail Q X P w := by
  have hcut := hf.cut
  have hbar := hcut.barrierWal
  have hgood : ∀ w', w'.commits = w.commits → Good τ g.closed w' := fun w' hc =>
    (hg.congr rfl hc).good
  refine spec_normaliseTail hs (hr.hint hf) ?_ ?_ ?_ ?_ ?_ ?_
  · exact guar_gate hf hf hg.good rfl rfl rfl rfl hheld
  · rw [hr.lastCommit]
    exact guar_gate hf hcut (hgood _ (by simp)) (by simp) rfl rfl rfl (by simpa using hheld)
  · rw [hr.lastCommit]
    exact guar_gate hcut hbar (hgood _ (by simp)) (by simp) rfl rfl rfl (by simpa using hheld)
  · rw [hr.lastCommit]
    exact guar_gate hbar (hbar.putHint _ _) (hgood _ (by simp)) (by simp) rfl rfl rfl
      (by simpa using hheld)
  · rw [hr.lastCommit]
    exact guar_gate (hbar.putHint _ _) ((hbar.putHint _ _).putHint _ _) (hgood _ (by simp))
      (by simp) rfl rfl rfl (by simpa using hheld)
  · rw [hr.lastCommit]
    exact hQ _ ((hbar.putHint _ _).putHint _ _) (by simp) (by simpa using hheld) hbar.putHints

/-- The handle has the root, the free head and the cap of the committed header. -/
structure Agreed (g : Ghost) (σ : Store) : Prop where
  root : σ.root = g.version.header.root
  freeHead : σ.state.freeHead = g.version.header.free
  cap : σ.state.cap = g.version.header.cap

/-- **A handle that can be used.** -/
structure HandleOk (g : Ghost) (σ : Store) : Prop where
  store : StoreOk .tight g σ
  root : RootOk σ
  clean : σ.dirty = false → Clean g σ
  agreed : σ.dirty = false → Agreed g σ

/-- **The handle a rollback or a reopen leaves**: that of the committed version. -/
structure Reloaded (τ : Tag) (g g' : Ghost) (σ' : Store) (w' : Disk) : Prop where
  version : g'.version = g.version
  calm : Calm τ g' w'
  handle : HandleOk g' σ'
  clean : Clean g' σ'
  poisoned : σ'.poisoned = false
  dirty : σ'.dirty = false
  freeHead : σ'.state.freeHead = g.version.header.free

lemma Recovered.current' (hr : Recovered g P.state) : Recovered g P.current'.state :=
  ⟨hr.identity, hr.features, hr.floor, hr.tx, hr.endOff, hr.lastCommit, hr.latest, hr.committed,
    hr.pages, hr.committedPages, hr.txCrc, hr.cap, hr.freeHead⟩

lemma Recovered.closed {s : State} (hr : Recovered g s) : Recovered g.closed s :=
  ⟨hr.identity, hr.features, hr.floor, hr.tx, hr.endOff, hr.lastCommit, hr.latest, hr.committed,
    hr.pages, hr.committedPages, hr.txCrc, hr.cap, hr.freeHead⟩

lemma Recovered.behind {s : State} (hr : Recovered g s) : Behind g s :=
  ⟨hr.identity, hr.features, hr.pages.ge, hr.endOff.ge, by rw [hr.latest]⟩

lemma extent_of_ok {h : Header} {n : ℕ} (hv : h.validateExtent n = .ok ()) :
    (2 ≤ h.root ∧ h.root < n) ∧ (h.free = 0 ∨ (2 ≤ h.free ∧ h.free < n)) := by
  rw [Header.validateExtent] at hv
  split_ifs at hv
  omega

lemma Recovered.pagerOk (hr : Recovered g P.state) (hf : FilesOk g.closed w)
    (hext : g.version.header.validateExtent g.version.pages = .ok ())
    (hw : Within g (P.state.dataLimit, P.state.walLimit, P.state.trackedLimit))
    (ho : P.hintOpen = true) (hs : P.sync ≠ .off) : PagerOk g.closed P := by
  have hcap := hf.fits.cap
  have hu : u64Max = 2 ^ 64 - 1 := rfl
  constructor
  · exact hr.identity
  · exact hr.features
  · exact hr.floor
  · exact hr.tx
  · rw [hr.endOff]
    show logEnd g.txns = logEnd g.txns + 0 * frameLen
    omega
  · exact hr.lastCommit
  · exact hr.latest
  · exact hr.committed
  · exact hr.committedPages
  · exact hr.txCrc
  · exact hr.pages.ge
  · rw [hr.pages]; exact hf.version.pages_lt
  · intro i hi; cases hi
  · rw [hr.freeHead, hr.pages]; exact (extent_of_ok hext).2
  · rw [hr.endOff, hr.pages, hr.cap]; exact hcap
  · rw [hr.cap]
    have : g.version.header.cap < 2 ^ 64 := hf.version.valid.cap
    omega
  · rw [hr.endOff]; exact hw.wal
  · rw [hr.pages]; exact hw.data
  · rw [hr.latest]; exact hw.tracked
  · exact ho
  · exact hs

/-- The handle around a recovered pager. -/
lemma Recovered.reloaded {w' : Disk} (hr : Recovered g σ.state) (hc : Calm τ g.closed w')
    (hext : g.version.header.validateExtent g.version.pages = .ok ())
    (hl : σ.limits = (σ.state.dataLimit, σ.state.walLimit, σ.state.trackedLimit))
    (hw : Within g σ.limits) (hp : σ.pool = .new σ.state.pages)
    (hroot : σ.root = g.version.header.root) (ho : σ.pager.hintOpen = true)
    (hs : σ.pager.sync ≠ .off) (hpois : σ.poisoned = false) (hd : σ.dirty = false) :
    Reloaded τ g g.closed σ w' := by
  have hP := hr.pagerOk hc.files hext (hl ▸ hw) ho hs
  have hnext : σ.pool.nextPage = g.version.pages := by rw [hp]; exact hr.pages
  have hempty : ∀ p : ℕ, σ.pool.dirty[p]? = none := by intro p; rw [hp]; simp [Pool.new]
  have hpool : ∀ p, p ∉ σ.pool.dirty := by
    intro p
    rw [Std.ExtTreeMap.mem_iff_isSome_getElem?, hempty]
    simp
  have hclean : Clean g.closed σ := ⟨rfl, hr.pages, hnext, hpool⟩
  have hstore : StoreOk .tight g.closed σ := by
    refine ⟨hP, hl, by rw [hnext, hr.pages], ?_, ?_, ?_, ?_, ?_⟩
    · rw [hnext]; exact Nat.le_pred_of_lt hc.files.version.pages_lt
    · intro p b hb
      rw [hempty] at hb; cases hb
    · intro i hi; cases hi
    · intro b hb; cases hb
    · intro p hge hlt
      have : g.version.pages ≤ p := hge
      omega
  have hroot' : RootOk σ := by
    rw [RootOk, hroot, hnext]; exact (extent_of_ok hext).1
  have hagreed : Agreed g.closed σ := ⟨hroot, hr.freeHead, hr.cap⟩
  exact ⟨rfl, hc, ⟨hstore, hroot', fun _ => hclean, fun _ => hagreed⟩, hclean, hpois, hd,
    hr.freeHead⟩

/-- **A rollback** leaves the handle of the committed version. -/
lemma spec_rollback {cf : ℕ} {Q : Unit → Store → Disk → Prop} (hc : Calm τ g w)
    (hb : Behind g σ.state) (hw : Within g σ.limits) (hs : σ.pager.sync ≠ .off)
    (hX : ∀ e σ' w', g.version.header.validateExtent g.version.pages = .error e →
      Fallen τ σ' w' → σ'.poisoned = true → X e σ' w')
    (hQ : ∀ g' σ' w', Reloaded τ g g' σ' w' → Q () σ' w') :
    Spec Disk.exec (Guar τ) (rollback cf) Q X σ w := by
  have hf := hc.files
  have htx : τ.acked.header.tx ≤ g.version.header.tx := by rw [hc.kept.1]
  obtain ⟨s, hins, hr, -, -, -⟩ := hf.holds.inspect cf
  rw [rollback, spec_bind, spec_dataContents]
  refine ⟨hc.guar, ?_⟩
  rw [spec_bind, spec_walContents]
  refine ⟨hc.guar, ?_⟩
  rw [spec_bind, hins, spec_ofExcept_ok, spec_bind, spec_current, spec_bind, spec_refuseIf]
  refine ⟨fun hbad => ?_, fun _ => ?_⟩
  · rw [hr.identity, hr.features, hb.identity, hb.features] at hbad
    simp at hbad
  rw [spec_bind, spec_onPager, spec_update, spec_bind, spec_onPager]
  have hr' : Recovered g { s with
      dataLimit := σ.limits.1, walLimit := σ.limits.2.1, trackedLimit := σ.limits.2.2 } :=
    ⟨hr.identity, hr.features, hr.floor, hr.tx, hr.endOff, hr.lastCommit, hr.latest, hr.committed,
      hr.pages, hr.committedPages, hr.txCrc, hr.cap, hr.freeHead⟩
  refine spec_finishOpen (hc.hold .gate) ?_
  refine spec_normaliseTail_files (hf.congr rfl rfl) (hc.kept.congr rfl rfl) rfl hr' hs ?_
  intro w₁ hf₁ hcm hheld hh₁
  have hfine : HintsFine τ.acked.header.tx (w₁.hold .none) := hh₁.le htx
  have hc₁ : Calm τ g.closed (w₁.hold .none) :=
    ⟨hf₁.congr rfl rfl, hc.kept.congr rfl hcm, rfl, hfine⟩
  refine ⟨guar_same hf₁ (hc.kept.congr rfl hcm).good rfl rfl rfl fun _ => hfine, ?_⟩
  rw [spec_bind, spec_modify, spec_bind]
  refine spec_loadHeader (g := g.closed) hc₁.files.holds (Recovered.current' hr'.closed) rfl hc₁.guar
    ?_ ?_
  · intro e he
    exact hX e _ _ he ⟨⟨g.closed, hc₁, (Recovered.current' hr'.closed).behind, hw.data, hw.wal,
      hw.tracked⟩, hs⟩ rfl
  · intro hext
    rw [spec_modify]
    exact hQ _ _ _ (Recovered.reloaded (Recovered.current' hr') hc₁ hext rfl hw rfl rfl rfl hs rfl rfl)

lemma size_trackImages_le (id : Bytes) (tx : ℕ) : ∀ (us : List (ℕ × Bytes)) (off : ℕ) (idx : Index),
    (trackImages id tx off us idx).size ≤ idx.size + us.length
  | [], _, _ => le_rfl
  | i :: us, off, idx => by
      refine (size_trackImages_le id tx us _ _).trans ?_
      have := @Std.ExtTreeMap.size_insert_le _ _ _ idx _ i.1
        ⟨off, frameCrc (imageFrame id tx i)⟩
      rw [List.length_cons]
      omega

lemma size_indexLog_le (id : Bytes) : ∀ (Ts : List Txn) (tx off : ℕ) (idx : Index),
    (indexLog id tx off Ts idx).size ≤ idx.size + logFrames Ts
  | [], _, _, _ => Nat.le_add_right _ _
  | T :: Ts, tx, off, idx => by
      refine (size_indexLog_le id Ts _ _ _).trans ?_
      have := size_trackImages_le id tx T.images off idx
      have : logFrames (T :: Ts) = T.images.length + 1 + logFrames Ts := by
        simp [logFrames, Txn.frames]
      omega

/-- Files that can be inspected are within the allowances a fresh handle has. -/
lemma Holds.within (h : Holds g w) : Within g (u64Max, u64Max, u64Max) := by
  have hu : u64Max = 2 ^ 64 - 1 := rfl
  have hc : walCap = 16 * 1024 * 1024 := rfl
  have hlog : logEnd g.txns ≤ walCap := by
    obtain ⟨us, rest, -, -, hw⟩ := h.wal
    refine le_trans ?_ h.cap
    rw [hw, List.length_append, h.length_log]
    exact Nat.le_add_right _ _
  have hsize := size_indexLog_le g.id g.txns g.t₀ 0 ∅
  have hempty : (∅ : Index).size = 0 := Std.ExtTreeMap.size_empty
  refine ⟨?_, ?_, ?_⟩
  · have := h.version.pages_lt
    show g.version.pages * page ≤ u64Max
    simp only [page]
    omega
  · show logEnd g.txns ≤ u64Max
    omega
  · show (indexLog g.id g.t₀ 0 g.txns ∅).size ≤ u64Max
    rw [logEnd] at hlog
    simp only [frameLen] at hlog
    omega

/-- **A reopen** leaves the handle of the committed version. -/
lemma spec_reopen {cf : ℕ} {sync : SyncMode} {Q : Unit → Store → Disk → Prop} (hc : Calm τ g w)
    (hs : sync ≠ .off)
    (hX : ∀ e σ' w', g.version.header.validateExtent g.version.pages = .error e →
      Calm τ g w' → X e σ' w')
    (hQ : ∀ g' σ' w', Reloaded τ g g' σ' w' → Q () σ' w') :
    Spec Disk.exec (Guar τ) (reopen cf sync) Q X σ w := by
  have hf : FilesOk g (w.hold .gate) := hc.files.congr rfl rfl
  have hg : Kept τ g (w.hold .gate) := hc.kept.congr rfl rfl
  have hsame : Guar τ (w.hold .gate) (w.hold .gate) := guar_gate hf hf hg.good rfl rfl rfl rfl rfl
  have htx : τ.acked.header.tx ≤ g.version.header.tx := by rw [hc.kept.1]
  obtain ⟨s, hins, hr, h1, h2, h3⟩ := hf.holds.inspect cf
  rw [reopen, spec_bind, spec_lockGate]
  refine ⟨hc.hold .gate, ?_⟩
  rw [spec_bind, spec_attempt, spec_bind, spec_dataContents]
  refine ⟨hsame, ?_⟩
  rw [spec_bind, spec_walContents]
  refine ⟨hsame, ?_⟩
  rw [spec_bind, hins, spec_ofExcept_ok, spec_bind, spec_modify, spec_bind]
  refine spec_loadHeader (σ := opened s sync) hf.holds hr rfl hsame ?_ ?_
  · intro e he
    rw [spec_bind, spec_unlock, spec_ofExcept_error]
    have hc' : Calm τ g ((w.hold .gate).hold .none) :=
      ⟨hf.congr rfl rfl, hg.congr rfl rfl, rfl, hc.hints⟩
    exact ⟨guar_same hf hg.good rfl rfl rfl fun _ => hc.hints, hX e _ _ he hc'⟩
  · intro hext
    rw [spec_onPager]
    refine spec_normaliseTail_files hf hg rfl hr hs ?_
    intro w₁ hf₁ hcm hheld hh₁
    have hfine : HintsFine τ.acked.header.tx (w₁.hold .none) := hh₁.le htx
    have hc₁ : Calm τ g.closed (w₁.hold .none) :=
      ⟨hf₁.congr rfl rfl, hg.congr rfl hcm, rfl, hfine⟩
    rw [spec_bind, spec_unlock, spec_ofExcept_ok]
    refine ⟨guar_same hf₁ (hg.congr rfl hcm).good rfl rfl rfl fun _ => hfine, ?_⟩
    have hlim : (opened s sync).limits = (s.dataLimit, s.walLimit, s.trackedLimit) := by
      rw [h1, h2, h3]; rfl
    exact hQ _ _ _ (Recovered.reloaded (Recovered.current' hr) hc₁ hext hlim hf.holds.within rfl rfl
      rfl hs rfl rfl)

end operations

end PageWal
