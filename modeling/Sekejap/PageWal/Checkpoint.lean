import Sekejap.PageWal.Commit

/-!
# The checkpoint

The committed log is copied into the data file, the data file is barriered and read back, the two
metadata copies are replaced one after the other, and the log is reset.  **No call of it can lose
the version** (`spec_foldLog`): until the first metadata copy is durable a crash finds the log as it
was, and from then on the data file holds every page, with or without the log.

Readers are excluded for its whole length, so nothing is owed to them before the hint names the
new state; every check the source makes on the way passes.
-/

open Bytes Page Crc32c Proc

namespace PageWal

/-- An entry of the index leads to the image the log has of its page. -/
def Entry (g : Ghost) (w : Disk) (e : ℕ × FrameRef) : Prop :=
  ∃ b, logImages g.txns e.1 = some b ∧ ImageAt g.id w.wal.contents e.1 e.2 b

/-- Page `p` of the data file is the version's. -/
def Copied (g : Ghost) (w : Disk) (p : ℕ) : Prop :=
  p * page + page ≤ w.data.contents.length ∧ pageAt w.data.contents p = g.version.page p

/-- The files of `g`, with every lock held. -/
structure Folding (τ : Tag) (g : Ghost) (w : Disk) : Prop where
  files : FilesOk g w
  kept : Kept τ g w
  held : w.held = .all

section facts

variable {τ : Tag} {g : Ghost} {w w' : Disk}

lemma logImages_mem : ∀ {Ts : List Txn} {p : ℕ} {b : Bytes}, logImages Ts p = some b →
    ∃ T ∈ Ts, ∃ i ∈ T.images, i.1 = p ∧ i.2 = b := by
  intro Ts
  induction Ts using List.reverseRecOn with
  | nil => intro p b h; cases h
  | append_singleton Ts T ih =>
      intro p b h
      rw [logImages_append] at h
      cases ho : overlay (fun _ => none) T.images p with
      | some c =>
          rw [ho, Option.some_or] at h
          obtain rfl := Option.some.inj h
          obtain ⟨i, hi, hip⟩ := overlay_mem ho
          exact ⟨T, by simp, i, hi, hip⟩
      | none =>
          rw [ho, Option.none_or] at h
          obtain ⟨U, hU, hi⟩ := ih h
          exact ⟨U, by simp [hU], hi⟩

/-- No frame carries page 1. -/
lemma LogOk.ne_one {disk : Header} {t₀ : ℕ} {Ts : List Txn} (h : LogOk disk t₀ Ts) {p : ℕ}
    {b : Bytes} (hb : logImages Ts p = some b) : p ≠ 1 := by
  obtain ⟨T, hT, i, hi, rfl, -⟩ := logImages_mem hb
  obtain ⟨k, hk⟩ := List.mem_iff_getElem?.1 hT
  exact ((h.txn k T hk).image i hi).ne_one

/-- What an entry says about its page. -/
lemma FilesOk.entry (h : FilesOk g w) {e : ℕ × FrameRef} (he : Entry g w e) (h0 : e.1 ≠ 0) :
    2 ≤ e.1 ∧ e.1 < g.version.pages ∧ Covers g.txns e.1
      ∧ ImageAt g.id w.wal.contents e.1 e.2 (g.version.page e.1) := by
  obtain ⟨b, hb, hi⟩ := he
  have h1 := h.fits.log.ne_one hb
  have hc : (logImages g.txns e.1).isSome := by rw [hb]; rfl
  have hlt := h.fits.covered e.1 hc
  have h2 : 2 ≤ e.1 := by omega
  refine ⟨h2, hlt, hc, ?_⟩
  rw [h.fits.images e.1 b h2 hlt hb]
  exact hi

lemma guar_held (hw : w.held = .all) (hw' : w'.held = .all) (hp : Phase τ w') : Guar τ w w' :=
  ⟨hp, fun h => absurd hw h, fun h => by rw [hw'] at h; cases h⟩

lemma Folding.guar (h : Folding τ g w) (w' : Disk) (hw : w'.held = .all) (hf : FilesOk g w')
    (hc : w'.commits = w.commits) : Guar τ w w' ∧ Folding τ g w' :=
  ⟨guar_held h.held hw (.files g hf (h.kept.congr rfl hc).good), hf, h.kept.congr rfl hc, hw⟩

lemma Folding.same (h : Folding τ g w) : Guar τ w w := (h.guar w h.held h.files rfl).1

/-- A copy does not disturb the others. -/
lemma Copied.write {p q : ℕ} (h : Copied g w q) (hne : p ≠ q) {b : Bytes} (hb : b.length = page) :
    Copied g (w.pushData (.writeAt (p * page) b)) q := by
  have hlen := length_splice w.data.contents (p * page) b
  obtain ⟨hl, he⟩ := h
  refine ⟨?_, ?_⟩
  · rw [Disk.data_pushData, DurableFile.contents_push, FileOp.apply, hlen]; omega
  · rw [Disk.data_pushData, DurableFile.contents_push, FileOp.apply,
      pageAt_splice_ne hb.le hne hl, he]

lemma copied_write {p : ℕ} (hb : (g.version.page p).length = page) :
    Copied g (w.pushData (.writeAt (p * page) (g.version.page p))) p := by
  have hlen := length_splice w.data.contents (p * page) (g.version.page p)
  refine ⟨?_, ?_⟩
  · rw [Disk.data_pushData, DurableFile.contents_push, FileOp.apply, hlen]; omega
  · rw [Disk.data_pushData, DurableFile.contents_push, FileOp.apply, pageAt_splice_self hb]

lemma Copied.resize {p n : ℕ} (h : Copied g w p) (hp : p < n) :
    Copied g (w.pushData (.setLen (n * page))) p := by
  have hlen := length_resize w.data.contents (n * page)
  have hpl := Nat.mul_le_mul_right page (show p + 1 ≤ n by omega)
  rw [Nat.succ_mul] at hpl
  obtain ⟨hl, he⟩ := h
  refine ⟨?_, ?_⟩
  · rw [Disk.data_pushData, DurableFile.contents_push, FileOp.apply, hlen]; omega
  · rw [Disk.data_pushData, DurableFile.contents_push, FileOp.apply]
    exact (slice_resize (by omega) (by omega)).trans he

end facts

section rules

variable {τ : Tag} {g : Ghost} {P : Pager} {X : Error → Pager → Disk → Prop}

open Pager

/-- **The pages are copied.** -/
lemma spec_copyBack {Q : Unit → Pager → Disk → Prop} : ∀ (es : List (ℕ × FrameRef)) {w : Disk},
    Folding τ g w → (∀ e ∈ es, Entry g w e) →
    (∀ w', Folding τ g w' → w'.wal = w.wal →
      (∀ e ∈ es, e.1 ≠ 0 → Copied g w' e.1) → (∀ p, Copied g w p → Copied g w' p) → Q () P w') →
    Spec Disk.exec (Guar τ) (copyBack es) Q X P w
  | [], w, hf, _, hQ => hQ w hf rfl (by simp) fun _ h => h
  | (p, r) :: es, w, hf, hes, hQ => by
      have htail : ∀ e ∈ es, Entry g w e := fun e he => hes e (List.mem_cons_of_mem _ he)
      rw [copyBack, spec_ite]
      refine ⟨fun h0 => spec_copyBack es hf htail fun w' hf' hw hall hold => ?_, fun h0 => ?_⟩
      · refine hQ w' hf' hw (fun e he hne => ?_) hold
        rcases List.mem_cons.1 he with rfl | he
        · exact absurd h0 hne
        · exact hall e he hne
      obtain ⟨h2, hlt, hc, hi⟩ := hf.files.entry (hes (p, r) List.mem_cons_self) h0
      obtain ⟨f, hread, hno, hpay⟩ := hi.readIndexedFrame
      have hopen := hi.opens
      simp only at h2 hlt hc hno hpay hopen hread
      have hfile := hf.files.copyPage hc h2 hlt hi.length
      obtain ⟨hG, hf'⟩ := hf.guar (w.pushData (.writeAt (p * page) (g.version.page p)))
        hf.held hfile rfl
      have hG₀ := hf.same
      simp only [spec_bind, spec_walContents, hread, spec_ofExcept_ok, spec_refuseIf, hno, hpay,
        ne_eq, not_true_eq_false, false_implies, true_and, not_false_eq_true, true_implies, hopen,
        spec_writeData]
      refine ⟨hG₀, hG, spec_copyBack es hf' htail fun w' hf'' hw hall hold => ?_⟩
      have hmine : Copied g w' p := hold p (copied_write hi.length)
      refine hQ w' hf'' hw (fun e he hne => ?_) fun q hq => ?_
      · rcases List.mem_cons.1 he with rfl | he
        · exact hmine
        · exact hall e he hne
      · by_cases hpq : p = q
        · rw [← hpq]; exact hmine
        · exact hold q (hq.write hpq hi.length)

/-- **The read-back finds what was copied.** -/
lemma spec_readBack {Q : Unit → Pager → Disk → Prop} {w : Disk} (hf : Folding τ g w)
    (hQ : Q () P w) : ∀ es : List (ℕ × FrameRef), (∀ e ∈ es, Entry g w e) →
    (∀ e ∈ es, e.1 ≠ 0 → Copied g w e.1) → Spec Disk.exec (Guar τ) (readBack es) Q X P w
  | [], _, _ => hQ
  | (p, r) :: es, hes, hall => by
      have hrest := spec_readBack hf hQ es (fun e he => hes e (List.mem_cons_of_mem _ he))
        fun e he => hall e (List.mem_cons_of_mem _ he)
      rw [readBack, spec_ite]
      refine ⟨fun _ => hrest, fun h0 => ?_⟩
      obtain ⟨-, -, -, hi⟩ := hf.files.entry (hes (p, r) List.mem_cons_self) h0
      obtain ⟨hl, he⟩ := hall (p, r) List.mem_cons_self h0
      obtain ⟨f, hread, -, hpay⟩ := hi.readIndexedFrame
      have hG₀ := hf.same
      have hopen := hi.opens
      have hat : PageWal.readAt w.data.contents (p * page) page = .ok (g.version.page p) := by
        rw [readAt_ok hl]; exact congrArg Except.ok he
      simp only at hread hpay hopen
      simp only [spec_bind, spec_dataContents, spec_walContents, hat, hread, spec_ofExcept_ok,
        spec_refuseIf, hpay, ne_eq, not_true_eq_false, false_implies, true_and, not_false_eq_true,
        true_implies, hopen]
      exact ⟨hG₀, hG₀, hrest⟩

/-- **One metadata copy is written.** -/
lemma spec_writeMetadata {G : Disk → Disk → Prop} {Q : Unit → Pager → Disk → Prop} {w : Disk}
    {header : Header} {no : ℕ} {sync : Bool} {b : Bytes} (hs : P.sync ≠ .off) (hv : header.Valid)
    (hno : no < 2 ^ 32) (hb : header.page no = .ok b)
    (hG : G w (w.pushData (.writeAt (no * page) b)))
    (hbar : sync = true → G (w.pushData (.writeAt (no * page) b))
      (w.pushData (.writeAt (no * page) b)).barrierData)
    (hend : ∀ w', w' = (bif sync then (w.pushData (.writeAt (no * page) b)).barrierData
      else w.pushData (.writeAt (no * page) b)) → G w' w' ∧ Q () P w') :
    Spec Disk.exec G (writeMetadata header no sync) Q X P w := by
  have hl := length_headerPage hv hno hb
  have hdec := Header.decode_page hv hno hb
  -- the bytes are there, barriered or not
  have hat : PageWal.readAt (w.data.contents.splice (no * page) b) (no * page) page = .ok b := by
    have hlen := length_splice w.data.contents (no * page) b
    rw [readAt_ok (by omega)]
    exact congrArg Except.ok (pageAt_splice_self hl)
  rw [writeMetadata, spec_bind, hb, spec_ofExcept_ok, spec_bind, spec_writeData]
  refine ⟨hG, ?_⟩
  dsimp only
  rw [spec_ite]
  refine ⟨fun hsync => ?_, fun hsync => ?_⟩
  · obtain ⟨hG', hQ'⟩ := hend _ (by rw [hsync])
    rw [spec_bind]
    refine spec_barrier hs ?_
    rw [spec_syncData]
    refine ⟨hbar hsync, ?_⟩
    simp only [spec_bind, spec_dataContents, Disk.data_barrierData, Disk.data_pushData,
      DurableFile.contents_barrier, DurableFile.contents_push, FileOp.apply, hat, spec_ofExcept_ok,
      spec_refuseIf, ne_eq, not_true_eq_false, false_implies, true_and, not_false_eq_true,
      true_implies, hdec]
    exact ⟨hG', hQ'⟩
  · obtain ⟨hG', hQ'⟩ := hend _ (by rw [Bool.eq_false_iff.2 hsync])
    simp only [spec_bind, spec_dataContents, Disk.data_pushData,
      DurableFile.contents_push, FileOp.apply, hat, spec_ofExcept_ok, spec_refuseIf, ne_eq,
      not_true_eq_false, false_implies, true_and, not_false_eq_true, true_implies, hdec]
    exact ⟨hG', hQ'⟩

/-- The pager once the log is folded. -/
def Pager.folded (P : Pager) (floor : ℕ) : Pager :=
  { P with state := { P.state with
      latest := ∅, committed := ∅, endOff := 0, lastCommit := 0, txCrc := 0, floor
      hintCurrent := true, hintPublished := true } }

lemma PagerOk.entry (hP : PagerOk g P) {w : Disk} (hf : FilesOk g w) (ht : g.tail = [])
    {e : ℕ × FrameRef} (he : P.state.latest[e.1]? = some e.2) : Entry g w e := by
  have hidx : P.state.latest = g.index := by rw [hP.latest, ht]; rfl
  have htr : Tracks g.id w.wal.contents g.index (logImages g.txns) :=
    tracks_indexLog hf.valid g.txns _ hf.fits.log hf.wal
  rw [hidx] at he
  rcases htr e.1 with ⟨hn, -⟩ | ⟨r, b, hr, hb, hi⟩
  · rw [hn] at he; cases he
  · cases hr.symm.trans he
    exact ⟨b, hb, hi⟩

lemma PagerOk.exists_entry (hP : PagerOk g P) {w : Disk} (hf : FilesOk g w) (ht : g.tail = [])
    {p : ℕ} (hc : Covers g.txns p) : ∃ r, (p, r) ∈ P.state.latest.toList := by
  have hidx : P.state.latest = g.index := by rw [hP.latest, ht]; rfl
  have htr : Tracks g.id w.wal.contents g.index (logImages g.txns) :=
    tracks_indexLog hf.valid g.txns _ hf.fits.log hf.wal
  rcases htr p with ⟨-, hn⟩ | ⟨r, b, hr, -, -⟩
  · rw [Covers, hn] at hc; cases hc
  · refine ⟨r, Std.ExtTreeMap.mem_toList_iff_getElem?_eq_some.2 ?_⟩
    rw [hidx]; exact hr

lemma PagerOk.folded (hP : PagerOk g P) (hf : LogFits g.disk g.version g.t₀ g.txns)
    (hpages : P.state.pages = g.version.pages) :
    PagerOk g.reset (P.folded g.version.header.tx) := by
  obtain ⟨-, hid, hft⟩ := hf.rebase
  have hcap := hP.cap
  constructor
  · exact hP.identity.trans hid.symm
  · exact hP.features.trans hft.symm
  · rfl
  · exact hP.tx
  · show 0 = logEnd [] + 0 * frameLen
    rw [logEnd_nil, Nat.zero_mul]
  · show 0 = logEnd []
    rw [logEnd_nil]
  · rfl
  · rfl
  · exact hP.committedPages
  · rfl
  · exact hpages.ge
  · exact hP.pages_lt
  · intro i hi; cases hi
  · exact hP.freeHead
  · show 0 + P.state.pages * page ≤ P.state.cap
    omega
  · exact hP.cap_lt
  · exact Nat.zero_le _
  · exact hP.data_le
  · exact Nat.zero_le _
  · exact hP.hintOpen
  · exact hP.sync

/-- **The data file holds every page of the version.** -/
lemma spec_copyLog {Q : Unit → Pager → Disk → Prop} {w : Disk} (hf : Folding τ g w)
    (hP : PagerOk g P) (ht : g.tail = []) (hpages : P.state.pages = g.version.pages)
    (hQ : ∀ w', Folding τ g w' → Full g w' → Q () P w') :
    Spec Disk.exec (Guar τ) copyLog Q X P w := by
  have hentry : ∀ e ∈ P.state.latest.toList, Entry g w e := fun e he =>
    hP.entry hf.files ht (Std.ExtTreeMap.mem_toList_iff_getElem?_eq_some.1 he)
  rw [copyLog, spec_bind, spec_current, spec_bind]
  refine spec_copyBack _ hf hentry fun w₁ hf₁ hw₁ hall _ => ?_
  rw [spec_bind, spec_setLenData, hpages]
  obtain ⟨hG₂, hf₂⟩ := hf₁.guar (w₁.pushData (.setLen (g.version.pages * page))) hf₁.held
    hf₁.files.resizeData rfl
  refine ⟨hG₂, ?_⟩
  rw [spec_bind]
  refine spec_barrier hP.sync ?_
  rw [spec_syncData]
  obtain ⟨hG₃, hf₃⟩ := hf₂.guar ((w₁.pushData (.setLen (g.version.pages * page))).barrierData)
    hf₁.held hf₂.files.barrierData rfl
  refine ⟨hG₃, ?_⟩
  have hcopied : ∀ e ∈ P.state.latest.toList, e.1 ≠ 0 →
      Copied g (w₁.pushData (.setLen (g.version.pages * page))) e.1 := fun e he h0 =>
    (hall e he h0).resize (hf.files.entry (hentry e he) h0).2.1
  have hentry₃ : ∀ e ∈ P.state.latest.toList,
      Entry g (w₁.pushData (.setLen (g.version.pages * page))).barrierData e := by
    intro e he
    obtain ⟨b, hb, hi⟩ := hentry e he
    refine ⟨b, hb, ?_⟩
    show ImageAt g.id w₁.wal.contents e.1 e.2 b
    rw [hw₁]; exact hi
  refine spec_readBack hf₃ ?_ _ hentry₃ fun e he h0 => ?_
  · refine hQ _ hf₃ (hf₂.files.full_barrier fun p h2 hp hc => ?_)
    obtain ⟨r, hr⟩ := hP.exists_entry hf.files ht hc
    exact hcopied (p, r) hr (show p ≠ 0 by omega)
  · have := hcopied e he h0
    exact ⟨by simpa using this.1, by simpa using this.2⟩

/-- The hint that is written is the one of the empty log. -/
lemma PagerOk.hint_reset (hP : PagerOk g P) (hf : LogFits g.disk g.version g.t₀ g.txns) :
    State.hint { P.state with
      latest := ∅, committed := ∅, endOff := 0, lastCommit := 0, txCrc := 0
      floor := g.version.header.tx } (P.state.tx - 1) 0 = g.reset.hint := by
  obtain ⟨-, hid, -⟩ := hf.rebase
  refine Hint.ext (hP.identity.trans hid.symm) rfl ?_ ?_
  · show P.state.tx - 1 = g.version.header.tx
    rw [hP.tx, Ghost.tx]; rfl
  · show 0 % 2 ^ 32 = logEnd []
    rw [logEnd_nil, Nat.zero_mod]

lemma exists_headerPage {h : Header} (hv : h.Valid) (no : ℕ) (hno : no < 2 ^ 32) :
    ∃ b, h.page no = .ok b := by
  obtain ⟨b, hb, -⟩ := Header.page_spec hv hno
  exact ⟨b, hb⟩

/-- **The metadata names the version, and the log is reset.** -/
lemma spec_absorbLog {Q : Bool → Pager → Disk → Prop} {w : Disk} (hf : Folding τ g w)
    (hfull : Full g w) (hP : PagerOk g P) (ht : g.tail = []) (hne : g.txns ≠ [])
    (hQ : ∀ w', Folding τ g.reset w' → HintsFine g.version.header.tx w' →
      Q true (P.folded g.version.header.tx) w') :
    Spec Disk.exec (Guar τ) absorbLog Q X P w := by
  have hv := hf.files.version.valid
  have hG₀ := hf.same
  -- the header is the newest image of page 0
  obtain ⟨b, hb, hl⟩ := hf.files.fits.metadata hne
  obtain ⟨r, hr⟩ := hP.exists_entry hf.files ht (p := 0) (by rw [Covers, hl]; rfl)
  have hlatest : P.state.latest[0]? = some r := Std.ExtTreeMap.mem_toList_iff_getElem?_eq_some.1 hr
  obtain ⟨b', hb', hi⟩ := hP.entry hf.files ht (e := (0, r)) hlatest
  cases hb'.symm.trans hl
  obtain ⟨f, hread, -, hpay⟩ := hi.readIndexedFrame
  have hdec := Header.decode_page hv (by norm_num) hb
  obtain ⟨i, j, horder, hij, hj⟩ := metadataWriteOrder_eq hf.files.dataOk.metadata
  have hi2 : i < 2 := by omega
  have hj2 : j < 2 := by omega
  have hji : j = otherCopy i := by rw [otherCopy]; omega
  have hij' : i = otherCopy j := by rw [otherCopy]; omega
  obtain ⟨bi, hbi⟩ := exists_headerPage hv i (by omega)
  obtain ⟨bj, hbj⟩ := exists_headerPage hv j (by omega)
  rw [absorbLog, spec_bind, spec_current]
  simp only [hlatest, spec_bind, spec_walContents, hread, spec_ofExcept_ok, hpay, hdec,
    spec_dataContents, horder]
  refine ⟨hG₀, hG₀, ?_⟩
  -- the first copy, which a barrier makes durable
  rw [hji] at hj
  have hab := hf.files.firstCopy hfull hi2 hj hbi
  obtain ⟨hf₁, hfull₁, hc₁⟩ := hf.files.firstCopy_barrier hfull hi2 hj hbi
  have hfold₁ : Folding τ g.rebase (w.pushData (.writeAt (i * page) bi)).barrierData :=
    ⟨hf₁, hf.kept.congr rfl rfl, hf.held⟩
  have hG₁ : Guar τ w (w.pushData (.writeAt (i * page) bi)) :=
    guar_held hf.held hf.held (.absorbing g hab (hf.kept.congr rfl rfl).good)
  have hG₁' : Guar τ (w.pushData (.writeAt (i * page) bi))
      (w.pushData (.writeAt (i * page) bi)).barrierData :=
    guar_held hf.held hf.held (.files _ hf₁ hfold₁.kept.good)
  refine spec_writeMetadata hP.sync hv (by omega) hbi hG₁ (fun _ => hG₁') fun w₁ hw₁ => ?_
  rw [cond_true] at hw₁
  subst hw₁
  refine ⟨hfold₁.same, ?_⟩
  -- the second copy
  have hc₁' : Copy (w.pushData (.writeAt (i * page) bi)).barrierData.data.contents (otherCopy j)
      (some g.version.header) := by
    rw [← hij']; exact hc₁
  obtain ⟨hf₂, hfull₂⟩ := hf₁.secondCopy hfull₁ rfl hj2 hc₁' hbj
  obtain ⟨hG₂, hfold₂⟩ := hfold₁.guar ((w.pushData (.writeAt (i * page) bi)).barrierData.pushData
    (.writeAt (j * page) bj)) hf.held hf₂ rfl
  refine spec_writeMetadata hP.sync hv (by omega) hbj hG₂ (fun h => by cases h) fun w₂ hw₂ => ?_
  rw [cond_false] at hw₂
  subst hw₂
  refine ⟨hfold₂.same, ?_⟩
  -- the reset of the log, and the hint that says so
  have hf₃ : FilesOk g.reset _ := hf₂.reset hfull₂ rfl
  have hfold₃ : Folding τ g.reset (((w.pushData (.writeAt (i * page) bi)).barrierData.pushData
      (.writeAt (j * page) bj)).pushWal (.setLen 0)) :=
    ⟨hf₃, hf.kept.congr rfl rfl, hf.held⟩
  rw [spec_setLenWal]
  refine ⟨guar_held hf.held hf.held (.files _ hf₃ hfold₃.kept.good), ?_⟩
  rw [spec_update, spec_current]
  have hhint := hP.hint_reset hf.files.fits
  refine spec_writeHint' hP.hintOpen hhint ?_ ?_ ?_
  · exact guar_held hf.held hf.held (.files _ (hf₃.putHint _ _) (hfold₃.kept.congr rfl rfl).good)
  · exact guar_held hf.held hf.held
      (.files _ ((hf₃.putHint _ _).putHint _ _) (hfold₃.kept.congr rfl rfl).good)
  · rw [spec_pure]
    exact hQ _ ⟨(hf₃.putHint _ _).putHint _ _, hfold₃.kept.congr rfl rfl, hf.held⟩ hf₃.putHints

/-- **The log is folded into the data file.** -/
lemma spec_foldLog {Q : Bool → Pager → Disk → Prop} {w : Disk} (hf : Folding τ g w)
    (hP : PagerOk g P) (ht : g.tail = []) (hne : g.txns ≠ [])
    (hpages : P.state.pages = g.version.pages)
    (hQ : ∀ w', Folding τ g.reset w' → HintsFine g.version.header.tx w' →
      Q true (P.folded g.version.header.tx) w') :
    Spec Disk.exec (Guar τ) foldLog Q X P w := by
  rw [foldLog, spec_bind]
  refine spec_copyLog hf hP ht hpages fun w₁ hf₁ hfull => ?_
  exact spec_absorbLog hf₁ hfull hP ht hne hQ

end rules

/-! ## The checkpoint of a handle -/

/-- Nothing has changed since the last commit. -/
structure Clean (g : Ghost) (σ : Store) : Prop where
  tail : g.tail = []
  pages : σ.state.pages = g.version.pages
  nextPage : σ.pool.nextPage = g.version.pages
  pool : ∀ p, p ∉ σ.pool.dirty

/-- **What a checkpoint does to a handle**: nothing but to the log. -/
structure Checkpointed (τ : Tag) (g : Ghost) (σ : Store) (g' : Ghost) (σ' : Store) (w' : Disk) :
    Prop where
  version : g'.version = g.version
  calm : Calm τ g' w'
  store : StoreOk .tight g' σ'
  clean : Clean g' σ'
  pager : ∃ P, σ' = { σ with pager := P } ∧ P.state.freeHead = σ.state.freeHead
    ∧ P.state.cap = σ.state.cap

section guarded

variable {τ : Tag} {g : Ghost} {σ : Store} {w : Disk} {X : Error → Store → Disk → Prop}

open Store

lemma HintsFine.le {tx tx' : ℕ} (h : HintsFine tx w) (hle : tx' ≤ tx) : HintsFine tx' w :=
  ⟨h.1, fun c k hk => ⟨(h.2 c k hk).1, hle.trans (h.2 c k hk).2⟩⟩

/-- Taking and releasing the locks. -/
lemma Calm.hold (hc : Calm τ g w) (h : Held) : Guar τ w (w.hold h) :=
  guar_same hc.files hc.kept.good rfl rfl rfl fun _ => hc.hints

lemma Checkpointed.refl (hc : Calm τ g w) (hσ : StoreOk .tight g σ) (hcl : Clean g σ) :
    Checkpointed τ g σ g σ w :=
  ⟨rfl, hc, hσ, hcl, ⟨σ.pager, rfl, rfl, rfl⟩⟩

lemma StoreOk.folded (hσ : StoreOk .tight g σ) (hf : FilesOk g w) (hcl : Clean g σ) :
    StoreOk .tight g.reset { σ with pager := σ.pager.folded g.version.header.tx } := by
  refine ⟨hσ.pager.folded hf.fits hcl.pages, hσ.limits, hσ.pages_le, hσ.nextPage_le, hσ.dirty, ?_, ?_, ?_⟩
  · intro i hi; cases hi
  · intro b hb; cases hb
  · intro p hge hlt
    have h1 : g.version.pages ≤ p := hge
    have h2 : p < σ.pool.nextPage := hlt
    rw [hcl.nextPage] at h2
    omega

/-- **Every checkpoint path.** -/
lemma spec_checkpointGuarded (hc : Calm τ g w) (hσ : StoreOk .tight g σ) (hcl : Clean g σ)
    (hX : ∀ e σ' w', Fallen τ σ' w' → X e σ' w') :
    Spec Disk.exec (Guar τ) checkpointGuarded
      (fun _ σ' w' => ∃ g', Checkpointed τ g σ g' σ' w') X σ w := by
  have hP := hσ.pager
  have hsame := Checkpointed.refl hc hσ hcl
  rw [checkpointGuarded, spec_bind, spec_excludeReaders]
  refine ⟨⟨hc.hold .all, ?_⟩, hc.guar, ⟨g, hsame⟩⟩
  -- every lock is held
  have hfold : Folding τ g (w.hold .all) :=
    ⟨hc.files.congr rfl rfl, hc.kept.congr rfl rfl, rfl⟩
  have hback : Guar τ (w.hold .all) ((w.hold .all).hold .none) :=
    guar_same hfold.files hfold.kept.good rfl rfl rfl fun _ => hc.hints
  have hcalm : Calm τ g ((w.hold .all).hold .none) :=
    ⟨hc.files.congr rfl rfl, hc.kept.congr rfl rfl, rfl, hc.hints⟩
  simp only [if_true]
  rw [spec_bind, spec_attempt, spec_onPager, Pager.checkpoint, spec_bind, spec_readers]
  refine fun n => ⟨hfold.same, ?_⟩
  rw [spec_ite]
  refine ⟨fun _ => ?_, fun _ => ?_⟩
  · rw [spec_pure, spec_bind, spec_unlock, spec_ofExcept_ok]
    exact ⟨hback, g, Checkpointed.refl hcalm hσ hcl⟩
  rw [spec_bind, spec_current]
  simp only [spec_bind, spec_refuseIf, spec_unlock, spec_ofExcept_error]
  refine ⟨fun _ => ⟨hback, hX _ _ _ (hσ.fallen_self hcalm)⟩, fun _ =>
    ⟨fun _ => ⟨hback, hX _ _ _ (hσ.fallen_self hcalm)⟩, fun _ => ?_⟩⟩
  rw [spec_ite]
  refine ⟨fun _ => ?_, fun h0 => ?_⟩
  · rw [spec_pure, spec_ofExcept_ok]
    exact ⟨hback, g, Checkpointed.refl hcalm hσ hcl⟩
  have hne : g.txns ≠ [] := by
    intro hnil
    refine h0 ?_
    rw [hP.endOff, hcl.tail, hnil, logEnd_nil]; simp
  refine spec_foldLog hfold hP hcl.tail hne hcl.pages fun w' hf' hh' => ?_
  have hfine : HintsFine τ.acked.header.tx (w'.hold .none) := hh'.le (by rw [← hc.kept.1])
  have hcalm' : Calm τ g.reset (w'.hold .none) :=
    ⟨hf'.files.congr rfl rfl, hf'.kept.congr rfl rfl, rfl, hfine⟩
  rw [spec_ofExcept_ok]
  refine ⟨guar_same hf'.files hf'.kept.good rfl rfl rfl fun _ => hfine, g.reset, rfl, hcalm',
    hσ.folded hc.files hcl, ⟨rfl, hcl.pages, hcl.nextPage, hcl.pool⟩, ⟨_, rfl, rfl, rfl⟩⟩

end guarded

end PageWal
