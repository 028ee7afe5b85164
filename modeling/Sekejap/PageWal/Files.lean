import Sekejap.PageWal.Store

/-!
# What a crash may leave of the files

`Ghost` names what the two files mean: the header the checkpoint metadata holds, the committed
transactions of the log, the images of the open transaction behind them, and the version they
amount to.  **`FilesOk g w`** says that the disk `w` means `g`, now *and after a crash*: every
outcome of losing unsynced calls still yields the version of `g` (`FilesOk.recover`).

The rules say what each call of the writer does to it: a frame more (`FilesOk.image`), a commit
frame, after which two versions may survive (`FilesOk.commit`, `Committing`), the barrier that
decides between them (`Committing.barrier`), the truncated tail (`FilesOk.truncate`), and the
steps of a checkpoint (`FilesOk.copyPage`, `FilesOk.firstCopy`, `FilesOk.secondCopy`, `FilesOk.reset`).
-/

open Bytes Page Crc32c

namespace PageWal

/-- **The checksum assumption**: a page left by a write cut short does not verify, unless it is
the page that was there or the page that was written. -/
def PageCrc (old new torn : Bytes) : Prop :=
  ∀ no, Intact (pageAt torn no) → pageAt torn no = pageAt old no ∨ pageAt torn no = pageAt new no

/-- What a crash may leave of the data file. -/
def DataCrash (f : DurableFile) (d : Bytes) : Prop := DurableFile.Crash PageCrc f d

/-- What a crash may leave of the log.  A frame cut short is incomplete, so nothing is assumed of
its checksum. -/
def WalCrash (f : DurableFile) (c : Bytes) : Prop := DurableFile.Crash (fun _ _ _ => True) f c

/-- What the files of a database mean. -/
structure Ghost where
  disk : Header
  t₀ : ℕ
  txns : List Txn
  tail : List (ℕ × Bytes)
  version : Version

namespace Ghost

variable (g : Ghost)

/-- The identity of the database. -/
abbrev id : Bytes := g.disk.identity

/-- The number of the open transaction. -/
abbrev tx : ℕ := g.version.header.tx + 1

def logBytes : Bytes := encodeLog g.id g.t₀ g.txns

def walBytes : Bytes := g.logBytes ++ encodeImages g.id g.tx g.tail

def index : Index := indexLog g.id g.t₀ 0 g.txns ∅

/-- A page image the open transaction may carry. -/
def Image (i : ℕ × Bytes) : Prop := ImageOk g.id g.disk.features g.tx i

end Ghost

/-- `c` is a log of the version of `g`, with something unfinished behind it, that covers at least
the pages the log of `g` covers. -/
def Survivor (g : Ghost) (c : Bytes) : Prop :=
  ∃ t₀ Ts us rest, LogFits g.disk g.version t₀ Ts ∧ (∀ i ∈ us, g.Image i)
    ∧ c = encodeLog g.id t₀ Ts ++ (encodeImages g.id g.tx us ++ rest)
    ∧ rest.length < frameLen ∧ c.length ≤ walCap ∧ ∀ p, Covers g.txns p → Covers Ts p

/-- **The disk means `g`, and keeps meaning it in a crash.** -/
structure FilesOk (g : Ghost) (w : Disk) : Prop where
  version : g.version.Ok
  fits : LogFits g.disk g.version g.t₀ g.txns
  tail : ∀ i ∈ g.tail, g.Image i
  wal : w.wal.contents = g.walBytes
  cap : g.walBytes.length ≤ walCap
  data : ∀ d, DataCrash w.data d → DataOk g.disk (Covers g.txns) g.version d
  crash : ∀ c, WalCrash w.wal c → Survivor g c

section basic

variable {g : Ghost} {w w' : Disk}

lemma FilesOk.dataOk (h : FilesOk g w) : DataOk g.disk (Covers g.txns) g.version w.data.contents :=
  h.data _ (DurableFile.crash_contents _)

lemma FilesOk.valid (h : FilesOk g w) : g.disk.Valid := h.dataOk.metadata.valid

lemma FilesOk.length_log (h : FilesOk g w) : g.logBytes.length = logEnd g.txns :=
  length_encodeLog h.valid.identity _ _ h.fits.log.length_image

lemma FilesOk.length_wal (h : FilesOk g w) :
    g.walBytes.length = logEnd g.txns + g.tail.length * frameLen := by
  rw [Ghost.walBytes, List.length_append, h.length_log,
    length_encodeImages h.valid.identity _ fun i hi => (h.tail i hi).length]

/-- Only the two files matter. -/
lemma FilesOk.congr (h : FilesOk g w) (hd : w'.data = w.data) (hw : w'.wal = w.wal) :
    FilesOk g w' :=
  ⟨h.version, h.fits, h.tail, by rw [hw]; exact h.wal, h.cap, by rw [hd]; exact h.data,
    by rw [hw]; exact h.crash⟩

/-- A survivor yields the version. -/
lemma Survivor.recover {cf : ℕ} {d c : Bytes} (hs : Survivor g c) (hv : g.version.Ok)
    (hd : DataOk g.disk (Covers g.txns) g.version d) :
    PageWal.recover cf d c = .ok g.version.image := by
  obtain ⟨t₀, Ts, us, rest, hf, hus, hc, hr, hcap, hcov⟩ := hs
  exact recover_fits hv (hd.mono hcov) hf hus hc hr hcap

/-- **Every crash outcome yields the version.** -/
lemma FilesOk.recover {cf : ℕ} {d c : Bytes} (h : FilesOk g w) (hd : DataCrash w.data d)
    (hc : WalCrash w.wal c) : PageWal.recover cf d c = .ok g.version.image :=
  (h.crash c hc).recover h.version (h.data d hd)

/-- Inspecting the files as they are. -/
lemma FilesOk.inspect_eq {cf : ℕ} (h : FilesOk g w) :
    inspect cf w.data.contents w.wal.contents
      = .ok (recovered g.disk (w.data.contents.length / page) g.t₀ g.txns) := by
  have hw : w.wal.contents = g.logBytes ++ (encodeImages g.id g.tx g.tail ++ []) := by
    rw [List.append_nil]; exact h.wal
  exact inspect_fits h.version h.dataOk h.fits h.tail hw (by decide) (by rw [h.wal]; exact h.cap)

end basic

/-! ## Frames appended to the log -/

section append

variable {g : Ghost} {w : Disk}

/-- Appending adds the outcomes of a frame that was cut short or kept. -/
lemma walCrash_append {f : DurableFile} {b c : Bytes} :
    WalCrash (f.push (.writeAt f.contents.length b)) c ↔
      WalCrash f c ∨ (∃ j < b.length, c = f.contents ++ b.take j) ∨ c = f.contents ++ b := by
  simp only [WalCrash, DurableFile.Crash.push, FileOp.Torn, FileOp.apply, splice_length, and_true]

lemma contents_append {f : DurableFile} {b : Bytes} :
    (f.push (.writeAt f.contents.length b)).contents = f.contents ++ b := by
  simp only [DurableFile.contents_push, FileOp.apply, splice_length]

/-- `g` with one image more in its open transaction. -/
def Ghost.withImage (g : Ghost) (i : ℕ × Bytes) : Ghost := { g with tail := g.tail ++ [i] }

lemma Ghost.walBytes_withImage (g : Ghost) (i : ℕ × Bytes) :
    (g.withImage i).walBytes = g.walBytes ++ imageFrame g.id g.tx i := by
  show g.logBytes ++ encodeImages g.id g.tx (g.tail ++ [i]) = _
  rw [encodeImages_append, encodeImages_singleton, ← List.append_assoc]
  rfl

/-- The log of `g` as it is survives. -/
lemma FilesOk.survivor (h : FilesOk g w) {rest : Bytes} (hr : rest.length < frameLen)
    (hc : g.walBytes.length + rest.length ≤ walCap) : Survivor g (g.walBytes ++ rest) :=
  ⟨g.t₀, g.txns, g.tail, rest, h.fits, h.tail, by rw [Ghost.walBytes, List.append_assoc]; rfl, hr,
    by rw [List.length_append]; exact hc, fun _ hp => hp⟩

/-- **One image more.** -/
lemma FilesOk.image (h : FilesOk g w) {i : ℕ × Bytes} (hi : g.Image i)
    (hcap : g.walBytes.length + frameLen ≤ walCap) :
    FilesOk (g.withImage i) (w.putWal g.walBytes.length (imageFrame g.id g.tx i)) := by
  have hf : (imageFrame g.id g.tx i).length = frameLen :=
    length_imageFrame h.valid.identity hi.length
  have hw := g.walBytes_withImage i
  have htail : ∀ j ∈ (g.withImage i).tail, (g.withImage i).Image j := by
    intro j hj
    rcases List.mem_append.1 hj with hj | hj
    · exact h.tail j hj
    · rw [List.mem_singleton.1 hj]; exact hi
  refine ⟨h.version, h.fits, htail, ?_, by rw [hw, List.length_append, hf]; exact hcap, h.data, ?_⟩
  · rw [Disk.wal_putWal, ← h.wal, contents_append, h.wal, hw]
  · intro c hc
    rw [Disk.wal_putWal, ← h.wal, walCrash_append, h.wal] at hc
    rcases hc with hc | ⟨j, hj, rfl⟩ | rfl
    · exact h.crash c hc
    · exact h.survivor (by rw [List.length_take]; omega) (by rw [List.length_take]; omega)
    · refine ⟨g.t₀, g.txns, g.tail ++ [i], [], h.fits, htail, ?_, by decide, ?_, fun _ hp => hp⟩
      · rw [List.append_nil, ← hw]; rfl
      · rw [List.length_append, hf]; exact hcap

/-- The tail is cut off. -/
lemma FilesOk.truncate (h : FilesOk g w) :
    FilesOk { g with tail := [] } (w.pushWal (.setLen (logEnd g.txns))) := by
  have hl := h.length_log
  have hcap := h.cap
  have hlen := h.length_wal
  have hb : ({ g with tail := [] } : Ghost).walBytes = g.logBytes := by
    show g.logBytes ++ encodeImages g.id g.tx [] = _
    simp [encodeImages]
  have hres : g.walBytes.resize (logEnd g.txns) = g.logBytes := by
    rw [resize_of_le (by omega), Ghost.walBytes, List.take_append_of_le_length (by omega),
      List.take_of_length_le (by omega)]
  refine ⟨h.version, h.fits, by simp, ?_, by rw [hb]; omega, h.data, ?_⟩
  · rw [Disk.wal_pushWal, DurableFile.contents_push, h.wal, hb]
    exact hres
  · intro c hc
    rw [Disk.wal_pushWal, WalCrash, DurableFile.Crash.push, h.wal] at hc
    rcases hc with hc | hc | rfl
    · exact h.crash c hc
    · cases hc
    · refine ⟨g.t₀, g.txns, [], [], h.fits, by simp, ?_, by decide, ?_, fun _ hp => hp⟩
      · rw [FileOp.apply, hres]; simp [encodeImages, Ghost.logBytes]
      · rw [FileOp.apply, hres]; omega

lemma FilesOk.barrierWal (h : FilesOk g w) : FilesOk g w.barrierWal :=
  ⟨h.version, h.fits, h.tail, h.wal, h.cap, h.data, fun c hc => by
    rw [Disk.wal_barrierWal, WalCrash, DurableFile.Crash.barrier] at hc
    have : Survivor g (g.walBytes ++ []) := h.survivor (by decide) h.cap
    rwa [List.append_nil, ← h.wal, ← hc] at this⟩

end append

/-! ## The commit frame -/

section commit

variable {g : Ghost} {w : Disk} {T : Txn} {v : Version}

lemma overlay_apply : ∀ (us : List (ℕ × Bytes)) (m : ℕ → Option Bytes) (p : ℕ),
    overlay m us p = (overlay (fun _ => none) us p).or (m p) := by
  intro us
  induction us using List.reverseRecOn with
  | nil => intro m p; simp [overlay]
  | append_singleton us i ih =>
      intro m p
      simp only [overlay, List.foldl_append, List.foldl_cons, List.foldl_nil] at ih ⊢
      by_cases hp : p = i.1
      · subst hp; simp
      · rw [Function.update_of_ne hp, Function.update_of_ne hp]
        exact ih m p

lemma overlay_append (m : ℕ → Option Bytes) (us : List (ℕ × Bytes)) (i : ℕ × Bytes) :
    overlay m (us ++ [i]) = Function.update (overlay m us) i.1 (some i.2) := by
  simp [overlay]

lemma overlay_isSome {us : List (ℕ × Bytes)} {p : ℕ} :
    (overlay (fun _ => none) us p).isSome ↔ ∃ i ∈ us, i.1 = p := by
  induction us using List.reverseRecOn with
  | nil => simp [overlay]
  | append_singleton us i ih =>
      rw [overlay_append]
      by_cases hp : p = i.1
      · subst hp; simp
      · rw [Function.update_of_ne hp, ih]
        simp [Ne.symm hp]

lemma overlay_mem {us : List (ℕ × Bytes)} {p : ℕ} {b : Bytes}
    (h : overlay (fun _ => none) us p = some b) : ∃ i ∈ us, i.1 = p ∧ i.2 = b := by
  induction us using List.reverseRecOn with
  | nil => simp [overlay] at h
  | append_singleton us i ih =>
      rw [overlay_append] at h
      by_cases hp : p = i.1
      · subst hp
        rw [Function.update_self] at h
        exact ⟨i, by simp, rfl, Option.some.inj h⟩
      · rw [Function.update_of_ne hp] at h
        obtain ⟨j, hj, hjp⟩ := ih h
        exact ⟨j, by simp [hj], hjp⟩

lemma logImages_append (Ts : List Txn) (T : Txn) (p : ℕ) :
    logImages (Ts ++ [T]) p = (overlay (fun _ => none) T.images p).or (logImages Ts p) := by
  rw [logImages, List.foldl_append]
  exact overlay_apply _ _ _

/-- The images of a transaction, by page. -/
def Txn.image (T : Txn) : ℕ → Option Bytes := overlay (fun _ => none) T.images

/-- **What committing the open transaction of `g` as `T` makes of the version**: `v`. -/
structure NextOk (g : Ghost) (T : Txn) (v : Version) : Prop where
  txn : TxnOk g.id g.disk.features g.tx T
  images : T.images = g.tail
  version : v.Ok
  header : v.header = T.header
  pages : v.pages = T.pages
  mono : g.version.pages ≤ v.pages
  metadata : ∃ b, v.header.page 0 = .ok b ∧ T.image 0 = some b
  page : ∀ p, 2 ≤ p → p < v.pages → v.page p = (T.image p).getD (g.version.page p)
  cover : ∀ p, g.version.pages ≤ p → p < v.pages → (T.image p).isSome
  cap : logEnd (g.txns ++ [T]) + v.pages * PageWal.page ≤ v.header.cap

/-- `g` after the commit. -/
def Ghost.commit (g : Ghost) (T : Txn) (v : Version) : Ghost :=
  { g with txns := g.txns ++ [T], tail := [], version := v }

/-- **Between the commit frame and its barrier**: a crash leaves the version before the commit
or the one after it. -/
structure Committing (g : Ghost) (T : Txn) (v : Version) (w : Disk) : Prop where
  before : g.version.Ok
  next : NextOk g T v
  fits : LogFits g.disk v g.t₀ (g.txns ++ [T])
  wal : w.wal.contents = (g.commit T v).walBytes
  cap : (g.commit T v).walBytes.length ≤ walCap
  data : ∀ d, DataCrash w.data d →
    DataOk g.disk (Covers g.txns) g.version d ∧ DataOk g.disk (Covers (g.txns ++ [T])) v d
  crash : ∀ c, WalCrash w.wal c → Survivor g c ∨ Survivor (g.commit T v) c

lemma NextOk.tx_eq (hn : NextOk g T v) : v.header.tx = g.tx := by
  rw [hn.header]; exact hn.txn.header_fields.2.2

lemma Ghost.walBytes_commit (hn : NextOk g T v) (hf : LogFits g.disk g.version g.t₀ g.txns) :
    (g.commit T v).walBytes = g.walBytes ++ commitFrame g.id g.tx T.pages (framesCrc g.id g.tx g.tail) := by
  show encodeLog g.id g.t₀ (g.txns ++ [T]) ++ encodeImages g.id _ [] = _
  rw [encodeLog_append, encodeLog, encodeLog, List.append_nil, encodeTxn, hn.images, hf.tx]
  simp [encodeImages, Ghost.walBytes, Ghost.logBytes, Ghost.tx]

lemma LogFits.commit (hf : LogFits g.disk g.version g.t₀ g.txns) (hn : NextOk g T v) :
    LogFits g.disk v g.t₀ (g.txns ++ [T]) := by
  have htx := hf.tx
  have hfl := hf.floor
  have hv := hn.tx_eq
  have hgt : g.tx = g.version.header.tx + 1 := rfl
  have hlast : ∀ k U, (g.txns ++ [T])[k]? = some U →
      (g.txns[k]? = some U) ∨ (k = g.txns.length ∧ U = T) := by
    intro k U hk
    rcases Nat.lt_or_ge k g.txns.length with hlt | hge
    · rw [List.getElem?_append_left hlt] at hk
      exact Or.inl hk
    · rw [List.getElem?_append_right hge] at hk
      have h0 : k - g.txns.length = 0 := by
        by_contra h0
        rw [List.getElem?_eq_none (by simp; omega)] at hk
        cases hk
      rw [h0] at hk
      exact Or.inr ⟨by omega, by simpa using hk.symm⟩
  refine ⟨⟨hf.log.pos, hf.log.le, ?_, ?_⟩, ?_, by omega, ?_, ?_, ?_, ?_, ?_, hn.cap⟩
  · intro k U hk
    rcases hlast k U hk with hk | ⟨rfl, rfl⟩
    · exact hf.log.txn k U hk
    · rw [htx]; exact hn.txn
  · intro k U hk hfloor
    rcases hlast k U hk with hk | ⟨rfl, rfl⟩
    · exact hf.log.floor k U hk hfloor
    · omega
  · rw [List.length_append, List.length_singleton, hv, hgt]; omega
  · rw [headerAfter, List.getLast?_concat, hn.header]; rfl
  · intro U hU
    rw [List.getLast?_concat, Option.some.injEq] at hU
    rw [← hU, hn.pages]
  · intro _
    obtain ⟨b, hb, hi⟩ := hn.metadata
    exact ⟨b, hb, by rw [logImages_append, ← Txn.image, hi]; rfl⟩
  · intro p b h2 hp hb
    rw [hn.page p h2 hp]
    rw [logImages_append] at hb
    cases hi : T.image p with
    | some b' =>
        rw [← Txn.image, hi] at hb
        simpa using hb
    | none =>
        rw [← Txn.image, hi, Option.none_or] at hb
        have hlt : p < g.version.pages := by
          by_contra hge
          have := hn.cover p (by omega) hp
          rw [hi] at this
          cases this
        exact hf.images p b h2 hlt hb
  · intro p hp
    rw [logImages_append, Option.isSome_or, Bool.or_eq_true, overlay_isSome] at hp
    rcases hp with ⟨i, hi, rfl⟩ | hp
    · rw [hn.pages]; exact hn.txn.lt_pages i hi
    · exact lt_of_lt_of_le (hf.covered p hp) hn.mono

lemma DataOk.commit {d : Bytes} (hd : DataOk g.disk (Covers g.txns) g.version d)
    (hn : NextOk g T v) : DataOk g.disk (Covers (g.txns ++ [T])) v d := by
  refine ⟨hd.metadata, hd.length.trans (Nat.mul_le_mul_right _ hn.mono), ?_⟩
  intro p h2 hp hc
  rw [Covers, logImages_append, Option.isSome_or, Bool.or_eq_true, not_or] at hc
  have hlt : p < g.version.pages := by
    by_contra hge
    exact hc.1 (hn.cover p (by omega) hp)
  obtain ⟨hl, he⟩ := hd.uncovered p h2 hlt hc.2
  refine ⟨hl, ?_⟩
  rw [hn.page p h2 hp, he]
  have : T.image p = none := by simpa [Txn.image] using hc.1
  rw [this]; rfl

/-- **The commit frame is written.** -/
lemma FilesOk.commit (h : FilesOk g w) (hn : NextOk g T v)
    (hcap : g.walBytes.length + frameLen ≤ walCap) :
    Committing g T v (w.putWal g.walBytes.length
      (commitFrame g.id g.tx T.pages (framesCrc g.id g.tx g.tail))) := by
  have hf : (commitFrame g.id g.tx T.pages (framesCrc g.id g.tx g.tail)).length = frameLen :=
    length_commitFrame h.valid.identity _ _
  have hw := Ghost.walBytes_commit hn h.fits
  have hfits := h.fits.commit hn
  refine ⟨h.version, hn, hfits, ?_, by rw [hw, List.length_append, hf]; exact hcap,
    fun d hd => ⟨h.data d hd, (h.data d hd).commit hn⟩, ?_⟩
  · rw [Disk.wal_putWal, ← h.wal, contents_append, h.wal, hw]
  · intro c hc
    rw [Disk.wal_putWal, ← h.wal, walCrash_append, h.wal] at hc
    rcases hc with hc | ⟨j, hj, rfl⟩ | rfl
    · exact Or.inl (h.crash c hc)
    · exact Or.inl (h.survivor (by rw [List.length_take]; omega) (by rw [List.length_take]; omega))
    · refine Or.inr ⟨g.t₀, g.txns ++ [T], [], [], hfits, by simp, ?_, by decide, ?_, fun _ hp => hp⟩
      · rw [← hw]; simp [encodeImages, Ghost.walBytes, Ghost.logBytes, Ghost.commit]
      · rw [List.length_append, hf]; exact hcap

/-- **The barrier decides for the new version.** -/
lemma Committing.barrier (h : Committing g T v w) : FilesOk (g.commit T v) w.barrierWal := by
  refine ⟨h.next.version, h.fits, by simp [Ghost.commit], h.wal, h.cap,
    fun d hd => (h.data d hd).2, fun c hc => ?_⟩
  rw [Disk.wal_barrierWal, WalCrash, DurableFile.Crash.barrier, h.wal] at hc
  refine ⟨g.t₀, g.txns ++ [T], [], [], h.fits, by simp, ?_, by decide, by rw [hc]; exact h.cap,
    fun _ hp => hp⟩
  rw [hc]
  simp [encodeImages, Ghost.walBytes, Ghost.logBytes, Ghost.commit]

/-- Either version, whatever the crash left. -/
lemma Committing.recover {cf : ℕ} {d c : Bytes} (h : Committing g T v w)
    (hd : DataCrash w.data d) (hc : WalCrash w.wal c) :
    PageWal.recover cf d c = .ok g.version.image ∨ PageWal.recover cf d c = .ok v.image := by
  rcases h.crash c hc with hs | hs
  · exact Or.inl (hs.recover h.before (h.data d hd).1)
  · exact Or.inr (hs.recover h.next.version (h.data d hd).2)

end commit

/-! ## The steps of a checkpoint -/

section checkpoint

variable {g : Ghost} {w : Disk} {d d' : Bytes} {disk h : Header} {v : Version} {cov : ℕ → Prop}

lemma pageAt_splice_ne {p q : ℕ} {x : Bytes} (hx : x.length ≤ page) (hq : p ≠ q)
    (hl : q * page + page ≤ d.length) : pageAt (d.splice (p * page) x) q = pageAt d q := by
  rcases Nat.lt_or_gt_of_ne hq with hlt | hgt
  · refine slice_splice_after ?_
    have := Nat.mul_le_mul_right page (show p + 1 ≤ q by omega)
    rw [Nat.succ_mul] at this
    omega
  · refine slice_splice_before ?_ hl
    have := Nat.mul_le_mul_right page (show q + 1 ≤ p by omega)
    rw [Nat.succ_mul] at this
    omega

lemma pageAt_splice_self {p : ℕ} {x : Bytes} (hx : x.length = page) :
    pageAt (d.splice (p * page) x) p = x := by
  rw [pageAt, ← hx]; exact slice_splice_self _ _ _

/-- The metadata depends on its two pages only. -/
lemma MetaOk.congr (hm : MetaOk d disk) (hl : 2 * page ≤ d'.length)
    (h0 : pageAt d' 0 = pageAt d 0) (h1 : pageAt d' 1 = pageAt d 1) : MetaOk d' disk := by
  obtain ⟨-, c₀, c₁, k₀, k₁, hsel, hu₀, hu₁⟩ := hm
  exact ⟨hl, c₀, c₁, k₀.congr h0, k₁.congr h1, hsel, hu₀, hu₁⟩

/-- A write to a page the log covers. -/
lemma DataOk.writePage (hd : DataOk disk cov v d) {p : ℕ} (hc : cov p) (h2 : 2 ≤ p)
    (hp : p < v.pages) {x : Bytes} (hx : x.length ≤ page) :
    DataOk disk cov v (d.splice (p * page) x) := by
  have hm := hd.metadata.length
  have hlen := length_splice d (p * page) x
  have hpl := Nat.mul_le_mul_right page (show p + 1 ≤ v.pages by omega)
  rw [Nat.succ_mul] at hpl
  have hl := hd.length
  refine ⟨hd.metadata.congr (by rw [hlen]; omega) ?_ ?_, by rw [hlen]; omega, ?_⟩
  · exact pageAt_splice_ne hx (by omega) (by omega)
  · exact pageAt_splice_ne hx (by omega) (by omega)
  · intro q hq2 hq hn
    obtain ⟨hql, hqe⟩ := hd.uncovered q hq2 hq hn
    have hne : p ≠ q := by rintro rfl; exact hn hc
    exact ⟨by rw [hlen]; omega, by rw [pageAt_splice_ne hx hne hql, hqe]⟩

lemma DataOk.resize (hd : DataOk disk cov v d) :
    DataOk disk cov v (d.resize (v.pages * page)) := by
  have hm := hd.metadata.length
  have hl := hd.length
  have hlen := length_resize d (v.pages * page)
  refine ⟨hd.metadata.congr (by rw [hlen]; omega) ?_ ?_, by rw [hlen], ?_⟩
  · exact slice_resize (by omega) (by omega)
  · exact slice_resize (by omega) (by omega)
  · intro q hq2 hq hn
    obtain ⟨hql, hqe⟩ := hd.uncovered q hq2 hq hn
    have hqp := Nat.mul_le_mul_right page (show q + 1 ≤ v.pages by omega)
    rw [Nat.succ_mul] at hqp
    exact ⟨by rw [hlen]; omega, (slice_resize (by omega) (by omega)).trans hqe⟩

/-- A committed page is copied into the data file. -/
lemma FilesOk.copyPage (h : FilesOk g w) {p : ℕ} (hc : Covers g.txns p) (h2 : 2 ≤ p)
    (hp : p < g.version.pages) {b : Bytes} (hb : b.length = page) :
    FilesOk g (w.pushData (.writeAt (p * page) b)) := by
  refine ⟨h.version, h.fits, h.tail, h.wal, h.cap, fun d hd => ?_, h.crash⟩
  rw [Disk.data_pushData, DataCrash, DurableFile.Crash.push] at hd
  rcases hd with hd | ⟨j, -, rfl, -⟩ | rfl
  · exact h.data d hd
  · exact h.dataOk.writePage hc h2 hp (by rw [List.length_take]; omega)
  · exact h.dataOk.writePage hc h2 hp hb.le

lemma FilesOk.resizeData (h : FilesOk g w) :
    FilesOk g (w.pushData (.setLen (g.version.pages * page))) := by
  refine ⟨h.version, h.fits, h.tail, h.wal, h.cap, fun d hd => ?_, h.crash⟩
  rw [Disk.data_pushData, DataCrash, DurableFile.Crash.push] at hd
  rcases hd with hd | hd | rfl
  · exact h.data d hd
  · cases hd
  · exact h.dataOk.resize

lemma FilesOk.barrierData (h : FilesOk g w) : FilesOk g w.barrierData :=
  ⟨h.version, h.fits, h.tail, h.wal, h.cap, fun d hd => by
    rw [Disk.data_barrierData, DataCrash, DurableFile.Crash.barrier] at hd
    rw [hd]; exact h.dataOk, h.crash⟩

/-- **Every page of the version is in the data file**, whatever a crash leaves of it. -/
def Full (g : Ghost) (w : Disk) : Prop :=
  ∀ d, DataCrash w.data d → DataOk g.disk (fun _ => False) g.version d

/-- A barrier behind the copies makes the data file full. -/
lemma FilesOk.full_barrier (h : FilesOk g w)
    (hall : ∀ p, 2 ≤ p → p < g.version.pages → Covers g.txns p →
      p * page + page ≤ w.data.contents.length ∧ pageAt w.data.contents p = g.version.page p) :
    Full g w.barrierData := by
  intro d hd
  rw [Disk.data_barrierData, DataCrash, DurableFile.Crash.barrier] at hd
  subst hd
  refine ⟨h.dataOk.metadata, h.dataOk.length, fun p h2 hp _ => ?_⟩
  by_cases hc : Covers g.txns p
  · exact hall p h2 hp hc
  · exact h.dataOk.uncovered p h2 hp hc

/-- The other copy. -/
def otherCopy (i : ℕ) : ℕ := 1 - i

/-- While one copy is replaced by `h`, the other one holds what it held: the newest intact copy
is the old header or `h`. -/
lemma metaOk_replace {i : ℕ} (hi : i < 2) (hm : MetaOk d disk) (hj : Copy d (otherCopy i) (some disk))
    (hv : h.Valid) (hup : disk.Upto h) (hl : 2 * page ≤ d'.length)
    (hother : pageAt d' (otherCopy i) = pageAt d (otherCopy i)) {b : Bytes} (hb : h.page i = .ok b)
    (hpage : Intact (pageAt d' i) → pageAt d' i = pageAt d i ∨ pageAt d' i = b) :
    (MetaOk d' disk ∧ pageAt d' i ≠ b) ∨ MetaOk d' h := by
  by_cases hnew : pageAt d' i = b
  · right
    have hci : Copy d' i (some h) := .intact h hv (by rw [hnew]; exact hb)
    have hcj := hj.congr hother
    rcases (by omega : i = 0 ∨ i = 1) with rfl | rfl
    · exact ⟨hl, _, _, hci, hcj, Or.inl rfl, by rintro _ ⟨⟩; exact h.upto_refl,
        by rintro _ ⟨⟩; exact hup⟩
    · exact ⟨hl, _, _, hcj, hci, Or.inr rfl, by rintro _ ⟨⟩; exact hup,
        by rintro _ ⟨⟩; exact h.upto_refl⟩
  · left
    refine ⟨?_, hnew⟩
    by_cases hint : Intact (pageAt d' i)
    · have hold : pageAt d' i = pageAt d i := (hpage hint).resolve_right hnew
      rcases (by omega : i = 0 ∨ i = 1) with rfl | rfl
      · exact hm.congr hl hold hother
      · exact hm.congr hl hother hold
    · have hci : Copy d' i none := .damaged hint
      have hcj := hj.congr hother
      rcases (by omega : i = 0 ∨ i = 1) with rfl | rfl
      · exact ⟨hl, _, _, hci, hcj, Or.inr rfl, by rintro _ ⟨⟩, by rintro _ ⟨⟩; exact disk.upto_refl⟩
      · exact ⟨hl, _, _, hcj, hci, Or.inl rfl, by rintro _ ⟨⟩; exact disk.upto_refl, by rintro _ ⟨⟩⟩

/-- A log over the checkpoint's own version is as good over the version it amounts to. -/
lemma LogFits.rebase {t₀ : ℕ} {Ts : List Txn} (hf : LogFits disk v t₀ Ts) :
    LogFits v.header v t₀ Ts ∧ v.header.identity = disk.identity
      ∧ v.header.features = disk.features := by
  have htx := hf.tx
  have hid : v.header.identity = disk.identity ∧ v.header.features = disk.features := by
    rw [← hf.header, headerAfter]
    cases hl : Ts.getLast? with
    | none => exact ⟨rfl, rfl⟩
    | some T =>
        obtain ⟨k, hk⟩ := List.mem_iff_getElem?.1 (List.mem_of_getLast? hl)
        have := (hf.log.txn k T hk).header_fields
        exact ⟨this.1, this.2.1⟩
  refine ⟨⟨⟨hf.log.pos, by omega, ?_, ?_⟩, htx, le_rfl, ?_, hf.pages, hf.metadata, hf.images,
    hf.covered, hf.cap⟩, hid⟩
  · intro k T hk
    rw [hid.1, hid.2]
    exact hf.log.txn k T hk
  · intro k T hk hfl
    have hlt := (List.getElem?_eq_some_iff.1 hk).1
    have hlast : Ts.getLast? = some T := by
      rw [List.getLast?_eq_getElem?, ← hk]
      congr 1
      omega
    rw [← hf.header, headerAfter, hlast]
    rfl
  · have := hf.header
    rw [headerAfter] at this ⊢
    cases hl : Ts.getLast? with
    | none => rfl
    | some T => rw [hl] at this; exact this

/-- `g` once its version is checkpointed; the log is still there. -/
def Ghost.rebase (g : Ghost) : Ghost := { g with disk := g.version.header }

/-- `g` once the log is reset as well. -/
def Ghost.reset (g : Ghost) : Ghost where
  disk := g.version.header
  t₀ := g.version.header.tx + 1
  txns := []
  tail := []
  version := g.version

lemma Survivor.rebase {c : Bytes} (hf : LogFits g.disk g.version g.t₀ g.txns) (hs : Survivor g c) :
    Survivor g.rebase c := by
  obtain ⟨t₀, Ts, us, rest, hfit, hus, hc, hr, hcap, hcov⟩ := hs
  obtain ⟨-, hid, hft⟩ := hf.rebase
  refine ⟨t₀, Ts, us, rest, hfit.rebase.1, ?_, ?_, hr, hcap, hcov⟩
  · intro i hi
    show ImageOk g.version.header.identity g.version.header.features _ i
    rw [hid, hft]
    exact hus i hi
  · show c = encodeLog g.version.header.identity t₀ Ts
      ++ (encodeImages g.version.header.identity g.tx us ++ rest)
    rw [hid]; exact hc

/-- The checkpointed header is the version's, or older. -/
lemma LogFits.upto {t₀ : ℕ} {Ts : List Txn} (hf : LogFits disk v t₀ Ts) : disk.Upto v.header := by
  obtain ⟨-, hid, hft⟩ := hf.rebase
  refine ⟨hid.symm, hft.symm, ?_⟩
  rcases Nat.lt_or_ge disk.tx v.header.tx with hlt | hge
  · exact Or.inl hlt
  · right
    have htx := hf.tx
    have hfl := hf.floor
    have hle := hf.log.le
    rcases List.eq_nil_or_concat Ts with rfl | ⟨Us, T, rfl⟩
    · exact hf.header
    · rw [List.concat_eq_append] at *
      rw [List.length_append, List.length_singleton] at htx
      have hT := hf.log.floor Us.length T (by simp) (by omega)
      rw [← hf.header, headerAfter, List.getLast?_concat]
      exact hT.symm

/-- **The first metadata copy is being replaced**: the files yield the version under either
header. -/
structure Absorbing (g : Ghost) (w : Disk) : Prop where
  version : g.version.Ok
  fits : LogFits g.disk g.version g.t₀ g.txns
  wal : w.wal.contents = g.walBytes
  cap : g.walBytes.length ≤ walCap
  tail : ∀ i ∈ g.tail, g.Image i
  data : ∀ d, DataCrash w.data d → DataOk g.disk (fun _ => False) g.version d
    ∨ DataOk g.version.header (fun _ => False) g.version d
  crash : ∀ c, WalCrash w.wal c → Survivor g c

lemma Absorbing.recover {cf : ℕ} {c : Bytes} (h : Absorbing g w) (hd : DataCrash w.data d)
    (hc : WalCrash w.wal c) : PageWal.recover cf d c = .ok g.version.image := by
  rcases h.data d hd with hd | hd
  · exact (h.crash c hc).recover h.version (hd.mono fun _ hf => hf.elim)
  · exact ((h.crash c hc).rebase h.fits).recover h.version (hd.mono fun _ hf => hf.elim)

/-- Replacing one copy touches nothing but the metadata. -/
lemma DataOk.writeMeta (hd : DataOk disk cov v d) {i : ℕ} (hi : i < 2) {x : Bytes}
    (hx : x.length ≤ page) (hm : MetaOk (d.splice (i * page) x) h) (h2 : 2 ≤ v.pages) :
    DataOk h cov v (d.splice (i * page) x) := by
  have hl := hd.length
  have hpl := Nat.mul_le_mul_right page h2
  have hipl := Nat.mul_le_mul_right page (show i + 1 ≤ 2 by omega)
  rw [Nat.succ_mul] at hipl
  have hlen := length_splice d (i * page) x
  refine ⟨hm, by rw [hlen]; omega, fun q hq2 hq hn => ?_⟩
  obtain ⟨hql, hqe⟩ := hd.uncovered q hq2 hq hn
  exact ⟨by rw [hlen]; omega, by rw [pageAt_splice_ne hx (by omega) hql, hqe]⟩

/-- What writing copy `i` leaves in one place or the other. -/
lemma DataOk.replaceMeta (hd : DataOk disk cov v d) {i : ℕ} (hi : i < 2)
    (hj : Copy d (otherCopy i) (some disk)) (hv : v.Ok) (hup : disk.Upto v.header) {b x : Bytes}
    (hb : v.header.page i = .ok b) (hx : x.length ≤ page)
    (hpage : Intact (pageAt (d.splice (i * page) x) i) →
      pageAt (d.splice (i * page) x) i = pageAt d i ∨ pageAt (d.splice (i * page) x) i = b) :
    (DataOk disk cov v (d.splice (i * page) x) ∧ pageAt (d.splice (i * page) x) i ≠ b)
      ∨ DataOk v.header cov v (d.splice (i * page) x) := by
  have hm := hd.metadata.length
  have hlen := length_splice d (i * page) x
  have hother : pageAt (d.splice (i * page) x) (otherCopy i) = pageAt d (otherCopy i) := by
    refine pageAt_splice_ne hx (by rw [otherCopy]; omega) ?_
    have := Nat.mul_le_mul_right page (show otherCopy i + 1 ≤ 2 by rw [otherCopy]; omega)
    rw [Nat.succ_mul] at this
    omega
  rcases metaOk_replace hi hd.metadata hj hv.valid hup (by rw [hlen]; omega) hother hb hpage
    with ⟨hmeta, hne⟩ | hmeta
  · exact Or.inl ⟨hd.writeMeta hi hx hmeta hv.two_le, hne⟩
  · exact Or.inr (hd.writeMeta hi hx hmeta hv.two_le)

lemma length_headerPage {no : ℕ} {b : Bytes} (hv : h.Valid) (hno : no < 2 ^ 32)
    (hb : h.page no = .ok b) : b.length = page := by
  obtain ⟨b', hb', -, hs, -⟩ := Header.page_spec hv hno
  cases hb.symm.trans hb'
  exact hs.length

/-- **The first copy is written.** -/
lemma FilesOk.firstCopy (h : FilesOk g w) (hfull : Full g w) {i : ℕ} (hi : i < 2)
    (hj : Copy w.data.contents (otherCopy i) (some g.disk)) {b : Bytes}
    (hb : g.version.header.page i = .ok b) :
    Absorbing g (w.pushData (.writeAt (i * page) b)) := by
  have hbl := length_headerPage h.version.valid (by omega : i < 2 ^ 32) hb
  have hd0 := hfull _ (DurableFile.crash_contents _)
  refine ⟨h.version, h.fits, h.wal, h.cap, h.tail, fun d hd => ?_, h.crash⟩
  rw [Disk.data_pushData, DataCrash, DurableFile.Crash.push] at hd
  rcases hd with hd | ⟨j, -, rfl, hcrc⟩ | rfl
  · exact Or.inl (hfull d hd)
  · refine (hd0.replaceMeta hi hj h.version h.fits.upto hb (by rw [List.length_take]; omega)
      fun hint => ?_).imp_left And.left
    have := hcrc i hint
    rwa [pageAt_splice_self hbl] at this
  · refine (hd0.replaceMeta hi hj h.version h.fits.upto hb hbl.le fun _ => ?_).imp_left And.left
    exact Or.inr (pageAt_splice_self hbl)

/-- **The first copy is durable**: the version is checkpointed. -/
lemma FilesOk.firstCopy_barrier (h : FilesOk g w) (hfull : Full g w) {i : ℕ} (hi : i < 2)
    (hj : Copy w.data.contents (otherCopy i) (some g.disk)) {b : Bytes}
    (hb : g.version.header.page i = .ok b) :
    FilesOk g.rebase (w.pushData (.writeAt (i * page) b)).barrierData
      ∧ Full g.rebase (w.pushData (.writeAt (i * page) b)).barrierData
      ∧ Copy (w.pushData (.writeAt (i * page) b)).barrierData.data.contents i
          (some g.version.header) := by
  have hbl := length_headerPage h.version.valid (by omega : i < 2 ^ 32) hb
  have hd0 := hfull _ (DurableFile.crash_contents _)
  obtain ⟨hfit, hid, hft⟩ := h.fits.rebase
  have hnew : DataOk g.version.header (fun _ => False) g.version
      (w.data.contents.splice (i * page) b) := by
    rcases hd0.replaceMeta hi hj h.version h.fits.upto hb hbl.le
      (fun _ => Or.inr (pageAt_splice_self hbl)) with ⟨-, hne⟩ | hok
    · exact absurd (pageAt_splice_self hbl) hne
    · exact hok
  have hcont : (w.pushData (.writeAt (i * page) b)).barrierData.data.contents
      = w.data.contents.splice (i * page) b := by
    simp [FileOp.apply]
  have hdata : Full g.rebase (w.pushData (.writeAt (i * page) b)).barrierData := by
    intro d hd
    rw [Disk.data_barrierData, DataCrash, DurableFile.Crash.barrier] at hd
    rw [hd]
    exact hcont ▸ hnew
  have hwal : g.rebase.walBytes = g.walBytes := by
    show encodeLog g.version.header.identity _ _ ++ encodeImages g.version.header.identity _ _ = _
    rw [hid]; rfl
  refine ⟨⟨h.version, hfit, ?_, by rw [hwal]; exact h.wal, by rw [hwal]; exact h.cap,
    fun d hd => (hdata d hd).mono fun _ hf => hf.elim, fun c hc => (h.crash c hc).rebase h.fits⟩,
    hdata, ?_⟩
  · intro j hj
    show ImageOk g.version.header.identity g.version.header.features _ j
    rw [hid, hft]
    exact h.tail j hj
  · rw [hcont]
    exact .intact _ h.version.valid (by rw [pageAt_splice_self hbl]; exact hb)

/-- **The second copy is written**, torn or not: the first one holds the version. -/
lemma FilesOk.secondCopy (h : FilesOk g w) (hfull : Full g w) (hdisk : g.disk = g.version.header)
    {i : ℕ} (hi : i < 2) (hj : Copy w.data.contents (otherCopy i) (some g.disk)) {b : Bytes}
    (hb : g.version.header.page i = .ok b) :
    FilesOk g (w.pushData (.writeAt (i * page) b))
      ∧ Full g (w.pushData (.writeAt (i * page) b)) := by
  have hbl := length_headerPage h.version.valid (by omega : i < 2 ^ 32) hb
  have hd0 := hfull _ (DurableFile.crash_contents _)
  have hdata : Full g (w.pushData (.writeAt (i * page) b)) := by
    intro d hd
    rw [Disk.data_pushData, DataCrash, DurableFile.Crash.push] at hd
    rcases hd with hd | ⟨j, -, rfl, hcrc⟩ | rfl
    · exact hfull d hd
    · have hrep := hd0.replaceMeta hi hj h.version h.fits.upto hb
        (x := b.take j) (by rw [List.length_take]; omega) fun hint => by
          have := hcrc i hint
          rwa [pageAt_splice_self hbl] at this
      rw [← hdisk] at hrep
      exact hrep.elim And.left fun hok => hok
    · have hrep := hd0.replaceMeta hi hj h.version h.fits.upto hb hbl.le
        (fun _ => Or.inr (pageAt_splice_self hbl))
      rw [← hdisk] at hrep
      exact hrep.elim And.left fun hok => hok
  exact ⟨⟨h.version, h.fits, h.tail, h.wal, h.cap,
    fun d hd => (hdata d hd).mono fun _ hf => hf.elim, h.crash⟩, hdata⟩

/-- **The log is reset.**  A lost truncation leaves the absorbed frames, which yield the same
version. -/
lemma FilesOk.reset (h : FilesOk g w) (hfull : Full g w) (hdisk : g.disk = g.version.header) :
    FilesOk g.reset (w.pushWal (.setLen 0)) := by
  have hfit : LogFits g.version.header g.version (g.version.header.tx + 1) [] := by
    have := h.fits.cap
    refine ⟨⟨by omega, le_rfl, by simp, by simp⟩, rfl, le_rfl, rfl, by simp, by simp, ?_, ?_, ?_⟩
    · intro p b _ _ hb; cases hb
    · intro p hp; cases hp
    · rw [logEnd_nil]; omega
  have hwal : g.reset.walBytes = [] := by
    simp [Ghost.walBytes, Ghost.logBytes, Ghost.reset, encodeLog, encodeImages]
  refine ⟨h.version, hfit, by simp [Ghost.reset], ?_, by rw [hwal]; decide, ?_, ?_⟩
  · rw [Disk.wal_pushWal, DurableFile.contents_push, hwal]
    simp [FileOp.apply, Bytes.resize]
  · intro d hd
    show DataOk g.version.header (Covers []) g.version d
    rw [← hdisk]
    exact (hfull d hd).mono fun _ hf => hf.elim
  · intro c hc
    rw [Disk.wal_pushWal, WalCrash, DurableFile.Crash.push] at hc
    rcases hc with hc | hc | rfl
    · obtain ⟨t₀, Ts, us, rest, hf, hus, he, hr, hcap, -⟩ := h.crash c hc
      refine ⟨t₀, Ts, us, rest, ?_, ?_, ?_, hr, hcap, fun p hp => absurd hp (covers_nil p)⟩
      · show LogFits g.version.header g.version t₀ Ts
        rw [← hdisk]; exact hf
      · intro i hi
        show ImageOk g.version.header.identity g.version.header.features _ i
        rw [← hdisk]; exact hus i hi
      · show c = encodeLog g.version.header.identity t₀ Ts
          ++ (encodeImages g.version.header.identity g.tx us ++ rest)
        rw [← hdisk]; exact he
    · cases hc
    · refine ⟨_, [], [], [], hfit, by simp, ?_, by decide, ?_, fun p hp => hp⟩
      · simp [FileOp.apply, Bytes.resize, encodeLog, encodeImages]
      · simp [FileOp.apply, Bytes.resize]

end checkpoint

end PageWal
