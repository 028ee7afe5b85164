import Sekejap.PageWal.Log

/-!
# The page image a log describes

`read_page` answers a page from the log when the index has it, from the checkpoint metadata for
page 0, and from the data file otherwise.

What it answers is described without offsets.  `logImages` is the last image of every page in a
log; `Tracks wal idx m` says that the references of `idx` lead to the images of `m`, which holds
of the index of every log (`tracks_indexLog`) and of one frame more (`Tracks.insert`).  An
`Image` is what a committed transaction looks like to a reader, and **`recover_fits`** says that the
two files of a version, with less than one frame behind the log, yield its image: the criterion
everything else uses.
-/

open Bytes Page Crc32c

namespace PageWal

/-- `read_page`: page `p` under `index`, verified. -/
def readPage (data wal : Bytes) (index : Index) (p : ℕ) : Except Error Bytes := do
  let dst ←
    match index[p]? with
    | some off => do
        let b ← readIndexedFrame wal off
        if frameNo b ≠ p then throw (bad "WAL page identity")
        pure (framePayload b)
    | none =>
        if p = 0 then do
          match ← diskHeader data with
          | none => throw (bad "both checkpoint metadata copies damaged")
          | some h => h.page 0
        else readAt data (p * page) page
  let _ ← PageRef.openChecked dst p
  return dst

/-! ## Images by page number -/

/-- The last image of every page, over what was there before. -/
def overlay (m : ℕ → Option Bytes) (us : List (ℕ × Bytes)) : ℕ → Option Bytes :=
  us.foldl (fun m i => Function.update m i.1 (some i.2)) m

def logImages (Ts : List Txn) : ℕ → Option Bytes :=
  Ts.foldl (fun m T => overlay m T.images) fun _ => none

/-- `r` refers to a frame that carries the image `b` of page `p`. -/
structure ImageAt (id wal : Bytes) (p : ℕ) (r : FrameRef) (b : Bytes) : Prop where
  inside : r.offset + frameLen ≤ wal.length
  frame : ∃ tx, wal.slice r.offset frameLen = imageFrame id tx (p, b)
  checksum : r.checksum = frameCrc (wal.slice r.offset frameLen)
  length : b.length = page
  lt : p < 2 ^ 32
  opens : PageRef.openChecked b p = .ok ⟨b⟩

/-- **The index `idx` leads to the images `m`.** -/
def Tracks (id wal : Bytes) (idx : Index) (m : ℕ → Option Bytes) : Prop :=
  ∀ p, (idx[p]? = none ∧ m p = none) ∨ ∃ r b, idx[p]? = some r ∧ m p = some b ∧ ImageAt id wal p r b

section tracks

variable {id wal : Bytes} {idx : Index} {m : ℕ → Option Bytes}

lemma tracks_empty : Tracks id wal ∅ fun _ => none := fun _ => Or.inl ⟨by simp, rfl⟩

/-- One more frame. -/
lemma Tracks.insert (h : Tracks id wal idx m) {p : ℕ} {r : FrameRef} {b : Bytes}
    (hi : ImageAt id wal p r b) :
    Tracks id wal (idx.insert p r) (Function.update m p (some b)) := by
  intro q
  by_cases hq : p = q
  · subst hq
    exact Or.inr ⟨r, b, by simp, by simp, hi⟩
  · have hidx : (idx.insert p r)[q]? = idx[q]? := by
      rw [Std.ExtTreeMap.getElem?_insert, if_neg (by simpa using hq)]
    have hm : Function.update m p (some b) q = m q := Function.update_of_ne (Ne.symm hq) _ _
    rw [hidx, hm]
    exact h q

lemma imageAt_segment {pre rest : Bytes} {features tx : ℕ} {i : ℕ × Bytes} (hid : id.length = 16)
    (hi : ImageOk id features tx i) (hw : wal = pre ++ (imageFrame id tx i ++ rest)) :
    ImageAt id wal i.1 ⟨pre.length, frameCrc (imageFrame id tx i)⟩ i.2 := by
  have hs : wal.slice pre.length frameLen = imageFrame id tx i :=
    slice_segment pre hw rfl (length_imageFrame hid hi.length)
  refine ⟨?_, ⟨tx, hs⟩, by rw [hs], hi.length, hi.lt, hi.opens⟩
  have : (imageFrame id tx i).length = frameLen := length_imageFrame hid hi.length
  show pre.length + frameLen ≤ wal.length
  rw [hw, List.length_append, List.length_append]
  omega

lemma tracks_trackImages (hid : id.length = 16) {features tx : ℕ} :
    ∀ (us : List (ℕ × Bytes)) (pre rest : Bytes) (idx : Index) (m : ℕ → Option Bytes),
    (∀ i ∈ us, ImageOk id features tx i) → wal = pre ++ (encodeImages id tx us ++ rest) →
    Tracks id wal idx m → Tracks id wal (trackImages id tx pre.length us idx) (overlay m us)
  | [], _, _, _, _, _, _, h => h
  | i :: us, pre, rest, idx, m, hus, hw, h => by
      have hi := hus i List.mem_cons_self
      rw [show i :: us = [i] ++ us from rfl, encodeImages_append, encodeImages_singleton,
        List.append_assoc] at hw
      have hl : pre.length + frameLen = (pre ++ imageFrame id tx i).length := by
        rw [List.length_append, length_imageFrame hid hi.length]
      rw [trackImages, hl]
      exact tracks_trackImages hid us (pre ++ imageFrame id tx i) rest _ _
        (fun j hj => hus j (List.mem_cons_of_mem _ hj)) (by rw [hw, List.append_assoc])
        (h.insert (imageAt_segment hid hi hw))

/-- **The index of a log leads to its images.** -/
lemma tracks_indexLog {disk : Header} {t₀ : ℕ} (hv : disk.Valid) : ∀ (Ts : List Txn) (rest : Bytes),
    LogOk disk t₀ Ts → wal = encodeLog disk.identity t₀ Ts ++ rest →
    Tracks disk.identity wal (indexLog disk.identity t₀ 0 Ts ∅) (logImages Ts) := by
  intro Ts
  induction Ts using List.reverseRecOn with
  | nil => intro rest _ _; exact tracks_empty
  | append_singleton Ts T ih =>
      intro rest hlog hw
      have hT : TxnOk disk.identity disk.features (t₀ + Ts.length) T := hlog.txn _ T (by simp)
      have hl := hlog.left
      rw [encodeLog_append, encodeLog, encodeLog, List.append_nil, encodeTxn, List.append_assoc,
        List.append_assoc] at hw
      rw [indexLog_append, logImages, List.foldl_append, Nat.zero_add,
        ← length_encodeLog hv.identity t₀ Ts hl.length_image]
      exact tracks_trackImages hv.identity T.images _ _ _ _ hT.image hw (ih _ hl hw)

lemma Tracks.mem_iff (h : Tracks id wal idx m) (p : ℕ) : p ∈ idx ↔ (m p).isSome := by
  rw [Std.ExtTreeMap.mem_iff_isSome_getElem?]
  rcases h p with ⟨hr, hm⟩ | ⟨r, b, hr, hm, -⟩
  · simp [hr, hm]
  · simp [hr, hm]

variable {data : Bytes}

/-- A reference that leads to an image is followed to it. -/
lemma ImageAt.readIndexedFrame {p : ℕ} {r : FrameRef} {b : Bytes} (h : ImageAt id wal p r b) :
    ∃ f, PageWal.readIndexedFrame wal r = .ok f ∧ frameNo f = p ∧ framePayload f = b := by
  obtain ⟨tx, hf⟩ := h.frame
  have hread : readFrame wal r.offset = .ok (imageFrame id tx (p, b)) := by
    rw [readFrame_ok_iff, hf]
    exact ⟨h.inside, rfl, frame_verifies⟩
  have hck : frameCrc (imageFrame id tx (p, b)) = r.checksum := by rw [h.checksum, hf]
  refine ⟨imageFrame id tx (p, b), ?_, frameNo_frame h.lt, framePayload_frame h.length⟩
  simp only [PageWal.readIndexedFrame, hread, hck, ne_eq, not_true_eq_false, if_false, bind,
    Except.bind, pure, Except.pure]

/-- An image in the log is what is read. -/
lemma readPage_tracked (h : Tracks id wal idx m) {p : ℕ} {b : Bytes} (hb : m p = some b) :
    readPage data wal idx p = .ok b := by
  rcases h p with ⟨-, hn⟩ | ⟨r, b', hr, hm, hi⟩
  · rw [hb] at hn; cases hn
  · cases hb.symm.trans hm
    obtain ⟨f, hread, hno, hpay⟩ := hi.readIndexedFrame
    simp only [readPage, hr, hread, hno, hpay, hi.opens, ne_eq, not_true_eq_false, if_false, bind,
      Except.bind, pure, Except.pure]

/-- A page the log does not have is read from the data file. -/
lemma readPage_data (hn : idx[p]? = none) (hp : p ≠ 0) (hl : p * page + page ≤ data.length)
    (ho : PageRef.openChecked (pageAt data p) p = .ok ⟨pageAt data p⟩) :
    readPage data wal idx p = .ok (pageAt data p) := by
  simp only [readPage, hn, if_neg hp, readAt_ok hl, bind, Except.bind, pure, Except.pure]
  rw [show Bytes.slice data (p * page) page = pageAt data p from rfl, ho]

/-- A page is read from the log if it is there, else from the data file. -/
lemma readPage_of_tracks {b : Bytes} (h : Tracks id wal idx m) (hp : p ≠ 0)
    (ho : PageRef.openChecked b p = .ok ⟨b⟩) (hlog : ∀ c, m p = some c → b = c)
    (hdata : m p = none → p * page + page ≤ data.length ∧ pageAt data p = b) :
    readPage data wal idx p = .ok b := by
  rcases h p with ⟨hr, hm⟩ | ⟨r, c, -, hm, -⟩
  · obtain ⟨hl, rfl⟩ := hdata hm
    exact readPage_data hr hp hl ho
  · rw [hlog c hm]
    exact readPage_tracked h hm

/-- Page 0 of a database without log is its checkpoint metadata. -/
lemma readPage_meta {h : Header} {b : Bytes} (hn : idx[0]? = none) (hm : MetaOk data h)
    (hv : h.Valid) (hb : h.page 0 = .ok b) : readPage data wal idx 0 = .ok b := by
  obtain ⟨b', hb', hi, hs, hc⟩ := Header.page_spec hv (show 0 < 2 ^ 32 by norm_num)
  cases hb.symm.trans hb'
  have ho : PageRef.openChecked b 0 = .ok ⟨b⟩ := openInner_eq_ok hi hs fun _ => hc.symm
  simp only [readPage, hn, diskHeader_eq hm, hb, ho, if_true, bind, Except.bind, pure, Except.pure]

end tracks

/-! ## Committed images -/

/-- What a committed transaction looks like to a reader: the root, free head and cap of its
header, its extent, and every page below it.  Page 1 is not among them: it is a checkpoint-only
copy of the metadata, which no transaction writes. -/
@[ext] structure Image where
  root : ℕ
  free : ℕ
  cap : ℕ
  pages : ℕ
  page : ℕ → Option Bytes

/-- The image two files yield under the index and extent of an inspection. -/
def imageOf (data wal : Bytes) (st : State) : Except Error Image := do
  let b ← readPage data wal st.committed 0
  let h ← Header.decode b 0
  return {
    root := h.root, free := st.freeHead, cap := st.cap, pages := st.committedPages
    page := fun p =>
      if p ≠ 1 ∧ p < st.committedPages then (readPage data wal st.committed p).toOption else none }

/-- `Pager::inspect`, then `read_page` over the committed index. -/
def recover (createFeatures : ℕ) (data wal : Bytes) : Except Error Image := do
  let st ← inspect createFeatures data wal
  imageOf data wal st

/-- A version of the database: the header and the pages a transaction committed. -/
structure Version where
  header : Header
  pages : ℕ
  page : ℕ → Bytes

/-- The version as an image; its page 0 is the header's own page. -/
def Version.image (v : Version) : Image where
  root := v.header.root
  free := v.header.free
  cap := v.header.cap
  pages := v.pages
  page := fun p =>
    if p ≠ 1 ∧ p < v.pages then
      (if p = 0 then (v.header.page 0).toOption else some (v.page p))
    else none

structure Version.Ok (v : Version) : Prop where
  valid : v.header.Valid
  tx_lt : v.header.tx < u64Max
  two_le : 2 ≤ v.pages
  pages_lt : v.pages < 2 ^ 32
  opens : ∀ p, 2 ≤ p → p < v.pages → PageRef.openChecked (v.page p) p = .ok ⟨v.page p⟩

/-- **The data file of a version**, but for the pages the log covers: those may be missing or
half written. -/
structure DataOk (disk : Header) (cov : ℕ → Prop) (v : Version) (d : Bytes) : Prop where
  metadata : MetaOk d disk
  length : d.length ≤ v.pages * page
  uncovered : ∀ p, 2 ≤ p → p < v.pages → ¬ cov p →
    p * page + page ≤ d.length ∧ pageAt d p = v.page p

/-- **The log of a version**, over a data file whose metadata is `disk`. -/
structure LogFits (disk : Header) (v : Version) (t₀ : ℕ) (Ts : List Txn) : Prop where
  log : LogOk disk t₀ Ts
  tx : t₀ + Ts.length = v.header.tx + 1
  floor : disk.tx ≤ v.header.tx
  header : headerAfter disk Ts = v.header
  pages : ∀ T, Ts.getLast? = some T → T.pages = v.pages
  metadata : Ts ≠ [] → ∃ b, v.header.page 0 = .ok b ∧ logImages Ts 0 = some b
  images : ∀ p b, 2 ≤ p → p < v.pages → logImages Ts p = some b → v.page p = b
  covered : ∀ p, (logImages Ts p).isSome → p < v.pages
  cap : logEnd Ts + v.pages * page ≤ v.header.cap

/-- The pages a log has an image of. -/
def Covers (Ts : List Txn) (p : ℕ) : Prop := (logImages Ts p).isSome

lemma DataOk.mono {disk : Header} {cov cov' : ℕ → Prop} {v : Version} {d : Bytes}
    (h : DataOk disk cov v d) (hc : ∀ p, cov p → cov' p) : DataOk disk cov' v d :=
  ⟨h.metadata, h.length, fun p h2 hp hn => h.uncovered p h2 hp fun hc' => hn (hc p hc')⟩

section fits

variable {cf t₀ : ℕ} {disk : Header} {v : Version} {Ts : List Txn} {us : List (ℕ × Bytes)}
variable {d wal rest : Bytes} {bound : Option ℕ}

lemma covers_nil (p : ℕ) : ¬ Covers [] p := by simp [Covers, logImages]

lemma MetaOk.valid (h : MetaOk d disk) : disk.Valid := by
  obtain ⟨-, c₀, c₁, h₀, h₁, hsel, -, -⟩ := h
  rcases hsel with rfl | rfl
  · exact h₀.valid
  · exact h₁.valid

/-- A data file that lacks no page has the length of the extent. -/
lemma DataOk.length_eq (h : DataOk disk (fun _ => False) v d) (h2 : 2 ≤ v.pages) :
    d.length = v.pages * page := by
  refine le_antisymm h.length ?_
  have hp : page = 4096 := rfl
  rcases Nat.lt_or_ge 2 v.pages with hlt | hle
  · have := (h.uncovered (v.pages - 1) (by omega) (by omega) not_false).1
    rw [← Nat.succ_mul, show (v.pages - 1).succ = v.pages by omega] at this
    exact this
  · have := h.metadata.length
    rw [show v.pages = 2 by omega]
    exact this

lemma DataOk.lt_of_uncovered (h : DataOk disk (Covers Ts) v d) {p : ℕ} (hp : d.length / page ≤ p)
    (hlt : p < v.pages) : Covers Ts p := by
  by_contra hc
  have hm := h.metadata.length
  have h2 : 2 ≤ p := by simp only [page] at *; omega
  have := (h.uncovered p h2 hlt hc).1
  simp only [page] at *
  omega

lemma DataOk.pagesAfter_eq (h : DataOk disk (Covers Ts) v d) (hf : LogFits disk v t₀ Ts)
    (h2 : 2 ≤ v.pages) : pagesAfter (d.length / page) Ts = v.pages := by
  rw [pagesAfter]
  cases hl : Ts.getLast? with
  | none =>
      obtain rfl : Ts = [] := by simpa using hl
      have := (h.mono fun p hp => covers_nil p hp).length_eq h2
      simp [this, page]
  | some T => exact hf.pages T hl

/-- The checks of the inspection pass. -/
lemma LogFits.accepts (hf : LogFits disk v t₀ Ts) (hd : DataOk disk (Covers Ts) v d) (hv : v.Ok)
    (us : List (ℕ × Bytes)) (hdisk : disk.Valid) : Accepts disk d.length t₀ Ts us where
  floor _ _ := by have := hf.tx; have := hf.floor; omega
  cap := by rw [hd.pagesAfter_eq hf hv.two_le, hf.header]; exact hf.cap
  tx := by rw [hf.header]; exact hv.tx_lt
  extent := by
    rw [hd.pagesAfter_eq hf hv.two_le]
    have hl := hd.length
    by_cases he : d.length = v.pages * page
    · left
      simp only [page] at *
      omega
    · right
      refine ⟨?_, by simp only [page] at *; omega, fun p hp hlt => ?_⟩
      · rintro rfl
        exact he ((hd.mono fun p hp => covers_nil p hp).length_eq hv.two_le)
      · have ht := tracks_indexLog hdisk Ts [] hf.log rfl
        exact (ht.mem_iff p).2 (hd.lt_of_uncovered hp hlt)

lemma LogFits.disk_tx_lt (hf : LogFits disk v t₀ Ts) (hv : v.Ok) : disk.tx < u64Max :=
  lt_of_le_of_lt hf.floor hv.tx_lt

lemma DataOk.div_lt (h : DataOk disk cov v d) (hv : v.Ok) : d.length / page < 2 ^ 32 := by
  have := h.length
  have := hv.pages_lt
  simp only [page] at *
  omega

variable (hv : v.Ok) (hd : DataOk disk (Covers Ts) v d) (hf : LogFits disk v t₀ Ts)
include hv hd hf

/-- Every page of the version is read back, whatever stands behind its log. -/
lemma readPage_fits (hw : wal = encodeLog disk.identity t₀ Ts ++ rest) {p : ℕ} (h2 : 2 ≤ p) (hp : p < v.pages) :
    readPage d wal (indexLog disk.identity t₀ 0 Ts ∅) p = .ok (v.page p) := by
  refine readPage_of_tracks (tracks_indexLog hd.metadata.valid Ts rest hf.log hw) (by omega)
    (hv.opens p h2 hp) (fun b hb => hf.images p b h2 hp hb) fun hn => ?_
  exact hd.uncovered p h2 hp (by simp [Covers, hn])

lemma readPage_zero_fits (hw : wal = encodeLog disk.identity t₀ Ts ++ rest) :
    ∃ b, v.header.page 0 = .ok b
      ∧ readPage d wal (indexLog disk.identity t₀ 0 Ts ∅) 0 = .ok b := by
  have ht := tracks_indexLog hd.metadata.valid Ts rest hf.log hw
  by_cases hn : Ts = []
  · subst hn
    have hh : disk = v.header := hf.header
    obtain ⟨b, hb, -⟩ := Header.page_spec hv.valid (show 0 < 2 ^ 32 by norm_num)
    refine ⟨b, hb, readPage_meta (by simp [indexLog]) hd.metadata hd.metadata.valid ?_⟩
    rw [hh]; exact hb
  · obtain ⟨b, hb, hl⟩ := hf.metadata hn
    exact ⟨b, hb, readPage_tracked ht hl⟩

/-- **The image two files of a version yield is the version's.** -/
lemma imageOf_fits (hw : wal = encodeLog disk.identity t₀ Ts ++ rest) :
    imageOf d wal (recovered disk (d.length / page) t₀ Ts) = .ok v.image := by
  obtain ⟨b, hb, h0⟩ := readPage_zero_fits hv hd hf hw
  have hdec := Header.decode_page hv.valid (show 0 < 2 ^ 32 by norm_num) hb
  have hpg := hd.pagesAfter_eq hf hv.two_le
  simp only [imageOf, recovered, h0, hdec, bind, Except.bind, pure, Except.pure, hpg, hf.header]
  refine congrArg Except.ok (Image.ext rfl rfl rfl rfl (funext fun p => ?_))
  simp only [Version.image]
  split_ifs with hp h
  · subst h
    rw [h0, hb]
  · rw [readPage_fits hv hd hf hw (by omega) hp.2]
    rfl
  · rfl

variable (hus : ∀ i ∈ us, ImageOk disk.identity disk.features (v.header.tx + 1) i)
variable (hw : wal = encodeLog disk.identity t₀ Ts
  ++ (encodeImages disk.identity (v.header.tx + 1) us ++ rest))
include hus hw

/-- **The files of a version are inspected to its state.** -/
lemma inspectBounded_fits
    (hn : bound.getD wal.length / frameLen = logFrames Ts + us.length)
    (hcap : bound.getD wal.length ≤ walCap) :
    inspectBounded cf d wal bound = .ok (recovered disk (d.length / page) t₀ Ts) := by
  have hvd := hd.metadata.valid
  rw [← hf.tx] at hus hw
  have ht : t₀ + Ts.length ≤ u64Max := by rw [hf.tx]; exact hv.tx_lt
  exact inspectBounded_log hd.metadata hvd (hf.disk_tx_lt hv) hf.log ht hus hw hn hcap
    (hd.div_lt hv) (hf.accepts hd hv us hvd)

omit hv in
/-- The whole frames of a log with something unfinished behind it. -/
lemma length_div_frames (hr : rest.length < frameLen) : wal.length / frameLen = logFrames Ts + us.length := by
  have hlen : wal.length = (logFrames Ts + us.length) * frameLen + rest.length := by
    rw [hw, List.length_append, List.length_append, length_encodeLog hd.metadata.valid.identity _ _ hf.log.length_image,
      length_encodeImages hd.metadata.valid.identity _ fun i hi => (hus i hi).length, logEnd, Nat.add_mul]
    omega
  simp only [frameLen] at *
  omega

/-- The inspection of a version's files. -/
lemma inspect_fits (hr : rest.length < frameLen) (hcap : wal.length ≤ walCap) :
    inspect cf d wal = .ok (recovered disk (d.length / page) t₀ Ts) :=
  inspectBounded_fits hv hd hf hus hw
    (length_div_frames hd hf hus hw hr) hcap

/-- **Recovery**: the files of a version, with an unfinished transaction and less than one frame
behind its log, yield exactly its image. -/
lemma recover_fits (hr : rest.length < frameLen) (hcap : wal.length ≤ walCap) :
    recover cf d wal = .ok v.image := by
  rw [recover, inspect_fits hv hd hf hus hw hr hcap]
  exact imageOf_fits hv hd hf hw

end fits

end PageWal
