import Sekejap.PageWal.PagerSpec

/-!
# What every call of the writer guarantees

A writer's operation is a program; between any two of its calls the process may die, and readers
of other processes may look at the files.  `Guar τ w w'` is what each single call guarantees to
both:

* `Phase` — a crash after it yields the acknowledged version `τ.acked`, or the version being
  committed, `τ.target`, once its commit frame is written;
* `Move` — unless the writer holds every lock, the data file is untouched and the committed part
  of the log stays where it is;
* `HintsFine` — while the gate is free, a copy of the publication hint that decodes names a
  committed prefix of the log, no older than the acknowledged version.
-/

open Bytes Page Crc32c Proc

namespace PageWal

/-- The version last acknowledged, the version being committed, and the number of commit frames
written before that commit. -/
structure Tag where
  acked : Version
  target : Version
  commits : ℕ

/-- The disk means the version the tag says. -/
def Good (τ : Tag) (g : Ghost) (w : Disk) : Prop :=
  (g.version = τ.acked ∧ w.commits = τ.commits) ∨ (g.version = τ.target ∧ w.commits = τ.commits + 1)

/-- The disk means the acknowledged version, and no commit frame was written since. -/
def Kept (τ : Tag) (g : Ghost) (w : Disk) : Prop :=
  g.version = τ.acked ∧ w.commits = τ.commits

lemma Kept.good {τ : Tag} {g : Ghost} {w : Disk} (h : Kept τ g w) : Good τ g w := Or.inl h

lemma Kept.congr {τ : Tag} {g g' : Ghost} {w w' : Disk} (h : Kept τ g w)
    (hv : g'.version = g.version) (hc : w'.commits = w.commits) : Kept τ g' w' :=
  ⟨hv.trans h.1, hc.trans h.2⟩

/-- Where the disk may stand while an operation runs. -/
inductive Phase (τ : Tag) (w : Disk) : Prop
  | files (g : Ghost) (h : FilesOk g w) (hg : Good τ g w)
  | committing (g : Ghost) (T : Txn) (h : Committing g T τ.target w) (hg : g.version = τ.acked)
      (hc : w.commits = τ.commits + 1)
  | absorbing (g : Ghost) (h : Absorbing g w) (hg : Good τ g w)

/-- **A crash yields the acknowledged version, or the one whose commit frame is written.** -/
lemma Phase.recover {τ : Tag} {w : Disk} (h : Phase τ w) {cf : ℕ} {d c : Bytes}
    (hd : DataCrash w.data d) (hc : WalCrash w.wal c) :
    recover cf d c = .ok τ.acked.image
      ∨ (w.commits = τ.commits + 1 ∧ recover cf d c = .ok τ.target.image) := by
  cases h with
  | files g h hg =>
      have hr : PageWal.recover cf d c = _ := h.recover hd hc
      rcases hg with ⟨hv, -⟩ | ⟨hv, hn⟩
      · left; rw [hr, hv]
      · right; exact ⟨hn, by rw [hr, hv]⟩
  | committing g T h hg hn =>
      have hr : PageWal.recover cf d c = _ ∨ PageWal.recover cf d c = _ := h.recover hd hc
      rcases hr with hr | hr
      · left; rw [hr, hg]
      · exact Or.inr ⟨hn, hr⟩
  | absorbing g h hg =>
      have hr : PageWal.recover cf d c = _ := h.recover hd hc
      rcases hg with ⟨hv, -⟩ | ⟨hv, hn⟩
      · left; rw [hr, hv]
      · right; exact ⟨hn, by rw [hr, hv]⟩

/-- Where the last commit of the log ends, as an inspection finds it. -/
def endOf (w : Disk) : ℕ :=
  match inspect 0 w.data.contents w.wal.contents with
  | .ok st => st.lastCommit
  | .error _ => 0

lemma FilesOk.endOf_eq {g : Ghost} {w : Disk} (h : FilesOk g w) : endOf w = logEnd g.txns := by
  rw [endOf, h.inspect_eq]; rfl

lemma Committing.endOf_eq {g : Ghost} {T : Txn} {v : Version} {w : Disk}
    (h : Committing g T v w) : endOf w = logEnd (g.txns ++ [T]) := by
  have hb : FilesOk (g.commit T v) w.barrierWal := h.barrier
  have := hb.endOf_eq
  rwa [endOf] at this

/-- What a reader that holds a slot relies on. -/
def Move (w w' : Disk) : Prop :=
  w.held ≠ .all → w'.data = w.data ∧ endOf w ≤ endOf w'
    ∧ w'.wal.contents.take (endOf w) = w.wal.contents.take (endOf w)

/-- `h` names a committed prefix of the log. -/
def Names (w : Disk) (h : Hint) : Prop :=
  ∃ disk t₀ Ts v rest, v.Ok ∧ DataOk disk (Covers Ts) v w.data.contents ∧ LogFits disk v t₀ Ts
    ∧ w.wal.contents = encodeLog disk.identity t₀ Ts ++ rest ∧ logEnd Ts ≤ endOf w
    ∧ h.identity = disk.identity ∧ h.checkpointTx = disk.tx ∧ h.publishedTx = v.header.tx
    ∧ h.publishedEnd = logEnd Ts

/-- One copy of the hint. -/
def copyAt (w : Disk) (c : HintCopy) : Bytes := w.hint.slice c.offset hintBytes

/-- Every copy of the hint that decodes names a committed prefix, no older than `tx`. -/
def HintsFine (tx : ℕ) (w : Disk) : Prop :=
  hintFileBytes ≤ w.hint.length
    ∧ ∀ c h, hintDecode (copyAt w c) = some h → Names w h ∧ tx ≤ h.publishedTx

/-- **The guarantee of one call.** -/
structure Guar (τ : Tag) (w w' : Disk) : Prop where
  phase : Phase τ w'
  move : Move w w'
  hints : w'.held = .none → HintsFine τ.acked.header.tx w'

section guarantees

variable {τ : Tag} {g : Ghost} {w w' : Disk}

/-- The log only grew. -/
lemma Move.of_append (hd : w'.data = w.data) {x : Bytes} (hw : w'.wal.contents = w.wal.contents ++ x)
    (he : endOf w ≤ endOf w') (hl : endOf w ≤ w.wal.contents.length) : Move w w' :=
  fun _ => ⟨hd, he, by rw [hw, List.take_append_of_le_length hl]⟩

lemma FilesOk.endOf_le (h : FilesOk g w) : endOf w ≤ w.wal.contents.length := by
  rw [h.endOf_eq, h.wal, h.length_wal]; omega

/-- What a prefix of the log names is not lost while the log keeps it. -/
lemma Names.mono {h : Hint} (hn : Names w h) (hd : w'.data.contents = w.data.contents)
    (he : endOf w ≤ endOf w')
    (hw : w'.wal.contents.take (endOf w) = w.wal.contents.take (endOf w)) : Names w' h := by
  obtain ⟨disk, t₀, Ts, v, rest, hv, hdok, hf, hwal, hle, hrest⟩ := hn
  have hlen : (encodeLog disk.identity t₀ Ts).length = logEnd Ts :=
    length_encodeLog hdok.metadata.valid.identity _ _ hf.log.length_image
  refine ⟨disk, t₀, Ts, v, w'.wal.contents.drop (logEnd Ts), hv, by rw [hd]; exact hdok, hf, ?_,
    hle.trans he, hrest⟩
  have h0 : w.wal.contents.take (logEnd Ts) = encodeLog disk.identity t₀ Ts := by
    rw [hwal, ← hlen, List.take_left]
  have h1 : w'.wal.contents.take (logEnd Ts) = encodeLog disk.identity t₀ Ts := by
    have := congrArg (List.take (logEnd Ts)) hw
    rwa [List.take_take, List.take_take, Nat.min_eq_left hle, h0] at this
  rw [← h1, List.take_append_drop]

lemma HintsFine.mono {tx : ℕ} (h : HintsFine tx w) (hh : w'.hint = w.hint)
    (hd : w'.data.contents = w.data.contents) (he : endOf w ≤ endOf w')
    (hw : w'.wal.contents.take (endOf w) = w.wal.contents.take (endOf w)) : HintsFine tx w' := by
  refine ⟨by rw [hh]; exact h.1, fun c k hk => ?_⟩
  rw [copyAt, hh] at hk
  obtain ⟨hn, htx⟩ := h.2 c k hk
  exact ⟨hn.mono hd he hw, htx⟩

lemma HintsFine.move {tx : ℕ} (h : HintsFine tx w) (hh : w'.hint = w.hint) (hm : Move w w')
    (ha : w.held ≠ .all) : HintsFine tx w' := by
  obtain ⟨hd, he, hw⟩ := hm ha
  exact h.mono hh (by rw [hd]) he hw

/-- The hint of the committed version. -/
def Ghost.hint (g : Ghost) : Hint :=
  ⟨g.id, g.disk.tx, g.version.header.tx, logEnd g.txns⟩

lemma FilesOk.names (h : FilesOk g w) : Names w g.hint :=
  ⟨g.disk, g.t₀, g.txns, g.version, encodeImages g.id g.tx g.tail, h.version, h.dataOk, h.fits, h.wal,
    h.endOf_eq.ge, rfl, rfl, rfl, rfl⟩

/-- The only thing that changed is which locks are held, or nothing. -/
lemma guar_same (h : FilesOk g w) (hg : Good τ g w) (hd : w'.data = w.data) (hw : w'.wal = w.wal)
    (hc : w'.commits = w.commits) (hh : w'.held = .none → HintsFine τ.acked.header.tx w') :
    Guar τ w w' := by
  refine ⟨.files g (h.congr hd hw) ?_, fun _ => ⟨hd, ?_, by rw [hw]⟩, hh⟩
  · rw [Good, hc]; exact hg
  · rw [endOf, endOf, hd, hw]

/-- One image frame more. -/
lemma guar_image (h : FilesOk g w) (hg : Kept τ g w) {i : ℕ × Bytes} (hi : g.Image i)
    (hcap : g.walBytes.length + frameLen ≤ walCap) (hheld : w.held = .none)
    (hh : HintsFine τ.acked.header.tx w) :
    Guar τ w (w.putWal g.walBytes.length (imageFrame g.id g.tx i))
      ∧ HintsFine τ.acked.header.tx (w.putWal g.walBytes.length (imageFrame g.id g.tx i))
      ∧ Kept τ (g.withImage i) (w.putWal g.walBytes.length (imageFrame g.id g.tx i)) := by
  have hf := h.image hi hcap
  have hk : Disk.isCommit (imageFrame g.id g.tx i) = false := by
    rw [Disk.isCommit, imageFrame, frameKind_frame (by norm_num)]; simp
  have hkept : Kept τ (g.withImage i) (w.putWal g.walBytes.length (imageFrame g.id g.tx i)) :=
    hg.congr rfl (by rw [Disk.commits_putWal, hk]; rfl)
  have hmove : Move w (w.putWal g.walBytes.length (imageFrame g.id g.tx i)) := by
    refine Move.of_append rfl (x := imageFrame g.id g.tx i) ?_ ?_ h.endOf_le
    · rw [Disk.wal_putWal, ← h.wal, contents_append]
    · rw [hf.endOf_eq, h.endOf_eq]; rfl
  have hfine : HintsFine τ.acked.header.tx (w.putWal g.walBytes.length (imageFrame g.id g.tx i)) :=
    hh.move rfl hmove (by rw [hheld]; decide)
  exact ⟨⟨.files _ hf hkept.good, hmove, fun _ => hfine⟩, hfine, hkept⟩

lemma isCommit_commitFrame {id : Bytes} (hid : id.length = 16) (tx pages : ℕ) (crc : UInt32) :
    Disk.isCommit (commitFrame id tx pages crc) = true := by
  rw [Disk.isCommit, length_commitFrame hid, commitFrame, frameKind_frame (by norm_num)]
  simp

/-- The commit frame. -/
lemma guar_commit (h : FilesOk g w) (hv : g.version = τ.acked) (hc : w.commits = τ.commits)
    {T : Txn} (hn : NextOk g T τ.target) (hcap : g.walBytes.length + frameLen ≤ walCap)
    (hheld : w.held = .none) (hh : HintsFine τ.acked.header.tx w) :
    Guar τ w (w.putWal g.walBytes.length
        (commitFrame g.id g.tx T.pages (framesCrc g.id g.tx g.tail)))
      ∧ HintsFine τ.acked.header.tx (w.putWal g.walBytes.length
        (commitFrame g.id g.tx T.pages (framesCrc g.id g.tx g.tail))) := by
  have hf := h.commit hn hcap
  have hk : Disk.isCommit (commitFrame g.id g.tx T.pages (framesCrc g.id g.tx g.tail)) = true :=
    isCommit_commitFrame h.valid.identity _ _ _
  have hmove : Move w (w.putWal g.walBytes.length
      (commitFrame g.id g.tx T.pages (framesCrc g.id g.tx g.tail))) := by
    refine Move.of_append rfl
      (x := commitFrame g.id g.tx T.pages (framesCrc g.id g.tx g.tail)) ?_ ?_ h.endOf_le
    · rw [Disk.wal_putWal, ← h.wal, contents_append]
    · rw [hf.endOf_eq, h.endOf_eq, logEnd_append]; omega
  have hfine : HintsFine τ.acked.header.tx (w.putWal g.walBytes.length
      (commitFrame g.id g.tx T.pages (framesCrc g.id g.tx g.tail))) :=
    hh.move rfl hmove (by rw [hheld]; decide)
  refine ⟨⟨.committing g T hf hv ?_, hmove, fun _ => hfine⟩, hfine⟩
  rw [Disk.commits_putWal, hk, hc]
  simp

lemma length_splice_copy {f b : Bytes} {c : HintCopy} (hf : hintFileBytes ≤ f.length)
    (hb : b.length = hintBytes) : hintFileBytes ≤ (f.splice c.offset b).length := by
  rw [length_splice]; omega

lemma copyAt_putHint_same {c : HintCopy} {b : Bytes} (hb : b.length = hintBytes) :
    copyAt (w.putHint c b) c = b := by
  rw [copyAt, Disk.hint_putHint, ← hb, slice_splice_self]

lemma copyAt_putHint_ne {c c' : HintCopy} {b : Bytes} (hb : b.length = hintBytes) (hc : c ≠ c')
    (hf : hintFileBytes ≤ w.hint.length) : copyAt (w.putHint c b) c' = copyAt w c' := by
  have h1 : hintBytes = 48 := rfl
  have h2 : hintFileBytes = 96 := rfl
  rw [copyAt, copyAt, Disk.hint_putHint]
  cases c <;> cases c'
  · exact absurd rfl hc
  · exact slice_splice_after (by simp only [HintCopy.offset]; omega)
  · exact slice_splice_before (by simp only [HintCopy.offset]; omega)
      (by simp only [HintCopy.offset]; omega)
  · exact absurd rfl hc

/-- The copies after one of them was written: the other is as it was. -/
lemma copyAt_putHint {c c' : HintCopy} {b : Bytes} (hb : b.length = hintBytes)
    (hf : hintFileBytes ≤ w.hint.length) :
    copyAt (w.putHint c b) c' = if c = c' then b else copyAt w c' := by
  split_ifs with hc
  · rw [← hc]; exact copyAt_putHint_same hb
  · exact copyAt_putHint_ne hb hc hf

lemma FilesOk.hint_valid (h : FilesOk g w) : g.hint.Valid where
  identity := h.valid.identity
  checkpointTx := h.valid.tx
  publishedTx := h.version.valid.tx
  publishedEnd := by
    have h1 := h.length_wal
    have h2 := h.cap
    have h3 : walCap = 16 * 1024 * 1024 := rfl
    show logEnd g.txns < 2 ^ 32
    omega

lemma FilesOk.putHint (h : FilesOk g w) (c : HintCopy) (b : Bytes) : FilesOk g (w.putHint c b) :=
  h.congr rfl rfl

lemma Names.putHint {h : Hint} (hn : Names w h) (c : HintCopy) (b : Bytes) :
    Names (w.putHint c b) h := hn

/-- **A copy of the hint is written** beside one that serves readers. -/
lemma HintsFine.putHint {tx : ℕ} (hh : HintsFine tx w) (h : FilesOk g w)
    (htx : tx ≤ g.version.header.tx) (c : HintCopy) :
    HintsFine tx (w.putHint c (hintEncode g.hint)) := by
  have hl := length_hintEncode h.hint_valid
  refine ⟨length_splice_copy hh.1 hl, fun c' k hk => ?_⟩
  rw [copyAt_putHint hl hh.1] at hk
  split_ifs at hk
  · cases (hintDecode_encode h.hint_valid).symm.trans hk
    exact ⟨h.names.putHint c _, htx⟩
  · obtain ⟨hn, ht⟩ := hh.2 c' k hk
    exact ⟨hn.putHint c _, ht⟩

/-- Both copies as they are written. -/
def Disk.putHints (w : Disk) (b : Bytes) : Disk := (w.putHint .first b).putHint .second b

@[simp] lemma Disk.data_putHints (b : Bytes) : (w.putHints b).data = w.data := rfl
@[simp] lemma Disk.wal_putHints (b : Bytes) : (w.putHints b).wal = w.wal := rfl
@[simp] lemma Disk.held_putHints (b : Bytes) : (w.putHints b).held = w.held := rfl
@[simp] lemma Disk.commits_putHints (b : Bytes) : (w.putHints b).commits = w.commits := rfl

/-- **Both copies are written**, whatever they held. -/
lemma FilesOk.putHints (h : FilesOk g w) :
    HintsFine g.version.header.tx (w.putHints (hintEncode g.hint)) := by
  have hl := length_hintEncode h.hint_valid
  have h1 : hintBytes = 48 := rfl
  have h2 : hintFileBytes = 96 := rfl
  have hlen : hintFileBytes ≤ (w.putHints (hintEncode g.hint)).hint.length := by
    simp only [Disk.putHints, Disk.hint_putHint, length_splice, HintCopy.offset]
    omega
  refine ⟨hlen, fun c k hk => ?_⟩
  have hc : copyAt (w.putHints (hintEncode g.hint)) c = hintEncode g.hint := by
    cases c with
    | second => exact copyAt_putHint_same hl
    | first =>
        rw [copyAt, Disk.putHints, Disk.hint_putHint, slice_splice_before]
        · exact copyAt_putHint_same hl
        · simp only [HintCopy.offset]; omega
        · simp only [Disk.hint_putHint, length_splice, HintCopy.offset]; omega
  rw [hc] at hk
  cases (hintDecode_encode h.hint_valid).symm.trans hk
  exact ⟨(h.names.putHint _ _).putHint _ _, le_rfl⟩

/-- Writing a copy of the hint, while readers may look at it. -/
lemma guar_putHint (h : FilesOk g w) (hg : Good τ g w) (hh : HintsFine τ.acked.header.tx w)
    (htx : τ.acked.header.tx ≤ g.version.header.tx) (c : HintCopy) :
    Guar τ w (w.putHint c (hintEncode g.hint)) :=
  guar_same h hg rfl rfl rfl fun _ => hh.putHint h htx c

/-- The barrier behind the commit frame. -/
lemma guar_commit_barrier {T : Txn} (h : Committing g T τ.target w) (hc : w.commits = τ.commits + 1)
    (hh : HintsFine τ.acked.header.tx w) : Guar τ w w.barrierWal := by
  have hf := h.barrier
  refine ⟨.files _ hf (Or.inr ⟨rfl, hc⟩), fun _ => ⟨rfl, ?_, by simp⟩, fun _ => ?_⟩
  · rw [hf.endOf_eq, h.endOf_eq]; rfl
  · exact hh.mono rfl rfl (by rw [hf.endOf_eq, h.endOf_eq]; rfl) (by simp)

end guarantees

end PageWal
