import Sekejap.PageWal.Crash

/-!
# A torn tail

Frames are appended without a barrier until the commit, so a power loss can leave the log at its
full length with only the disk sectors before some cut written.  `inspect` must then end the log
at the damage, and `torn_tail` decides whether it may: it looks at the **last 512 bytes of a
frame**.  Frames are 4144 bytes, so those are not the last disk sector: a cut inside them leaves
the bytes before it.

`inspect_powerLoss_iff` says exactly when the inspection succeeds: when the cut loses nothing, or
the frame it falls in keeps no other byte than zeros in its last 512 (and does not verify by
accident).  `inspect_refuses_powerLoss` is a log of one frame for which it does not.
-/

open Bytes Page Crc32c

namespace PageWal

/-- **What a power loss leaves of the log `full`**, of which `synced` bytes are behind a barrier:
the sectors before the cut, and zeros. -/
def powerLoss (full : Bytes) (synced sectors : ℕ) : Bytes :=
  full.take (max (sectors * sector) synced)
    ++ List.replicate (full.length - max (sectors * sector) synced) 0

/-- A committed log `Ts`, and behind it frames no barrier covers: the transactions `Us` and the
images `us` of an open one.  At each of its commits the files are those of a version. -/
structure Unsynced (d : Bytes) (disk : Header) (t₀ : ℕ) (Ts Us : List Txn)
    (us : List (ℕ × Bytes)) : Prop where
  version : ∀ k, ∃ v : Version, v.Ok ∧ LogFits disk v t₀ (Ts ++ Us.take k)
    ∧ DataOk disk (Covers (Ts ++ Us.take k)) v d
  tail : ∀ i ∈ us, ImageOk disk.identity disk.features (t₀ + (Ts ++ Us).length) i
  cap : logEnd (Ts ++ Us) + us.length * frameLen ≤ walCap

/-- The log as the writer has it. -/
def appendedLog (id : Bytes) (t₀ : ℕ) (Ts Us : List Txn) (us : List (ℕ × Bytes)) : Bytes :=
  encodeLog id t₀ (Ts ++ Us) ++ encodeImages id (t₀ + (Ts ++ Us).length) us

/-- **The inspection yields the last commit before the tail**, or a commit of it that survived
whole. -/
def Yields (cf : ℕ) (d : Bytes) (disk : Header) (t₀ : ℕ) (Ts Us : List Txn) (wal : Bytes) : Prop :=
  ∃ k, encodeLog disk.identity t₀ (Ts ++ Us.take k) <+: wal
    ∧ inspect cf d wal = .ok (recovered disk (d.length / page) t₀ (Ts ++ Us.take k))

section whole

variable {id : Bytes} {features t₀ : ℕ}

lemma encodeImages_take (hid : id.length = 16) (tx : ℕ) (us : List (ℕ × Bytes))
    (hus : ∀ i ∈ us, i.2.length = page) {n : ℕ} (hn : n ≤ us.length) (rest : Bytes) :
    (encodeImages id tx us ++ rest).take (n * frameLen) = encodeImages id tx (us.take n) := by
  have hsplit : encodeImages id tx us = encodeImages id tx (us.take n) ++ encodeImages id tx (us.drop n) := by
    rw [← encodeImages_append, List.take_append_drop]
  have hlen : (encodeImages id tx (us.take n)).length = n * frameLen := by
    rw [length_encodeImages hid _ fun i hi => hus i (List.mem_of_mem_take hi), List.length_take,
      min_eq_left hn]
  rw [hsplit, List.append_assoc, ← hlen, List.take_left]

/-- So many frames of a log and of the images behind it. -/
lemma take_log_images (hid : id.length = 16) (t₀ tx : ℕ) {Ts : List Txn} {us : List (ℕ × Bytes)}
    (hT : ∀ T ∈ Ts, ∀ i ∈ T.images, i.2.length = page) (hus : ∀ i ∈ us, i.2.length = page)
    (rest : Bytes) {n : ℕ} (hlo : logFrames Ts ≤ n) (hhi : n ≤ logFrames Ts + us.length) :
    (encodeLog id t₀ Ts ++ (encodeImages id tx us ++ rest)).take (n * frameLen)
      = encodeLog id t₀ Ts ++ encodeImages id tx (us.take (n - logFrames Ts)) := by
  have hlen : (encodeLog id t₀ Ts).length = logFrames Ts * frameLen := length_encodeLog hid t₀ Ts hT
  have hn : n * frameLen - logFrames Ts * frameLen = (n - logFrames Ts) * frameLen :=
    (Nat.sub_mul _ _ _).symm
  have hle : logFrames Ts * frameLen ≤ n * frameLen := Nat.mul_le_mul_right _ hlo
  rw [List.take_append, hlen, hn, encodeImages_take hid tx us hus (by omega),
    List.take_of_length_le (by omega)]

/-- **The whole frames of a log are a log**: so many of its transactions, and some images of the
next. -/
lemma exists_whole (hid : id.length = 16) (us : List (ℕ × Bytes)) (n : ℕ) :
    ∀ Us Ts : List Txn, (∀ k T, (Ts ++ Us)[k]? = some T → TxnOk id features (t₀ + k) T) →
    (∀ i ∈ us, ImageOk id features (t₀ + (Ts ++ Us).length) i) →
    logFrames Ts ≤ n → n ≤ logFrames (Ts ++ Us) + us.length →
    ∃ k vs, (∀ i ∈ vs, ImageOk id features (t₀ + (Ts ++ Us.take k).length) i)
      ∧ (appendedLog id t₀ Ts Us us).take (n * frameLen)
        = encodeLog id t₀ (Ts ++ Us.take k) ++ encodeImages id (t₀ + (Ts ++ Us.take k).length) vs
      ∧ n = logFrames (Ts ++ Us.take k) + vs.length := by
  intro Us
  induction Us with
  | nil =>
      intro Ts hT hus hlo hhi
      simp only [List.append_nil] at hT hus hhi
      have hlen : ∀ T ∈ Ts, ∀ i ∈ T.images, i.2.length = page := by
        intro T hm i hi
        obtain ⟨k, hk⟩ := List.mem_iff_getElem?.1 hm
        exact ((hT k T hk).image i hi).length
      have htake := take_log_images hid t₀ (t₀ + Ts.length) hlen (fun i hi => (hus i hi).length) []
        hlo hhi
      refine ⟨0, us.take (n - logFrames Ts), ?_, ?_, ?_⟩
      · intro i hi
        simpa using hus i (List.mem_of_mem_take hi)
      · simpa [appendedLog] using htake
      · simp only [List.take_zero, List.append_nil, List.length_take]
        omega
  | cons U Us ih =>
      intro Ts hT hus hlo hhi
      have happ : Ts ++ U :: Us = (Ts ++ [U]) ++ Us := by simp
      rcases Nat.lt_or_ge n (logFrames (Ts ++ [U])) with hlt | hge
      · -- the cut falls into the images of `U`, or on its commit frame
        rw [logFrames_append, logFrames_singleton] at hlt
        have hU : TxnOk id features (t₀ + Ts.length) U := hT Ts.length U (by simp)
        have hlen : ∀ T ∈ Ts, ∀ i ∈ T.images, i.2.length = page := by
          intro T hm i hi
          obtain ⟨k, hk⟩ := List.mem_iff_getElem?.1 hm
          refine ((hT k T ?_).image i hi).length
          rw [List.getElem?_append_left (List.getElem?_eq_some_iff.1 hk).1, hk]
        refine ⟨0, U.images.take (n - logFrames Ts), ?_, ?_, ?_⟩
        · intro i hi
          simpa using hU.image i (List.mem_of_mem_take hi)
        · have htake := take_log_images hid t₀ (t₀ + Ts.length) hlen
            (fun i hi => (hU.image i hi).length)
            (commitFrame id (t₀ + Ts.length) U.pages (framesCrc id (t₀ + Ts.length) U.images)
              ++ (encodeLog id (t₀ + Ts.length + 1) Us
                ++ encodeImages id (t₀ + (Ts ++ U :: Us).length) us)) hlo (by omega)
          have hfull : appendedLog id t₀ Ts (U :: Us) us
              = encodeLog id t₀ Ts ++ (encodeImages id (t₀ + Ts.length) U.images
                ++ (commitFrame id (t₀ + Ts.length) U.pages (framesCrc id (t₀ + Ts.length) U.images)
                  ++ (encodeLog id (t₀ + Ts.length + 1) Us
                    ++ encodeImages id (t₀ + (Ts ++ U :: Us).length) us))) := by
            rw [appendedLog, encodeLog_append, encodeLog, encodeTxn]
            simp only [List.append_assoc]
          rw [hfull, htake]
          simp
        · simp only [List.take_zero, List.append_nil, List.length_take]
          omega
      · have hfull : appendedLog id t₀ Ts (U :: Us) us = appendedLog id t₀ (Ts ++ [U]) Us us := by
          rw [appendedLog, appendedLog, happ]
        rw [happ] at hT hus hhi
        obtain ⟨k, vs, h1, h2, h3⟩ := ih (Ts ++ [U]) hT hus hge hhi
        have hk : Ts ++ (U :: Us).take (k + 1) = (Ts ++ [U]) ++ Us.take k := by simp
        exact ⟨k + 1, vs, by rw [hk]; exact h1, by rw [hk, hfull]; exact h2, by rw [hk]; exact h3⟩

end whole

/-! ## What the power loss leaves -/

section loss

variable {full : Bytes} {synced sectors : ℕ}

lemma length_powerLoss : (powerLoss full synced sectors).length = full.length := by
  rw [powerLoss, List.length_append, List.length_take, List.length_replicate]
  omega

/-- Before the cut nothing is lost. -/
lemma take_powerLoss {n : ℕ} (h : n ≤ max (sectors * sector) synced) :
    (powerLoss full synced sectors).take n = full.take n := by
  rcases Nat.lt_or_ge full.length (max (sectors * sector) synced) with hlt | hge
  · rw [powerLoss, List.take_of_length_le hlt.le, Nat.sub_eq_zero_of_le hlt.le]
    simp
  · rw [powerLoss, List.take_append_of_le_length (by rw [List.length_take]; omega), List.take_take,
      min_eq_left h]

/-- From the cut on everything is zero. -/
lemma slice_powerLoss {off n : ℕ} (h : max (sectors * sector) synced ≤ off)
    (hn : off + n ≤ full.length) :
    (powerLoss full synced sectors).slice off n = List.replicate n 0 := by
  rw [powerLoss, slice_append_right (by rw [List.length_take]; omega), slice_replicate,
    List.length_take]
  congr 1
  omega

end loss

/-- A frame of zeros does not verify. -/
lemma not_verifies_zero (n : ℕ) : ¬ Verifies (List.replicate n 0) := by
  rintro ⟨h, -⟩
  rw [slice_replicate] at h
  have := congrArg List.head? h
  cases hn : min 8 (n - 0) with
  | zero => rw [hn] at this; simp [magicBytes] at this
  | succ m => rw [hn] at this; simp [magicBytes, List.replicate_succ] at this

section torn

variable {cf : ℕ} {d : Bytes} {disk : Header} {t₀ : ℕ} {Ts Us : List Txn} {us : List (ℕ × Bytes)}
variable {sectors : ℕ}

/-- The frame at `start` keeps only zeros before the cut in its last 512 bytes. -/
def KeepsZeros (full : Bytes) (start cut : ℕ) : Prop :=
  ∀ i, start + (frameLen - sector) ≤ i → i < cut → full[i]? = some 0

lemma zeroEnd_powerLoss_iff {full : Bytes} {synced start : ℕ} (h : start + frameLen ≤ full.length)
    (hc : max (sectors * sector) synced < start + frameLen) :
    ZeroEnd (powerLoss full synced sectors) start
      ↔ KeepsZeros full start (max (sectors * sector) synced) := by
  have hf : frameLen = 4144 := rfl
  have hs : sector = 512 := rfl
  have hget : ∀ i < full.length, (powerLoss full synced sectors)[i]?
      = if i < max (sectors * sector) synced then full[i]? else some 0 := by
    intro i hi
    rw [powerLoss]
    split_ifs with hlt
    · rw [List.getElem?_append_left (by rw [List.length_take]; omega), List.getElem?_take_of_lt hlt]
    · rw [List.getElem?_append_right (by rw [List.length_take]; omega), List.length_take,
        List.getElem?_replicate, if_pos (by omega)]
  constructor
  · intro hz i hlo hhi
    have := congrArg (fun b : Bytes => b[i - (start + (frameLen - sector))]?) hz
    simp only [getElem?_slice, List.getElem?_replicate] at this
    rw [if_pos (by omega), if_pos (by omega),
      show start + (frameLen - sector) + (i - (start + (frameLen - sector))) = i by omega,
      hget i (by omega), if_pos hhi] at this
    exact this
  · intro hk
    refine List.ext_getElem? fun j => ?_
    rw [getElem?_slice, List.getElem?_replicate]
    split_ifs with hj
    · rw [hget _ (by omega)]
      split_ifs with hlt
      · exact hk _ (by omega) hlt
      · rfl
    · rfl

/-- `torn_tail` at the frame the cut falls in: every frame after it is zero. -/
lemma tornTail_powerLoss {full : Bytes} {synced start n : ℕ} (hlen : full.length = start + n * frameLen)
    (hc : max (sectors * sector) synced < start + frameLen) (hn : 0 < n) :
    tornTail (powerLoss full synced sectors) start (powerLoss full synced sectors).length = true
      ↔ ZeroEnd (powerLoss full synced sectors) start := by
  have hf : frameLen = 4144 := rfl
  have hs : sector = 512 := rfl
  have hpow : (powerLoss full synced sectors).length = full.length := length_powerLoss
  have hdiv : ((powerLoss full synced sectors).length - start) / frameLen = n := by
    rw [hpow, hlen, Nat.add_sub_cancel_left]
    exact Nat.mul_div_cancel _ (by decide)
  rw [tornTail_iff (by rw [hpow]; omega), hdiv]
  constructor
  · intro h
    simpa using (h 0 hn).1
  · intro hz k hk
    cases k with
    | zero => simpa using hz
    | succ k =>
        have hle : (k + 1) * frameLen + frameLen ≤ n * frameLen := by
          rw [← Nat.succ_mul]
          exact Nat.mul_le_mul_right _ hk
        have hge : frameLen ≤ (k + 1) * frameLen := Nat.le_mul_of_pos_left _ (Nat.succ_pos k)
        refine ⟨slice_powerLoss (by omega) (by omega), fun _ hok => ?_⟩
        have hzero : (powerLoss full synced sectors).slice (start + (k + 1) * frameLen) frameLen
            = List.replicate frameLen 0 := slice_powerLoss (by omega) (by omega)
        have hbad : readFrame (powerLoss full synced sectors) (start + (k + 1) * frameLen) = _ :=
          readFrame_bad (by rw [hpow]; omega) (by rw [hzero]; exact not_verifies_zero _)
        rw [hbad] at hok
        cases hok

/-- A cut on a sector boundary, or where the frame begins, loses the identity behind the payload. -/
lemma cut_le_identity {synced n : ℕ} (hs : synced % frameLen = 0)
    (hc : max (sectors * sector) synced < n * frameLen + frameLen)
    (hge : n * frameLen ≤ max (sectors * sector) synced) :
    max (sectors * sector) synced ≤ n * frameLen + (32 + page) := by
  simp only [frameLen, sector, page] at *
  omega

/-- The loop ends at a torn tail. -/
lemma scanLoop_torn {wal : Bytes} {n : ℕ} {s : Scan} (hlen : s.pos + frameLen ≤ wal.length)
    (hv : ¬ Verifies (wal.slice s.pos frameLen)) (ht : tornTail wal s.pos wal.length = true) :
    scanLoop wal false (some disk) disk.identity disk.features disk.tx (n + 1) s = .ok s := by
  simp only [scanLoop, readFrame_bad hlen hv, ht, Bool.not_false, Bool.and_true, if_true]

/-- **The loop refuses the frame the cut falls in**, which has lost its identity, when it is no torn
tail. -/
lemma scanLoop_refused {wal : Bytes} {n : ℕ} {s : Scan} (hlen : s.pos + frameLen ≤ wal.length)
    (hid : frameIdentity (wal.slice s.pos frameLen) ≠ disk.identity)
    (hv : Verifies (wal.slice s.pos frameLen) ∨ tornTail wal s.pos wal.length = false) :
    ∃ e, scanLoop wal false (some disk) disk.identity disk.features disk.tx (n + 1) s = .error e := by
  by_cases hok : Verifies (wal.slice s.pos frameLen)
  · refine ⟨bad "WAL belongs to another database", ?_⟩
    simp only [scanLoop, readFrame_ok hlen hok, scanFrame, if_pos hid, bind, Except.bind, throw,
      throwThe, MonadExceptOf.throw]
  · refine ⟨bad "page WAL frame checksum/magic", ?_⟩
    simp only [scanLoop, readFrame_bad hlen hok, hv.resolve_left hok, Bool.not_false, Bool.and_false,
      Bool.false_eq_true, if_false]

/-- The log without damage. -/
lemma Unsynced.yields (h : Unsynced d disk t₀ Ts Us us) :
    Yields cf d disk t₀ Ts Us (appendedLog disk.identity t₀ Ts Us us) := by
  obtain ⟨v, hv, hf, hd⟩ := h.version Us.length
  rw [List.take_length] at hf hd
  have htx := hf.tx
  refine ⟨Us.length, ?_, ?_⟩
  · rw [List.take_length]
    exact List.prefix_append _ _
  · have hid := hd.metadata.valid.identity
    have hlen : (appendedLog disk.identity t₀ Ts Us us).length
        = logEnd (Ts ++ Us) + us.length * frameLen := by
      rw [appendedLog, List.length_append, length_encodeLog hid _ _ hf.log.length_image,
        length_encodeImages hid _ fun i hi => (h.tail i hi).length]
    have hw : appendedLog disk.identity t₀ Ts Us us = encodeLog disk.identity t₀ (Ts ++ Us)
        ++ (encodeImages disk.identity (v.header.tx + 1) us ++ []) := by
      rw [List.append_nil, ← htx]; rfl
    rw [List.take_length]
    exact inspect_fits hv hd hf (by rw [← htx]; exact h.tail) hw (by decide)
      (by rw [hlen]; exact h.cap)

lemma Unsynced.length (h : Unsynced d disk t₀ Ts Us us) :
    (appendedLog disk.identity t₀ Ts Us us).length = (logFrames (Ts ++ Us) + us.length) * frameLen := by
  obtain ⟨v, hv, hf, hd⟩ := h.version Us.length
  rw [List.take_length] at hf hd
  rw [appendedLog, List.length_append, length_encodeLog hd.metadata.valid.identity _ _
    hf.log.length_image, length_encodeImages hd.metadata.valid.identity _
    fun i hi => (h.tail i hi).length, logEnd, Nat.add_mul]

/-- The cut loses nothing, or the frame at `start`, in which it falls, keeps only zeros in its last
512 bytes and does not verify. -/
def Recognised (full wal : Bytes) (start cut : ℕ) : Prop :=
  full.length ≤ cut ∨ (KeepsZeros full start cut ∧ ¬ Verifies (wal.slice start frameLen))

/-- **What the inspection makes of a cut.**  It yields the last commit before the tail, or one of the
tail that survived whole, where the cut loses nothing, or the frame it falls in keeps only zeros in
its last 512 bytes and does not verify by accident; everywhere else it refuses. -/
lemma Unsynced.powerLoss (h : Unsynced d disk t₀ Ts Us us) (cf sectors : ℕ) {full wal : Bytes}
    {cut start : ℕ} (hfull : full = appendedLog disk.identity t₀ Ts Us us)
    (hcut : cut = max (sectors * sector) (logEnd Ts)) (hstart : start = cut / frameLen * frameLen)
    (hwal : wal = PageWal.powerLoss full (logEnd Ts) sectors) :
    (Recognised full wal start cut ∧ Yields cf d disk t₀ Ts Us wal)
      ∨ (¬ Recognised full wal start cut ∧ ∃ e, inspect cf d wal = .error e) := by
  have hlen : full.length = (logFrames (Ts ++ Us) + us.length) * frameLen := by
    rw [hfull]; exact h.length
  rcases Nat.lt_or_ge cut full.length with hlt | hge
  swap
  · -- nothing is lost
    have hsame : wal = full := by
      rw [hwal, PageWal.powerLoss, ← hcut, List.take_of_length_le hge, Nat.sub_eq_zero_of_le hge]
      simp
    rw [hsame, hfull]
    exact Or.inl ⟨Or.inl (hfull ▸ hge), h.yields⟩
  obtain ⟨v₀, -, hf₀, hd₀⟩ := h.version Us.length
  rw [List.take_length] at hf₀
  have hvd := hd₀.metadata.valid
  -- the frames before the cut
  have hlo : logFrames Ts ≤ cut / frameLen := by
    rw [Nat.le_div_iff_mul_le (by decide), hcut]
    exact le_max_right _ _
  have hhi : cut / frameLen < logFrames (Ts ++ Us) + us.length := by
    rw [Nat.div_lt_iff_lt_mul (by decide), ← hlen]
    exact hlt
  obtain ⟨k, vs, hvs, htake, hn⟩ := exists_whole hvd.identity us (cut / frameLen) Us Ts hf₀.log.txn
    h.tail hlo hhi.le
  obtain ⟨v, hv, hfit, hdata⟩ := h.version k
  have hle : start ≤ cut := hstart ▸ Nat.div_mul_le_self _ _
  have hlt' : cut < start + frameLen := by
    rw [hstart]
    exact Nat.lt_div_mul_add (show 0 < frameLen by decide)
  obtain ⟨m, hm⟩ : ∃ m, logFrames (Ts ++ Us) + us.length = cut / frameLen + (m + 1) :=
    ⟨logFrames (Ts ++ Us) + us.length - cut / frameLen - 1, by omega⟩
  have hflen : full.length = start + (m + 1) * frameLen := by rw [hlen, hm, Nat.add_mul, hstart]
  have hone : frameLen ≤ (m + 1) * frameLen := Nat.le_mul_of_pos_left _ (Nat.succ_pos m)
  have hwlen : wal.length = full.length := by rw [hwal]; exact length_powerLoss
  have hsplit : wal = encodeLog disk.identity t₀ (Ts ++ Us.take k)
      ++ (encodeImages disk.identity (t₀ + (Ts ++ Us.take k).length) vs ++ wal.drop start) := by
    have htw : wal.take start = full.take start := by
      rw [hwal]; exact take_powerLoss (hcut ▸ hle)
    rw [← List.append_assoc, ← htake, ← hfull, ← hstart, ← htw]
    exact (List.take_append_drop start wal).symm
  have hpos : (scanned disk (d.length / page) t₀ (Ts ++ Us.take k) vs).pos = start := by
    show logEnd (Ts ++ Us.take k) + vs.length * frameLen = start
    rw [hstart, hn, Nat.add_mul]; rfl
  have hcap : wal.length ≤ walCap := by
    rw [hwlen, hlen, Nat.add_mul]; exact h.cap
  have hcount : (none : Option ℕ).getD wal.length / frameLen
      = logFrames (Ts ++ Us.take k) + (vs.length + (m + 1)) := by
    show wal.length / frameLen = _
    rw [hwlen, hlen, Nat.mul_div_cancel _ (by decide), hm, hn]
    omega
  have htx : t₀ + (Ts ++ Us.take k).length ≤ u64Max := by rw [hfit.tx]; exact hv.tx_lt
  have hins : inspect cf d wal = _ := inspectBounded_eq hdata.metadata hvd (hfit.disk_tx_lt hv)
    hfit.log htx hvs hsplit hcount hcap (hdata.div_lt hv)
  rw [Option.isSome_none] at hins
  have hinside : (scanned disk (d.length / page) t₀ (Ts ++ Us.take k) vs).pos + frameLen
      ≤ wal.length := by
    rw [hpos, hwlen, hflen]
    omega
  have hzero : ZeroEnd wal start ↔ KeepsZeros full start cut := by
    rw [hwal, hcut]
    exact zeroEnd_powerLoss_iff (by omega) (hcut ▸ hlt')
  have htorn : tornTail wal start wal.length = true ↔ ZeroEnd wal start := by
    rw [hwal]
    exact tornTail_powerLoss hflen (hcut ▸ hlt') (Nat.succ_pos m)
  by_cases hrec : Recognised full wal start cut
  · refine Or.inl ⟨hrec, k, ⟨_, hsplit.symm⟩, ?_⟩
    rcases hrec with hge | ⟨hz, hver⟩
    · omega
    rw [hins, scanLoop_torn hinside (by rw [hpos]; exact hver)
      (by rw [hpos]; exact htorn.2 (hzero.2 hz))]
    exact finishInspect_scanned (hfit.accepts hdata hv vs hvd)
  · refine Or.inr ⟨hrec, ?_⟩
    have hrefuse : Verifies (wal.slice start frameLen) ∨ tornTail wal start wal.length = false := by
      by_cases hver : Verifies (wal.slice start frameLen)
      · exact Or.inl hver
      · right
        rw [← Bool.not_eq_true, htorn, hzero]
        exact fun hz => hrec (Or.inr ⟨hz, hver⟩)
    -- the identity behind the payload is always lost
    have hident : frameIdentity (wal.slice start frameLen) ≠ disk.identity := by
      have hid : cut ≤ start + (32 + page) := by
        rw [hstart, hcut] at hlt' hle ⊢
        exact cut_le_identity (Nat.mul_mod_left _ _) hlt' hle
      rw [frameIdentity, slice_slice _ (by decide), hwal, slice_powerLoss (hcut ▸ hid)
        (by simp only [page, frameLen] at *; omega)]
      exact hvd.identity_ne.symm
    rw [← hpos] at hrefuse hident
    obtain ⟨e, he⟩ := scanLoop_refused hinside hident hrefuse
    exact ⟨e, by rw [hins, he]; rfl⟩

/-- **Exactly when a torn tail is recognised.**  Frames appended behind the last barrier are cut anywhere,
and what is lost reads as zeros.  The inspection finds what was committed before the cut just when nothing
is lost, or the frame the cut falls in holds only zeros in its last 512 bytes and does not verify.

A frame is not a whole number of sectors: with its eighth sector written and its ninth lost, its last 512
bytes begin inside what was written, and the log is refused.  The proof takes the scan up to the frame of the
cut, where it ends (`scanLoop_torn`) or refuses (`scanLoop_refused`). -/
theorem inspect_powerLoss_iff (h : Unsynced d disk t₀ Ts Us us) (cf sectors : ℕ) :
    let full := appendedLog disk.identity t₀ Ts Us us
    let cut := max (sectors * sector) (logEnd Ts)
    let wal := powerLoss full (logEnd Ts) sectors
    Yields cf d disk t₀ Ts Us wal ↔ Recognised full wal (cut / frameLen * frameLen) cut := by
  intro full cut wal
  rcases h.powerLoss cf sectors rfl rfl rfl rfl with ⟨hrec, hy⟩ | ⟨hrec, e, he⟩
  · exact ⟨fun _ => hrec, fun _ => hy⟩
  · refine ⟨fun ⟨k, _, hk⟩ => ?_, fun hr => absurd hr hrec⟩
    rw [he] at hk
    cases hk

end torn

/-! ## A log of one frame -/

/-- A page with a header record, as `Header.page` makes it. -/
lemma page_getD {h : Header} (hv : h.Valid) {no : ℕ} (hno : no < 2 ^ 32) :
    h.page no = .ok ((h.page no).toOption.getD []) ∧ Ident ((h.page no).toOption.getD []) .metaPage 0 no
      ∧ Slots ((h.page no).toOption.getD []) [h.bytes] (pageSize - headerBytes)
      ∧ Intact ((h.page no).toOption.getD []) := by
  obtain ⟨b, hb, hi, hs, hc⟩ := Header.page_spec hv hno
  rw [hb]
  exact ⟨rfl, hi, hs, hc⟩

/-- The image of page 0 that a transaction writes. -/
lemma page_image {h : Header} (hv : h.Valid) :
    ImageOk h.identity h.features h.tx (0, (h.page 0).toOption.getD []) := by
  obtain ⟨hb, hi, hs, hc⟩ := page_getD hv (show 0 < 2 ^ 32 by norm_num)
  exact ⟨by norm_num, by norm_num, hs.length, openInner_eq_ok hi hs fun _ => hc.symm, fun _ =>
    ⟨h, Header.decode_page hv (by norm_num) hb, rfl, rfl, rfl⟩⟩

/-- The files of a database as it is created. -/
lemma freshDisk_files {id : Bytes} {features : ℕ} (hv : (freshHeader id features).Valid) :
    FilesOk (freshGhost id features) (freshDisk id (((freshHeader id features).page 0).toOption.getD [])
      (((freshHeader id features).page 1).toOption.getD [])) :=
  freshFiles_ok hv (page_getD hv (by norm_num)).1 (page_getD hv (by norm_num)).1

/-- The header of the first transaction of a new database. -/
def firstHeader : Header :=
  { freshHeader (List.replicate 16 1) 0 with root := 2, tx := 1 }

/-- Its page 0, the first page the transaction writes out. -/
def firstPage : Bytes := (firstHeader.page 0).toOption.getD []

lemma firstHeader_valid : firstHeader.Valid := by
  have hv : (freshHeader (List.replicate 16 1) 0).Valid :=
    freshHeader_valid (by decide) (by decide) (by decide)
  exact ⟨by norm_num [firstHeader], hv.free, hv.cap, hv.identity, hv.identity_ne,
    by norm_num [firstHeader], hv.features⟩

lemma firstPage_spec : firstHeader.page 0 = .ok firstPage ∧ Ident firstPage .metaPage 0 0
    ∧ Slots firstPage [firstHeader.bytes] (pageSize - headerBytes) ∧ Intact firstPage :=
  page_getD firstHeader_valid (by norm_num)

/-- The log is that frame, and no commit is behind it. -/
lemma firstPage_unsynced :
    Unsynced newSys.disk.data.contents (freshHeader (List.replicate 16 1) 0) 1 [] []
      [(0, firstPage)] := by
  have hfiles : FilesOk (freshGhost (List.replicate 16 1) 0) newSys.disk :=
    freshDisk_files (freshHeader_valid (by decide) (by decide) (by decide))
  refine ⟨fun k => ?_, ?_, by rw [List.append_nil, logEnd_nil]; decide⟩
  · rw [List.take_nil]
    exact ⟨_, hfiles.version, hfiles.fits, hfiles.dataOk⟩
  · intro i hi
    obtain rfl : i = (0, firstPage) := by simpa using hi
    exact page_image firstHeader_valid

/-- Byte 4040 of the page is the first of the header record. -/
lemma firstPage_getElem : firstPage[4040]? = some 0x45 := by
  obtain ⟨-, -, hs, -⟩ := firstPage_spec
  have hl : firstHeader.bytes.length = 56 := Header.length_bytes firstHeader_valid
  have hlen := hs.slot_length (i := 0) (r := firstHeader.bytes) rfl
  have hbound := hs.bounds 0 _ rfl
  have hslot : Page.slot firstPage 0 = firstHeader.bytes := hs.slot 0 _ rfl
  have hoff : (slotBounds firstPage 0).1 = 4040 := by
    simp only [pageSize, headerBytes] at *
    omega
  have hget := congrArg (fun b : Bytes => b[0]?) hslot
  simp only [Page.slot, getElem?_slice, hoff] at hget
  rw [if_pos (by omega)] at hget
  exact hget

/-- **A cut inside the last 512 bytes of a frame makes the database unopenable.**  Of the one frame
of the log the first eight sectors are there; it ends in the first bytes of a header record. -/
theorem inspect_refuses_powerLoss :
    Unsynced newSys.disk.data.contents (freshHeader (List.replicate 16 1) 0) 1 [] []
        [(0, firstPage)]
      ∧ ∃ e, inspect 0 newSys.disk.data.contents
        (powerLoss (appendedLog (List.replicate 16 1) 1 [] [] [(0, firstPage)]) 0 8) = .error e := by
  have h := firstPage_unsynced
  obtain ⟨-, -, hs, -⟩ := firstPage_spec
  refine ⟨h, ?_⟩
  rcases h.powerLoss 0 8 rfl rfl rfl rfl with ⟨hrec, -⟩ | ⟨-, he⟩
  · exfalso
    rcases hrec with hge | ⟨hz, -⟩
    · rw [h.length] at hge
      revert hge
      simp [logEnd_nil, logFrames, frameLen, sector]
    · have h0 := hz 4072 (by simp [logEnd_nil, sector, frameLen]) (by simp [logEnd_nil, sector])
      have hframe : appendedLog (List.replicate 16 1) 1 [] [] [(0, firstPage)]
          = frame 1 0 1 0 firstPage (List.replicate 16 1) := by
        simp [appendedLog, encodeLog, encodeImages, imageFrame]
      have hpay : (frame 1 0 1 0 firstPage (List.replicate 16 1)).slice 32 page = firstPage :=
        framePayload_frame hs.length
      have hget := congrArg (fun b : Bytes => b[4040]?) hpay
      simp only [getElem?_slice, firstPage_getElem] at hget
      rw [if_pos (by decide), ← hframe] at hget
      exact absurd (hget.symm.trans h0) (by decide)
  · rw [logEnd_nil] at he
    exact he

/-! ## A log with a commit -/

/-- **A frame whose lost bytes are all zeros but the last does not verify**: it differs in one byte
from the one its checksum is of. -/
lemma not_verifies_lost {kind no tx pages z k : ℕ} {p : Bytes} {b : UInt8} (hb : b ≠ 0) :
    ¬ Verifies ((frame kind no tx pages (p ++ List.replicate z 0) (List.replicate k 0 ++ [b])).take
      (32 + p.length) ++ List.replicate (z + k + 1) 0) := by
  set head := magicBytes ++ leBytes 4 kind ++ leBytes 4 no ++ leBytes 8 tx ++ leBytes 4 pages with hhead
  have hlen : head.length = 28 := by simp [hhead, magicBytes]
  set crc := crc32c (rawFrame kind no tx pages (p ++ List.replicate z 0) (List.replicate k 0 ++ [b])) with hcrc
  have hraw : rawFrame kind no tx pages (p ++ List.replicate z 0) (List.replicate k 0 ++ [b])
      = (head ++ leBytes 4 0 ++ p ++ List.replicate (z + k) 0) ++ b :: [] := by
    simp only [rawFrame, hhead, List.replicate_add, List.append_assoc]
  have hkept : (frame kind no tx pages (p ++ List.replicate z 0) (List.replicate k 0 ++ [b])).take
      (32 + p.length) = head ++ (leBytes 4 crc.toNat ++ p) := by
    rw [frame_eq, ← hhead, ← hcrc]
    have hsplit : head ++ (leBytes 4 crc.toNat ++ (p ++ List.replicate z 0 ++ (List.replicate k 0 ++ [b])))
        = (head ++ (leBytes 4 crc.toNat ++ p)) ++ (List.replicate z 0 ++ (List.replicate k 0 ++ [b])) := by
      simp only [List.append_assoc]
    rw [hsplit, List.take_left' (by simp [hlen]; omega)]
  have htorn : head ++ (leBytes 4 crc.toNat ++ p) ++ List.replicate (z + k + 1) 0
      = head ++ (leBytes 4 crc.toNat ++ (p ++ List.replicate (z + k + 1) 0)) := by
    simp only [List.append_assoc]
  rw [hkept, htorn]
  rintro ⟨-, hsame⟩
  have hcleared : (head ++ (leBytes 4 crc.toNat ++ (p ++ List.replicate (z + k + 1) 0))).splice 28 (leBytes 4 0)
      = (head ++ leBytes 4 0 ++ p ++ List.replicate (z + k) 0) ++ 0 :: [] := by
    rw [splice_segment head rfl hlen (by simp), List.replicate_succ']
    simp only [List.append_assoc]
  have hstored : frameCrc (head ++ (leBytes 4 crc.toNat ++ (p ++ List.replicate (z + k + 1) 0))) = crc.toNat := by
    rw [frameCrc, u32At, slice_segment head rfl hlen (length_leBytes _ _)]
    exact leNat_leBytes_of_lt crc.toNat_lt
  rw [hcleared, hstored, hcrc, hraw] at hsame
  exact crc32c_ne _ _ hb.symm (UInt32.toNat_inj.1 hsame)

/-- What is left of the frame a cut falls in. -/
lemma slice_torn {log f : Bytes} {synced sectors n : ℕ} (hf : f.length = frameLen)
    (hcut : max (sectors * sector) synced = log.length + n) (hn : n ≤ frameLen) :
    (powerLoss (log ++ f) synced sectors).slice log.length frameLen
      = f.take n ++ List.replicate (frameLen - n) 0 := by
  rw [powerLoss, hcut, List.take_append, List.take_of_length_le (by omega), List.append_assoc]
  refine slice_last log ?_ rfl ?_
  · rw [Nat.add_sub_cancel_left, List.length_append, hf]
    congr 3
    omega
  · simp [hf]
    omega

/-- A new database, with one byte of its identity not zero. -/
def plainIdentity : Bytes := List.replicate 15 0 ++ [1]

def plainDisk : Disk :=
  freshDisk plainIdentity (((freshHeader plainIdentity 0).page 0).toOption.getD [])
    (((freshHeader plainIdentity 0).page 1).toOption.getD [])

/-- Its first transaction writes a leaf as page 2, and the header. -/
def plainHeader : Header := { freshHeader plainIdentity 0 with root := 2, tx := 1 }

def plainTxn : Txn :=
  ⟨[(2, sealPage (oneLeaf [1, 2, 3]) 1), (0, (plainHeader.page 0).toOption.getD [])], plainHeader, 3⟩

def plainVersion : Version := ⟨plainHeader, 3, fun _ => sealPage (oneLeaf [1, 2, 3]) 1⟩

/-- The second empties the leaf. -/
def emptyLeaf : Bytes := sealPage (PageMut.finalise (PageMut.init .leaf 1 2) 0) 1

lemma plain_valid : (freshHeader plainIdentity 0).Valid :=
  freshHeader_valid (by decide) (by decide) (by decide)

lemma plainHeader_valid : plainHeader.Valid := by
  have hv := plain_valid
  exact ⟨by norm_num [plainHeader], hv.free, hv.cap, hv.identity, hv.identity_ne,
    by norm_num [plainHeader], hv.features⟩

lemma leaf_image (tx : ℕ) {b : Bytes} (h : Sealable 2 b) : ImageOk plainIdentity 0 tx (2, sealPage b 1) :=
  ⟨by norm_num, by norm_num, h.1, h.2, fun h0 => absurd h0 two_ne_zero⟩

/-- The files before its commit. -/
def plainGhost : Ghost := { freshGhost plainIdentity 0 with tail := plainTxn.images }

lemma plainTxn_next : NextOk plainGhost plainTxn plainVersion := by
  have hleaf := leaf_image 1 (sealable_oneLeaf [1, 2, 3] (by decide))
  have hpage : ∀ p, 2 ≤ p → p < 3 → p = 2 := by omega
  refine ⟨⟨?_, ?_, by decide, ?_, rfl, by decide⟩, rfl,
    ⟨plainHeader_valid, by decide, by decide, by decide, ?_⟩, rfl, rfl, by decide,
    ⟨_, (page_getD plainHeader_valid (by norm_num)).1, ?_⟩, ?_, ?_, by decide⟩
  · intro i hi
    rcases List.mem_cons.1 hi with rfl | hi
    · exact hleaf
    · obtain rfl := List.mem_singleton.1 hi
      exact page_image plainHeader_valid
  · intro i hi
    rcases List.mem_cons.1 hi with rfl | hi
    · exact (by decide : 2 < 3)
    · obtain rfl := List.mem_singleton.1 hi
      exact (by decide : 0 < 3)
  · have hdecode := Header.decode_page plainHeader_valid (by norm_num)
      (page_getD plainHeader_valid (show 0 < 2 ^ 32 by norm_num)).1
    show (Header.decode ((plainHeader.page 0).toOption.getD []) 0).toOption = some plainHeader
    rw [hdecode]
    rfl
  · intro p h2 hp
    obtain rfl := hpage p h2 hp
    exact hleaf.opens
  · simp [plainTxn, Txn.image, overlay]
  · intro p h2 hp
    obtain rfl := hpage p h2 hp
    simp [plainTxn, plainVersion, Txn.image, overlay]
  · intro p h2 hp
    obtain rfl := hpage p h2 hp
    simp [plainTxn, Txn.image, overlay]

lemma sealable_emptyLeaf : Sealable 2 (PageMut.finalise (PageMut.init .leaf 1 2) 0) :=
  sealable_of_slots (ident_init .leaf (by decide) (by decide)) (slots_init .leaf 1 2)

/-- Behind the commit lies a frame of the second transaction. -/
lemma emptyLeaf_unsynced : Unsynced plainDisk.data.contents (freshHeader plainIdentity 0) 1 [plainTxn] []
    [(2, emptyLeaf)] := by
  have hfiles : FilesOk (freshGhost plainIdentity 0) plainDisk := freshDisk_files plain_valid
  have hnext := plainTxn_next
  refine ⟨fun k => ?_, ?_, by decide⟩
  · rw [List.take_nil, List.append_nil]
    exact ⟨plainVersion, hnext.version, LogFits.commit (g := plainGhost) hfiles.fits hnext,
      DataOk.commit (g := plainGhost) hfiles.dataOk hnext⟩
  · intro i hi
    obtain rfl := List.mem_singleton.1 hi
    exact leaf_image _ sealable_emptyLeaf

/-- An empty leaf is its header, and zeros. -/
lemma emptyLeaf_eq : ∃ p : Bytes, p.length = 336 ∧ emptyLeaf = p ++ List.replicate 3760 0 := by
  have hlen : emptyLeaf.length = 4096 := sealable_emptyLeaf.1
  have hzeros : emptyLeaf.slice 336 3760 = List.replicate 3760 0 := by
    rw [emptyLeaf, sealPage, PageMut.finalise, PageMut.init]
    simp (disch := simp [formatAt]) only [slice_splice_after]
    exact slice_replicate _ _ _ _
  have hdrop : emptyLeaf.drop 336 = List.replicate 3760 0 := by
    rw [← hzeros, slice, List.take_of_length_le (by rw [List.length_drop, hlen])]
  exact ⟨emptyLeaf.take 336, by rw [List.length_take, hlen]; rfl, by rw [← hdrop, List.take_append_drop]⟩

/-- **Of a frame behind a commit 368 bytes are kept**: the log ends there, and what was committed is
found. -/
theorem inspect_powerLoss_part :
    Yields 0 plainDisk.data.contents (freshHeader plainIdentity 0) 1 [plainTxn] []
      (powerLoss (appendedLog plainIdentity 1 [plainTxn] [] [(2, emptyLeaf)]) (logEnd [plainTxn]) 25) := by
  have h := emptyLeaf_unsynced
  have hend : logEnd [plainTxn] = 12432 := by decide
  refine (inspect_powerLoss_iff h 0 25).2 (Or.inr ⟨fun i hlo hi => ?_, ?_⟩)
  · rw [hend] at hlo hi
    simp only [sector, frameLen] at hlo hi
    omega
  · obtain ⟨p, hp, hleaf⟩ := emptyLeaf_eq
    obtain ⟨v, -, hf, -⟩ := h.version 0
    have hlog : (encodeLog plainIdentity 1 [plainTxn]).length = 12432 :=
      (length_encodeLog (by decide) 1 [plainTxn] hf.log.length_image).trans hend
    have hfull : appendedLog plainIdentity 1 [plainTxn] [] [(2, emptyLeaf)]
        = encodeLog plainIdentity 1 [plainTxn] ++ frame 1 2 2 0 emptyLeaf plainIdentity := by
      simp [appendedLog, encodeImages, imageFrame]
    have hframe : (frame 1 2 2 0 emptyLeaf plainIdentity).length = frameLen :=
      length_frame sealable_emptyLeaf.1 (by decide)
    have hcut : max (25 * sector) (logEnd [plainTxn]) = (encodeLog plainIdentity 1 [plainTxn]).length + 368 := by
      rw [hlog, hend]
      decide
    have hstart : max (25 * sector) (logEnd [plainTxn]) / frameLen * frameLen
        = (encodeLog plainIdentity 1 [plainTxn]).length := by
      rw [hlog, hend]
      decide
    have hlost : ¬ Verifies ((frame 1 2 2 0 (p ++ List.replicate 3760 0) plainIdentity).take (32 + p.length)
        ++ List.replicate (3760 + 15 + 1) 0) := not_verifies_lost (by decide)
    show ¬ Verifies ((powerLoss (appendedLog plainIdentity 1 [plainTxn] [] [(2, emptyLeaf)])
      (logEnd [plainTxn]) 25).slice (max (25 * sector) (logEnd [plainTxn]) / frameLen * frameLen) frameLen)
    rw [hstart, hfull, slice_torn hframe hcut (by decide), hleaf]
    rw [hp] at hlost
    exact hlost

end PageWal
