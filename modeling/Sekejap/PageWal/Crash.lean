import Sekejap.PageWal.Progress

/-!
# What a crash leaves, and the limits a run keeps to

The results about every run that need nothing but the files.

* **`recover_reachable`** — wherever a run is stopped, an inspection of what survives succeeds, and
  yields the image of the last transaction whose publication returned, or of the one whose commit
  frame was written and not yet acknowledged.
* **`within_limits_reachable`** — the committed state of every run is within the caps it was
  admitted under, and no reopen is refused for its size.
-/

open Bytes Page Crc32c Proc

namespace PageWal

section recovery

variable {may : Holdings → Act → Prop} {s : Sys}

/-- Where the writer runs no operation, every commit frame is acknowledged. -/
lemma JobOk.target {R : Holdings → Ghost → Store → Prop} {τ : Tag} (h : JobOk may R τ s s.job)
    (hc : τ.commits = s.commits) :
    s.disk.commits = s.commits ∨ τ.target.image = s.target := by
  cases hj : s.job with
  | idle σ =>
      rw [hj] at h
      obtain ⟨g, hr, -⟩ := h
      exact Or.inl (hr.calm.kept.2.trans hc)
  | busy st p =>
      rw [hj] at h
      exact Or.inr h.1
  | closed σ =>
      rw [hj] at h
      obtain ⟨g, -, hcalm, -⟩ := h
      exact Or.inl (hcalm.kept.2.trans hc)

/-- **Crash recovery.**  Stop any run anywhere and let the crash keep, of each file, what is behind
its last barrier and any prefix of the later calls, the last of them cut short.  Inspecting what is
left succeeds, and the image it yields is the one of the last transaction whose publication
returned, or of the one transaction whose commit frame was written but not yet acknowledged. -/
theorem recover_reachable (h : Reachable may s) {cf : ℕ} {d c : Bytes}
    (hd : DataCrash s.disk.data d) (hc : WalCrash s.disk.wal c) :
    recover cf d c = .ok s.acked
      ∨ (s.disk.commits = s.commits + 1 ∧ recover cf d c = .ok s.target) := by
  obtain ⟨τ, ha, hcm, hphase, hjob⟩ := h.inv_files
  rw [← ha]
  have hrec : recover cf d c = .ok τ.acked.image
      ∨ (s.disk.commits = τ.commits + 1 ∧ recover cf d c = .ok τ.target.image) := hphase.recover hd hc
  rcases hrec with hr | ⟨hn, hr⟩
  · exact Or.inl hr
  · rw [hcm] at hn
    rcases hjob.target hcm with he | ht
    · omega
    · exact Or.inr ⟨hn, by rw [hr, ht]⟩

/-- The log of `exists_stoppedRun` is left with a frame that is not committed: the page it yields
is the committed one. -/
theorem recover_stoppedRun : ∃ s σ, Reachable Free s ∧ s.job = .idle σ
    ∧ σ.state.endOff = σ.state.lastCommit + frameLen
    ∧ s.acked.page 2 = some (sealPage (oneLeaf [1, 2, 3]) 1)
    ∧ recover 0 s.disk.data.contents s.disk.wal.contents = .ok s.acked := by
  obtain ⟨s, σ, hr, hj, -, hpage, -, -, hend⟩ := exists_stoppedRun
  refine ⟨s, σ, hr, hj, hend, hpage, ?_⟩
  refine (recover_reachable hr (DurableFile.crash_contents _)
    (DurableFile.crash_contents _)).resolve_right fun hc => ?_
  -- at rest, every commit frame is acknowledged
  obtain ⟨τ, -, hcm, -, hjob⟩ := hr.inv_files
  rw [hj] at hjob
  obtain ⟨g, hrest, -⟩ := hjob
  have := hrest.calm.kept.2.trans hcm
  omega

end recovery

/-! ## Limits -/

/-- The disk after a crash: nothing is pending, and nothing is promised of the hint. -/
def Disk.revived (d c hint : Bytes) : Disk := ⟨.ofBytes d, .ofBytes c, hint, .none, 0⟩

section limits

variable {τ : Tag} {g : Ghost} {w : Disk} {d c : Bytes}

/-- A survivor is a log of its own, over the same data file. -/
lemma Survivor.holds (hs : Survivor g c) (hv : g.version.Ok)
    (hd : DataOk g.disk (Covers g.txns) g.version d) (hint : Bytes) :
    ∃ g', Holds g' (Disk.revived d c hint) := by
  obtain ⟨t₀, Ts, us, rest, hf, hus, hc, hr, hcap, hcov⟩ := hs
  refine ⟨⟨g.disk, t₀, Ts, [], g.version⟩, ⟨hv, hf, hd.mono hcov, ⟨us, rest, hus, hr, hc⟩, hcap⟩⟩

/-- **Whatever a crash leaves is a log with a data file.** -/
lemma Phase.holds (h : Phase τ w) (hd : DataCrash w.data d) (hc : WalCrash w.wal c) (hint : Bytes) :
    ∃ g, Holds g (Disk.revived d c hint) := by
  cases h with
  | files g h hg => exact (h.crash c hc).holds h.version (h.data d hd) hint
  | committing g T h hg hn =>
      rcases h.crash c hc with hs | hs
      · exact hs.holds h.before (h.data d hd).1 hint
      · exact hs.holds h.next.version (h.data d hd).2 hint
  | absorbing g h hg =>
      rcases h.data d hd with hd | hd
      · exact (h.crash c hc).holds h.version (hd.mono fun _ hf => hf.elim) hint
      · exact ((h.crash c hc).rebase h.fits).holds h.version (hd.mono fun _ hf => hf.elim) hint

/-- The errors of a database that has outgrown its own limits. -/
def Outgrown (e : Error) : Prop :=
  e = .resourceLimit "persisted page-WAL cap exceeded"
    ∨ e = bad "WAL exceeds pilot bounded lookup allowance"

lemma not_outgrown_of_validateExtent {h : Header} {n : ℕ} {e : Error}
    (he : h.validateExtent n = .error e) : ¬ Outgrown e := by
  have hne : ∀ why, why ≠ "WAL exceeds pilot bounded lookup allowance" → ¬ Outgrown (bad why) := by
    rintro why hwhy (h | h)
    · cases h
    · injection h with _ h
      exact hwhy h
  rw [Header.validateExtent] at he
  split_ifs at he
  · cases he
    exact hne _ (by decide)
  · cases he
    exact hne _ (by decide)

/-- **A reopen is never refused for the size of the database.** -/
lemma Holds.reopen (h : Holds g w) {cf : ℕ} {sync : SyncMode} (hs : sync ≠ .off) (σ : Store) :
    Spec Disk.exec (fun _ _ => True) (Store.reopen cf sync) (fun _ _ _ => True)
      (fun e _ _ => ¬ Outgrown e) σ w := by
  have hh : Holds g (w.hold .gate) := h.congr rfl rfl
  obtain ⟨s, hins, hr, -, -, -⟩ := hh.inspect cf
  rw [Store.reopen, spec_bind, spec_lockGate]
  refine ⟨trivial, ?_⟩
  rw [spec_bind, spec_attempt, spec_bind, spec_dataContents]
  refine ⟨trivial, ?_⟩
  rw [spec_bind, spec_walContents]
  refine ⟨trivial, ?_⟩
  rw [spec_bind, hins, spec_ofExcept_ok, spec_bind, spec_modify, spec_bind]
  refine spec_loadHeader (σ := Store.opened s sync) hh hr rfl trivial ?_ ?_
  · intro e he
    rw [spec_bind, spec_unlock, spec_ofExcept_error]
    exact ⟨trivial, not_outgrown_of_validateExtent he⟩
  · intro _
    rw [spec_onPager]
    refine spec_normaliseTail hs rfl trivial trivial trivial trivial trivial ?_
    rw [spec_bind, spec_unlock, spec_ofExcept_ok]
    exact ⟨trivial, trivial⟩

/-- **The committed part of a state is within its caps**: the persistent one, that of the log, and
the runtime allowances `(data, wal, tracked)`. -/
structure Admitted (st : State) (limits : ℕ × ℕ × ℕ) : Prop where
  cap : st.lastCommit + st.committedPages * page ≤ st.cap
  wal : st.lastCommit ≤ min walCap limits.2.1
  data : st.committedPages * page ≤ limits.1
  tracked : st.committed.size ≤ limits.2.2

/-- The writer holds `σ` and makes no call: it rests, or its publication is about to return. -/
inductive Job.At (σ : Store) : Job → Prop
  | idle : At σ (.idle σ)
  | published {victim : Option ℕ} {order : List ℕ} {due : Bool} :
      At σ (.busy (.publish victim order) (.ret (.ok due, σ)))

lemma Holds.log_le (h : Holds g w) : logEnd g.txns ≤ walCap := by
  obtain ⟨us, rest, -, -, hw⟩ := h.wal
  refine le_trans ?_ h.cap
  rw [hw, List.length_append, h.length_log]
  exact Nat.le_add_right _ _

/-- What an inspection finds is within the caps. -/
lemma Recovered.admitted {st : State} {limits : ℕ × ℕ × ℕ} (hr : Recovered g st) (h : Holds g w)
    (hw : Within g limits) : Admitted st limits := by
  refine ⟨?_, ?_, ?_, ?_⟩
  · rw [hr.lastCommit, hr.committedPages, hr.cap]; exact h.fits.cap
  · rw [hr.lastCommit]; exact le_min h.log_le hw.wal
  · rw [hr.committedPages]; exact hw.data
  · rw [hr.committed]; exact hw.tracked

/-- The bookkeeping of a usable handle is within its caps. -/
lemma StoreOk.admitted {σ : Store} (hσ : StoreOk .tight g σ) (h : Holds g w) :
    Admitted σ.state σ.limits := by
  have hP := hσ.pager
  have hw := hσ.within
  have hb := hP.behind
  refine ⟨?_, ?_, ?_, ?_⟩
  · have h1 := Nat.mul_le_mul_right page hb.pages
    have h2 := hP.cap
    have h3 := hb.endOff
    show σ.pager.state.lastCommit + σ.pager.state.committedPages * page ≤ σ.pager.state.cap
    rw [hP.lastCommit, hP.committedPages]
    omega
  · show σ.pager.state.lastCommit ≤ _
    rw [hP.lastCommit]; exact le_min h.log_le hw.wal
  · show σ.pager.state.committedPages * page ≤ _
    rw [hP.committedPages]; exact hw.data
  · show σ.pager.state.committed.size ≤ _
    rw [hP.committed]; exact hw.tracked

/-- A handle that makes no call, and the files. -/
lemma Inv.resting {may : Holdings → Act → Prop} {R : Holdings → Ghost → Store → Prop} {s : Sys}
    {σ : Store} (h : Inv may R s) (hj : s.job.At σ) :
    ∃ g, Holds g s.disk ∧ Within g σ.limits ∧ (σ.poisoned = false → StoreOk .tight g σ) := by
  obtain ⟨τ, -, -, -, hjob⟩ := h
  generalize he : s.job = job at hj hjob
  cases hj with
  | idle =>
      obtain ⟨g, hr, -⟩ := hjob
      exact ⟨g, hr.calm.files.holds, hr.within, fun hp => (hr.usable hp).store⟩
  | published =>
      obtain ⟨-, -, g, σ₀, -, -, g', heff⟩ := hjob
      cases heff with
      | still hst h hs => exact hst.elim
      | settled ht h hs => exact ⟨g', h.calm.files.holds, h.within, fun hp => (h.usable hp).store⟩
      | published hp hσ ht h => exact ⟨g', h.files.holds, h.store.within, fun _ => h.store⟩
      | reloaded hst h => exact hst.elim

/-- **A run never writes itself past its own limits.**  Whenever the writer makes no call, the
committed state, as the files have it and as the handle has it, is within the caps; and whatever
survives of the files at any point, also with the frames of a lost truncate, is within the caps a
reopen checks and is never refused for its size. -/
theorem within_limits_reachable {may : Holdings → Act → Prop} {s : Sys} (h : Reachable may s)
    (cf : ℕ) :
    (∀ σ, s.job.At σ →
      (∃ st, inspect cf s.disk.data.contents s.disk.wal.contents = .ok st ∧ Admitted st σ.limits)
        ∧ (σ.poisoned = false → Admitted σ.state σ.limits
          ∧ σ.limits = (σ.state.dataLimit, σ.state.walLimit, σ.state.trackedLimit)))
    ∧ ∀ w, DataCrash s.disk.data w.data.contents → WalCrash s.disk.wal w.wal.contents →
      (∃ st, inspect cf w.data.contents w.wal.contents = .ok st
        ∧ Admitted st (u64Max, u64Max, u64Max))
      ∧ ∀ (σ : Store) (sync : SyncMode), sync ≠ .off →
        Spec Disk.exec (fun _ _ => True) (Store.reopen cf sync) (fun _ _ _ => True)
          (fun e _ _ => ¬ Outgrown e) σ w := by
  have hi := h.inv_files
  refine ⟨fun σ hσ => ?_, fun w hd hc => ?_⟩
  · obtain ⟨g, hh, hw, hu⟩ := hi.resting hσ
    obtain ⟨st, hins, hr, -⟩ := hh.inspect cf
    refine ⟨⟨st, hins, hr.admitted hh hw⟩, fun hp => ⟨(hu hp).admitted hh, (hu hp).limits⟩⟩
  · obtain ⟨τ, -, -, hphase, -⟩ := hi
    obtain ⟨g, hh⟩ := hphase.holds hd hc w.hint
    have hh' : Holds g w := ⟨hh.version, hh.fits, hh.data, hh.wal, hh.cap⟩
    obtain ⟨st, hins, hr, -⟩ := hh'.inspect cf
    exact ⟨⟨st, hins, hr.admitted hh' hh'.within⟩, fun σ sync hs => hh'.reopen hs σ⟩

/-- The same run, after `set_cap`: what is committed is within the new cap, and a reopen of the
files is not refused for it. -/
theorem within_limits_stoppedRun : ∃ s σ, Reachable Free s ∧ s.job = .idle σ
    ∧ s.acked.page 2 = some (sealPage (oneLeaf [1, 2, 3]) 1) ∧ s.acked.cap = 10000000
    ∧ σ.state.lastCommit + σ.state.committedPages * page ≤ 10000000
    ∧ Admitted σ.state σ.limits
    ∧ Spec Disk.exec (fun _ _ => True) (Store.reopen 0 .full) (fun _ _ _ => True)
        (fun e _ _ => ¬ Outgrown e) σ s.disk := by
  obtain ⟨s, σ, hr, hj, hp, hpage, hcap, hcap', -⟩ := exists_stoppedRun
  have hat : s.job.At σ := hj ▸ .idle
  obtain ⟨hrun, hcrash⟩ := within_limits_reachable hr 0
  have hadmitted := ((hrun σ hat).2 hp).1
  refine ⟨s, σ, hr, hj, hpage, hcap, hcap' ▸ hadmitted.cap, hadmitted, ?_⟩
  exact (hcrash s.disk (DurableFile.crash_contents _) (DurableFile.crash_contents _)).2 σ .full
    (by decide)

end limits

end PageWal
