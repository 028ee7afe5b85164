import Sekejap.PageWal.Operations

/-!
# The invariant of every run

`Inv R s` says that wherever the writer is stopped, the files are in one of the phases of
`Sekejap.PageWal.Writer`, and what is left of the running operation has one of its effects.  It is
parametric in a further invariant `R` of the handle and the pages its callers hold; `Keeps may R`
is what has to be shown of `R`, effect by effect, and **`Reachable.inv` then gives it for every
state of every run**.

**`Reachable.inv`** carries it over runs; what a crash leaves (`recover_reachable`) and the limits the
committed states keep to are read off it.
-/

open Bytes Page Crc32c Proc

namespace PageWal

section pendingImage

variable {g : Ghost} {σ : Store} {w : Disk}

/-- A page of the open transaction, as the pool or the pager has it, is the one that is
committed. -/
lemma StoreOk.page_eq (hσ : StoreOk .tight g σ) (hf : FilesOk g w) {p : ℕ} (h2 : 2 ≤ p)
    (hp : p < σ.pool.nextPage) :
    σ.pendingPage w p = some ((cur g σ p).getD (g.version.page p)) := by
  rw [Store.pendingPage, cur]
  cases hb : σ.pool.dirty[p]? with
  | some b => rfl
  | none =>
      have hfr : Framed g p := by
        rcases Nat.lt_or_ge p g.version.pages with hlt | hge
        · exact Or.inl hlt
        · rcases hσ.cover p hge hp with hi | hd | hfr
          · exact Or.inr hi
          · rw [Std.ExtTreeMap.mem_iff_isSome_getElem?, hb] at hd; cases hd
          · cases hfr
      have hread : readPage w.data.contents w.wal.contents σ.state.latest p = .ok (view g p) :=
        hσ.pager.readPage_view hf h2 hfr
      simp only [hread]; rfl

/-- **The open transaction of a handle, as an image.** -/
lemma StoreOk.pendingImage_eq (hσ : StoreOk .tight g σ) (hf : FilesOk g w)
    (hs : σ.settled = false) : σ.pendingImage w = (pending g σ).image := by
  refine Image.ext rfl rfl rfl rfl (funext fun p => ?_)
  by_cases hp : p ≠ 1 ∧ p < σ.pool.nextPage
  · have hp' : p ≠ 1 ∧ p < (pending g σ).pages := hp
    simp only [Store.pendingImage, Version.image, if_pos hp, if_pos hp']
    by_cases h0 : p = 0
    · simp only [if_pos h0, Store.pendingHeader, hs]; rfl
    · simp only [if_neg h0]
      exact hσ.page_eq hf (by omega) hp.2
  · have hp' : ¬ (p ≠ 1 ∧ p < (pending g σ).pages) := hp
    simp only [Store.pendingImage, Version.image, if_neg hp, if_neg hp']

lemma Store.settled_fields (hs : σ.settled = true) : σ.dirty = false := by
  simp only [Store.settled, Bool.and_eq_true, Bool.not_eq_true'] at hs
  exact hs.1.1

/-- A settled handle names the committed header. -/
lemma HandleOk.pendingHeader_eq (hσ : HandleOk g σ) (hf : FilesOk g w) (hs : σ.settled = true) :
    σ.pendingHeader = g.version.header := by
  have hP := hσ.store.pager
  have ha := hσ.agreed (Store.settled_fields hs)
  have hid := hf.fits.rebase.2
  rw [Store.pendingHeader, if_pos hs]
  refine Header.ext ha.root ha.freeHead ha.cap (hP.identity.trans hid.1.symm) ?_
    (hP.features.trans hid.2.symm)
  show σ.pager.state.tx - 1 = _
  rw [hP.tx, Ghost.tx]
  rfl

/-- **A settled handle has the committed image.** -/
lemma HandleOk.pendingImage_settled (hσ : HandleOk g σ) (hf : FilesOk g w)
    (hs : σ.settled = true) : σ.pendingImage w = g.version.image := by
  have hd := Store.settled_fields hs
  have ha := hσ.agreed hd
  have hcl := hσ.clean hd
  refine Image.ext ha.root ha.freeHead ha.cap hcl.nextPage (funext fun p => ?_)
  by_cases hp : p ≠ 1 ∧ p < σ.pool.nextPage
  · have hp' : p ≠ 1 ∧ p < g.version.pages := hcl.nextPage ▸ hp
    simp only [Store.pendingImage, Version.image, if_pos hp, if_pos hp']
    by_cases h0 : p = 0
    · simp only [if_pos h0, hσ.pendingHeader_eq hf hs]
    · simp only [if_neg h0]
      have hcur : cur g σ p = none := by
        rw [cur_clean hcl.pool, hcl.tail]; rfl
      have hpage := hσ.store.page_eq hf (by omega : 2 ≤ p) hp.2
      rw [hcur] at hpage
      exact hpage
  · have hp' : ¬ (p ≠ 1 ∧ p < g.version.pages) := hcl.nextPage ▸ hp
    simp only [Store.pendingImage, Version.image, if_neg hp, if_neg hp']

end pendingImage

/-! ## The invariant -/

/-- What is left of an operation has one of its effects on `g` and `σ`. -/
def Runs (τ : Tag) (g : Ghost) (σ : Store) (st : Stage)
    (p : Prog Call (Except Error st.Result × Store)) (w : Disk) : Prop :=
  Prog.wp Disk.exec (Guar τ) p
    (post (fun r σ' w' => ∃ g', Effect τ g σ g' σ' w' st (.ok r))
      fun e σ' w' => ∃ g', Effect τ g σ g' σ' w' st (.error e)) w

/-- What the writer is doing agrees with the files. -/
def JobOk (may : Holdings → Act → Prop) (R : Holdings → Ghost → Store → Prop) (τ : Tag) (s : Sys) :
    Job → Prop
  | .idle σ => ∃ g, AtRest τ g σ s.disk ∧ R s.holdings g σ
  | .busy st p => τ.target.image = s.target ∧ (∀ a, st = .act a → may s.holdings a)
      ∧ ∃ g σ, R s.holdings g σ ∧ g.version = τ.acked ∧ Runs τ g σ st p s.disk
  | .closed _ => ∃ g σ, Calm τ g s.disk ∧ R s.holdings g σ

/-- **The invariant.** -/
def Inv (may : Holdings → Act → Prop) (R : Holdings → Ghost → Store → Prop) (s : Sys) : Prop :=
  ∃ τ : Tag, τ.acked.image = s.acked ∧ τ.commits = s.commits ∧ Phase τ s.disk
    ∧ JobOk may R τ s s.job

/-- **What has to be shown of a further invariant**, effect by effect. -/
structure Keeps (may : Holdings → Act → Prop) (R : Holdings → Ghost → Store → Prop) : Prop where
  poisoned : ∀ {H g σ g' σ'}, R H g σ → g'.version = g.version → σ'.poisoned = true → R H g' σ'
  still : ∀ {H g σ g' σ'}, R H g σ → Still g σ g' σ' → R H g' σ'
  acted : ∀ {H g σ g' σ' a r τ w}, R H g σ → may H a → σ.poisoned = false → HandleOk g σ →
    AtRest τ g' σ' w → Did g σ a r g' σ' → R (H.after (.act a) r) g' σ'
  settled : ∀ {H g σ g' σ'}, R H g σ → Still g σ g' σ' → R ⟨H.owned, H.owned⟩ g' σ'
  published : ∀ {H g σ g' σ' τ w}, R H g σ → σ.poisoned = false → HandleOk g σ →
    τ.target = pending g σ → Published τ σ g' σ' w → R ⟨H.owned, H.owned⟩ g' σ'
  reloaded : ∀ {H g σ g' σ' τ w}, R H g σ → Reloaded τ g g' σ' w → R ⟨H.saved, H.saved⟩ g' σ'

section steps

variable {may : Holdings → Act → Prop} {R : Holdings → Ghost → Store → Prop}
variable {τ : Tag} {g : Ghost} {σ : Store} {w : Disk} {s : Sys}

/-- `τ` with another version being committed. -/
def Tag.aim (τ : Tag) (v : Version) : Tag := { τ with target := v }

lemma Calm.aim (h : Calm τ g w) (v : Version) : Calm (τ.aim v) g w :=
  ⟨h.files, h.kept, h.held, h.hints⟩

lemma AtRest.aim (h : AtRest τ g σ w) (v : Version) : AtRest (τ.aim v) g σ w :=
  ⟨h.calm.aim v, h.usable, h.behind, h.within, h.sync⟩

lemma Calm.phase (h : Calm τ g w) : Phase τ w := .files g h.files h.kept.good

/-- The invariant where the writer rests. -/
lemma inv_idle (ha : τ.acked.image = s.acked) (hc : τ.commits = s.commits)
    (h : AtRest τ g σ s.disk) (hR : R s.holdings g σ) (hj : s.job = .idle σ) : Inv may R s :=
  ⟨τ, ha, hc, h.calm.phase, by rw [hj]; exact ⟨g, h, hR⟩⟩

/-- The invariant where an operation begins that publishes nothing. -/
lemma inv_begin {st : Stage} (ha : τ.acked.image = s.acked) (hc : τ.commits = s.commits)
    (h : Calm τ g s.disk) (hR : R s.holdings g σ) {σ₁ : Store} (hst : ∀ v o, st ≠ .publish v o)
    (hmay : ∀ a, st = .act a → may s.holdings a)
    (hruns : Runs (τ.aim τ.acked) g σ st (st.proc σ₁) s.disk) : Inv may R (s.start σ₁ st) := by
  refine ⟨τ.aim τ.acked, ha, hc, (h.aim _).phase, ?_, hmay, g, σ, hR, h.kept.1, hruns⟩
  have ht : (s.start σ₁ st).target = s.acked := by
    unfold Sys.start
    cases st with
    | publish v o => exact absurd rfl (hst v o)
    | _ => rfl
  rw [ht]
  exact ha

/-- The invariant where a publication begins. -/
lemma inv_publish {v : Option ℕ} {o : List ℕ} (ha : τ.acked.image = s.acked)
    (hc : τ.commits = s.commits) (h : AtRest τ g σ s.disk) (hR : R s.holdings g σ) :
    Inv may R (s.start σ (.publish v o)) := by
  -- the version the publication aims at, and that its image is the target's
  obtain ⟨t, haim, himage⟩ : ∃ t, (σ.poisoned = false → Aimed (τ.aim t) g σ)
      ∧ t.image = (s.start σ (.publish v o)).target := by
    cases hp : σ.poisoned with
    | true =>
        refine ⟨τ.acked, (fun hf => by cases hf), ?_⟩
        show τ.acked.image = if σ.poisoned = true then s.acked else _
        rw [if_pos hp]; exact ha
    | false =>
        have hne : ¬ σ.poisoned = true := by rw [hp]; decide
        have hσ := h.usable hp
        cases hs : σ.settled with
        | true =>
            refine ⟨τ.acked, (fun _ => by rw [Aimed, if_pos hs]; rfl), ?_⟩
            show τ.acked.image = if σ.poisoned = true then s.acked else _
            rw [if_neg hne, hσ.pendingImage_settled h.calm.files hs, h.calm.kept.1]
        | false =>
            refine ⟨pending g σ, (fun _ => by rw [Aimed, if_neg (by rw [hs]; decide)]; rfl), ?_⟩
            show (pending g σ).image = if σ.poisoned = true then s.acked else _
            rw [if_neg hne, hσ.store.pendingImage_eq h.calm.files hs]
  exact ⟨τ.aim t, ha, hc, (h.calm.aim _).phase, himage, fun a hf => (by cases hf), g, σ, hR,
    h.calm.kept.1, meets_publish (h.aim _) haim⟩

/-- **An operation may begin.** -/
lemma inv_start {st : Stage} (hi : Inv may R s) (hj : s.job = .idle σ) (hst : st.May σ)
    (hmay : ∀ a, st = .act a → may s.holdings a) : Inv may R (s.start σ st) := by
  obtain ⟨τ, ha, hc, -, hjob⟩ := hi
  rw [hj] at hjob
  obtain ⟨g, hrest, hR⟩ := hjob
  by_cases hpub : ∃ v o, st = .publish v o
  · obtain ⟨v, o, rfl⟩ := hpub
    exact inv_publish ha hc hrest hR
  · have hpub' : ∀ v o, st ≠ .publish v o := fun v o he => hpub ⟨v, o, he⟩
    exact inv_begin ha hc hrest.calm hR hpub' hmay
      (spec_stage (hrest.aim _) hst fun v o he => absurd he (hpub' v o))

/-- **A failed reopen may be repeated.** -/
lemma inv_restart {cf : ℕ} {sync : SyncMode} (hi : Inv may R s) (hj : s.job = .closed σ)
    (hs : sync ≠ .off) : Inv may R (s.start σ (.reopen cf sync)) := by
  obtain ⟨τ, ha, hc, -, hjob⟩ := hi
  rw [hj] at hjob
  obtain ⟨g, σ₀, hcalm, hR⟩ := hjob
  exact inv_begin ha hc hcalm hR (fun v o he => by cases he) (fun a he => by cases he)
    (meets_reopen (hcalm.aim _) hs)

/-- **One call.** -/
lemma inv_call {st : Stage} {β : Type} {e : Call β}
    {k : β → Prog Call (Except Error st.Result × Store)} {r : β} (hi : Inv may R s)
    (hj : s.job = .busy st (.call e k)) (hx : Disk.exec e s.disk r w) :
    Inv may R { s with disk := w, job := .busy st (k r) } := by
  obtain ⟨τ, ha, hc, -, hjob⟩ := hi
  rw [hj] at hjob
  obtain ⟨ht, hmay, g, σ, hR, hv, hruns⟩ := hjob
  obtain ⟨hG, hrest⟩ := hruns r w hx
  exact ⟨τ, ha, hc, hG.phase, ht, hmay, g, σ, hR, hv, hrest⟩

lemma Published.handle {g' : Ghost} {σ' : Store} (h : Published τ σ g' σ' w) (hr : RootOk σ)
    (ht : τ.target = pending g σ) : HandleOk g' σ' := by
  have hpages := h.store.pages_eq h.clean
  have hver : g'.version.pages = σ'.pool.nextPage := by
    refine le_antisymm ?_ ?_
    · exact h.store.pager.pages_ge.trans hpages.le
    · by_contra hlt
      push Not at hlt
      rcases h.store.cover g'.version.pages le_rfl hlt with ⟨i, hi, -⟩ | hd | hf
      · rw [h.tail] at hi; cases hi
      · exact h.clean _ hd
      · cases hf
  refine ⟨h.store, ?_, fun _ => ⟨h.tail, hpages.trans hver.symm, hver.symm, h.clean⟩, fun _ => ?_⟩
  · rw [RootOk, h.root, h.nextPage]
    exact hr
  · have hheader : g'.version.header = σ.nextHeader := by rw [h.version, ht]; rfl
    exact ⟨by rw [hheader]; exact h.root, by rw [hheader]; exact h.freeHead,
      by rw [hheader]; exact h.cap⟩

/-- **An operation ends.** -/
lemma inv_finish (hk : Keeps may R) {st : Stage} {r : Except Error st.Result} (hi : Inv may R s)
    (hj : s.job = .busy st (.ret (r, σ))) : Inv may R (s.finish σ st r) := by
  obtain ⟨τ, ha, hc, -, hjob⟩ := hi
  rw [hj] at hjob
  obtain ⟨ht, hmay, g, σ₀, hR, hv, hruns⟩ := hjob
  have heff : ∃ g', Effect τ g σ₀ g' σ s.disk st r := by
    cases r with
    | error e => exact hruns
    | ok a => exact hruns
  obtain ⟨g', heff⟩ := heff
  cases heff with
  | failed h hp =>
      have hR' : R s.holdings g' σ := by
        rcases hp with hp | ⟨rfl, rfl⟩
        · exact hk.poisoned hR (h.calm.kept.1.trans hv.symm) hp
        · exact hR
      cases st with
      | reopen cf sync => exact ⟨τ, ha, hc, h.calm.phase, g', σ, h.calm, hR'⟩
      | _ => exact inv_idle ha hc h hR' rfl
  | gone h =>
      have hR' : R s.holdings g' { σ with poisoned := true } :=
        hk.poisoned hR (h.kept.1.trans hv.symm) rfl
      exact ⟨τ, ha, hc, h.phase, g', _, h, hR'⟩
  | still hst h hs =>
      have hR' := hk.still hR hs
      cases st with
      | act a => exact hst.elim
      | publish v o => exact hst.elim
      | rollback cf => exact hst.elim
      | reopen cf sync => exact hst.elim
      | setCap bytes v o => exact inv_publish ha hc h hR'
      | _ => exact inv_idle ha hc h hR' rfl
  | settled htt h hs =>
      rw [htt] at ht
      exact inv_idle (s := { s.acknowledge with job := .idle σ }) ht
        (h.calm.kept.2.symm) h (hk.settled hR hs) rfl
  | acted hp hσ h hd => exact inv_idle ha hc h (hk.acted hR (hmay _ rfl) hp hσ h hd) rfl
  | @published victim order due hp hσ htt h =>
      have hcalm : Calm ⟨τ.target, τ.target, s.disk.commits⟩ g' s.disk :=
        ⟨h.files, ⟨h.version, rfl⟩, h.held, h.hints⟩
      have hrest := (h.handle hσ.root htt).atRest hcalm
      have hR' := hk.published hR hp hσ htt h
      cases due with
      | false =>
          exact inv_idle (s := { s.acknowledge with job := .idle σ }) ht rfl hrest hR' rfl
      | true =>
          refine inv_begin (s := s.acknowledge) ht rfl hcalm hR'
            (fun v o he => by cases he) (fun a he => by cases he) ?_
          exact meets_fold (hrest.aim _) (h.poisoned.trans hp) h.dirty
  | reloaded hst h =>
      have hR' := hk.reloaded hR h
      have hrest := h.handle.atRest h.calm
      cases st with
      | rollback cf => exact inv_idle ha hc hrest hR' rfl
      | reopen cf sync => exact inv_idle ha hc hrest hR' rfl
      | _ => exact hst.elim

/-- **Every step keeps the invariant.** -/
lemma Step.inv {s s' : Sys} (hk : Keeps may R) (hi : Inv may R s) (h : Step may s s') :
    Inv may R s' := by
  cases h with
  | start hj hst hmay => exact inv_start hi hj hst hmay
  | restart hj hs => exact inv_restart hi hj hs
  | call hj hx => exact inv_call hi hj hx
  | finish hj => exact inv_finish hk hi hj

end steps

/-! ## A fresh database -/

section fresh

variable {id m₀ m₁ : Bytes} {features : ℕ} {sync : SyncMode}

/-- What the files of a fresh database mean. -/
def freshGhost (id : Bytes) (features : ℕ) : Ghost where
  disk := freshHeader id features
  t₀ := 1
  txns := []
  tail := []
  version := ⟨freshHeader id features, 2, fun _ => []⟩

lemma freshHeader_valid (hid : id.length = 16) (hne : id ≠ List.replicate 16 0)
    (hf : features < 2) : (freshHeader id features).Valid :=
  ⟨by norm_num [freshHeader], by norm_num [freshHeader], by norm_num [freshHeader, u64Max], hid, hne,
    by norm_num [freshHeader], hf⟩

lemma freshData_ok (hv : (freshHeader id features).Valid)
    (h₀ : (freshHeader id features).page 0 = .ok m₀)
    (h₁ : (freshHeader id features).page 1 = .ok m₁) :
    DataOk (freshHeader id features) (Covers []) ⟨freshHeader id features, 2, fun _ => []⟩
      (m₀ ++ m₁) := by
  have l₀ := length_headerPage hv (by norm_num) h₀
  have l₁ := length_headerPage hv (by norm_num) h₁
  have p₀ : pageAt (m₀ ++ m₁) 0 = m₀ := by
    rw [pageAt, Nat.zero_mul]
    exact slice_segment [] rfl rfl l₀
  have p₁ : pageAt (m₀ ++ m₁) 1 = m₁ := by
    rw [pageAt, Nat.one_mul]
    exact slice_last m₀ rfl l₀ l₁
  refine ⟨⟨?_, some (freshHeader id features), some (freshHeader id features), ?_, ?_, Or.inl rfl,
    ?_, ?_⟩, ?_, ?_⟩
  · rw [List.length_append]; omega
  · exact .intact _ hv (by rw [p₀]; exact h₀)
  · exact .intact _ hv (by rw [p₁]; exact h₁)
  · rintro _ ⟨⟩; exact Header.upto_refl _
  · rintro _ ⟨⟩; exact Header.upto_refl _
  · rw [List.length_append]
    show _ ≤ 2 * page
    omega
  · intro p h2 hp
    exact absurd hp (not_lt.2 h2)

lemma freshFiles_ok (hv : (freshHeader id features).Valid)
    (h₀ : (freshHeader id features).page 0 = .ok m₀)
    (h₁ : (freshHeader id features).page 1 = .ok m₁) :
    FilesOk (freshGhost id features) (freshDisk id m₀ m₁) := by
  have hfit : LogFits (freshHeader id features) ⟨freshHeader id features, 2, fun _ => []⟩ 1 [] := by
    refine ⟨⟨by omega, le_rfl, by simp, by simp⟩, rfl, le_rfl, rfl, by simp, by simp, ?_, ?_, ?_⟩
    · intro p b _ _ hb; cases hb
    · intro p hp; cases hp
    · rw [logEnd_nil]; norm_num [page, freshHeader, u64Max]
  have hwal : (freshGhost id features).walBytes = [] := by
    simp [Ghost.walBytes, Ghost.logBytes, freshGhost, encodeLog, encodeImages]
  refine ⟨⟨hv, by norm_num [freshGhost, freshHeader, u64Max], le_rfl, by norm_num [freshGhost], ?_⟩,
    hfit, by simp [freshGhost], ?_, by rw [hwal]; decide, ?_, ?_⟩
  · intro p h2 hp
    exact absurd hp (not_lt.2 h2)
  · rw [hwal]; rfl
  · intro d hd
    have hd' : d = m₀ ++ m₁ := DurableFile.Crash.ofBytes.1 hd
    rw [hd']
    exact freshData_ok hv h₀ h₁
  · intro c hc
    have hc' : c = [] := DurableFile.Crash.ofBytes.1 hc
    refine ⟨1, [], [], [], hfit, by simp, ?_, by decide, by rw [hc']; decide, fun p hp => hp⟩
    rw [hc']; simp [encodeLog, encodeImages]

lemma freshHints_fine (hf : FilesOk (freshGhost id features) (freshDisk id m₀ m₁)) :
    HintsFine 0 (freshDisk id m₀ m₁) := by
  have hv := hf.hint_valid
  have hk : (freshGhost id features).hint = ⟨id, 0, 0, 0⟩ := by
    simp [Ghost.hint, freshGhost, freshHeader, logEnd_nil]
  rw [hk] at hv
  have hl := length_hintEncode hv
  have hb : hintBytes = 48 := rfl
  refine ⟨?_, fun c k hd => ?_⟩
  · show hintFileBytes ≤ (hintEncode ⟨id, 0, 0, 0⟩ ++ hintEncode ⟨id, 0, 0, 0⟩).length
    rw [List.length_append, hl]
    decide
  · have hc : copyAt (freshDisk id m₀ m₁) c = hintEncode ⟨id, 0, 0, 0⟩ := by
      cases c with
      | first => exact slice_segment [] rfl rfl hl
      | second => exact slice_last (hintEncode ⟨id, 0, 0, 0⟩) rfl hl hl
    rw [hc, hintDecode_encode hv] at hd
    cases hd
    have hn := hf.names
    rw [hk] at hn
    exact ⟨hn, le_rfl⟩

lemma freshStore_ok (hs : sync ≠ .off) :
    HandleOk (freshGhost id features) (freshStore id features sync) := by
  have hu : u64Max = 2 ^ 64 - 1 := rfl
  have hu' : u32Max = 2 ^ 32 - 1 := rfl
  have hp : page = 4096 := rfl
  have hP : PagerOk (freshGhost id features) (freshPager id features sync) := by
    constructor
    · rfl
    · rfl
    · rfl
    · rfl
    · show 0 = logEnd [] + 0 * frameLen
      rw [logEnd_nil, Nat.zero_mul]
    · show 0 = logEnd []
      rw [logEnd_nil]
    · rfl
    · rfl
    · rfl
    · rfl
    · exact le_rfl
    · show 2 < 2 ^ 32
      norm_num
    · intro i hi; cases hi
    · exact Or.inl rfl
    · show 0 + 2 * page ≤ u64Max
      omega
    · exact le_rfl
    · exact Nat.zero_le _
    · show 2 * page ≤ u64Max
      omega
    · exact Nat.zero_le _
    · rfl
    · exact hs
  have hdirty : ∀ p : ℕ, (freshStore id features sync).pool.dirty[p]?
      = if 2 = p then some (PageMut.finalise (PageMut.init .leaf 1 2) 0) else none := by
    intro p
    show ((∅ : Std.ExtTreeMap ℕ Bytes).insert 2 _)[p]? = _
    rw [getElem?_insert]; simp
  refine ⟨⟨hP, rfl, ?_, ?_, ?_, ?_, ?_, ?_⟩, ⟨le_rfl, ?_⟩, (fun hf => by cases hf),
    fun hf => by cases hf⟩
  · show 2 ≤ 3
    omega
  · show 3 ≤ u32Max
    omega
  · intro p b hb
    rw [hdirty] at hb
    split_ifs at hb with h2
    subst h2
    exact Or.inl ⟨le_rfl, show 2 < 3 by omega⟩
  · intro i hi; cases hi
  · intro b hb; cases hb
  · intro p hge hlt
    have h1 : 2 ≤ p := hge
    have h2 : p < 3 := hlt
    refine Or.inr (Or.inl ?_)
    rw [Std.ExtTreeMap.mem_iff_isSome_getElem?, hdirty, if_pos (by omega)]
    rfl
  · show 2 < 3
    omega

lemma newSys_fresh : Fresh newSys := by
  have hv : (freshHeader (List.replicate 16 1) 0).Valid :=
    freshHeader_valid (by decide) (by decide) (by decide)
  obtain ⟨m₀, h₀, -⟩ := Header.page_spec hv (show 0 < 2 ^ 32 by norm_num)
  obtain ⟨m₁, h₁, -⟩ := Header.page_spec hv (show 1 < 2 ^ 32 by norm_num)
  refine ⟨List.replicate 16 1, 0, .full, m₀, m₁, by decide, by decide, by decide, by decide, h₀, h₁, ?_⟩
  simp only [newSys, h₀, h₁, Except.toOption, Option.getD_some]

/-- **A fresh database satisfies the invariant.** -/
lemma Fresh.inv {may : Holdings → Act → Prop} {R : Holdings → Ghost → Store → Prop} {s : Sys}
    (h : Fresh s)
    (hR : ∀ id features sync, R ⟨{2}, ∅⟩ (freshGhost id features) (freshStore id features sync)) :
    Inv may R s := by
  obtain ⟨id, features, sync, m₀, m₁, hid, hne, hft, hs, h₀, h₁, rfl⟩ := h.exists_eq
  have hv := freshHeader_valid hid hne hft
  have hf := freshFiles_ok hv h₀ h₁
  have hc : Calm ⟨(freshGhost id features).version, (freshGhost id features).version, 0⟩
      (freshGhost id features) (freshDisk id m₀ m₁) :=
    ⟨hf, ⟨rfl, rfl⟩, rfl, freshHints_fine hf⟩
  exact inv_idle rfl rfl ((freshStore_ok hs).atRest hc) (hR id features sync) rfl

/-- **Every state of every run satisfies it.** -/
theorem Reachable.inv {may : Holdings → Act → Prop} {R : Holdings → Ghost → Store → Prop} {s : Sys}
    (h : Reachable may s) (hk : Keeps may R)
    (hR : ∀ id features sync, R ⟨{2}, ∅⟩ (freshGhost id features) (freshStore id features sync)) :
    Inv may R s := by
  induction h with
  | fresh h => exact h.inv hR
  | step _ hs ih => exact hs.inv hk ih

end fresh

section files

variable {may : Holdings → Act → Prop} {s : Sys}

lemma keeps_true : Keeps may fun _ _ _ => True :=
  ⟨fun _ _ _ => trivial, fun _ _ => trivial, fun _ _ _ _ _ _ => trivial, fun _ _ => trivial,
    fun _ _ _ _ _ => trivial, fun _ _ => trivial⟩

/-- The invariant, with nothing asked of the handle beyond it. -/
lemma Reachable.inv_files (h : Reachable may s) : Inv may (fun _ _ _ => True) s :=
  h.inv keeps_true fun _ _ _ => trivial

end files

end PageWal
