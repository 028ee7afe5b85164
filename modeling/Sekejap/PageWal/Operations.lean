import Sekejap.PageWal.System

/-!
# What an operation of the writer does

`Effect τ g σ g' σ' w' st r` is everything the operation `st` can do to a handle `σ` on files that
mean `g`, with outcome `r`: it fails and leaves enough for a rollback, it leaves the pages of the
transaction as they were, it acts on one page, it publishes, or it reloads the committed version.
**Every operation has one of these effects** (`spec_stage`), and the invariants of runs are all
derived from that.
-/

open Bytes Page Crc32c Proc

namespace PageWal

/-- **A handle at rest** on the files. -/
structure AtRest (τ : Tag) (g : Ghost) (σ : Store) (w : Disk) : Prop where
  calm : Calm τ g w
  usable : σ.poisoned = false → HandleOk g σ
  behind : Behind g σ.state
  within : Within g σ.limits
  sync : σ.pager.sync ≠ .off

/-- No page of the transaction changed. -/
structure Still (g : Ghost) (σ : Store) (g' : Ghost) (σ' : Store) : Prop where
  version : g'.version = g.version
  freeHead : σ'.state.freeHead = σ.state.freeHead
  pages : σ'.state.pages = σ.state.pages
  pool : σ'.pool = σ.pool
  poisoned : σ'.poisoned = σ.poisoned
  view : view g' = view g

/-- The operations that neither touch a page nor publish. -/
def Stage.Plain : Stage → Prop
  | .act _ | .publish _ _ | .rollback _ | .reopen _ _ => False
  | _ => True

/-- The operations that go back to the committed version. -/
def Stage.Reloads : Stage → Prop
  | .rollback _ | .reopen _ _ => True
  | _ => False

/-- **What an operation does.** -/
inductive Effect (τ : Tag) (g : Ghost) (σ : Store) (g' : Ghost) (σ' : Store) (w' : Disk) :
    (st : Stage) → Except Error st.Result → Prop
  | failed {st : Stage} {e : Error} (h : AtRest τ g' σ' w')
      (hp : σ'.poisoned = true ∨ (σ' = σ ∧ g' = g)) : Effect τ g σ g' σ' w' st (.error e)
  | gone {cf : ℕ} {sync : SyncMode} {e : Error} (h : Calm τ g' w') :
      Effect τ g σ g' σ' w' (.reopen cf sync) (.error e)
  | still {st : Stage} {r : st.Result} (hst : st.Plain) (h : AtRest τ g' σ' w')
      (hs : Still g σ g' σ') : Effect τ g σ g' σ' w' st (.ok r)
  | settled {victim : Option ℕ} {order : List ℕ} (ht : τ.target = τ.acked)
      (h : AtRest τ g' σ' w') (hs : Still g σ g' σ') :
      Effect τ g σ g' σ' w' (.publish victim order) (.ok false)
  | acted {a : Act} {r : Option ℕ} (hp : σ.poisoned = false) (hσ : HandleOk g σ)
      (h : AtRest τ g' σ' w') (hd : Did g σ a r g' σ') : Effect τ g σ g' σ' w' (.act a) (.ok r)
  | published {victim : Option ℕ} {order : List ℕ} {due : Bool} (hp : σ.poisoned = false)
      (hσ : HandleOk g σ) (ht : τ.target = pending g σ) (h : Published τ σ g' σ' w') :
      Effect τ g σ g' σ' w' (.publish victim order) (.ok due)
  | reloaded {st : Stage} {r : st.Result} (hst : st.Reloads) (h : Reloaded τ g g' σ' w') :
      Effect τ g σ g' σ' w' st (.ok r)

section rest

variable {τ : Tag} {g g' : Ghost} {σ σ' : Store} {w w' : Disk}

lemma Still.refl (g : Ghost) (σ : Store) : Still g σ g σ := ⟨rfl, rfl, rfl, rfl, rfl, rfl⟩

lemma HandleOk.atRest (h : HandleOk g σ) (hc : Calm τ g w) : AtRest τ g σ w :=
  ⟨hc, fun _ => h, h.store.pager.behind, h.store.within, h.store.pager.sync⟩

lemma Fallen.atRest (h : Fallen τ σ w) (hp : σ.poisoned = true) : ∃ g, AtRest τ g σ w := by
  obtain ⟨g, hc, hb, hw⟩ := h.calm
  exact ⟨g, hc, fun hf => absurd (hp.symm.trans hf) (by decide), hb, hw, h.sync⟩

/-- A handle that failed can only be poisoned. -/
lemma Fallen.effect (h : Fallen τ { σ' with poisoned := true } w') {st : Stage} {e : Error} :
    ∃ g', Effect τ g σ g' { σ' with poisoned := true } w' st (.error e) := by
  obtain ⟨g', hr⟩ := h.atRest rfl
  exact ⟨g', .failed hr (Or.inl rfl)⟩

lemma Fallen.poison (h : Fallen τ σ w) : Fallen τ { σ with poisoned := true } w := ⟨h.calm, h.sync⟩

lemma Checkpointed.still (h : Checkpointed τ g σ g' σ' w') (hcl : Clean g σ) : Still g σ g' σ' := by
  obtain ⟨P, rfl, hf, -⟩ := h.pager
  refine ⟨h.version, hf, ?_, rfl, rfl, ?_⟩
  · rw [hcl.pages, h.clean.pages, h.version]
  · funext p
    rw [view, view, hcl.tail, h.clean.tail, h.version]

lemma Checkpointed.handle (h : Checkpointed τ g σ g' σ' w') (hσ : HandleOk g σ) : HandleOk g' σ' := by
  have hv := h.version
  have hst := h.store
  have hcl := h.clean
  obtain ⟨P, rfl, hf, hcap⟩ := h.pager
  refine ⟨hst, hσ.root, fun _ => hcl, fun hd => ?_⟩
  have ha := hσ.agreed hd
  exact ⟨by rw [hv]; exact ha.root, by rw [hv]; exact hf.trans ha.freeHead,
    by rw [hv]; exact hcap.trans ha.cap⟩

lemma Acted.fields {p : ℕ} (h : Acted g σ p g' σ') :
    σ'.root = σ.root ∧ σ'.dirty = σ.dirty ∧ σ'.poisoned = σ.poisoned := by
  have hs := congrArg (fun s : Store => (s.root, s.dirty, s.poisoned)) h.fixed
  simp only [Prod.mk.injEq] at hs
  exact hs

/-- What an action leaves alone, and how the file grows. -/
lemma Did.fields {a : Act} {r : Option ℕ} (h : Did g σ a r g' σ') :
    (σ'.root = σ.root ∧ σ'.dirty = σ.dirty ∧ σ'.poisoned = σ.poisoned)
      ∧ σ.pool.nextPage ≤ σ'.pool.nextPage := by
  cases h with
  | fresh h0 h head next => exact ⟨h.fields, by omega⟩
  | reused hl h head next => exact ⟨h.fields, by omega⟩
  | edited h head next => exact ⟨h.fields, by omega⟩
  | freed h2 hb hv hp lt h head next => exact ⟨h.fields, by omega⟩
  | ignored h2 => exact ⟨⟨rfl, rfl, rfl⟩, le_rfl⟩

end rest

/-! ## The operations, one by one -/

section operations

variable {τ : Tag} {g : Ghost} {σ : Store} {w : Disk}

open Store

/-- Every outcome of the operation is one of its effects. -/
def Meets (τ : Tag) (g : Ghost) (σ : Store) (w : Disk) (st : Stage) : Prop :=
  Spec Disk.exec (Guar τ) st.proc (fun r σ' w' => ∃ g', Effect τ g σ g' σ' w' st (.ok r))
    (fun e σ' w' => ∃ g', Effect τ g σ g' σ' w' st (.error e)) σ w

/-- A refusal that changed nothing. -/
lemma AtRest.refused (h : AtRest τ g σ w) (st : Stage) (e : Error) :
    ∃ g', Effect τ g σ g' σ w st (.error e) :=
  ⟨g, .failed h (Or.inr ⟨rfl, rfl⟩)⟩

/-- `writable` lets a handle pass that can be used. -/
lemma spec_writable {G : Disk → Disk → Prop} {Q : Unit → Store → Disk → Prop}
    {X : Error → Store → Disk → Prop} (hX : ∀ e, X e σ w)
    (hQ : σ.poisoned = false → Q () σ w) : Spec Disk.exec G writable Q X σ w := by
  rw [writable, spec_bind, spec_current, spec_refuseIf]
  exact ⟨fun _ => hX _, fun h => hQ (by simpa using h)⟩

lemma meets_act {a : Act} (h : AtRest τ g σ w) (hm : Stage.May σ (.act a)) :
    Meets τ g σ w (.act a) := by
  obtain ⟨hp, hd, ha⟩ := hm
  have hσ := h.usable hp
  refine spec_poisoning ((spec_act (X := fun e σ' w' => ∃ g', Effect τ g σ g'
    { σ' with poisoned := true } w' (.act a) (.error e)) h.calm hσ.store ha ?_).mono ?_
      fun _ _ _ hX => hX)
  · intro e σ' w' hf
    exact hf.poison.effect
  · rintro r σ' w' ⟨g', hc, hs, hdid⟩
    obtain ⟨⟨hroot, hdirty, -⟩, hnext⟩ := hdid.fields
    have hr : RootOk σ' := by
      rw [RootOk, hroot]
      exact ⟨hσ.root.1, lt_of_lt_of_le hσ.root.2 hnext⟩
    have hopen : σ'.dirty ≠ false := by rw [hdirty, hd]; decide
    have hh : HandleOk g' σ' := ⟨hs, hr, fun hf => absurd hf hopen, fun hf => absurd hf hopen⟩
    exact ⟨g', .acted hp hσ (hh.atRest hc) hdid⟩

lemma meets_setRoot {root : ℕ} (h : AtRest τ g σ w) (hm : Stage.May σ (.setRoot root)) :
    Meets τ g σ w (.setRoot root) := by
  obtain ⟨hp, hd, hr⟩ := hm
  have hσ := h.usable hp
  have hs : StoreOk .tight g { σ with root } :=
    ⟨hσ.store.pager, hσ.store.limits, hσ.store.pages_le, hσ.store.nextPage_le, hσ.store.dirty,
      hσ.store.tail, hσ.store.header, hσ.store.cover⟩
  have hopen : σ.dirty ≠ false := by rw [hd]; decide
  have hh : HandleOk g { σ with root } :=
    ⟨hs, hr, fun hf => absurd hf hopen, fun hf => absurd hf hopen⟩
  exact ⟨g, .still trivial (hh.atRest h.calm) ⟨rfl, rfl, rfl, rfl, rfl, rfl⟩⟩

/-- What a publication of `σ` is to make the committed version: the open transaction, or the
version there is when nothing is open. -/
def Aimed (τ : Tag) (g : Ghost) (σ : Store) : Prop :=
  if σ.settled then τ.target = τ.acked else τ.target = pending g σ

/-- **A commit** publishes the transaction, or has nothing to publish. -/
lemma meets_publish {victim : Option ℕ} {order : List ℕ} (h : AtRest τ g σ w)
    (ht : σ.poisoned = false → Aimed τ g σ) :
    Meets τ g σ w (.publish victim order) := by
  show Spec Disk.exec _ (commitPublish victim order) _ _ σ w
  rw [commitPublish, spec_bind]
  refine spec_writable (fun e => h.refused _ e) fun hp => ?_
  have hσ := h.usable hp
  have haim := ht hp
  rw [spec_bind, spec_current, spec_ite]
  refine ⟨fun hs => ?_, fun hs => ?_⟩
  · rw [Aimed, if_pos hs] at haim
    exact ⟨g, .settled haim h (Still.refl g σ)⟩
  · rw [Aimed, if_neg hs] at haim
    refine (spec_publishTransaction h.calm hσ.store hσ.root haim ?_).mono ?_ fun _ _ _ hX => hX
    · intro e σ' w' hf
      exact hf.poison.effect
    · rintro due σ' w' ⟨g', hpub⟩
      exact ⟨g', .published hp hσ haim hpub⟩

lemma spec_poisoning_checkpoint {st : Stage} {X : Error → Store → Disk → Prop} (h : AtRest τ g σ w)
    (hp : σ.poisoned = false) (hd : σ.dirty = false) {Q : Bool → Store → Disk → Prop}
    (hX : ∀ e σ' w', (∃ g', Effect τ g σ g' σ' w' st (.error e)) → X e σ' w')
    (hQ : ∀ r g' σ' w', AtRest τ g' σ' w' → Still g σ g' σ' → HandleOk g' σ' → Q r σ' w') :
    Spec Disk.exec (Guar τ) (poisoning checkpointGuarded) Q X σ w := by
  have hσ := h.usable hp
  have hcl := hσ.clean hd
  refine spec_poisoning ((spec_checkpointGuarded h.calm hσ.store hcl ?_).mono ?_ fun _ _ _ hX => hX)
  · intro e σ' w' hf
    exact hX e _ _ hf.poison.effect
  · rintro r σ' w' ⟨g', hck⟩
    have hh := hck.handle hσ
    exact hQ r g' σ' w' (hh.atRest hck.calm) (hck.still hcl) hh

lemma meets_fold (h : AtRest τ g σ w) (hp : σ.poisoned = false) (hd : σ.dirty = false) :
    Meets τ g σ w .fold :=
  spec_poisoning_checkpoint h hp hd (fun _ _ _ hX => hX) fun _ g' _ _ hr hs _ =>
    ⟨g', .still trivial hr hs⟩

lemma meets_checkpoint (h : AtRest τ g σ w) : Meets τ g σ w .checkpoint := by
  show Spec Disk.exec _ Store.checkpoint _ _ σ w
  rw [Store.checkpoint, spec_bind]
  refine spec_writable (fun e => h.refused _ e) fun hp => ?_
  rw [spec_bind, spec_current, spec_bind, spec_refuseIf]
  refine ⟨fun _ => h.refused _ _, fun hd => ?_⟩
  exact spec_poisoning_checkpoint h hp (by simpa using hd) (fun _ _ _ hX => hX)
    fun _ g' _ _ hr hs _ => ⟨g', .still trivial hr hs⟩

/-- The first thing a tree operation does. -/
lemma meets_beginMutation (h : AtRest τ g σ w) : Meets τ g σ w .beginMutation := by
  show Spec Disk.exec _ Store.beginMutation _ _ σ w
  rw [Store.beginMutation, spec_bind]
  refine spec_writable (fun e => h.refused _ e) fun hp => ?_
  have hσ := h.usable hp
  have hdone : ∀ g' σ' w', AtRest τ g' σ' w' → Still g σ g' σ' → HandleOk g' σ' →
      ∃ g'', Effect τ g σ g'' { σ' with dirty := true } w' .beginMutation (.ok ()) := by
    intro g' σ' w' hr hs hh
    have hh' : HandleOk g' { σ' with dirty := true } :=
      ⟨⟨hh.store.pager, hh.store.limits, hh.store.pages_le, hh.store.nextPage_le, hh.store.dirty,
        hh.store.tail, hh.store.header, hh.store.cover⟩, hh.root, (fun hf => by cases hf),
        fun hf => by cases hf⟩
    exact ⟨g', .still trivial (hh'.atRest hr.calm)
      ⟨hs.version, hs.freeHead, hs.pages, hs.pool, hs.poisoned, hs.view⟩⟩
  have hsame := hdone g σ w h (Still.refl g σ) hσ
  rw [spec_bind, foldCommittedWalIfAtCap, spec_bind, spec_current]
  simp only [spec_ite]
  refine ⟨fun _ => hsame, fun hd => ⟨fun _ => hsame, fun _ => ⟨fun _ => hsame, fun _ => ?_⟩⟩⟩
  rw [spec_bind]
  exact spec_poisoning_checkpoint h hp (by simpa using hd) (fun _ _ _ hX => hX)
    fun _ g' σ' w' hr hs hh => hdone g' σ' w' hr hs hh

lemma meets_setCap {bytes : ℕ} {victim : Option ℕ} {order : List ℕ} (h : AtRest τ g σ w)
    (hm : bytes ≤ u64Max) : Meets τ g σ w (.setCap bytes victim order) := by
  show Spec Disk.exec _ (setCapState bytes) _ _ σ w
  rw [setCapState, spec_bind]
  refine spec_writable (fun e => h.refused _ e) fun hp => ?_
  have hσ := h.usable hp
  rw [spec_bind, spec_current]
  simp only [spec_bind, spec_refuseIf, spec_onPager, spec_update, spec_modify]
  refine ⟨fun _ => h.refused _ _, fun _ => ⟨fun _ => h.refused _ _, fun hroom => ?_⟩⟩
  push Not at hroom
  have hP := hσ.store.pager
  have hP' : PagerOk g { σ.pager with state := { σ.pager.state with cap := bytes } } :=
    ⟨hP.identity, hP.features, hP.floor, hP.tx, hP.endOff, hP.lastCommit, hP.latest, hP.committed,
      hP.committedPages, hP.txCrc, hP.pages_ge, hP.pages_lt, hP.tail_lt, hP.freeHead,
      show σ.state.endOff + σ.state.pages * page ≤ bytes by omega, hm, hP.wal_le, hP.data_le,
      hP.tracked_le, hP.hintOpen, hP.sync⟩
  have hh : HandleOk g { σ with
      pager := { σ.pager with state := { σ.pager.state with cap := bytes } }, dirty := true } :=
    ⟨⟨hP', hσ.store.limits, hσ.store.pages_le, hσ.store.nextPage_le, hσ.store.dirty, hσ.store.tail,
      hσ.store.header, hσ.store.cover⟩, hσ.root, (fun hf => by cases hf), fun hf => by cases hf⟩
  exact ⟨g, .still trivial (hh.atRest h.calm) ⟨rfl, rfl, rfl, rfl, rfl, rfl⟩⟩

/-- New allowances are refused unless the files are within them; a poisoned handle takes them as
well. -/
lemma meets_setRuntimeLimits {d l t : ℕ} (h : AtRest τ g σ w) :
    Meets τ g σ w (.setRuntimeLimits d l t) := by
  show Spec Disk.exec _ (Store.setRuntimeLimits d l t) _ _ σ w
  rw [Store.setRuntimeLimits, spec_bind, spec_current]
  simp only [spec_bind, spec_refuseIf, spec_onPager, spec_update, spec_modify]
  refine ⟨fun _ => h.refused _ _, fun hok => ?_⟩
  push Not at hok
  obtain ⟨h1, h2, h3⟩ := hok
  have hb := h.behind
  have hwithin : Within g (d, l, t) :=
    ⟨le_trans (Nat.mul_le_mul_right _ hb.pages) h1, hb.endOff.trans h2, hb.latest.trans h3⟩
  refine ⟨g, .still trivial ⟨h.calm, fun hp => ?_, ⟨hb.identity, hb.features, hb.pages, hb.endOff,
    hb.latest⟩, hwithin, h.sync⟩ ⟨rfl, rfl, rfl, rfl, rfl, rfl⟩⟩
  have hσ := h.usable hp
  have hP := hσ.store.pager
  refine ⟨⟨⟨hP.identity, hP.features, hP.floor, hP.tx, hP.endOff, hP.lastCommit, hP.latest,
    hP.committed, hP.committedPages, hP.txCrc, hP.pages_ge, hP.pages_lt, hP.tail_lt, hP.freeHead,
    hP.cap, hP.cap_lt, h2, h1, h3, hP.hintOpen, hP.sync⟩, rfl, hσ.store.pages_le,
    hσ.store.nextPage_le, hσ.store.dirty, hσ.store.tail, hσ.store.header, hσ.store.cover⟩,
    hσ.root, fun hd => ?_, fun hd => ?_⟩
  · have hcl := hσ.clean hd
    exact ⟨hcl.tail, hcl.pages, hcl.nextPage, hcl.pool⟩
  · have ha := hσ.agreed hd
    exact ⟨ha.root, ha.freeHead, ha.cap⟩

lemma meets_rollback {cf : ℕ} (h : AtRest τ g σ w) : Meets τ g σ w (.rollback cf) := by
  refine spec_rollback h.calm h.behind h.within h.sync ?_ ?_
  · intro e σ' w' _ hf hp
    obtain ⟨g', hr⟩ := hf.atRest hp
    exact ⟨g', .failed hr (Or.inl hp)⟩
  · intro g' σ' w' hr
    exact ⟨g', .reloaded trivial hr⟩

/-- A reopen depends on the files alone: `σ₀` is any handle. -/
lemma meets_reopen {cf : ℕ} {sync : SyncMode} {σ₀ : Store} (h : Calm τ g w) (hs : sync ≠ .off) :
    Spec Disk.exec (Guar τ) (reopen cf sync)
      (fun r σ' w' => ∃ g', Effect τ g σ₀ g' σ' w' (.reopen cf sync) (.ok r))
      (fun e σ' w' => ∃ g', Effect τ g σ₀ g' σ' w' (.reopen cf sync) (.error e)) σ w := by
  refine spec_reopen h hs ?_ ?_
  · intro e σ' w' _ hc
    exact ⟨g, .gone hc⟩
  · intro g' σ' w' hr
    exact ⟨g', .reloaded trivial hr⟩

/-- **Every operation has one of its effects.** -/
lemma spec_stage {st : Stage} (h : AtRest τ g σ w) (hm : st.May σ)
    (ht : ∀ v o, st = .publish v o → σ.poisoned = false → Aimed τ g σ) :
    Meets τ g σ w st := by
  cases st with
  | beginMutation => exact meets_beginMutation h
  | act a => exact meets_act h hm
  | setRoot root => exact meets_setRoot h hm
  | publish v o => exact meets_publish h (ht v o rfl)
  | fold => exact hm.elim
  | checkpoint => exact meets_checkpoint h
  | setCap bytes v o => exact meets_setCap h hm
  | setRuntimeLimits d l t => exact meets_setRuntimeLimits h
  | rollback cf => exact meets_rollback h
  | reopen cf sync => exact meets_reopen h.calm hm

end operations

end PageWal
