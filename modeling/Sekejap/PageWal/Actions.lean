import Sekejap.PageWal.Handle

/-!
# What a tree does to the pool

`Did g σ a p g' σ'` is everything the pool action `a` can do to a handle when it succeeds: a fresh
page, a page from the free list, an edited page, a freed page.  Each changes **one page of the
transaction** (`Acted`), whatever frame the clock hand gives up on the way; `spec_act` is the only
place that looks at how the pool does it.
-/

open Bytes Page Crc32c Proc

namespace PageWal

/-- The actions of a tree that keeps to the pages of the file. -/
def Act.Ok (σ : Store) : Act → Prop
  | .allocate _ => True
  | .edit _ p _ => 2 ≤ p ∧ p < σ.pool.nextPage
  | .free p => p < σ.pool.nextPage

/-- The page as the pager reads it. -/
def view (g : Ghost) (p : ℕ) : Bytes := (overlay (fun _ => none) g.tail p).getD (g.version.page p)

/-- The page has an image: in the committed version, or in the open transaction. -/
def Framed (g : Ghost) (p : ℕ) : Prop := p < g.version.pages ∨ ∃ i ∈ g.tail, i.1 = p

/-- What no pool action touches. -/
def Store.fixed (σ : Store) : Store :=
  { σ.core with
    pager := { σ.core.pager with state := { σ.core.state with freeHead := 0 } }
    pool := { σ.core.pool with nextPage := 0 } }

/-- **Only page `p` of the transaction changed.** -/
structure Acted (g : Ghost) (σ : Store) (p : ℕ) (g' : Ghost) (σ' : Store) : Prop where
  tail : ∃ more, g' = { g with tail := g.tail ++ more }
  cur : ∀ q, q ≠ p → PageWal.cur g' σ' q = PageWal.cur g σ q
  dirty : ∀ q, q ∈ σ'.pool.dirty → q ∈ σ.pool.dirty ∨ q = p
  fixed : σ'.fixed = σ.fixed

/-- **What a pool action does.** -/
inductive Did (g : Ghost) (σ : Store) : Act → Option ℕ → Ghost → Store → Prop
  | fresh {victim : Option ℕ} {g' : Ghost} {σ' : Store} (h0 : σ.state.freeHead = 0)
      (h : Acted g σ σ.pool.nextPage g' σ') (head : σ'.state.freeHead = 0)
      (next : σ'.pool.nextPage = σ.pool.nextPage + 1) :
      Did g σ (.allocate victim) (some σ.pool.nextPage) g' σ'
  | reused {victim : Option ℕ} {g' : Ghost} {σ' : Store} {link : ℕ}
      (hl : Framed g σ.state.freeHead → FreeLink σ.pager (view g σ.state.freeHead) link)
      (h : Acted g σ σ.state.freeHead g' σ') (head : σ'.state.freeHead = link)
      (next : σ'.pool.nextPage = σ.pool.nextPage) :
      Did g σ (.allocate victim) (some σ.state.freeHead) g' σ'
  | edited {victim : Option ℕ} {p : ℕ} {b : Bytes} {g' : Ghost} {σ' : Store}
      (h : Acted g σ p g' σ') (head : σ'.state.freeHead = σ.state.freeHead)
      (next : σ'.pool.nextPage = σ.pool.nextPage) : Did g σ (.edit victim p b) none g' σ'
  | freed {p : ℕ} {b : Bytes} {g' : Ghost} {σ' : Store} (h2 : 2 ≤ p)
      (hb : FreeImage p (leBytes 4 σ.state.freeHead) b) (hv : view g' p = b)
      (hp : p ∉ σ'.pool.dirty) (lt : p < σ'.state.pages) (h : Acted g σ p g' σ')
      (head : σ'.state.freeHead = p) (next : σ'.pool.nextPage = σ.pool.nextPage) :
      Did g σ (.free p) none g' σ'
  | ignored {p : ℕ} (h2 : p < 2) : Did g σ (.free p) none g σ

section relations

variable {g g' g'' : Ghost} {σ σ' σ'' : Store} {p : ℕ}

lemma Flushed.acted (h : Flushed g σ g' σ') (p : ℕ) : Acted g σ p g' σ' := by
  refine ⟨h.tail, fun q _ => by rw [h.cur], fun q hq => Or.inl (h.dirty q hq), ?_⟩
  rw [Store.fixed, Store.fixed, h.core]

lemma Acted.trans (h₁ : Acted g σ p g' σ') (h₂ : Acted g' σ' p g'' σ'') : Acted g σ p g'' σ'' := by
  obtain ⟨more, rfl⟩ := h₁.tail
  obtain ⟨more', rfl⟩ := h₂.tail
  refine ⟨⟨more ++ more', by simp⟩, fun q hq => (h₂.cur q hq).trans (h₁.cur q hq), ?_,
    h₂.fixed.trans h₁.fixed⟩
  intro q hq
  rcases h₂.dirty q hq with hq | hq
  · exact h₁.dirty q hq
  · exact Or.inr hq

lemma Flushed.freeHead (h : Flushed g σ g' σ') : σ'.state.freeHead = σ.state.freeHead := by
  have := congrArg (fun s : Store => s.state.freeHead) h.core
  exact this

lemma Flushed.nextPage (h : Flushed g σ g' σ') : σ'.pool.nextPage = σ.pool.nextPage := by
  have := congrArg (fun s : Store => s.pool.nextPage) h.core
  exact this

/-- A frame of page `p` is put into the pool. -/
lemma Acted.insert (g : Ghost) (σ : Store) (p : ℕ) (b : Bytes) :
    Acted g σ p g { σ with pool := { σ.pool with dirty := σ.pool.dirty.insert p b } } := by
  refine ⟨⟨[], by simp⟩, fun q hq => ?_, fun q hq => ?_, rfl⟩
  · simp only [PageWal.cur, getElem?_insert, if_neg (Ne.symm hq)]
  · rw [Std.ExtTreeMap.mem_iff_isSome_getElem?] at hq
    change ((σ.pool.dirty.insert p b)[q]?).isSome = true at hq
    rw [getElem?_insert] at hq
    split_ifs at hq with he
    · exact Or.inr he.symm
    · exact Or.inl (Std.ExtTreeMap.mem_iff_isSome_getElem?.2 hq)

/-- A page leaves the pool, and one image of it is framed. -/
lemma Acted.framed (g : Ghost) (σ : Store) (p head : ℕ) (b : Bytes) :
    Acted g σ p (g.withImage (p, b)) { σ with
      pager := { (σ.pager.grown p).framed p b with
        state := { ((σ.pager.grown p).framed p b).state with freeHead := head } }
      pool := { σ.pool with dirty := σ.pool.dirty.erase p } } := by
  refine ⟨⟨[(p, b)], rfl⟩, fun q hq => ?_, fun q hq => ?_, rfl⟩
  · simp only [PageWal.cur, getElem?_erase, if_neg (Ne.symm hq), Ghost.withImage, overlay_append,
      Function.update_of_ne hq]
  · rw [Std.ExtTreeMap.mem_iff_isSome_getElem?] at hq
    change ((σ.pool.dirty.erase p)[q]?).isSome = true at hq
    rw [getElem?_erase] at hq
    split_ifs at hq
    · cases hq
    · exact Or.inl (Std.ExtTreeMap.mem_iff_isSome_getElem?.2 hq)

lemma not_mem_erase {m : Std.ExtTreeMap ℕ Bytes} (p : ℕ) : p ∉ m.erase p := by
  rw [Std.ExtTreeMap.mem_iff_isSome_getElem?, getElem?_erase, if_pos rfl]
  simp

end relations

/-- The index knows the frames of the log and those behind its last commit. -/
lemma PagerOk.tracks {g : Ghost} {P : Pager} {w : Disk} (hP : PagerOk g P) (hf : FilesOk g w) :
    Tracks g.id w.wal.contents P.state.latest (overlay (logImages g.txns) g.tail) := by
  have ht : Tracks g.id w.wal.contents g.index (logImages g.txns) :=
    tracks_indexLog hf.valid g.txns _ hf.fits.log hf.wal
  have hw : w.wal.contents = g.logBytes ++ (encodeImages g.id g.tx g.tail ++ []) := by
    rw [List.append_nil]; exact hf.wal
  have ht' := tracks_trackImages hf.valid.identity g.tail _ _ _ _ hf.tail hw ht
  rw [hf.length_log, ← hP.latest] at ht'
  exact ht'

/-- **The pager reads the view.** -/
lemma PagerOk.readPage_view {g : Ghost} {P : Pager} {w : Disk} (hP : PagerOk g P)
    (hf : FilesOk g w) {p : ℕ} (h2 : 2 ≤ p) (hp : Framed g p) :
    readPage w.data.contents w.wal.contents P.state.latest p = .ok (view g p) := by
  have ht := hP.tracks hf
  cases ho : overlay (fun _ => none) g.tail p with
  | some b =>
      rw [view, ho]
      exact readPage_tracked ht (by rw [overlay_apply, ho]; rfl)
  | none =>
      have hlt : p < g.version.pages := by
        refine hp.resolve_right fun hi => ?_
        rw [← overlay_isSome, ho] at hi
        cases hi
      rw [view, ho]
      refine readPage_of_tracks ht (by omega) (hf.version.opens p h2 hlt) ?_ ?_
      · intro c hc
        rw [overlay_apply, ho, Option.none_or] at hc
        exact hf.fits.images p c h2 hlt hc
      · intro hn
        rw [overlay_apply, ho, Option.none_or] at hn
        exact hf.dataOk.uncovered p h2 hlt (by simp [Covers, hn])

section rules

variable {τ : Tag} {g : Ghost} {k : Slack} {σ : Store} {w : Disk}
variable {X : Error → Store → Disk → Prop}

open Store

/-- A page the pool hands out as a dirty frame. -/
lemma StoreOk.insertDirty {p : ℕ} (hσ : StoreOk ⟨none, some p⟩ g σ) (b : Bytes) (h2 : 2 ≤ p)
    (hp : p < σ.pool.nextPage) :
    StoreOk .tight g { σ with pool := { σ.pool with dirty := σ.pool.dirty.insert p b } } := by
  refine ⟨hσ.pager, hσ.limits, hσ.pages_le, hσ.nextPage_le, ?_, hσ.tail, hσ.header, ?_⟩
  · intro q c hq
    change (σ.pool.dirty.insert p b)[q]? = some c at hq
    rw [getElem?_insert] at hq
    split_ifs at hq with he
    · subst he; exact Or.inl ⟨h2, hp⟩
    · exact hσ.dirty q c hq
  · intro q hq hlt
    refine (hσ.cover q hq hlt).imp_right fun hd => ?_
    left
    rw [Std.ExtTreeMap.mem_iff_isSome_getElem?]
    show ((σ.pool.dirty.insert p b)[q]?).isSome = true
    rw [getElem?_insert]
    split_ifs with he
    · rfl
    · rcases hd with hd | hd
      · exact Std.ExtTreeMap.mem_iff_isSome_getElem?.1 hd
      · exact absurd (Option.some.inj hd) he

/-- One page more at the end of the file. -/
lemma StoreOk.extend (hσ : StoreOk .tight g σ) (hn : σ.pool.nextPage + 1 ≤ u32Max) :
    StoreOk ⟨none, some σ.pool.nextPage⟩ g
      { σ with pool := { σ.pool with nextPage := σ.pool.nextPage + 1 } } := by
  refine ⟨hσ.pager, hσ.limits, Nat.le_succ_of_le hσ.pages_le, hn, ?_, ?_, ?_, ?_⟩
  · intro q c hq
    rcases hσ.dirty q c hq with ⟨h2, hlt⟩ | ⟨-, hh⟩
    · exact Or.inl ⟨h2, Nat.lt_succ_of_lt hlt⟩
    · cases hh
  · intro i hi
    rcases hσ.tail i hi with h | ⟨-, b, hb, -⟩
    · exact Or.inl h
    · cases hb
  · intro b hb; cases hb
  · intro q hq hlt
    change q < σ.pool.nextPage + 1 at hlt
    by_cases he : σ.pool.nextPage = q
    · exact Or.inr (Or.inr (by rw [he]))
    · rcases hσ.cover q hq (by omega) with h | h | h
      · exact Or.inl h
      · exact Or.inr (Or.inl h)
      · cases h

/-- A tight handle is one with any page about to be made dirty. -/
lemma StoreOk.loosen (hσ : StoreOk .tight g σ) (p : ℕ) : StoreOk ⟨none, some p⟩ g σ := by
  refine ⟨hσ.pager, hσ.limits, hσ.pages_le, hσ.nextPage_le, ?_, ?_, ?_, ?_⟩
  · intro q c hq
    rcases hσ.dirty q c hq with h | ⟨-, hh⟩
    · exact Or.inl h
    · cases hh
  · intro i hi
    rcases hσ.tail i hi with h | ⟨-, b, hb, -⟩
    · exact Or.inl h
    · cases hb
  · intro b hb; cases hb
  · intro q hq hlt
    rcases hσ.cover q hq hlt with h | h | h
    · exact Or.inl h
    · exact Or.inr (Or.inl h)
    · cases h

/-- A page leaves the pool for the free list, or comes from it: one image more, and the frame is
dropped. -/
lemma StoreOk.replaced (hσ : StoreOk .tight g σ) {p n : ℕ} {b : Bytes} (h2 : 2 ≤ p)
    (hpn : p < σ.pool.nextPage) (hp : p + 1 ≤ u32Max) (hr : (σ.pager.grown p).Room)
    (ht : σ.pager.Tracked p) (hd : max σ.state.pages (p + 1) * page ≤ σ.state.dataLimit)
    (hh : n = 0 ∨ (2 ≤ n ∧ n < max σ.state.pages (p + 1))) :
    StoreOk .tight (g.withImage (p, b))
      { σ with
        pager := { (σ.pager.grown p).framed p b with
          state := { ((σ.pager.grown p).framed p b).state with freeHead := n } }
        pool := { σ.pool with dirty := σ.pool.dirty.erase p } } := by
  have h3 := hσ.pages_le
  refine ⟨hσ.pager.framed hp hr ht hd hh, hσ.limits, ?_, hσ.nextPage_le, ?_, ?_, ?_, ?_⟩
  · show max σ.state.pages (p + 1) ≤ σ.pool.nextPage
    exact max_le h3 hpn
  · intro q c hq
    change (σ.pool.dirty.erase p)[q]? = some c at hq
    rw [getElem?_erase] at hq
    split_ifs at hq
    exact hσ.dirty q c hq
  · intro i hi
    rcases List.mem_append.1 hi with hi | hi
    · exact hσ.tail i hi
    · rw [List.mem_singleton.1 hi]; exact Or.inl h2
  · intro c hc; cases hc
  · intro q hq hlt
    rcases hσ.cover q hq hlt with ⟨i, hi, he⟩ | hdq | hfr
    · exact Or.inl ⟨i, List.mem_append_left _ hi, he⟩
    · by_cases hqp : p = q
      · exact Or.inl ⟨(p, b), by simp [Ghost.withImage], hqp⟩
      · refine Or.inr (Or.inl ?_)
        rw [Std.ExtTreeMap.mem_iff_isSome_getElem?] at hdq ⊢
        show ((σ.pool.dirty.erase p)[q]?).isSome = true
        rw [getElem?_erase, if_neg hqp]
        exact hdq
    · cases hfr

lemma freeImage_image {p : ℕ} {slot b : Bytes} (hf : FreeImage p slot b) (h2 : 2 ≤ p)
    (hp : p + 1 ≤ u32Max) : g.Image (p, b) := by
  have hu : u32Max = 2 ^ 32 - 1 := rfl
  exact ⟨show p ≠ 1 by omega, show p < 2 ^ 32 by omega, hf.length, hf.opens, fun h0 => by
    have : p = 0 := h0
    omega⟩

/-- What an action leaves. -/
def ActPost (τ : Tag) (g : Ghost) (σ : Store) (a : Act) (r : Option ℕ) (σ' : Store) (w' : Disk) :
    Prop :=
  ∃ g', Calm τ g' w' ∧ StoreOk .tight g' σ' ∧ Did g σ a r g' σ'

/-- The last two steps of an allocation: a frame is given up, and page `p` takes it. -/
lemma spec_handOut {victim : Option ℕ} {p : ℕ} {b : Bytes} (hc : Calm τ g w)
    (hσ : StoreOk ⟨none, some p⟩ g σ) (h2 : 2 ≤ p) (hp : p < σ.pool.nextPage)
    (hX : ∀ e σ' w', Fallen τ σ' w' → X e σ' w') {Q : Store → Disk → Prop}
    (hQ : ∀ g' σ' w', Calm τ g' w' → StoreOk .tight g' σ' → Acted g σ p g' σ' →
      σ'.state.freeHead = σ.state.freeHead → σ'.pool.nextPage = σ.pool.nextPage → Q σ' w') :
    Spec Disk.exec (Guar τ) (giveUp victim)
      (fun _ σ' w' =>
        Q { σ' with pool := { σ'.pool with dirty := σ'.pool.dirty.insert p b } } w') X σ w := by
  refine (spec_giveUp victim hc hσ hX).mono ?_ fun _ _ _ h => h
  rintro _ σ' w' ⟨g', hc', hσ', hf, -⟩
  have hp' : p < σ'.pool.nextPage := by rw [hf.nextPage]; exact hp
  exact hQ g' _ w' hc' (hσ'.insertDirty b h2 hp') ((hf.acted p).trans (Acted.insert g' σ' p b))
    hf.freeHead hf.nextPage

/-- **A page is allocated.** -/
lemma spec_allocate {victim : Option ℕ} (hc : Calm τ g w) (hσ : StoreOk .tight g σ)
    (hX : ∀ e σ' w', Fallen τ σ' w' → X e σ' w') :
    Spec Disk.exec (Guar τ) (allocate victim)
      (fun p σ' w' => ActPost τ g σ (.allocate victim) (some p) σ' w') X σ w := by
  have hP := hσ.pager
  rw [allocate, spec_bind, spec_onPager]
  refine spec_popFreePage (hP.length_identity hc.files) hP.pages_lt hc.guar
    (fun e => hX e _ _ (hσ.fallen_self hc)) ?_ ?_
  · intro h0
    simp only [spec_bind, spec_current, spec_refuseIf, spec_updatePool, spec_pure]
    refine ⟨fun _ => hX _ _ _ (hσ.fallen_self hc), fun hn => ?_⟩
    push Not at hn
    have h2 : 2 ≤ σ.pool.nextPage :=
      le_trans (le_trans hc.files.version.two_le hP.pages_ge) hσ.pages_le
    refine spec_handOut hc (hσ.extend hn) h2 (Nat.lt_succ_self _) hX ?_
    intro g' σ' w' hc' hσ' ha hhead hnext
    exact ⟨g', hc', hσ', .fresh h0 ⟨ha.tail, ha.cur, ha.dirty, ha.fixed⟩ (hhead.trans h0) hnext⟩
  · intro b next t hb hl ht hr htf
    have hp : σ.state.freeHead + 1 ≤ u32Max := le_trans hl.lt (Nat.le_pred_of_lt hP.pages_lt)
    have hgr := Pager.grown_of_lt hl.lt
    have hmax : max σ.state.pages (σ.state.freeHead + 1) = σ.state.pages := max_eq_left hl.lt
    have hpn : σ.state.freeHead < σ.pool.nextPage := lt_of_lt_of_le hl.lt hσ.pages_le
    obtain ⟨hG, hc'⟩ := hc.image hP (freeImage_image htf hl.two_le hp) hr.walCap
    refine ⟨hG, ?_⟩
    simp only [spec_bind, spec_updatePool, spec_pure]
    have hrep := hσ.replaced (b := t) (n := next) hl.two_le hpn hp (by rw [hgr]; exact hr) ht
      (by rw [hmax]; exact hP.data_le) (by rw [hmax]; exact hl.range)
    have hact := Acted.framed g σ σ.state.freeHead next t
    rw [hgr] at hrep hact
    refine spec_handOut hc' (hrep.loosen σ.state.freeHead) hl.two_le hpn hX ?_
    intro g' σ' w' hc'' hσ' ha hhead hnext
    refine ⟨g', hc'', hσ', .reused (fun hfr => ?_) (hact.trans ha) hhead hnext⟩
    have hview := hP.readPage_view hc.files hl.two_le hfr
    obtain rfl : view g σ.state.freeHead = b := Except.ok.inj (hview.symm.trans hb)
    exact hl

/-- **A page is freed.** -/
lemma spec_freePage {p : ℕ} (hc : Calm τ g w) (hσ : StoreOk .tight g σ)
    (hp : p < σ.pool.nextPage) (hX : ∀ e σ' w', Fallen τ σ' w' → X e σ' w') :
    Spec Disk.exec (Guar τ) (freePage p)
      (fun _ σ' w' => ActPost τ g σ (.free p) none σ' w') X σ w := by
  have hP := hσ.pager
  rw [freePage, spec_ite]
  refine ⟨fun h2 => ?_, fun h2 => ?_⟩
  · exact ⟨g, hc, hσ, .ignored h2⟩
  push Not at h2
  simp only [spec_bind, spec_updatePool, spec_onPager]
  refine spec_pushFreePage (hP.length_identity hc.files) ?_ ?_
  · rintro e P' (rfl | rfl)
    · exact hX e _ _ (hσ.fallen hc hP.behind rfl rfl)
    · exact hX e _ _ (hσ.fallen hc (hP.behind.grown p) rfl rfl)
  · intro b _ ht hp1 hd hr hbf
    obtain ⟨hG, hc'⟩ := hc.image hP (freeImage_image hbf h2 hp1) hr.walCap
    refine ⟨hG, _, hc', hσ.replaced (b := b) (n := p) h2 hp hp1 hr ht hd
      (Or.inr ⟨h2, by omega⟩), .freed h2 hbf ?_ ?_ ?_ (Acted.framed g σ p p b) rfl rfl⟩
    · simp [view, Ghost.withImage, overlay_append]
    · exact not_mem_erase p
    · show p < max σ.state.pages (p + 1)
      omega

/-- **A pool action** does what `Did` says, or fails and leaves enough for a rollback. -/
lemma spec_act {a : Act} (hc : Calm τ g w) (hσ : StoreOk .tight g σ) (ha : a.Ok σ)
    (hX : ∀ e σ' w', Fallen τ σ' w' → X e σ' w') :
    Spec Disk.exec (Guar τ) (act a) (fun r σ' w' => ActPost τ g σ a r σ' w') X σ w := by
  cases a with
  | allocate victim =>
      rw [act, spec_bind]
      exact (spec_allocate hc hσ hX).mono (fun _ _ _ h => h) fun _ _ _ h => h
  | edit victim p b =>
      rw [act, spec_bind]
      refine (spec_load hc hσ hX).mono ?_ fun _ _ _ h => h
      rintro _ σ' w' ⟨⟨g', hc', hσ', hf, -⟩, -⟩
      simp only [spec_bind, spec_updatePool, spec_pure]
      have hp' : p < σ'.pool.nextPage := by rw [hf.nextPage]; exact ha.2
      exact ⟨g', hc', (hσ'.loosen p).insertDirty b ha.1 hp',
        .edited ((hf.acted p).trans (Acted.insert g' σ' p b)) hf.freeHead hf.nextPage⟩
  | free p =>
      rw [act, spec_bind]
      exact (spec_freePage hc hσ ha hX).mono (fun _ _ _ h => h) fun _ _ _ h => h

end rules

end PageWal
