import Sekejap.BTree.SplitRef

/-!
# The two splits agree

`split_core` does what `split_leaf_and_insert_vec` does, whatever the pool does and whatever earlier splits
have left in the scratch: the same operations of the pool in the same order, with the same bytes.

* `Names` — slots name records: `recOf` reads them, and their lengths are those of the records.
* `Arena` — the slots of a parent, some in its image and some in the arena, name its records;
  **`Arena.push`** and **`Arena.patch`** say what writing into the arena does to them.
* **`splitLeafAndInsertRef_eq`** — the two bodies are one program.
-/

open Bytes Page

namespace BTree

/-! ## Steps of a call -/

section Acts

variable {σ α β γ : Type}

@[simp] lemma orPanic_some (a : α) : (orPanic (some a) : Act σ α) = pure a := rfl

@[simp] lemma orPanic_none : (orPanic (none : Option α) : Act σ α) = throw .panic := rfl

@[simp] lemma ofExcept_ok (a : α) : (ofExcept (.ok a) : Act σ α) = pure a := rfl

@[simp] lemma ofExcept_error (e : Error) : (ofExcept (.error e) : Act σ α) = fail e := rfl

end Acts

/-! ## Names of records -/

/-- Slots name records. -/
structure Names (frames : List Bytes) (slots : List SlotRef) (recs : List Bytes) : Prop where
  read : slots.map (recOf frames) = recs
  lens : slots.map SlotRef.len = recs.map List.length
  known : ∀ s ∈ slots, s.pageIdx < frames.length

namespace Names

variable {frames more : List Bytes} {slots slots' : List SlotRef} {recs recs' : List Bytes} {i n : ℕ}

lemma length_eq (h : Names frames slots recs) : slots.length = recs.length := by
  have := congrArg List.length h.read
  simpa using this

/-- Further images do not matter. -/
lemma mono (h : Names frames slots recs) (more : List Bytes) : Names (frames ++ more) slots recs := by
  refine ⟨?_, h.lens, fun s hs => ?_⟩
  · rw [← h.read]
    refine List.map_congr_left fun s hs => ?_
    rw [recOf, recOf, List.getD_eq_getElem?_getD, List.getD_eq_getElem?_getD,
      List.getElem?_append_left (h.known s hs)]
  · rw [List.length_append]
    exact lt_of_lt_of_le (h.known s hs) (Nat.le_add_right _ _)

lemma append (h : Names frames slots recs) (h' : Names frames slots' recs') :
    Names frames (slots ++ slots') (recs ++ recs') := by
  refine ⟨by rw [List.map_append, h.read, h'.read], by rw [List.map_append, List.map_append, h.lens, h'.lens],
    fun s hs => ?_⟩
  rcases List.mem_append.1 hs with hs | hs
  · exact h.known s hs
  · exact h'.known s hs

lemma get (h : Names frames slots recs) (i : ℕ) : slots[i]?.map (recOf frames) = recs[i]? := by
  rw [← List.getElem?_map, h.read]

lemma bind_get (h : Names frames slots recs) (i : ℕ) :
    (slots[i]?.bind fun s => validatedKey (recOf frames s)) = recs[i]?.bind validatedKey := by
  rw [← h.get i]
  cases slots[i]? <;> rfl

lemma take (h : Names frames slots recs) (n : ℕ) : (slots.take n).map (recOf frames) = recs.take n := by
  rw [List.map_take, h.read]

lemma drop (h : Names frames slots recs) (n : ℕ) : (slots.drop n).map (recOf frames) = recs.drop n := by
  rw [List.map_drop, h.read]

lemma sizes (h : Names frames slots recs) :
    (slots.map fun s => s.len + 4) = recs.map fun r => r.length + 4 := by
  have := congrArg (List.map (· + 4)) h.lens
  simpa [List.map_map, Function.comp_def] using this

lemma bytesOf_take (h : Names frames slots recs) (n : ℕ) :
    bytesOfSlots (slots.take n) = bytesOf (recs.take n) := by
  rw [bytesOfSlots, bytesOf, List.map_take, h.sizes, ← List.map_take]

lemma bytesOf_drop (h : Names frames slots recs) (n : ℕ) :
    bytesOfSlots (slots.drop n) = bytesOf (recs.drop n) := by
  rw [bytesOfSlots, bytesOf, List.map_drop, h.sizes, ← List.map_drop]

/-- The slots of a page name its records. -/
lemma slotRefs (p : TreePage) {frame : ℕ} (hframe : frames[frame]? = some p.b) :
    Names frames (p.slotRefs frame) p.slots := by
  have hlt : frame < frames.length := (List.getElem?_eq_some_iff.1 hframe).1
  refine ⟨?_, ?_, ?_⟩
  · rw [TreePage.slotRefs, TreePage.slots, List.map_map]
    refine List.map_congr_left fun i _ => ?_
    rw [Function.comp_apply, recOf, List.getD_eq_getElem?_getD, hframe]
    rfl
  · rw [TreePage.slotRefs, TreePage.slots, List.map_map, List.map_map]
    refine List.map_congr_left fun i hi => ?_
    rw [Function.comp_apply, Function.comp_apply, p.length_slot (List.mem_range.1 hi)]
  · intro s hs
    obtain ⟨i, -, rfl⟩ := List.mem_map.1 hs
    exact hlt

/-- A record among those that are named. -/
lemma insertAt {s : SlotRef} {r : Bytes} (h : Names frames slots recs) (hs : Names frames [s] [r]) (i : ℕ) :
    match BTree.insertAt recs i r with
    | some recs' => ∃ slots', BTree.insertAt slots i s = some slots' ∧ Names frames slots' recs'
    | none => BTree.insertAt slots i s = none := by
  rw [BTree.insertAt, BTree.insertAt, h.length_eq]
  split_ifs with hi
  · have hread : recOf frames s = r := by simpa using hs.read
    have hlen : s.len = r.length := by simpa using hs.lens
    refine ⟨_, rfl, ?_, ?_, ?_⟩
    · rw [List.map_insertIdx, h.read, hread]
    · rw [List.map_insertIdx, List.map_insertIdx, h.lens, hlen]
    · intro t ht
      rcases List.eq_or_mem_of_mem_insertIdx ht with rfl | ht
      · exact hs.known _ List.mem_cons_self
      · exact h.known t ht
  · rfl

end Names

/-! ## Parts of a buffer -/

section Parts

variable {buf b : Bytes} {i j : ℕ}

lemma part_splice_self (hb : b.length = pageSize) :
    (buf.splice (i * pageSize) b).slice (i * pageSize) pageSize = b := by
  have := slice_splice_self buf (i * pageSize) b
  rwa [hb] at this

lemma part_splice_of_ne (hb : b.length = pageSize) (h : i ≠ j) (hbuf : (j + 1) * pageSize ≤ buf.length) :
    (buf.splice (i * pageSize) b).slice (j * pageSize) pageSize = buf.slice (j * pageSize) pageSize := by
  have hsize : pageSize = 4096 := rfl
  rw [hsize] at hb hbuf ⊢
  rcases lt_or_gt_of_ne h with hlt | hgt
  · exact slice_splice_after (by omega)
  · exact slice_splice_before (by omega) (by omega)

lemma length_part_splice (hb : b.length = pageSize) (hbuf : (i + 1) * pageSize ≤ buf.length) :
    (buf.splice (i * pageSize) b).length = buf.length := by
  refine length_splice_of_le ?_
  rw [hb]
  rwa [Nat.add_mul, Nat.one_mul] at hbuf

lemma copyInto_part (hb : b.length = pageSize) (hbuf : (i + 1) * pageSize ≤ buf.length) :
    copyInto buf (i * pageSize) b = some (buf.splice (i * pageSize) b) := by
  refine if_pos ?_
  rw [hb]
  rwa [Nat.add_mul, Nat.one_mul] at hbuf

end Parts

/-! ## The records of a window -/

section Gather

variable {leafImg cell sib b : Bytes} {nsib n m : ℕ}

/-- The leaf, the new record and the siblings whose images have been copied. -/
def windowFrames (leafImg cell sib : Bytes) (nsib : ℕ) : List Bytes :=
  [leafImg, cell] ++ (List.range nsib).map fun i => sib.slice (i * pageSize) pageSize

@[simp] lemma length_windowFrames : (windowFrames leafImg cell sib nsib).length = 2 + nsib := by
  simp [windowFrames]
  omega

lemma windowFrames_succ (leafImg cell sib : Bytes) (nsib : ℕ) : windowFrames leafImg cell sib (nsib + 1)
    = windowFrames leafImg cell sib nsib ++ [sib.slice (nsib * pageSize) pageSize] := by
  rw [windowFrames, windowFrames, List.range_succ, List.map_append, List.append_assoc]
  rfl

/-- Copying a sibling's image leaves those before it. -/
lemma windowFrames_copied (leafImg cell : Bytes) (hb : b.length = pageSize) (hsib : nsib * pageSize ≤ sib.length) :
    windowFrames leafImg cell (sib.splice (nsib * pageSize) b) nsib
      = windowFrames leafImg cell sib nsib := by
  rw [windowFrames, windowFrames]
  congr 1
  refine List.map_congr_left fun i hi => ?_
  rw [List.mem_range] at hi
  exact part_splice_of_ne hb (Nat.ne_of_gt hi) ((Nat.mul_le_mul_right _ hi).trans hsib)

lemma windowFrames_le (leafImg cell sib : Bytes) (h : n ≤ m) :
    ∃ more, windowFrames leafImg cell sib m = windowFrames leafImg cell sib n ++ more := by
  induction m, h using Nat.le_induction with
  | base => exact ⟨[], (List.append_nil _).symm⟩
  | succ m _ ih =>
      obtain ⟨more, hmore⟩ := ih
      exact ⟨more ++ [sib.slice (m * pageSize) pageSize], by
        rw [windowFrames_succ, hmore, List.append_assoc]⟩

variable {σ α : Type} (P : Pool σ) (treeId leaf : ℕ) {current : List SlotRef}
  {recs all : List Bytes} {currentNext : ℕ}
  {K : Option Gathered × Bytes → Act σ α} {K' : Option (List Bytes × ℕ) → Act σ α}

/-- **Gathering the records of a window by name.** -/
lemma gather_bind (hcurrent : Names [leafImg, cell] current recs)
    (hnone : ∀ sib, sib.length = 2 * pageSize → K (none, sib) = K' none)
    (hsome : ∀ g all, Names (windowFrames leafImg cell g.sib 2) g.win all →
      g.sib.length = 2 * pageSize → K (some g, g.sib) = K' (some (all, g.next)))
    (ids : List ℕ) (g : Gathered) (hg : Names (windowFrames leafImg cell g.sib g.nsib) g.win all)
    (hsib : g.sib.length = 2 * pageSize) (hroom : g.nsib + ids.countP (fun id => decide (id ≠ leaf)) ≤ 2) :
    (gatherRef P treeId leaf current currentNext ids g >>= K)
      = gatherVec P treeId leaf recs currentNext ids all g.next >>= K' := by
  induction ids generalizing g all with
  | nil =>
      have hle : g.nsib ≤ 2 := by simpa using hroom
      obtain ⟨more, hmore⟩ := windowFrames_le leafImg cell g.sib hle
      rw [gatherRef, gatherVec, pure_bind, pure_bind]
      exact hsome g all (hmore ▸ hg.mono more) hsib
  | cons no ids ih =>
      rw [gatherRef, gatherVec]
      by_cases hno : no = leaf
      · rw [if_pos hno, if_pos hno]
        refine ih _ ?_ hsib ?_
        · refine hg.append ?_
          exact hcurrent.mono _
        · simpa [hno] using hroom
      · rw [if_neg hno, if_neg hno, bind_assoc, bind_assoc]
        rw [List.countP_cons_of_pos (by simpa using hno)] at hroom
        refine bind_congr fun p => ?_
        by_cases htree : p.treeId ≠ treeId
        · simp only [if_pos htree]
          rfl
        · simp only [if_neg htree]
          by_cases hkind : p.kind ≠ .leaf
          · simp only [if_pos hkind]
            exact hnone g.sib hsib
          · simp only [if_neg hkind]
            have hpart : (g.nsib + 1) * pageSize ≤ g.sib.length := by
              rw [hsib]
              exact Nat.mul_le_mul_right _ (by omega)
            have hpart' : g.nsib * pageSize ≤ g.sib.length :=
              (Nat.mul_le_mul_right _ (Nat.le_succ _)).trans hpart
            rw [copyInto_part p.length hpart]
            have hcopied := windowFrames_copied leafImg cell p.length hpart'
            have hnext := windowFrames_succ leafImg cell (g.sib.splice (g.nsib * pageSize) p.b) g.nsib
            rw [part_splice_self p.length, hcopied] at hnext
            refine ih ⟨_, p.nextLeaf, g.nsib + 1, _⟩ ?_ ?_ ?_
            · have hframe : (if g.nsib = 0 then frameSib else frameSib + 1) = 2 + g.nsib := by
                rw [frameSib]
                split_ifs <;> omega
              rw [hframe, hnext]
              refine (hg.mono _).append (Names.slotRefs p ?_)
              rw [List.getElem?_append_right (by simp), length_windowFrames, Nat.sub_self]
              rfl
            · rw [length_part_splice p.length hpart, hsib]
            · change g.nsib + 1 + _ ≤ 2
              omega

end Gather

/-! ## The arena -/

section Arena

variable {frames : List Bytes} {seps key : Bytes} {off child pos : ℕ} {pr : List SlotRef}
  {recs : List Bytes} {s : SlotRef}

/-- The slots of a parent name its records; those that are in the arena lie apart from each other, before
where it goes on. -/
structure Arena (frames : List Bytes) (seps : Bytes) (off : ℕ) (pr : List SlotRef)
    (recs : List Bytes) : Prop where
  length : seps.length = 3 * pageSize
  names : Names (frames ++ [seps]) pr recs
  below : ∀ (i : ℕ) (s : SlotRef), pr[i]? = some s → s.pageIdx = frameSeps → s.off + s.len ≤ off
  room : off ≤ seps.length
  apart : ∀ (i k : ℕ) (s t : SlotRef), i ≠ k → pr[i]? = some s → pr[k]? = some t →
    s.pageIdx = frameSeps → t.pageIdx = frameSeps → s.off + s.len ≤ t.off ∨ t.off + t.len ≤ s.off

/-- A separator is written into the arena. -/
lemma pushSep_eq (child : ℕ) (hlen : seps.length = 3 * pageSize) (hroom : off + (6 + key.length) ≤ seps.length) :
    pushSep seps off key child = some (seps.splice off (encInterior key child), off + (6 + key.length),
      ⟨frameSeps, off, 6 + key.length⟩) := by
  have hsize : 3 * pageSize = 12288 := rfl
  have h1 : copyInto seps off (leBytes 2 key.length) = some (seps.splice off (leBytes 2 key.length)) := by
    rw [copyInto, length_leBytes, if_pos (by omega)]
  have h2 : copyInto (seps.splice off (leBytes 2 key.length)) (off + 2) key
      = some (seps.splice off (leBytes 2 key.length ++ key)) := by
    have := @splice_splice_append seps (leBytes 2 key.length) key off (by rw [length_leBytes]; omega)
    rw [length_leBytes] at this
    rw [copyInto, this, length_splice, length_leBytes, if_pos (by omega)]
  have h3 : copyInto (seps.splice off (leBytes 2 key.length ++ key)) (off + 2 + key.length)
      (leBytes 4 child) = some (seps.splice off (encInterior key child)) := by
    have := @splice_splice_append seps (leBytes 2 key.length ++ key) (leBytes 4 child) off (by rw [List.length_append, length_leBytes, length_leBytes]; omega)
    rw [List.length_append, length_leBytes, ← Nat.add_assoc] at this
    rw [copyInto, this, length_splice, List.length_append, length_leBytes, length_leBytes,
      if_pos (by omega)]
    rfl
  rw [pushSep, h1]
  simp only [Option.bind_eq_bind, Option.bind_some, h2, h3]
  rw [Nat.mod_eq_of_lt (by omega), Nat.mod_eq_of_lt (by omega)]
  rfl

lemma recOf_of_ne (h : s.pageIdx ≠ frames.length) (seps' : Bytes) :
    recOf (frames ++ [seps']) s = recOf (frames ++ [seps]) s := by
  rw [recOf, recOf, List.getD_eq_getElem?_getD, List.getD_eq_getElem?_getD]
  rcases lt_or_gt_of_ne h with hlt | hgt
  · rw [List.getElem?_append_left hlt, List.getElem?_append_left hlt]
  · rw [List.getElem?_eq_none (by simp; omega), List.getElem?_eq_none (by simp; omega)]

lemma recOf_seps (h : s.pageIdx = frames.length) : recOf (frames ++ [seps]) s = seps.slice s.off s.len := by
  rw [recOf, List.getD_eq_getElem?_getD, h, List.getElem?_append_right le_rfl, Nat.sub_self]
  rfl

/-- Names, slot by slot. -/
lemma names_iff : Names frames pr recs ↔ pr.length = recs.length ∧ ∀ (i : ℕ) (s : SlotRef) (r : Bytes),
    pr[i]? = some s → recs[i]? = some r → recOf frames s = r ∧ s.len = r.length ∧ s.pageIdx < frames.length := by
  constructor
  · intro h
    refine ⟨h.length_eq, fun i s r hs hr => ⟨?_, ?_, h.known s (List.mem_of_getElem? hs)⟩⟩
    · have := h.get i
      rw [hs, hr] at this
      exact Option.some.inj this
    · have := congrArg (fun l : List ℕ => l[i]?) h.lens
      simp only [List.getElem?_map, hs, hr] at this
      exact Option.some.inj this
  · rintro ⟨hlen, h⟩
    refine ⟨?_, ?_, ?_⟩
    · refine List.ext_getElem? fun i => ?_
      rw [List.getElem?_map]
      cases hs : pr[i]? with
      | none =>
          rw [List.getElem?_eq_none_iff] at hs
          rw [List.getElem?_eq_none (by omega)]
          rfl
      | some s =>
          have hi := (List.getElem?_eq_some_iff.1 hs).1
          obtain ⟨r, hr⟩ : ∃ r, recs[i]? = some r := ⟨_, List.getElem?_eq_getElem (by omega)⟩
          rw [hr, Option.map_some, (h i s _ hs hr).1]
    · refine List.ext_getElem? fun i => ?_
      rw [List.getElem?_map, List.getElem?_map]
      cases hs : pr[i]? with
      | none =>
          rw [List.getElem?_eq_none_iff] at hs
          rw [List.getElem?_eq_none (l := recs) (by omega)]
          rfl
      | some s =>
          have hi := (List.getElem?_eq_some_iff.1 hs).1
          obtain ⟨r, hr⟩ : ∃ r, recs[i]? = some r := ⟨_, List.getElem?_eq_getElem (by omega)⟩
          rw [hr, Option.map_some, Option.map_some, (h i s _ hs hr).2.1]
    · intro s hs
      obtain ⟨i, hi⟩ := List.mem_iff_getElem?.1 hs
      have hlt := (List.getElem?_eq_some_iff.1 hi).1
      exact (h i s _ hi (List.getElem?_eq_getElem (by omega))).2.2

namespace Arena

variable {child' : ℕ}

/-- At first every slot lies in the parent's image. -/
lemma start (hseps : seps.length = 3 * pageSize) (hframes : frames.length = frameSeps)
    (h : Names frames pr recs) : Arena frames seps 0 pr recs := by
  have hknown : ∀ (i : ℕ) (s : SlotRef), pr[i]? = some s → s.pageIdx ≠ frameSeps := fun i s hs => by
    have := h.known s (List.mem_of_getElem? hs)
    omega
  exact ⟨hseps, h.mono [seps], fun i s hs hp => absurd hp (hknown i s hs), Nat.zero_le _,
    fun i k s t _ hs _ hp => absurd hp (hknown i s hs)⟩

/-- **A separator is written where the arena goes on.** -/
lemma push (h : Arena frames seps off pr recs) (hframes : frames.length = frameSeps)
    (hroom : off + (6 + key.length) ≤ seps.length) (hpos : pos < pr.length) (child : ℕ) :
    Arena frames (seps.splice off (encInterior key child)) (off + (6 + key.length))
      (pr.set pos ⟨frameSeps, off, 6 + key.length⟩) (recs.set pos (encInterior key child)) := by
  obtain ⟨hlen, hnames⟩ := names_iff.1 h.names
  have hsplice : (seps.splice off (encInterior key child)).length = seps.length :=
    length_splice_of_le (by rw [length_encInterior]; exact hroom)
  refine ⟨hsplice.trans h.length, names_iff.2 ⟨by rw [List.length_set, List.length_set, hlen], ?_⟩, ?_,
    by rw [hsplice]; exact hroom, ?_⟩
  · intro i s r hs hr
    rw [List.getElem?_set] at hs hr
    by_cases hi : pos = i
    · rw [if_pos hi, if_pos (by omega)] at hs
      rw [if_pos hi, if_pos (by omega)] at hr
      cases hs
      cases hr
      refine ⟨?_, (length_encInterior key child).symm, ?_⟩
      · rw [recOf_seps hframes.symm]
        have := slice_splice_self seps off (encInterior key child)
        rwa [length_encInterior] at this
      · rw [List.length_append, hframes]
        exact Nat.lt_succ_self _
    · rw [if_neg hi] at hs hr
      obtain ⟨hread, hl, hknown⟩ := hnames i s r hs hr
      rw [List.length_append] at hknown ⊢
      refine ⟨?_, hl, hknown⟩
      rw [← hread]
      by_cases hpage : s.pageIdx = frameSeps
      · have hbelow := h.below i s hs hpage
        rw [recOf_seps (hpage.trans hframes.symm), recOf_seps (hpage.trans hframes.symm),
          slice_splice_before hbelow (hbelow.trans h.room)]
      · exact recOf_of_ne (by rwa [hframes]) _
  · intro i s hs hpage
    rw [List.getElem?_set] at hs
    by_cases hi : pos = i
    · rw [if_pos hi, if_pos (by omega)] at hs
      cases hs
      exact le_rfl
    · rw [if_neg hi] at hs
      exact (h.below i s hs hpage).trans (Nat.le_add_right _ _)
  · intro i k s t hne hs ht hps hpt
    rw [List.getElem?_set] at hs ht
    by_cases hi : pos = i
    · rw [if_pos hi, if_pos (by omega)] at hs
      rw [if_neg (by omega)] at ht
      cases hs
      exact Or.inr (h.below k t ht hpt)
    · rw [if_neg hi] at hs
      by_cases hk : pos = k
      · rw [if_pos hk, if_pos (by omega)] at ht
        cases ht
        exact Or.inl (h.below i s hs hps)
      · rw [if_neg hk] at ht
        exact h.apart i k s t hne hs ht hps hpt

/-- **A separator of the arena is pointed at another child.** -/
lemma patch (h : Arena frames seps off pr recs) (hframes : frames.length = frameSeps)
    (hs : pr[pos]? = some s) (hpage : s.pageIdx = frameSeps)
    (hr : recs[pos]? = some (encInterior key child)) (child' : ℕ) :
    ∃ seps', patchSepChild seps s child' = some seps'
      ∧ Arena frames seps' off pr (recs.set pos (encInterior key child')) := by
  obtain ⟨hlen, hnames⟩ := names_iff.1 h.names
  obtain ⟨hread, hl, -⟩ := hnames pos s _ hs hr
  rw [length_encInterior] at hl
  rw [recOf_seps (hpage.trans hframes.symm)] at hread
  have hbelow := h.below pos s hs hpage
  have hroom := h.room
  have hsplice : (seps.splice (s.off + s.len - 4) (leBytes 4 child')).length = seps.length :=
    length_splice_of_le (by rw [length_leBytes]; omega)
  refine ⟨_, by rw [patchSepChild, copyInto, length_leBytes, if_pos (by omega)],
    hsplice.trans h.length, names_iff.2 ⟨by rw [List.length_set, hlen], ?_⟩, h.below,
    by rw [hsplice]; exact hroom, h.apart⟩
  intro i t r ht hr'
  rw [List.getElem?_set] at hr'
  by_cases hi : pos = i
  · subst hi
    obtain rfl : s = t := Option.some.inj (hs.symm.trans ht)
    have hlt := (List.getElem?_eq_some_iff.1 hr).1
    rw [if_pos rfl, if_pos hlt] at hr'
    cases hr'
    refine ⟨?_, by rw [length_encInterior, hl], by rw [List.length_append, hpage, hframes]; exact Nat.lt_succ_self _⟩
    rw [recOf_seps (hpage.trans hframes.symm), slice_splice_around (by omega)
      (by rw [length_leBytes]; omega) (by omega), hread, encInterior]
    have hend := @splice_segment (leBytes 2 key.length ++ key)
      (leBytes 2 key.length ++ key ++ leBytes 4 child) (leBytes 4 child) (leBytes 4 child') []
      (s.off + s.len - 4 - s.off) (by simp) (by rw [List.length_append, length_leBytes]; omega) (by simp)
    rw [hend, List.append_nil, encInterior]
  · rw [if_neg hi] at hr'
    obtain ⟨hread', hl', hknown⟩ := hnames i t r ht hr'
    rw [List.length_append] at hknown ⊢
    refine ⟨?_, hl', hknown⟩
    rw [← hread']
    by_cases htp : t.pageIdx = frameSeps
    · have hb := h.below i t ht htp
      rw [recOf_seps (htp.trans hframes.symm), recOf_seps (htp.trans hframes.symm)]
      rcases h.apart pos i s t hi hs ht hpage htp with hapart | hapart
      · exact slice_splice_after (by rw [length_leBytes]; omega)
      · exact slice_splice_before (by omega) (by omega)
    · exact recOf_of_ne (by rwa [hframes]) _

end Arena

/-! ## The separators of a window -/

variable {win : List SlotRef} {all : List Bytes} {cuts ids : List ℕ} {start : ℕ}

/-- A key is shorter than its record. -/
lemma length_validatedKey {r k : Bytes} (h : validatedKey r = some k) : k.length + 1 ≤ r.length := by
  rw [validatedKey] at h
  cases hhead : head? r with
  | none => rw [hhead] at h; cases h
  | some head =>
      rw [hhead] at h
      simp only [Option.bind_eq_bind, Option.bind_some] at h
      have hrange : ∀ {first last : ℕ}, 0 < first → range? r first last = some k →
          k.length + 1 ≤ r.length := by
        intro first last hfirst hr
        obtain ⟨hle, hlast, rfl⟩ := range?_eq_some hr
        rw [length_slice_of_le (by omega)]
        omega
      split_ifs at h
      · exact hrange Nat.one_pos h
      · exact hrange Nat.two_pos h
      · exact hrange Nat.two_pos h

/-- Separators for keys and pages, at their places. -/
def setSeps (keyAt : ℕ → Bytes) (ids : List ℕ) (start : ℕ) : List ℕ → List Bytes → List Bytes
  | [], recs => recs
  | j :: js, recs =>
      setSeps keyAt ids start js
        (recs.set (start + j - 1) (encInterior (keyAt j) (ids.getD (start + j) 0)))

lemma setSeps_set (keyAt : ℕ → Bytes) (ids : List ℕ) (start : ℕ) {js : List ℕ} {x : Bytes}
    (h : ∀ j ∈ js, start + j - 1 ≠ pos) :
    setSeps keyAt ids start js (recs.set pos x) = (setSeps keyAt ids start js recs).set pos x := by
  induction js generalizing recs with
  | nil => rfl
  | cons j js ih =>
      rw [setSeps, setSeps, List.set_comm _ _ (h j List.mem_cons_self).symm]
      exact ih fun i hi => h i (List.mem_cons_of_mem j hi)

lemma setSeps_getElem? (keyAt : ℕ → Bytes) (ids : List ℕ) (start : ℕ) {js : List ℕ}
    (h : ∀ j ∈ js, start + j - 1 ≠ pos) : (setSeps keyAt ids start js recs)[pos]? = recs[pos]? := by
  induction js generalizing recs with
  | nil => rfl
  | cons j js ih =>
      rw [setSeps, ih fun i hi => h i (List.mem_cons_of_mem j hi),
        List.getElem?_set_ne (h j List.mem_cons_self)]

/-- The slots at the places of the window's separators are in the arena. -/
def Placed (keyAt : ℕ → Bytes) (start : ℕ) (js : List ℕ) (pr : List SlotRef) (recs : List Bytes) : Prop :=
  ∀ j ∈ js, ∃ s child, pr[start + j - 1]? = some s ∧ s.pageIdx = frameSeps
    ∧ recs[start + j - 1]? = some (encInterior (keyAt j) child)

/-- **The separators that are written are those that are copied.** -/
lemma separators_eq (ids : List ℕ) {keyAt : ℕ → Bytes} (hnames : Names frames win all)
    (hframes : frames.length = frameSeps)
    (hlen : ∀ r ∈ all, r.length ≤ maxRecordLen)
    {js : List ℕ} (hkey : ∀ j ∈ js, ∀ k, all[cuts.getD j 0]?.bind validatedKey = some k → keyAt j = k)
    (hjs : (js.map (start + · - 1)).Nodup) (h : Arena frames seps off pr recs)
    (hroom : off + 4057 * js.length ≤ seps.length) (hpos : ∀ j ∈ js, start + j - 1 < pr.length) :
    match separatorsVec all cuts ids start js recs with
    | none => separatorsRef frames win cuts ids start js seps off pr = none
    | some recs' => ∃ seps' off' pr',
        separatorsRef frames win cuts ids start js seps off pr = some (seps', off', pr')
        ∧ Arena frames seps' off' pr' recs' ∧ off' ≤ off + 4057 * js.length
        ∧ Placed keyAt start js pr' recs' ∧ pr'.length = pr.length
        ∧ (∀ k, k ∉ js.map (start + · - 1) → pr'[k]? = pr[k]? ∧ recs'[k]? = recs[k]?)
        ∧ (∀ j ∈ js, all[cuts.getD j 0]?.bind validatedKey = some (keyAt j)) := by
  induction js generalizing seps off pr recs with
  | nil => exact ⟨seps, off, pr, rfl, h, le_rfl, by simp [Placed], rfl, by simp, by simp⟩
  | cons j js ih =>
      have hbind := hnames.bind_get (cuts.getD j 0)
      rw [separatorsVec, separatorsRef]
      cases hcell : all[cuts.getD j 0]? with
      | none =>
          have hget := hnames.get (cuts.getD j 0)
          rw [hcell, Option.map_eq_none_iff] at hget
          rw [hget]
          rfl
      | some cell =>
          have hget := hnames.get (cuts.getD j 0)
          rw [hcell, Option.map_eq_some_iff] at hget
          obtain ⟨s, hs, hread⟩ := hget
          rw [hs]
          simp only [Option.bind_eq_bind, Option.bind_some, hread]
          cases hk : validatedKey cell with
          | none => rfl
          | some key =>
              have hkeyj := hkey j List.mem_cons_self key (by rw [hcell]; exact hk)
              have hkl := length_validatedKey hk
              have hcl := hlen cell (List.mem_of_getElem? hcell)
              have hmax : maxRecordLen = 4052 := rfl
              rw [List.length_cons] at hroom
              have hroom' : off + (6 + key.length) ≤ seps.length := by omega
              simp only [Option.bind_some, pushSep_eq (ids.getD (start + j) 0) h.length hroom']
              rw [List.map_cons, List.nodup_cons] at hjs
              have hp : start + j - 1 < pr.length := hpos j List.mem_cons_self
              have hpush := h.push hframes hroom' hp (ids.getD (start + j) 0)
              have hout : (seps.splice off (encInterior key (ids.getD (start + j) 0))).length
                  = seps.length := by
                rw [hpush.length, h.length]
              have := ih (fun i hi => hkey i (List.mem_cons_of_mem j hi)) hjs.2 hpush (by rw [hout]; omega)
                (fun i hi => by rw [List.length_set]; exact hpos i (List.mem_cons_of_mem j hi))
              cases hrest : separatorsVec all cuts ids start js
                  (recs.set (start + j - 1) (encInterior key (ids.getD (start + j) 0))) with
              | none =>
                  rw [hrest] at this
                  exact this
              | some recs' =>
                  rw [hrest] at this
                  obtain ⟨seps', off', pr', heq, harena, hoff, hplaced, hplen, hsame, hkeys⟩ := this
                  have hrlen := h.names.length_eq
                  refine ⟨seps', off', pr', heq, harena, ?_, ?_, ?_, ?_, ?_⟩
                  · rw [List.length_cons]
                    omega
                  · intro i hi
                    rcases List.mem_cons.1 hi with rfl | hi
                    · obtain ⟨hps, hrs⟩ := hsame _ hjs.1
                      rw [List.getElem?_set_self hp] at hps
                      rw [List.getElem?_set_self (by omega)] at hrs
                      exact ⟨_, _, hps, rfl, by rw [hrs, hkeyj]⟩
                    · exact hplaced i hi
                  · rw [hplen, List.length_set]
                  · intro k hk
                    rw [List.map_cons, List.mem_cons, not_or] at hk
                    rw [(hsame k hk.2).1, (hsame k hk.2).2, List.getElem?_set_ne (Ne.symm hk.1),
                      List.getElem?_set_ne (Ne.symm hk.1)]
                    exact ⟨rfl, rfl⟩
                  · intro i hi
                    rcases List.mem_cons.1 hi with rfl | hi
                    · rw [hcell, Option.bind_some, hk, hkeyj]
                    · exact hkeys i hi

/-- **The separators of the arena are pointed at the pages as they are.** -/
lemma patchSeps_eq (ids : List ℕ) {keyAt : ℕ → Bytes} (hframes : frames.length = frameSeps) {js : List ℕ}
    (hjs : (js.map (start + · - 1)).Nodup) (h : Arena frames seps off pr recs)
    (hplaced : Placed keyAt start js pr recs) :
    ∃ seps', patchSeps pr ids start js seps = some seps'
      ∧ Arena frames seps' off pr (setSeps keyAt ids start js recs) := by
  induction js generalizing seps recs with
  | nil => exact ⟨seps, rfl, h⟩
  | cons j js ih =>
      obtain ⟨s, child, hs, hpage, hr⟩ := hplaced j List.mem_cons_self
      obtain ⟨seps1, hpatch, harena⟩ := h.patch hframes hs hpage hr (ids.getD (start + j) 0)
      rw [List.map_cons, List.nodup_cons] at hjs
      obtain ⟨seps2, hrest, harena2⟩ := ih hjs.2 harena fun i hi => by
        obtain ⟨t, c, ht, htp, htr⟩ := hplaced i (List.mem_cons_of_mem j hi)
        have hne : start + j - 1 ≠ start + i - 1 := fun heq =>
          hjs.1 (heq ▸ List.mem_map.2 ⟨i, hi, rfl⟩)
        exact ⟨t, c, ht, htp, by rw [List.getElem?_set_ne hne, htr]⟩
      refine ⟨seps2, ?_, harena2⟩
      rw [patchSeps, hs]
      simp only [Option.bind_eq_bind, Option.bind_some, hpatch, hrest]

end Arena

/-! ## The leaves of a window -/

section Images

variable {σ α : Type} (treeId : ℕ) {frames : List Bytes} {win : List SlotRef} {all : List Bytes}
  (cuts ids : List ℕ) (start groups next : ℕ)

/-- The leaves of a window, built one after another. -/
def buildLeaves (all : List Bytes) : List ℕ → Act σ (List Bytes)
  | [] => pure []
  | j :: js => do
      let image ← ofExcept (buildPage .leaf treeId (ids.getD (start + j) 0)
        ((all.drop (cuts.getD j 0)).take (cuts.getD (j + 1) 0 - cuts.getD j 0))
        (if j + 1 < groups then ids.getD (start + j + 1) 0 else next))
      let rest ← buildLeaves all js
      return image :: rest

/-- A page that is built into the buffer. -/
lemma buildOutOk_bind {K K' : Bytes → Act σ α} (out : Bytes) (part : ℕ) (kind : PageKind) (no : ℕ)
    (recs : List Bytes) (link : ℕ)
    (h : ∀ image, image.length = pageSize → K (out.splice (part * pageSize) image) = K' image) :
    (buildOutOk treeId out part kind no recs link >>= K)
      = ofExcept (buildPage kind treeId no recs link) >>= K' := by
  have hlen := length_buildPageInto kind treeId no recs link
  rw [buildOutOk, buildOut, buildPage]
  revert hlen
  rcases buildPageInto kind treeId no recs link with ⟨_ | _, image⟩
  · intro _
    rfl
  · exact fun hlen => h image hlen

/-- **The leaves that are copied.** -/
lemma imagesVec_bind {keyAt : ℕ → Bytes} {K : List Bytes × List Bytes → Act σ α} {js : List ℕ}
    (hpos : ∀ j ∈ js, 0 < j)
    (hkey : ∀ j ∈ js, all[cuts.getD j 0]?.bind validatedKey = some (keyAt j)) (images pr : List Bytes) :
    (imagesVec treeId all cuts ids start groups next js images pr >>= K)
      = buildLeaves treeId cuts ids start groups next all js >>= fun built =>
        K (images ++ built, setSeps keyAt ids start js pr) := by
  induction js generalizing images pr with
  | nil =>
      rw [imagesVec, buildLeaves, pure_bind, pure_bind, List.append_nil]
      rfl
  | cons j js ih =>
      have hj := hpos j List.mem_cons_self
      have hkj := hkey j List.mem_cons_self
      cases hcell : all[cuts.getD j 0]? with
      | none =>
          rw [hcell] at hkj
          cases hkj
      | some cell =>
          rw [hcell, Option.bind_some] at hkj
          rw [imagesVec, buildLeaves, bind_assoc, bind_assoc]
          refine bind_congr fun image => ?_
          rw [if_pos (by omega), if_pos hj, hcell]
          simp only [orPanic_some, pure_bind, hkj, bind_assoc]
          rw [ih (fun i hi => hpos i (List.mem_cons_of_mem j hi))
            fun i hi => hkey i (List.mem_cons_of_mem j hi)]
          refine bind_congr fun built => ?_
          rw [List.append_assoc, List.singleton_append, setSeps]

/-- **The leaves that are built by name.** -/
lemma imagesRef_bind {K : Bytes → Act σ α} (K' : List Bytes → Act σ α) (hnames : Names frames win all)
    (n : ℕ) {first : ℕ} (out : Bytes) (hout : (first + n) * pageSize ≤ out.length)
    (hK : ∀ out' built, out'.length = out.length → built.length = n →
      (∀ i < first, outPart out' i = outPart out i) →
      (∀ i < n, built[i]? = some (outPart out' (first + i))) → K out' = K' built) :
    (imagesRef treeId frames win cuts ids start groups next (List.range' first n) out >>= K)
      = buildLeaves treeId cuts ids start groups next all (List.range' first n) >>= K' := by
  induction n generalizing first out K' with
  | zero =>
      rw [List.range'_zero, imagesRef, buildLeaves, pure_bind, pure_bind]
      exact hK out [] rfl rfl (fun i _ => rfl) (fun i hi => absurd hi (Nat.not_lt_zero i))
  | succ n ih =>
      have hpart : (first + 1) * pageSize ≤ out.length :=
        (Nat.mul_le_mul_right _ (by omega)).trans hout
      rw [List.range'_succ, imagesRef, buildLeaves, bind_assoc, bind_assoc]
      have hread : ((win.drop (cuts.getD first 0)).take (cuts.getD (first + 1) 0 - cuts.getD first 0)).map
          (recOf frames)
          = (all.drop (cuts.getD first 0)).take (cuts.getD (first + 1) 0 - cuts.getD first 0) := by
        rw [List.map_take, hnames.drop]
      rw [hread]
      refine buildOutOk_bind treeId out first .leaf _ _ _ fun image hlen => ?_
      rw [bind_assoc]
      have hsplice := @length_part_splice out _ _ hlen hpart
      refine (ih (fun built => K' (image :: built)) (out.splice (first * pageSize) image)
        (by rw [hsplice]; convert hout using 2; omega) fun out' built hl hbl hbefore hat => ?_).trans ?_
      · refine hK out' (image :: built) (hl.trans hsplice) (by rw [List.length_cons, hbl]) ?_ ?_
        · intro i hi
          rw [hbefore i (by omega)]
          refine part_splice_of_ne hlen (by omega) ?_
          exact (Nat.mul_le_mul_right _ (by omega)).trans hpart
        · intro i hi
          cases i with
          | zero =>
              rw [List.getElem?_cons_zero, Nat.add_zero, hbefore first (by omega)]
              exact congrArg some (part_splice_self hlen).symm
          | succ i =>
              rw [List.getElem?_cons_succ, hat i (by omega)]
              congr 2
              omega
      · refine bind_congr fun built => ?_
        rw [pure_bind]

/-- The first leaf of the window is pointed at by the separator on the window's left. -/
lemma imagesVec_zero_bind {keyAt : ℕ → Bytes} {K : List Bytes × List Bytes → Act σ α} {js : List ℕ}
    (hpos : ∀ j ∈ js, 0 < j)
    (hkey : ∀ j ∈ js, all[cuts.getD j 0]?.bind validatedKey = some (keyAt j)) (pr : List Bytes)
    (hleft : 0 < start → pr[start - 1]?.bind validatedKey = some (keyAt 0)) :
    (imagesVec treeId all cuts ids start groups next (0 :: js) [] pr >>= K)
      = buildLeaves treeId cuts ids start groups next all (0 :: js) >>= fun built =>
        K (built, setSeps keyAt ids start (if 0 < start then 0 :: js else js) pr) := by
  rw [imagesVec, buildLeaves, bind_assoc, bind_assoc]
  refine bind_congr fun image => ?_
  rw [Nat.add_zero]
  by_cases hstart : 0 < start
  · have hk := hleft hstart
    cases hcell : pr[start - 1]? with
    | none =>
        rw [hcell] at hk
        cases hk
    | some cell =>
        rw [hcell, Option.bind_some] at hk
        simp only [hstart, if_true, lt_irrefl, if_false, orPanic_some, pure_bind, hk, bind_assoc]
        rw [imagesVec_bind treeId cuts ids start groups next hpos hkey]
        refine bind_congr fun built => ?_
        rw [setSeps, Nat.add_zero]
        rfl
  · simp only [hstart, if_false, pure_bind, bind_assoc]
    rw [imagesVec_bind treeId cuts ids start groups next hpos hkey]
    rfl

end Images

/-! ## A window -/

section Window

variable {σ α : Type} (P : Pool σ) (treeId leaf parentNo pos : ℕ) {leafImg cell : Bytes}
  {current : List SlotRef} {recs : List Bytes} (currentNext : ℕ) {p : TreePage} {kids : List ℕ}
  {start count : ℕ}

/-- The byte buffers have their lengths. -/
structure WindowScratch.Sized (sc : WindowScratch) : Prop where
  sib : sc.sib.length = 2 * pageSize
  out : sc.out.length = 4 * pageSize
  seps : sc.seps.length = 3 * pageSize

lemma nodup_places (start n : ℕ) : ((List.range' 1 n).map (start + · - 1)).Nodup := by
  refine List.Nodup.map_on ?_ List.nodup_range'
  intro i hi j hj heq
  rw [List.mem_range'_1] at hi hj
  omega

/-- The separator on the window's left, written anew, is as it was. -/
lemma leftSeparator_eq {frames : List Bytes} {seps : Bytes} {off : ℕ} {pr : List SlotRef}
    {recs : List Bytes} {js : List ℕ} {keyAt : ℕ → Bytes} (hkind : p.kind = .interior)
    (hkids : p.slots.mapM validatedChild = some kids)
    (hp : Names frames (p.slotRefs frameParent) p.slots) (hframes : frames.length = frameSeps)
    (h : Arena frames seps off pr recs) (hplaced : Placed keyAt start js pr recs)
    (hjs : ∀ j ∈ js, 0 < j) (hprlen : pr.length = p.nentries) (hstart : start < p.nentries + 1)
    (hroom : off + 4057 ≤ seps.length) (hsame : 0 < start → recs[start - 1]? = p.slots[start - 1]?)
    (hkey : 0 < start → ∀ k, p.slots[start - 1]?.bind validatedKey = some k → keyAt 0 = k) :
    ∃ seps' off' pr', leftSeparatorRef frames (p.slotRefs frameParent) (p.child0 :: kids) start seps off pr
        = some (seps', pr') ∧ Arena frames seps' off' pr' recs ∧ Placed keyAt start js pr' recs
      ∧ (0 < start → Placed keyAt start [0] pr' recs
        ∧ recs[start - 1]?.bind validatedKey = some (keyAt 0)) := by
  rw [leftSeparatorRef]
  by_cases hs : 0 < start
  · have hi : start - 1 < p.nentries := by omega
    obtain ⟨key, child, hslot, hk, hchild⟩ := p.slot_eq_encInterior hkind hi
    have hget := p.getElem?_slots hi
    have hkey0 := hkey hs key (by rw [hget]; exact hk)
    have hid : (p.child0 :: kids).getD start 0 = child := by
      obtain ⟨c, hc, hat⟩ := (mapM_getElem? hkids).2 _ _ hget
      obtain rfl : c = child := Option.some.inj (hc.symm.trans hchild)
      obtain ⟨n, rfl⟩ : ∃ n, start = n + 1 := ⟨start - 1, by omega⟩
      rw [List.getD_eq_getElem?_getD, List.getElem?_cons_succ]
      rw [Nat.add_sub_cancel] at hat
      rw [hat]
      rfl
    have hname := hp.get (start - 1)
    rw [hget, Option.map_eq_some_iff] at hname
    obtain ⟨s, hs0, hread⟩ := hname
    have hkl := length_validatedKey hk
    have hsl := p.length_le_of_mem (List.mem_of_getElem? hget)
    have hsize : headerLen + slotLen + 4052 = pageSize := rfl
    have hpush := h.push hframes (by omega : off + (6 + key.length) ≤ seps.length)
      (by omega : start - 1 < pr.length) child
    have hrec : recs[start - 1]? = some (encInterior key child) := by
      rw [hsame hs, hget, hslot]
    have hset : recs.set (start - 1) (encInterior key child) = recs := by
      refine List.ext_getElem? fun k => ?_
      rw [List.getElem?_set]
      split_ifs with h1 h2
      · rw [← h1, hrec]
      · rw [← h1, List.getElem?_eq_none (by omega)]
      · rfl
    rw [hset] at hpush
    refine ⟨_, _, _, ?_, hpush, ?_, fun _ => ⟨?_, ?_⟩⟩
    · rw [if_pos hs, hs0]
      simp only [Option.bind_eq_bind, Option.bind_some, hread, hk, hid]
      rw [pushSep_eq _ h.length (by omega)]
      rfl
    · intro j hj
      obtain ⟨t, c, ht, htp, htr⟩ := hplaced j hj
      have := hjs j hj
      exact ⟨t, c, by rw [List.getElem?_set_ne (by omega), ht], htp, htr⟩
    · intro j hj
      rw [List.mem_singleton] at hj
      subst hj
      rw [Nat.add_zero]
      exact ⟨_, child, List.getElem?_set_self (by omega), rfl, by rw [hrec, hkey0]⟩
    · rw [hsame hs, hget, Option.bind_some, hk, hkey0]
  · rw [if_neg hs]
    exact ⟨seps, off, pr, rfl, h, hplaced, fun hs' => absurd hs' hs⟩

/-- The records of a parent whose separators are pointed at other pages: first those inside the window, then
the one on its left, or the other way round. -/
lemma setSeps_left {keyAt : ℕ → Bytes} {ids : List ℕ} {js : List ℕ} (hjs : ∀ j ∈ js, 0 < j)
    (hstart : 0 < start) (recs : List Bytes) :
    setSeps keyAt ids start (0 :: js) recs = setSeps keyAt ids start [0] (setSeps keyAt ids start js recs) := by
  rw [setSeps, setSeps, setSeps]
  refine setSeps_set keyAt ids start fun j hj => ?_
  have := hjs j hj
  omega

/-- **What is written once the parent is known to fit.** -/
lemma installWindow_bind {frames : List Bytes} {win pr : List SlotRef} {all recs' : List Bytes}
    {cuts : List ℕ} (ids : List ℕ) {groups off : ℕ} (next : ℕ) {seps out : Bytes} {keyAt : ℕ → Bytes}
    (K : Bytes × Bytes → Act σ α) (K' : Unit → Act σ α) (hwin : Names frames win all) (hF : frames.length = frameSeps) (harena : Arena frames seps off pr recs')
    (hgroups : 1 ≤ groups ∧ groups ≤ 3)
    (hplaced : Placed keyAt start (List.range' 1 (groups - 1)) pr recs')
    (hkeys : ∀ j ∈ List.range' 1 (groups - 1), all[cuts.getD j 0]?.bind validatedKey = some (keyAt j))
    (hleft : 0 < start → Placed keyAt start [0] pr recs'
      ∧ recs'[start - 1]?.bind validatedKey = some (keyAt 0))
    (hout : out.length = 4 * pageSize)
    (hK : ∀ out seps, out.length = 4 * pageSize → seps.length = 3 * pageSize → K (out, seps) = K' ()) :
    ((do
        let seps ← orPanic (patchSeps pr ids start (List.range' 1 (groups - 1)) seps)
        let seps ← orPanic (if 0 < start then patchSeps pr ids start [0] seps else some seps)
        let out ← imagesRef treeId (frames ++ [seps]) win cuts ids start groups next (List.range groups) out
        let out ← buildOutOk treeId out 3 .interior parentNo (pr.map (recOf (frames ++ [seps]))) (ids.getD 0 0)
        installImages P treeId leaf parentNo pos start ((ids.drop start).take groups)
          ((List.range groups).map (outPart out)) (outPart out 3)
        return (out, seps) : Act σ (Bytes × Bytes)) >>= K)
      = (do
        let (images, pr) ← imagesVec treeId all cuts ids start groups next (List.range groups) [] recs'
        let parentImage ← ofExcept (buildPage .interior treeId parentNo pr (ids.getD 0 0))
        installImages P treeId leaf parentNo pos start ((ids.drop start).take groups) images parentImage
        : Act σ Unit) >>= K' := by
  obtain ⟨n, rfl⟩ : ∃ n, groups = n + 1 := ⟨groups - 1, by omega⟩
  rw [Nat.add_sub_cancel] at hplaced hkeys ⊢
  have hrange : List.range (n + 1) = 0 :: List.range' 1 n := by
    rw [List.range_eq_range', List.range'_succ]
  have hjs : ∀ j ∈ List.range' 1 n, 0 < j := fun j hj => (List.mem_range'_1.1 hj).1
  obtain ⟨seps1, hpatch, harena1⟩ := patchSeps_eq ids hF (nodup_places start n) harena hplaced
  have hpatch0 : ∃ seps2, (if 0 < start then patchSeps pr ids start [0] seps1 else some seps1) = some seps2
      ∧ Arena frames seps2 off pr
        (setSeps keyAt ids start (if 0 < start then 0 :: List.range' 1 n else List.range' 1 n) recs') := by
    by_cases hs : 0 < start
    · rw [if_pos hs, if_pos hs, setSeps_left hjs hs]
      refine patchSeps_eq ids hF (by simp) harena1 fun j hj => ?_
      obtain ⟨s, child, hps, hpage, hr⟩ := (hleft hs).1 j hj
      refine ⟨s, child, hps, hpage, ?_⟩
      rw [setSeps_getElem? keyAt ids start fun i hi => ?_, hr]
      have := hjs i hi
      rw [List.mem_singleton] at hj
      omega
    · rw [if_neg hs, if_neg hs]
      exact ⟨seps1, rfl, harena1⟩
  obtain ⟨seps2, hsome, harena2⟩ := hpatch0
  rw [hpatch]
  simp only [orPanic_some, pure_bind, hsome, bind_assoc, harena2.names.read]
  rw [hrange, imagesVec_zero_bind treeId cuts ids start (n + 1) next hjs hkeys recs' fun hs => (hleft hs).2]
  have hrange' : 0 :: List.range' 1 n = List.range' 0 (n + 1) := by rw [List.range'_succ]
  rw [hrange']
  refine imagesRef_bind treeId cuts ids start (n + 1) next _ (hwin.mono [seps2]) (n + 1) out
    (by rw [hout]; exact Nat.mul_le_mul_right _ (by omega)) fun out' built hlen hbl _ hat => ?_
  refine buildOutOk_bind treeId out' 3 .interior parentNo _ _ fun image himage => ?_
  have hfour : (3 + 1) * pageSize ≤ out'.length := by rw [hlen, hout]
  have hparts : (List.range' 0 (n + 1)).map (outPart (out'.splice (3 * pageSize) image)) = built := by
    refine List.ext_getElem? fun i => ?_
    rw [List.getElem?_map, ← List.range_eq_range']
    rcases Nat.lt_or_ge i (n + 1) with hi | hi
    · rw [List.getElem?_range hi, hat i hi, Nat.zero_add]
      refine congrArg some (part_splice_of_ne himage (by omega) ?_)
      exact (Nat.mul_le_mul_right _ (by omega)).trans hfour
    · rw [List.getElem?_eq_none (by simpa using hi), List.getElem?_eq_none (by omega)]
      rfl
  rw [hparts, outPart, part_splice_self himage]
  refine bind_congr fun _ => ?_
  exact hK _ _ (by rw [length_part_splice himage hfour, hlen, hout]) harena2.length

/-- **A window of borrowed records is redistributed as one of copied records.** -/
lemma redistributeWindow_bind (hkind : p.kind = .interior)
    (hkids : p.slots.mapM validatedChild = some kids) (hcurrent : Names [leafImg, cell] current recs)
    (hcount : count ≤ 3) (hwindow : start + count ≤ p.nentries + 1)
    (hleaf : (((p.child0 :: kids).drop start).take count).countP (fun id => decide (id ≠ leaf)) ≤ 2)
    {sc : WindowScratch} (hsc : sc.Sized) {K : Bool × WindowScratch → Act σ α} {K' : Bool → Act σ α}
    (hK : ∀ done sc', sc'.Sized → K (done, sc') = K' done) :
    (redistributeWindowRef P treeId leaf parentNo pos leafImg cell p.b current currentNext
        (p.slotRefs frameParent) (p.child0 :: kids) start count sc >>= K)
      = redistributeWindowVec P treeId leaf parentNo pos recs currentNext p.slots (p.child0 :: kids) start
          count >>= K' := by
  rw [redistributeWindowRef, redistributeWindowVec, bind_assoc, bind_assoc]
  refine gather_bind P treeId leaf hcurrent ?_ ?_ _ ⟨[], 0, 0, sc.sib⟩ ?_ hsc.sib ?_
  · intro sib hsib
    simp only [pure_bind]
    exact hK false _ ⟨hsib, hsc.out, hsc.seps⟩
  · intro g all hg hsib
    have hsizes := hg.sizes
    have hcuts := neighborCellCutsInto_eq (all.map fun r => r.length + 4) usable count sc.cuts
    simp only [hsizes]
    cases hc : neighborCellCuts (all.map fun r => r.length + 4) usable count with
    | none =>
        rw [hc] at hcuts
        obtain ⟨bufs, hinto⟩ := hcuts
        simp only [hinto, pure_bind]
        exact hK false _ ⟨hsib, hsc.out, hsc.seps⟩
    | some cuts =>
        rw [hc] at hcuts
        obtain ⟨bufs, hinto, rfl⟩ := hcuts
        have htwo := two_le_of_neighborCellCuts hc
        simp only [hinto]
        by_cases hgroups : count < bufs.cuts.length - 1
        · simp only [if_pos hgroups, pure_bind]
          exact hK false _ ⟨hsib, hsc.out, hsc.seps⟩
        · simp only [if_neg hgroups]
          set frames := windowFrames leafImg cell g.sib 2 ++ [p.b] with hframes
          have hlist : [leafImg, cell, g.sib.slice 0 pageSize, g.sib.slice pageSize pageSize, p.b]
              = frames := by
            simp [hframes, windowFrames, List.range_succ]
          have hF : frames.length = frameSeps := by simp [hframes, frameSeps]
          have hwin : Names frames g.win all := hg.mono [p.b]
          have hp : Names frames (p.slotRefs frameParent) p.slots := by
            refine Names.slotRefs p ?_
            rw [hframes, List.getElem?_append_right (by simp [frameParent]), length_windowFrames]
            rfl
          have hlen : ∀ r ∈ all, r.length ≤ maxRecordLen := fun r hr => by
            have := le_of_neighborCellCuts hc _ (List.mem_map.2 ⟨r, hr, rfl⟩)
            have hmax : maxRecordLen + 4 = usable := rfl
            omega
          have hsize : 3 * pageSize = 12288 := rfl
          have hprlen : (p.slotRefs frameParent).length = p.nentries := by simp [TreePage.slotRefs]
          let keyAt : ℕ → Bytes := fun j =>
            ((if 0 < j then all[bufs.cuts.getD j 0]? else p.slots[start - 1]?).bind validatedKey).getD []
          have hkeyAt : ∀ j ∈ List.range' 1 (bufs.cuts.length - 1 - 1), ∀ k,
              all[bufs.cuts.getD j 0]?.bind validatedKey = some k → keyAt j = k := by
            intro j hj k hk
            rw [List.mem_range'_1] at hj
            have hj0 : 0 < j := hj.1
            simp only [keyAt]
            rw [if_pos hj0, hk, Option.getD_some]
          have hjs : ∀ j ∈ List.range' 1 (bufs.cuts.length - 1 - 1), 0 < j := fun j hj =>
            (List.mem_range'_1.1 hj).1
          have hpos : ∀ j ∈ List.range' 1 (bufs.cuts.length - 1 - 1), start + j - 1 < p.nentries := by
            intro j hj
            rw [List.mem_range'_1] at hj
            omega
          have hsep := separators_eq (p.child0 :: kids) hwin hF hlen hkeyAt (nodup_places start _) (Arena.start hsc.seps hF hp)
            (by rw [hsc.seps, List.length_range']; omega) (by rw [hprlen]; exact hpos)
          rw [hlist]
          cases hsv : separatorsVec all bufs.cuts (p.child0 :: kids) start
              (List.range' 1 (bufs.cuts.length - 1 - 1)) p.slots with
          | none =>
              rw [hsv] at hsep
              simp only [hsep, orPanic_none]
              rfl
          | some recs' =>
              rw [hsv] at hsep
              obtain ⟨seps1, off1, pr1, hsr, harena, hoff, hplaced, hpl, hsame, hkeys⟩ := hsep
              rw [List.length_range'] at hoff
              obtain ⟨seps2, off2, pr2, hleft, harena2, hplaced2, hplaced0⟩ :=
                leftSeparator_eq hkind hkids hp hF harena hplaced hjs (hpl.trans hprlen)
                  (by omega) (by rw [harena.length]; omega)
                  (fun hs => (hsame _ (by
                    rintro hmem
                    obtain ⟨j, hj, heq⟩ := List.mem_map.1 hmem
                    have := hjs j hj
                    omega)).2)
                  (fun _ k hk => by simp only [keyAt, lt_irrefl, if_false, hk, Option.getD_some])
              simp only [hsr, orPanic_some, pure_bind, hleft, harena2.names.read]
              have hlenInto := length_buildPageInto .interior treeId parentNo recs' p.child0
              simp only [buildOut, List.getD_cons_zero]
              rcases hb : buildPageInto .interior treeId parentNo recs' p.child0 with ⟨e | u, image⟩
              all_goals
                rw [hb] at hlenInto
                have hfour : (3 + 1) * pageSize ≤ sc.out.length := by rw [hsc.out]
                have hout := (length_part_splice (i := 3) hlenInto hfour).trans hsc.out
                rw [buildPage, hb]
              · cases e with
                | tooLarge =>
                    simp only [pure_bind]
                    exact hK false _ ⟨hsib, hout, harena2.length⟩
                | _ => rfl
              · simp only [bind_assoc]
                refine bind_congr fun fresh => ?_
                have := installWindow_bind P treeId leaf parentNo pos
                  ((p.child0 :: kids).take start ++ fresh ++ (p.child0 :: kids).drop (start + count)) g.next
                  (fun r => K (true, ⟨g.sib, r.1, r.2, bufs⟩)) (fun _ => K' true)
                  hwin hF harena2 ⟨by omega, by omega⟩ hplaced2 hkeys hplaced0 hout
                  fun out seps ho hs => hK true _ ⟨hsib, ho, hs⟩
                simpa only [bind_assoc, pure_bind] using this
  · exact ⟨rfl, rfl, by simp⟩
  · simpa using hleaf

/-- Among the children of a window that has the leaf, the others are one fewer. -/
lemma countP_window {ids : List ℕ} {pos : ℕ} (hat : ids[pos]? = some leaf) (hle : start ≤ pos)
    (hlt : pos < start + count) :
    ((ids.drop start).take count).countP (fun id => decide (id ≠ leaf)) + 1 ≤ count := by
  have hmem : leaf ∈ (ids.drop start).take count := by
    refine List.mem_of_getElem? (i := pos - start) ?_
    rw [List.getElem?_take_of_lt (by omega), List.getElem?_drop, Nat.add_sub_cancel' hle, hat]
  have hlen : ((ids.drop start).take count).length ≤ count := List.length_take_le _ _
  have hsum := List.length_eq_countP_add_countP (fun id => decide (id ≠ leaf))
    (l := (ids.drop start).take count)
  have hone : 0 < ((ids.drop start).take count).countP (fun id => decide ¬decide (id ≠ leaf) = true) :=
    List.countP_pos_iff.2 ⟨leaf, hmem, by simp⟩
  omega

/-- A window has at most three children, all of them the parent's, and the leaf among them. -/
lemma windows_bounds {n : ℕ} (hpos : pos < n) {w : ℕ × ℕ} (hw : w ∈ windows pos n) :
    w.2 ≤ 3 ∧ w.1 + w.2 ≤ n ∧ w.1 ≤ pos ∧ pos < w.1 + w.2 := by
  simp only [windows, List.mem_append] at hw
  rcases hw with (hw | hw) | hw
  all_goals
    split_ifs at hw with hif
    · rw [List.mem_singleton] at hw
      subst hw
      simp only
      omega
    · exact absurd hw List.not_mem_nil

/-- **The windows take the records at the same place.** -/
lemma redistributeWindows_eq (hkind : p.kind = .interior) (hkids : p.slots.mapM validatedChild = some kids)
    (hcurrent : Names [leafImg, cell] current recs) {ws : List (ℕ × ℕ)}
    (hws : ∀ w ∈ ws, w.2 ≤ 3 ∧ w.1 + w.2 ≤ p.nentries + 1
      ∧ (((p.child0 :: kids).drop w.1).take w.2).countP (fun id => decide (id ≠ leaf)) ≤ 2)
    {sc : WindowScratch} (hsc : sc.Sized) :
    redistributeWindowsRef P treeId leaf parentNo pos leafImg cell p.b current currentNext
        (p.slotRefs frameParent) (p.child0 :: kids) ws sc
      = redistributeWindowsVec P treeId leaf parentNo pos recs currentNext p.slots (p.child0 :: kids) ws := by
  induction ws generalizing sc with
  | nil => rfl
  | cons w ws ih =>
      obtain ⟨start, count⟩ := w
      obtain ⟨hcount, hwindow, hleaf⟩ := hws _ List.mem_cons_self
      rw [redistributeWindowsRef, redistributeWindowsVec]
      refine redistributeWindow_bind P treeId leaf parentNo pos currentNext hkind hkids hcurrent hcount
        hwindow hleaf hsc fun done sc' hsc' => ?_
      cases done with
      | true => rfl
      | false => exact ih (fun w hw => hws w (List.mem_cons_of_mem _ hw)) hsc'

/-- An image that is copied over a page is that page. -/
lemma copyInto_whole {buf b : Bytes} (hbuf : buf.length = pageSize) (hb : b.length = pageSize) :
    copyInto buf 0 b = some b := by
  rw [copyInto, if_pos (by omega)]
  refine congrArg some ?_
  rw [splice, List.take_zero, List.nil_append, List.drop_eq_nil_of_le (by omega), List.append_nil,
    Nat.zero_sub, List.replicate_zero, List.nil_append]

/-- **Redistribution over borrowed records is redistribution over copied ones.** -/
theorem redistributeNeighborsRef_eq (path : List ℕ) (hcurrent : Names [leafImg, cell] current recs)
    (sc : SplitScratch) :
    redistributeNeighborsRef P treeId leaf path leafImg cell current currentNext sc
      = redistributeNeighborsVec P treeId leaf path recs currentNext := by
  cases path with
  | nil => rfl
  | cons parentNo path =>
      rw [redistributeNeighborsRef, redistributeNeighborsVec]
      refine bind_congr fun p => ?_
      by_cases hid : p.kind ≠ .interior ∨ p.treeId ≠ treeId
      · simp only [if_pos hid]
        rfl
      · simp only [if_neg hid]
        rw [not_or, not_ne_iff] at hid
        cases hkids : p.slots.mapM validatedChild with
        | none => rfl
        | some kids =>
            have hkl : kids.length = p.nentries := by rw [(mapM_getElem? hkids).1, p.length_slots]
            simp only [orPanic_some, pure_bind, copyInto_whole sc.parent_length p.length]
            cases hidx : (p.child0 :: kids).idxOf? leaf with
            | none => rfl
            | some pos =>
                obtain ⟨hlt, hat, -⟩ := List.idxOf?_eq_some_iff.1 hidx
                rw [List.length_cons] at hlt
                refine redistributeWindows_eq P treeId leaf parentNo pos currentNext hid.1 hkids hcurrent
                  (fun w hw => ?_) ⟨sc.sib_length, sc.out_length, sc.seps_length⟩
                rw [List.length_cons] at hw
                obtain ⟨hthree, hend, hle, hin⟩ := windows_bounds pos hlt hw
                have hcountP := countP_window leaf
                  (List.getElem?_eq_some_iff.2 ⟨_, hat⟩) hle hin
                exact ⟨hthree, by omega, by omega⟩

end Window

/-! ## The cut in three -/

section Three

variable {slots : List SlotRef} {recs : List Bytes}

/-- The breaks that are counted are those that are listed. -/
lemma breaksFrom_eq (usable : ℕ) (slots : List SlotRef) (i used : ℕ) (before : List ℕ) :
    ∃ bs, greedyFrom usable (slots.map fun s => s.len + 4) i used = bs ++ [i + slots.length]
      ∧ breaksFrom usable slots i used before.length (before.getD 0 0) (before.getD 1 0)
        = ((before ++ bs).length, (before ++ bs).getD 0 0, (before ++ bs).getD 1 0) := by
  induction slots generalizing i used before with
  | nil => exact ⟨[], rfl, by simp [breaksFrom]⟩
  | cons s slots ih =>
      rw [List.map_cons, greedyFrom, breaksFrom]
      by_cases hover : usable < used + (s.len + 4)
      · rw [if_pos hover, if_pos hover]
        obtain ⟨bs, hgreedy, hbreaks⟩ := ih (i + 1) (s.len + 4) (before ++ [i])
        refine ⟨i :: bs, ?_, ?_⟩
        · rw [hgreedy, List.length_cons, List.cons_append]
          congr 3
          omega
        · rw [List.append_cons, ← hbreaks]
          congr 1
          all_goals
            rcases before with _ | ⟨x, _ | ⟨y, before⟩⟩ <;> simp
      · rw [if_neg hover, if_neg hover]
        obtain ⟨bs, hgreedy, hbreaks⟩ := ih (i + 1) (used + (s.len + 4)) before
        refine ⟨bs, ?_, hbreaks⟩
        rw [hgreedy, List.length_cons]
        congr 2
        omega

/-- **The loop over the slots cuts a leaf in three where the greedy packing does.** -/
lemma threeCutsRef_eq {frames : List Bytes} (h : Names frames slots recs) : threeCutsRef slots = threeCuts recs := by
  obtain ⟨bs, hgreedy, hbreaks⟩ := breaksFrom_eq usable slots 0 0 []
  rw [List.nil_append] at hbreaks
  simp only [List.length_nil, List.getD_nil] at hbreaks
  rw [threeCutsRef, threeCuts, ← h.sizes, hgreedy, hbreaks, Nat.zero_add]
  rcases bs with _ | ⟨a, _ | ⟨b, _ | ⟨c, bs⟩⟩⟩
  · rfl
  · rfl
  · simp
  · have hlen : (a :: b :: c :: bs).length ≠ 2 := by simp
    simp only [hlen, ne_eq, not_false_eq_true, true_or, if_true]
    rcases bs with _ | ⟨d, bs⟩ <;> rfl

end Three

/-! ## The split -/

section Split

variable {σ : Type} (P : Pool σ) (features : Features) (treeId turns leaf : ℕ) (path : List ℕ)
  (place oldNext : ℕ) (key : Bytes) (fences : Option LeafFences) {frames : List Bytes}
  {slots : List SlotRef} {recs : List Bytes} {out : Bytes}

/-- The cut in two. -/
lemma splitInTwoRef_eq (h : Names frames slots recs) (sp : ℕ) (hout : out.length = 4 * pageSize) :
    splitInTwoRef P treeId leaf path place frames slots sp oldNext key fences out
      = splitInTwoVec P treeId leaf path place recs sp oldNext key fences := by
  have hget := h.get sp
  rw [splitInTwoRef, splitInTwoVec]
  cases hs : slots[sp]? with
  | none =>
      rw [hs] at hget
      rw [← hget]
      rfl
  | some s =>
      rw [hs] at hget
      rw [← hget, h.drop, h.take]
      simp only [Option.map_some, orPanic_some, pure_bind]
      refine bind_congr fun sep => bind_congr fun rightNo => ?_
      refine buildOutOk_bind treeId out 1 .leaf rightNo _ _ fun right hright => ?_
      have htwo : (1 + 1) * pageSize ≤ out.length := by
        rw [hout]
        exact Nat.mul_le_mul_right _ (by omega)
      rw [outPart, part_splice_self hright]
      refine bind_congr fun _ => ?_
      refine buildOutOk_bind treeId _ 0 .leaf leaf _ _ fun left hleft => ?_
      rw [outPart, part_splice_self hleft]

/-- The cut in three. -/
lemma splitInThreeRef_eq (h : Names frames slots recs) (a b : ℕ) (hout : out.length = 4 * pageSize) :
    splitInThreeRef P treeId turns leaf path place frames slots a b oldNext key fences out
      = splitInThreeVec P treeId turns leaf path place recs a b oldNext key fences := by
  have hpart : ∀ i < 4, (i + 1) * pageSize ≤ out.length := fun i hi => by
    rw [hout]
    exact Nat.mul_le_mul_right _ hi
  have hmid : ((slots.drop a).take (b - a)).map (recOf frames) = (recs.drop a).take (b - a) := by
    rw [List.map_take, h.drop]
  rw [splitInThreeRef, splitInThreeVec, h.take, h.drop, hmid, h.bind_get, h.bind_get]
  refine bind_congr fun midNo => bind_congr fun rightNo => ?_
  refine buildOutOk_bind treeId out 0 .leaf leaf _ _ fun left hleft => ?_
  refine buildOutOk_bind treeId _ 1 .leaf midNo _ _ fun mid hmid => ?_
  refine buildOutOk_bind treeId _ 2 .leaf rightNo _ _ fun right hright => ?_
  have h0 := length_part_splice hleft (hpart 0 (by omega))
  have h1 := length_part_splice (i := 1) hmid (by rw [h0]; exact hpart 1 (by omega))
  have houtMid : outPart (((out.splice (0 * pageSize) left).splice (1 * pageSize) mid).splice
      (2 * pageSize) right) 1 = mid := by
    rw [outPart, part_splice_of_ne hright (by omega) (by rw [h1, h0]; exact hpart 1 (by omega)),
      part_splice_self hmid]
  have houtLeft : outPart (((out.splice (0 * pageSize) left).splice (1 * pageSize) mid).splice
      (2 * pageSize) right) 0 = left := by
    rw [outPart, part_splice_of_ne hright (by omega) (by rw [h1, h0]; exact hpart 0 (by omega)),
      part_splice_of_ne hmid (by omega) (by rw [h0]; exact hpart 0 (by omega)), part_splice_self hleft]
  have houtRight : outPart (((out.splice (0 * pageSize) left).splice (1 * pageSize) mid).splice
      (2 * pageSize) right) 2 = right := part_splice_self hright
  rw [houtMid, houtLeft, houtRight]

/-- The test for an append. -/
lemma atTailRef_eq (h : Names frames slots recs) : atTailRef slots place = atTail recs place := by
  rw [atTailRef, atTail, h.length_eq, h.bytesOf_take, h.bytesOf_drop]

/-- **The borrowed-record split is the copying split.**  For every leaf image, place, record, key, path
and fences, every pool, and whatever is in the scratch, both are one program: they make the same calls
to the pool in the same order, install the same bytes, leave the same hints and stop with the same
error.  `insert` hands over no record longer than the largest one. -/
theorem splitLeafAndInsertRef_eq (sc : SplitScratch) (image cell : Bytes)
    (hcell : cell.length ≤ maxRecordLen) :
    splitLeafAndInsertRef P features treeId turns sc leaf image path place cell key fences
      = splitLeafAndInsertVec P features treeId turns leaf image path place cell key fences := by
  generalize hvec : splitLeafAndInsertVec P features treeId turns leaf image path place cell key fences = vec
  rw [splitLeafAndInsertVec] at hvec
  rw [splitLeafAndInsertRef]
  cases hp : TreePage.ofBytes image leaf with
  | error e =>
      rw [hp] at hvec
      exact hvec
  | ok p =>
      rw [hp] at hvec
      have hb : p.b = image := TreePage.b_of_ofBytes hp
      have himage : image.length = pageSize := by rw [← hb, p.length]
      have hmod : cell.length % 2 ^ 16 = cell.length := by
        have hmax : maxRecordLen = 4052 := rfl
        exact Nat.mod_eq_of_lt (by omega)
      have hslots : Names [image, cell] (p.slotRefs frameLeaf) p.slots := Names.slotRefs p (by rw [hb]; rfl)
      have hcellName : Names [image, cell] [⟨frameRec, 0, cell.length⟩] [cell] :=
        ⟨by simp [recOf, frameRec, slice], rfl, by simp [frameRec]⟩
      have hinsert := hslots.insertAt hcellName place
      simp only [ofExcept_ok, pure_bind] at hvec
      simp only [ofExcept_ok, pure_bind, copyInto_whole sc.leafImg_length himage, orPanic_some, hmod]
      cases hrecs : insertAt p.slots place cell with
      | none =>
          rw [hrecs] at hinsert hvec
          rw [hinsert]
          exact hvec
      | some recs =>
          rw [hrecs] at hinsert hvec
          simp only [orPanic_some, pure_bind] at hvec
          obtain ⟨slots, heq, h⟩ := hinsert
          rw [heq]
          have htwo := fun sp => splitInTwoRef_eq P treeId leaf path place p.nextLeaf key fences h sp
            sc.out_length
          have hthree := fun a b => splitInThreeRef_eq P treeId turns leaf path place p.nextLeaf key fences h a b
            sc.out_length
          simp only [orPanic_some, pure_bind, atTailRef_eq place h, h.length_eq, splitPointRef_eq usable h.lens,
            threeCutsRef_eq h, redistributeNeighborsRef_eq P treeId leaf _ path h sc, htwo, hthree]
          exact hvec

/-- A record of 1300 bytes. -/
def wideRecord (key : UInt8) : Bytes := encLeaf [key] (List.replicate 1300 key) false

/-- A root leaf, page 1, that has no room for a fourth record. -/
def fullLeaf : Bytes :=
  (buildPage .leaf 1 1 ([10, 30, 40].map wideRecord) 0).toOption.getD []

/-- The handle a call leaves, and the keys of every page. -/
def treeAfter (call : Act (List Bytes) Unit) (w : World (List Bytes)) : Handle × List (List Bytes) :=
  let w := (call w).2
  (w.tree, w.pool.map fun b => (List.range (Page.nentries b)).map fun i => (Page.slot b i).slice 2 1)

/-- A record goes between those of a full leaf: the leaf is split in two, page 2 is allocated for the
right half and page 3 for the new root. -/
theorem splitLeafAndInsertRef_full :
    splitLeafAndInsertRef Pool.memory ⟨true, true⟩ 1 8 SplitScratch.new 1 fullLeaf [] 1
          (wideRecord 20) [20] none
        = splitLeafAndInsertVec Pool.memory ⟨true, true⟩ 1 8 1 fullLeaf [] 1 (wideRecord 20) [20] none
      ∧ treeAfter (splitLeafAndInsertVec Pool.memory ⟨true, true⟩ 1 8 1 fullLeaf [] 1
          (wideRecord 20) [20] none) ⟨[[], fullLeaf], ⟨1, none, none⟩⟩
        = (⟨3, some 2, none⟩, [[], [[10], [20]], [[30], [40]], [[30]]]) := by
  have hlen : (wideRecord 20).length ≤ maxRecordLen := by decide +kernel
  refine ⟨?_, by decide +kernel⟩
  exact splitLeafAndInsertRef_eq Pool.memory ⟨true, true⟩ 1 8 1 [] 1 [20] none SplitScratch.new
    fullLeaf (wideRecord 20) hlen

end Split

end BTree
