import Sekejap.DenseRow.Readers

/-!
# The readers of a row agree

Each reader returns of a field what the row holds of it (`heldField`), which is what the full decoder
puts into the document (`fetched_agrees`).

* **`readField_decodeDirect`**, **`readField_accepts`** — the reader of one field returns the field of the
  decoded document, and refuses the rows that the decoder refuses.
* **`readFields_eq_readField`** — a projection reads each of its fields as the reader of one field does.
* **`readFieldInTrusted_of_readFieldIn`** — the trusted reader returns what the validating one returns.
* **`readTextFieldIn_of_readFieldIn`**, **`locateVector_eq_ok`** — so do the reader of a text and the
  locator of a vector.
-/

open Bytes

open Fallible

open Reading (Reader Skims)

namespace Engine.DenseRow

variable {σ τ α : Type}

/-! ## What they return -/

section

variable {layout : Layout} {states : Option Bytes} {widths b rest bytes : Bytes} {i k n : ℕ}
  {cols : List (String × Kind)} {slots : List Slot} {extra : List (String × Value)} {field : String}
  {v : FieldValue}
  {p : String × Kind → Bool}

/-- The readers' fold over the columns, when one of them is wanted. -/
def foldOne (onNull : τ → τ) (ofCell : ℕ → String × Kind → Option Value → τ → τ) (declared : Option ℕ) :
    ℕ → List (String × Kind) → List Slot → τ → τ :=
  foldSlots (fun i _ s => if declared = some i then onNull s else s)
    (fun i col o s => if declared = some i then ofCell i col o s else s)

/-- The column that `p` accepts, from ordinal `i` on, and what the row holds of it. -/
def slotOf (p : String × Kind → Bool) : ℕ → List (String × Kind) → List Slot → Option (ℕ × (String × Kind) × Slot)
  | i, col :: cols, slot :: slots => if p col then some (i, col, slot) else slotOf p (i + 1) cols slots
  | _, _, _ => none

/-- What the fold over the columns ends with. -/
def pick (onNull : τ → τ) (ofCell : ℕ → String × Kind → Option Value → τ → τ) (s : τ) :
    Option (ℕ × (String × Kind) × Slot) → τ
  | some (_, _, .null) => onNull s
  | some (i, col, .cell o) => ofCell i col o s
  | _ => s

variable {s : τ} {onNull : τ → τ} {ofCell : ℕ → String × Kind → Option Value → τ → τ}

attribute [local simp] foldSlots slotOf pick

lemma foldOne_cons {declared : Option ℕ} {col : String × Kind} {slot : Slot} :
    foldOne onNull ofCell declared i (col :: cols) (slot :: slots) s
      = foldOne onNull ofCell declared (i + 1) cols slots
          (if declared = some i then pick onNull ofCell s (some (i, col, slot)) else s) := by
  cases slot <;> simp [foldOne]

lemma foldOne_of_lt {d : ℕ} (h : d < i) : foldOne onNull ofCell (some d) i cols slots s = s := by
  induction cols generalizing i slots with
  | nil => simp [foldOne]
  | cons col cols ih =>
      cases slots with
      | nil => simp [foldOne]
      | cons slot slots =>
          rw [foldOne_cons, if_neg fun he => h.ne (Option.some.inj he)]
          exact ih (Nat.lt_succ_of_lt h)

/-- **One column is picked out of a row.** -/
lemma foldOne_eq (hlen : slots.length = cols.length) :
    foldOne onNull ofCell ((cols.findIdx? p).map (· + i)) i cols slots s
      = pick onNull ofCell s (slotOf p i cols slots) := by
  induction cols generalizing i slots with
  | nil => simp [foldOne]
  | cons col cols ih =>
      cases slots with
      | nil => simp at hlen
      | cons slot slots =>
          rw [foldOne_cons, List.findIdx?_cons, slotOf]
          split_ifs with hp hi hi
          · simp only [Option.map_some, Nat.zero_add]
            exact foldOne_of_lt (Nat.lt_succ_self i)
          · simp at hi
          · simp only [Option.map_map, Option.map_eq_some_iff, Function.comp_apply] at hi
            omega
          · have hshift : ((cols.findIdx? p).map (· + 1)).map (· + i) = (cols.findIdx? p).map (· + (i + 1)) := by
              rw [Option.map_map]
              congr 1
              funext d
              simp only [Function.comp_apply]
              omega
            rw [hshift]
            exact ih (by simpa using hlen)

/-- A member of the extras is found when it is wanted. -/
lemma foldl_extra {f : Value → τ} (hn : (extra.map Prod.fst).Nodup) :
    extra.foldl (fun s m => if m.1 = field then f m.2 else s) s
      = ((extra.lookup field).map f).getD s := by
  induction extra generalizing s with
  | nil => rfl
  | cons m extra ih =>
      rw [List.map_cons, List.nodup_cons] at hn
      rw [List.foldl_cons, ih hn.2, lookup_cons_if]
      by_cases h : field = m.1
      · have hnone : extra.lookup field = none := by
          rw [List.lookup_eq_none_iff]
          exact fun e he => bne_iff_ne.2 fun heq => hn.1 (h ▸ heq ▸ List.mem_map_of_mem he)
        rw [hnone, if_pos h, if_pos h.symm]
        rfl
      · rw [if_neg h, if_neg fun he => h he.symm]

lemma findSlot_eq_slotOf :
    findSlot field i cols slots
      = (slotOf (fun c => c.1 == field) i cols slots).map fun f => (f.1, f.2.1.2, f.2.2) := by
  induction cols generalizing i slots with
  | nil => rfl
  | cons col cols ih =>
      cases slots with
      | nil => rfl
      | cons slot slots =>
          rw [findSlot, slotOf, ih]
          by_cases h : col.1 = field <;> simp [h]

lemma findIdx?_isNone_iff (hlen : slots.length = cols.length) :
    cols.findIdx? p = none ↔ slotOf p i cols slots = none := by
  induction cols generalizing i slots with
  | nil => simp
  | cons col cols ih =>
      cases slots with
      | nil => simp at hlen
      | cons slot slots =>
          rw [List.findIdx?_cons, slotOf]
          split_ifs
          · simp
          · rw [Option.map_eq_none_iff]
            exact ih (by simpa using hlen)

end

section

variable {layout : Layout} {states : Option Bytes} {widths b rest bytes : Bytes} {i k n : ℕ}
  {cols : List (String × Kind)} {slots : List Slot} {extra : List (String × Value)} {field : String}
  {v : FieldValue}
  {p : String × Kind → Bool}

lemma Columns.length_eq (h : Columns states widths i k cols b slots rest) : slots.length = cols.length := by
  induction h with
  | nil => rfl
  | missing _ _ ih | null _ _ ih | cell _ _ _ ih => rw [List.length_cons, List.length_cons, ih]

lemma Parses.length_eq (h : Parses layout bytes slots extra) : slots.length = layout.fields.length := by
  obtain ⟨_, _, _, -, hcols, -, -⟩ := h
  exact hcols.length_eq

lemma Parses.nodup (h : Parses layout bytes slots extra) : (extra.map Prod.fst).Nodup := by
  obtain ⟨_, _, _, -, -, hbehind, -⟩ := h
  exact hbehind.nodup

lemma useOr_ite {c : Prop} [Decidable c] {f : α → σ} {s : σ} {x : α} :
    useOr (if c then some f else none) s x = if c then f x else s := by
  split_ifs <;> rfl

/-- A reader that wants no member of the extras leaves what it has. -/
lemma foldl_const {s : σ} (l : List α) : l.foldl (fun s _ => s) s = s := by
  induction l with
  | nil => rfl
  | cons x l ih => exact ih

/-- What the reader of one field has after the columns and the extras is what the row holds of it. -/
lemma fold_held (h : Parses layout bytes slots extra) :
    extra.foldl (fun v m => useOr (if layout.position (fun c => c.1 == field) = none ∧ m.1 = field then
        some fun v => FieldValue.ofExtra (some v) else none) v m.2)
      (foldSlots (fun i _ v => if layout.position (fun c => c.1 == field) = some i then FieldValue.null else v)
        (fun i col o v => useOr (if layout.position (fun c => c.1 == field) = some i then
          some (FieldValue.ofCell i col.2) else none) v o) 0 layout.fields slots .missing)
      = heldField layout slots extra field := by
  have hfold : foldSlots (fun i _ s => if layout.position (fun c => c.1 == field) = some i then FieldValue.null else s)
      (fun i col o s => useOr (if layout.position (fun c => c.1 == field) = some i then some (.ofCell i col.2) else none)
        s o) 0 layout.fields slots .missing
      = pick (fun _ => .null) (fun i col o _ => .ofCell i col.2 o) .missing
          (slotOf (fun c => c.1 == field) 0 layout.fields slots) := by
    rw [← foldOne_eq h.length_eq]
    simp only [useOr_ite, Nat.add_zero, Option.map_id']
    rfl
  rw [hfold, heldField, findSlot_eq_slotOf]
  simp only [useOr_ite]
  cases hslot : slotOf (fun c => c.1 == field) 0 layout.fields slots with
  | none =>
      have hnone : layout.position (fun c => c.1 == field) = none := (findIdx?_isNone_iff h.length_eq).2 hslot
      simp only [hnone, true_and, pick]
      rw [foldl_extra (f := fun v => FieldValue.ofExtra (some v)) h.nodup]
      cases extra.lookup field <;> rfl
  | some f =>
      have hsome : layout.position (fun c => c.1 == field) ≠ none := by
        intro hnone
        rw [(findIdx?_isNone_iff h.length_eq).1 hnone] at hslot
        cases hslot
      obtain ⟨i, ⟨name, kind⟩, slot⟩ := f
      simp only [hsome, false_and, if_false, foldl_const]
      cases slot <;> rfl

/-- **The reader of one field returns what the row holds of it**, of every row that parses and of no other. -/
theorem readFieldInRaw_eq_ok : readFieldInRaw layout bytes field = .ok v
    ↔ ∃ slots extra, Parses layout bytes slots extra ∧ v = heldField layout slots extra field := by
  unfold readFieldInRaw
  rw [scanRow_eq_ok (fun widths i k col s b s' rest => readOrPass_eq_ok (passCell_skims widths k col.2))
    fun key s b s' rest => readOrPass_eq_ok (jsonSkip_skims 64)]
  exact exists_congr fun slots => exists_congr fun extra => and_congr_right fun hparses => by rw [fold_held hparses]

lemma readFieldIn_eq_ok : readFieldIn layout bytes field = .ok v
    ↔ ∃ slots extra, Parses layout bytes slots extra
      ∧ v = absentOr layout field (heldField layout slots extra field) := by
  simp only [readFieldIn, bind_eq_ok, readFieldInRaw_eq_ok, pure_eq_ok]
  constructor
  · rintro ⟨_, ⟨slots, extra, hparses, rfl⟩, rfl⟩
    exact ⟨slots, extra, hparses, rfl⟩
  · rintro ⟨slots, extra, hparses, rfl⟩
    exact ⟨_, ⟨slots, extra, hparses, rfl⟩, rfl⟩

lemma readField_eq_ok : readField layout bytes field = .ok v ↔ layout.Valid ∧ ∃ slots extra,
    Parses layout bytes slots extra ∧ v = absentOr layout field (heldField layout slots extra field) := by
  simp only [readField, bind_eq_ok, validate_eq_ok, readFieldIn_eq_ok, exists_const]

/-- A default that stands for a field that is missing. -/
lemma agrees_absentOr {get : ℕ → Except String Bytes} {o : Option Value} (h : v.Agrees (vectorIn get) o) :
    (absentOr layout field v).Agrees (vectorIn get) (o.or (layout.absentDefault field)) := by
  cases v with
  | missing =>
      rw [show o = none from h, Option.none_or]
      unfold absentOr
      cases layout.absentDefault field <;> rfl
  | null =>
      rw [show o = some .null from h]
      rfl
  | inline x =>
      rw [show o = some x from h]
      rfl
  | vector i dim =>
      -- a cell that is fetched gives a vector
      have hsome : ∃ x, o = some x := by
        have h : vectorIn get i dim = .ok o := h
        simp only [vectorIn, bind_eq_ok, pure_eq_ok] at h
        obtain ⟨_, -, x, -, rfl⟩ := h
        exact ⟨x, rfl⟩
      obtain ⟨x, rfl⟩ := hsome
      exact h

lemma decodeDirect_eq_ok {get : ℕ → Except String Bytes} {doc : Value} :
    decodeDirect layout bytes get = .ok doc
      ↔ ∃ obj, decodeWithVectorValuesRaw layout bytes (vectorIn get) = .ok (.object obj)
      ∧ doc = .object (fillMembers (layout.absent.getD []) (fillMembers (layout.absent.getD []) obj)) := by
  constructor
  · intro h
    simp only [decodeDirect, decodeDirectRaw, decodeWithVectorValues, bind_eq_ok, pure_eq_ok] at h
    obtain ⟨_, ⟨raw, hraw, rfl⟩, rfl⟩ := h
    obtain ⟨-, _, _, -, obj, rfl, -⟩ := decodeRaw_eq_ok.1 hraw
    exact ⟨obj, hraw, rfl⟩
  · rintro ⟨obj, hraw, rfl⟩
    exact decodeDirect_of_raw hraw

/-- **A field that is read alone is the field of the whole document**, with the defaults filled in.  The reader
steps over the other columns without building them, and `passCell_skims` says that it ends where they do. -/
theorem readField_decodeDirect {get : ℕ → Except String Bytes} {doc : Value}
    (h : decodeDirect layout bytes get = .ok doc) (field : String) : ∃ obj v, doc = .object obj
      ∧ readField layout bytes field = .ok v ∧ v.Agrees (vectorIn get) (obj.lookup field) := by
  obtain ⟨obj, hraw, rfl⟩ := decodeDirect_eq_ok.1 h
  obtain ⟨hvalid, slots, extra, hparses, _, hobj, hfetch⟩ := decodeRaw_eq_ok.1 hraw
  cases hobj
  refine ⟨_, _, rfl, readField_eq_ok.2 ⟨hvalid, slots, extra, hparses, rfl⟩, ?_⟩
  rw [lookup_fillMembers, lookup_fillMembers, Option.or_assoc, Option.or_self, lookup_absent]
  exact agrees_absentOr ((fetched_agrees hvalid.nodup hparses hfetch).2 field)

/-- The document of the row of six columns, with the extra before the vector that is fetched last. -/
def sixDocument : Value :=
  .object [("title", .string "hi"), ("score", .number (.float 0x3FE0000000000000)), ("seen", .null),
    ("count", .number (.int 300)), ("note", .bool true), ("place", sixPlace), ("lang", .string "en")]

lemma decodeDirect_sixDocument : decodeDirect sixColumns sixRow sixCells = .ok sixDocument := by
  with_unfolding_all rfl

/-- The vector is found by its place, past a text, a real and an integer. -/
theorem readField_decodeDirect_sixColumns : ∃ v, readField sixColumns sixRow "place" = .ok v
    ∧ v.Agrees (vectorIn sixCells) (some sixPlace) := by
  obtain ⟨obj, v, hdoc, hread, hagrees⟩ := readField_decodeDirect decodeDirect_sixDocument "place"
  cases hdoc
  exact ⟨v, hread, hagrees⟩

/-- **The reader of one field refuses what the decoder refuses**, and nothing else: it goes on to the end of
the row when it has its field. -/
theorem readField_accepts (layout : Layout) (bytes : Bytes) (field : String) :
    (∃ v, readField layout bytes field = .ok v)
      ↔ ∃ doc, decodeWithVectorValuesRaw layout bytes (fun _ _ => .ok none) = .ok doc := by
  constructor
  · rintro ⟨v, hv⟩
    obtain ⟨hvalid, slots, extra, hparses, -⟩ := readField_eq_ok.1 hv
    obtain ⟨obj, hobj⟩ : ∃ obj, fetchVectors (fun _ _ => .ok none) (vectorsOf layout slots)
        (inlineObject layout slots extra) = .ok obj := fetchVectors_ok fun _ _ => ⟨none, rfl⟩
    exact ⟨_, decodeRaw_eq_ok.2 ⟨hvalid, slots, extra, hparses, obj, rfl, hobj⟩⟩
  · rintro ⟨doc, hdoc⟩
    obtain ⟨hvalid, slots, extra, hparses, -⟩ := decodeRaw_eq_ok.1 hdoc
    exact ⟨_, readField_eq_ok.2 ⟨hvalid, slots, extra, hparses, rfl⟩⟩

end

/-! ## Several fields -/

section

variable {layout : Layout} {bytes : Bytes} {i j n slot : ℕ} {cols : List (String × Kind)} {slots : List Slot}
  {extra : List (String × Value)} {field : String} {fields : List String} {plan : FieldPlan} {out : List FieldValue}

/-- Two folds over a row keep in step when their steps do. -/
lemma foldSlots_rel {R : σ → τ → Prop} {f : ℕ → String × Kind → σ → σ} {g : ℕ → String × Kind → τ → τ}
    {p : ℕ → String × Kind → Option Value → σ → σ} {q : ℕ → String × Kind → Option Value → τ → τ}
    (hnull : ∀ i col s t, R s t → R (f i col s) (g i col t))
    (hcell : ∀ i col v s t, R s t → R (p i col v s) (q i col v t)) {s : σ} {t : τ} (h : R s t) :
    R (foldSlots f p i cols slots s) (foldSlots g q i cols slots t) := by
  induction cols generalizing i slots s t with
  | nil => simpa [foldSlots] using h
  | cons col cols ih =>
      cases slots with
      | nil => simpa [foldSlots] using h
      | cons slot slots =>
          cases slot with
          | missing => exact ih h
          | null => exact ih (hnull i col s t h)
          | cell v => exact ih (hcell i col v s t h)

/-- **A plan feeds every slot from the ordinal of its field.** -/
structure FieldPlan.Feeds (plan : FieldPlan) (layout : Layout) (fields : List String) : Prop where
  width : plan.wanted.length = layout.fields.length
  slot : ∀ i s, plan.slotOf i = some s
    ↔ ∃ field, fields[s]? = some field ∧ layout.position (fun c => c.1 == field) = some i
  undeclared : ∀ field ∈ fields, layout.position (fun c => c.1 == field) = none → plan.undeclared = true

lemma position_lt {p : String × Kind → Bool} (h : layout.position p = some i) : i < layout.fields.length := by
  obtain ⟨hlt, -⟩ := List.findIdx?_eq_some_iff_getElem.1 h
  exact hlt

lemma position_inj {field' : String} (h : layout.position (fun c => c.1 == field) = some i)
    (h' : layout.position (fun c => c.1 == field') = some i) : field = field' := by
  obtain ⟨hlt, heq, -⟩ := List.findIdx?_eq_some_iff_getElem.1 h
  obtain ⟨hlt', heq', -⟩ := List.findIdx?_eq_some_iff_getElem.1 h'
  rw [beq_iff_eq] at heq heq'
  exact heq.symm.trans heq'

lemma slotOf_want (hw : plan.wanted.length = layout.fields.length) (m : ℕ) (field : String) :
    (plan.want layout m field).wanted.length = layout.fields.length
      ∧ (∀ i, (plan.want layout m field).slotOf i
          = if layout.position (fun c => c.1 == field) = some i then some m else plan.slotOf i)
      ∧ ((plan.want layout m field).undeclared
          = (plan.undeclared || decide (layout.position (fun c => c.1 == field) = none))) := by
  unfold FieldPlan.want FieldPlan.slotOf
  cases hpos : layout.position (fun c => c.1 == field) with
  | none => simp [hw]
  | some ordinal =>
      have hlt := position_lt hpos
      refine ⟨by simp [hw], fun i => ?_, by simp⟩
      simp only [List.getElem?_set, Option.some.injEq]
      split_ifs with hi hlen
      · rfl
      · omega
      · rfl

/-- The plan of the fields so far. -/
lemma feeds_wantAll (hn : fields.Nodup) {done : List String} (hnew : ∀ f ∈ fields, f ∉ done)
    (h : plan.Feeds layout done) :
    (FieldPlan.wantAll layout done.length fields plan).Feeds layout (done ++ fields) := by
  induction fields generalizing done plan with
  | nil => simpa [FieldPlan.wantAll] using h
  | cons field fields ih =>
      obtain ⟨hwidth, hslot, hund⟩ := slotOf_want h.width done.length field
      rw [List.nodup_cons] at hn
      rw [List.forall_mem_cons] at hnew
      have hnext : (plan.want layout done.length field).Feeds layout (done ++ [field]) := by
        refine ⟨hwidth, fun i s => ?_, fun f hf hnone => ?_⟩
        · rw [hslot]
          split_ifs with hpos
          · rw [Option.some.injEq]
            constructor
            · rintro rfl
              exact ⟨field, by simp, hpos⟩
            · rintro ⟨f, hf, hi⟩
              obtain rfl := position_inj hpos hi
              rw [List.getElem?_append] at hf
              split_ifs at hf with hs
              · exact absurd (List.mem_of_getElem? hf) hnew.1
              · have hs' : s - done.length < [field].length := (List.getElem?_eq_some_iff.1 hf).1
                rw [List.length_singleton] at hs'
                omega
          · rw [h.slot]
            refine exists_congr fun f => ?_
            rw [List.getElem?_append]
            split_ifs with hs
            · rfl
            · constructor
              · rintro ⟨hf, -⟩
                exact absurd (List.getElem?_eq_some_iff.1 hf).1 hs
              · rintro ⟨hf, hi⟩
                obtain rfl : f = field := by
                  have hs' := (List.getElem?_eq_some_iff.1 hf).1
                  rw [List.length_singleton] at hs'
                  rw [show s - done.length = 0 by omega] at hf
                  exact (Option.some.inj hf).symm
                exact absurd hi hpos
        · rw [hund, Bool.or_eq_true, decide_eq_true_eq]
          obtain hf | hf := List.mem_append.1 hf
          · exact Or.inl (h.undeclared f hf hnone)
          · rw [List.mem_singleton.1 hf] at hnone
            exact Or.inr hnone
      have hlater : ∀ f ∈ fields, f ∉ done ++ [field] := by
        intro f hf hmem
        obtain hmem | hmem := List.mem_append.1 hmem
        · exact hnew.2 f hf hmem
        · exact hn.1 (List.mem_singleton.1 hmem ▸ hf)
      have hrest := ih hn.2 hlater hnext
      rw [List.length_append, List.length_singleton, List.append_assoc] at hrest
      exact hrest

lemma feeds_new (hn : fields.Nodup) (h : FieldPlan.new layout fields = .ok plan) :
    layout.Valid ∧ plan.Feeds layout fields := by
  simp only [FieldPlan.new, bind_eq_ok, validate_eq_ok, pure_eq_ok, exists_const] at h
  obtain ⟨hvalid, rfl⟩ := h
  have hempty : (⟨List.replicate layout.fields.length none, false⟩ : FieldPlan).Feeds layout [] := by
    refine ⟨by simp, fun i s => ?_, by simp⟩
    simp only [FieldPlan.slotOf, List.getElem?_replicate, List.getElem?_nil, reduceCtorEq, false_and, exists_false,
      iff_false]
    split_ifs <;> simp
  exact ⟨hvalid, feeds_wantAll hn (by simp) hempty⟩

/-- The slot of a key of the extras is that of the field. -/
lemma extraSlot_eq (hn : fields.Nodup) (hp : plan.Feeds layout fields) {key : String}
    (hkey : layout.position (fun c => c.1 == key) = none) (hf : fields[slot]? = some field) :
    plan.extraSlot fields key = some slot ↔ key = field := by
  unfold FieldPlan.extraSlot
  constructor
  · intro h
    split_ifs at h
    obtain ⟨hlt, heq, -⟩ := List.findIdx?_eq_some_iff_getElem.1 h
    rw [List.getElem?_eq_getElem hlt, Option.some.injEq] at hf
    rw [hf, beq_iff_eq] at heq
    exact heq.symm
  · rintro rfl
    rw [if_pos (hp.undeclared _ (List.mem_of_getElem? hf) hkey)]
    obtain ⟨hlt, hget⟩ := List.getElem?_eq_some_iff.1 hf
    refine List.findIdx?_eq_some_iff_getElem.2 ⟨hlt, by simp [hget], fun j hj => ?_⟩
    have hne : fields[j] ≠ fields[slot] := fun he =>
      absurd (hn.getElem_inj_iff.1 he) (by omega)
    simpa [hget] using hne

lemma useOr_slot {c : Option ℕ} {f : α → FieldValue} {x : α} :
    useOr (c.map fun slot v => out.set slot (f v)) out x = fill c (f x) out := by
  cases c <;> rfl

/-- A slot that is filled, or another one. -/
lemma getElem?_fill {c : Option ℕ} {P : Prop} [Decidable P] {v w : FieldValue} (hc : c = some slot ↔ P)
    (hv : out[slot]? = some v) : (fill c w out)[slot]? = some (if P then w else v) := by
  have hlt := (List.getElem?_eq_some_iff.1 hv).1
  cases c with
  | none =>
      rw [if_neg fun hP => by cases hc.2 hP]
      exact hv
  | some s =>
      rw [Option.some.injEq] at hc
      rw [fill, List.getElem?_set]
      by_cases hs : s = slot
      · rw [if_pos hs, if_pos (hs ▸ hlt), if_pos (hc.1 hs)]
      · rw [if_neg hs, if_neg (hs ∘ hc.2)]
        exact hv

lemma length_fill {c : Option ℕ} {w : FieldValue} : (fill c w out).length = out.length := by
  cases c <;> simp [fill]

/-- What the reader of several fields has after the columns and the extras. -/
lemma fold_fields (hn : fields.Nodup) (hp : plan.Feeds layout fields) (h : Parses layout bytes slots extra) :
    extra.foldl (fun out m => useOr
        ((plan.extraSlot fields m.1).map fun slot v => out.set slot (.ofExtra (some v))) out m.2)
      (foldSlots (fun i _ out => fill (plan.slotOf i) .null out)
        (fun i col o out => useOr ((plan.slotOf i).map fun slot v => out.set slot (.ofCell i col.2 v)) out o)
        0 layout.fields slots (List.replicate fields.length .missing))
      = fields.map (heldField layout slots extra) := by
  have hund : ∀ m ∈ extra, layout.position (fun c => c.1 == m.1) = none := by
    obtain ⟨_, _, _, -, -, -, hund⟩ := h
    intro m hm
    refine List.findIdx?_eq_none_iff.2 fun c hc => ?_
    exact beq_false_of_ne fun he => hund m hm (he ▸ List.mem_map_of_mem hc)
  simp only [useOr_slot]
  refine List.ext_getElem? fun slot => ?_
  rw [List.getElem?_map]
  cases hf : fields[slot]? with
  | none =>
      rw [Option.map_none, List.getElem?_eq_none_iff]
      have hlen : fields.length ≤ slot := List.getElem?_eq_none_iff.1 hf
      refine le_of_eq_of_le ?_ hlen
      refine List.foldlRecOn extra _ (motive := fun out : List FieldValue => out.length = fields.length) ?_ ?_
      · refine foldSlots_rel (R := fun (out : List FieldValue) (_ : Unit) => out.length = fields.length)
          (g := fun _ _ t => t) (q := fun _ _ _ t => t) ?_ ?_ (t := ()) (by simp)
        · exact fun _ _ _ _ hR => length_fill.trans hR
        · exact fun _ _ _ _ _ hR => length_fill.trans hR
      · exact fun out hlen m _ => length_fill.trans hlen
  | some field =>
      rw [Option.map_some, ← fold_held h]
      simp only [useOr_ite]
      -- the slot goes through what its field goes through when it is read alone
      have hslot : ∀ i, plan.slotOf i = some slot ↔ layout.position (fun c => c.1 == field) = some i := fun i => by
        rw [hp.slot]
        simp [hf]
      refine List.foldl_rel (r := fun out v => out[slot]? = some v) ?_ fun m hm out v hR => ?_
      · refine foldSlots_rel (R := fun out v => out[slot]? = some v) ?_ ?_ ?_
        · exact fun i _ _ _ hR => getElem?_fill (hslot i) hR
        · exact fun i _ _ _ _ hR => getElem?_fill (hslot i) hR
        · have hlt := (List.getElem?_eq_some_iff.1 hf).1
          simp [hlt]
      · refine getElem?_fill ?_ hR
        rw [extraSlot_eq hn hp (hund m hm) hf]
        constructor
        · rintro rfl
          exact ⟨hund m hm, rfl⟩
        · exact And.right

/-- **The reader of several fields returns what the row holds of each.** -/
theorem readFieldsRaw_eq_ok (hn : fields.Nodup) (hp : plan.Feeds layout fields) :
    readFieldsRaw layout bytes fields plan = .ok out
      ↔ ∃ slots extra, Parses layout bytes slots extra ∧ out = fields.map (heldField layout slots extra) := by
  have hwidth : refuse (plan.wanted.length ≠ layout.fields.length) "projection plan does not match this layout"
      = .ok () := refuse_eq_ok.2 (not_not.2 hp.width)
  simp only [readFieldsRaw, hwidth, bind, Except.bind]
  rw [scanRow_eq_ok (fun widths i k col s b s' rest => readOrPass_eq_ok (passCell_skims widths k col.2))
    fun key s b s' rest => readOrPass_eq_ok (jsonSkip_skims 64)]
  exact exists_congr fun slots => exists_congr fun extra => and_congr_right fun h => by rw [fold_fields hn hp h]

lemma absentOr_of_none (h : layout.absent = none) (v : FieldValue) : absentOr layout field v = v := by
  unfold absentOr Layout.absentDefault
  rw [h]
  cases v <;> rfl

/-- **A projection reads every field as the reader of one field does**, of the same rows.  It makes one pass, and
its plan says for every column which of the fields asked for wants it. -/
theorem readFields_eq_readField (h : FieldPlan.new layout fields = .ok plan) (hn : fields.Nodup) :
    readFields layout bytes fields plan = .ok out
      ↔ (∃ doc, decodeWithVectorValuesRaw layout bytes (fun _ _ => .ok none) = .ok doc)
        ∧ List.Forall₂ (fun field v => readField layout bytes field = .ok v) fields out := by
  obtain ⟨hvalid, hp⟩ := feeds_new hn h
  have hfill : ∀ slots extra, (if layout.absent.isSome then
      List.zipWith (absentOr layout) fields (fields.map (heldField layout slots extra))
      else fields.map (heldField layout slots extra))
        = fields.map fun field => absentOr layout field (heldField layout slots extra field) := by
    intro slots extra
    split_ifs with hs
    · rw [List.zipWith_map_right, List.zipWith_self]
    · exact List.map_congr_left fun f _ => (absentOr_of_none (Option.not_isSome_iff_eq_none.1 hs) _).symm
  have hraw : readFields layout bytes fields plan = .ok out ↔ ∃ slots extra, Parses layout bytes slots extra
      ∧ out = fields.map fun field => absentOr layout field (heldField layout slots extra field) := by
    simp only [readFields, bind_eq_ok, readFieldsRaw_eq_ok hn hp, pure_eq_ok]
    constructor
    · rintro ⟨_, ⟨slots, extra, hparses, rfl⟩, rfl⟩
      exact ⟨slots, extra, hparses, hfill slots extra⟩
    · rintro ⟨slots, extra, hparses, rfl⟩
      exact ⟨_, ⟨slots, extra, hparses, rfl⟩, hfill slots extra⟩
  rw [hraw]
  constructor
  · rintro ⟨slots, extra, hparses, rfl⟩
    refine ⟨(readField_accepts layout bytes "").1 ⟨_, readField_eq_ok.2 ⟨hvalid, slots, extra, hparses, rfl⟩⟩, ?_⟩
    rw [List.forall₂_map_right_iff, List.forall₂_same]
    exact fun field _ => readField_eq_ok.2 ⟨hvalid, slots, extra, hparses, rfl⟩
  · rintro ⟨hdoc, hall⟩
    obtain ⟨doc, hdoc⟩ := hdoc
    obtain ⟨-, slots, extra, hparses, -⟩ := decodeRaw_eq_ok.1 hdoc
    refine ⟨slots, extra, hparses, ?_⟩
    have hsame : List.Forall₂ (fun field v => readField layout bytes field = .ok v) fields
        (fields.map fun field => absentOr layout field (heldField layout slots extra field)) := by
      rw [List.forall₂_map_right_iff, List.forall₂_same]
      exact fun field _ => readField_eq_ok.2 ⟨hvalid, slots, extra, hparses, rfl⟩
    refine List.right_unique_forall₂' (fun f v v' hv hv' => ?_) hall hsame
    exact Except.ok.inj (hv.symm.trans hv')

/-- A plan for a vector, an extra, a column with a default and a null, in another order than the row's. -/
def fourPlan : FieldPlan := ⟨[none, none, some 3, none, some 0, some 2], true⟩

theorem readFields_eq_readField_sixColumns :
    readFields sixColumns sixRow ["place", "note", "lang", "seen"] fourPlan
      = .ok [.vector 4 2, .inline (.bool true), .inline (.string "en"), .null]
    ∧ (∃ doc, decodeWithVectorValuesRaw sixColumns sixRow (fun _ _ => .ok none) = .ok doc)
    ∧ List.Forall₂ (fun field v => readField sixColumns sixRow field = .ok v)
      ["place", "note", "lang", "seen"]
      [.vector 4 2, .inline (.bool true), .inline (.string "en"), .null] := by
  have hread : readFields sixColumns sixRow ["place", "note", "lang", "seen"] fourPlan
    = .ok [.vector 4 2, .inline (.bool true), .inline (.string "en"), .null] := rfl
  exact ⟨hread, (readFields_eq_readField rfl (by decide)).1 hread⟩

end

/-! ## Stepping over -/

section

variable {layout : Layout} {states : Option Bytes} {widths b b' rest bytes : Bytes} {i j k d : ℕ}
  {cols : List (String × Kind)} {slots : List Slot} {extra : List (String × Value)} {field name : String}
  {v : FieldValue} {kind : Kind} {o : Option Value} {p : String × Kind → Bool} {col : String × Kind} {slot : Slot}

/-- The column that is picked is the first that `p` accepts. -/
lemma slotOf_eq_some (h : slotOf p i cols slots = some (j, col, slot)) :
    ∃ d, j = i + d ∧ cols.findIdx? p = some d ∧ cols[d]? = some col ∧ slots[d]? = some slot := by
  induction cols generalizing i slots with
  | nil => cases h
  | cons c cols ih =>
      cases slots with
      | nil => cases h
      | cons s slots =>
          rw [slotOf] at h
          rw [List.findIdx?_cons]
          split_ifs at h with hp
          · cases h
            exact ⟨0, rfl, by rw [if_pos hp], rfl, rfl⟩
          · obtain ⟨d, rfl, hfind, hcol, hslot⟩ := ih h
            exact ⟨d + 1, by omega, by rw [if_neg hp, hfind]; rfl, hcol, hslot⟩

lemma slotOf_of_position (hlen : slots.length = layout.fields.length) (h : layout.position p = some d) :
    ∃ col slot, slotOf p 0 layout.fields slots = some (d, col, slot) ∧ layout.fields[d]? = some col
      ∧ slots[d]? = some slot ∧ p col = true := by
  cases hslot : slotOf p 0 layout.fields slots with
  | none =>
      have hnone : layout.position p = none := (findIdx?_isNone_iff hlen).2 hslot
      rw [hnone] at h
      cases h
  | some f =>
      obtain ⟨j, col, slot⟩ := f
      obtain ⟨d', rfl, hfind, hcol, hslot'⟩ := slotOf_eq_some hslot
      have h : layout.fields.findIdx? p = some d := h
      rw [hfind] at h
      cases h
      rw [Nat.zero_add]
      obtain ⟨hlt, hp, -⟩ := List.findIdx?_eq_some_iff_getElem.1 hfind
      rw [List.getElem?_eq_getElem hlt, Option.some.injEq] at hcol
      exact ⟨col, slot, rfl, by rw [List.getElem?_eq_getElem hlt, hcol], hslot', hcol ▸ hp⟩

lemma readFloat_take {x : ℕ} (h : Read.float b = .ok (x, b')) : ∃ a, Read.take 8 b = .ok (a, b') := by
  simp only [Read.float, bind_eq_ok, Prod.exists, pure_eq_ok, Prod.mk.injEq] at h
  obtain ⟨a, _, ha, _, -, -, rfl⟩ := h
  exact ⟨a, ha⟩

lemma take_add {n m : ℕ} {a a' : Bytes} (h : Read.take n b = .ok (a, b')) (h' : Read.take m b' = .ok (a', rest)) :
    Read.take (n + m) b = .ok (b.take (n + m), rest) := by
  unfold Read.take at h h' ⊢
  split_ifs at h h' with hn hm
  cases h
  cases h'
  rw [List.length_drop] at hm
  rw [if_pos (by omega), List.drop_drop]

/-- **A value is stepped over when it can be read.** -/
lemma stepCell_of_readCell (h : readCell widths k kind b = .ok (o, b')) :
    stepCell widths k kind b = .ok ((), b') := by
  cases kind with
  | text =>
      simp only [readCell, Read.text, bind_eq_ok, Prod.exists, pure_eq_ok, Prod.mk.injEq] at h
      obtain ⟨_, _, ⟨x, _, hx, _, -, -, rfl⟩, -, rfl⟩ := h
      simp [stepCell, hx, bind, Except.bind, pure, Except.pure]
  | int =>
      simp only [readCell, readInt, bind_eq_ok, Prod.exists, pure_eq_ok, Prod.mk.injEq] at h
      obtain ⟨_, _, ⟨x, _, hx, -, rfl⟩, -, rfl⟩ := h
      simp [stepCell, hx, bind, Except.bind, pure, Except.pure]
  | real =>
      simp only [readCell, bind_eq_ok, Prod.exists, pure_eq_ok, Prod.mk.injEq] at h
      obtain ⟨x, _, hx, -, rfl⟩ := h
      obtain ⟨a, ha⟩ := readFloat_take hx
      simp [stepCell, ha, bind, Except.bind, pure, Except.pure]
  | bool =>
      simp only [readCell, readBool, bind_eq_ok, Prod.exists] at h
      obtain ⟨_, _, ⟨x, b₁, hx, h⟩, h'⟩ := h
      cases b with
      | nil => cases hx
      | cons y b =>
          cases hx
          split_ifs at h
          all_goals
            cases h
            cases h'
            simp [stepCell, Read.take, bind, Except.bind, pure, Except.pure]
  | json =>
      simp only [readCell, bind_eq_ok, Prod.exists, pure_eq_ok, Prod.mk.injEq] at h
      obtain ⟨x, _, hx, -, rfl⟩ := h
      exact (jsonSkip_skims 65 b () _).2 ⟨x, hx⟩
  | geo =>
      simp only [readCell, readGeometry, bind_eq_ok, Prod.exists, pure_eq_ok, Prod.mk.injEq] at h
      obtain ⟨_, _, ⟨x, _, hx, _, -, -, rfl⟩, -, rfl⟩ := h
      simp [stepCell, hx, bind, Except.bind, pure, Except.pure]
  | point =>
      simp only [readCell, readPoint, bind_eq_ok, Prod.exists, pure_eq_ok, Prod.mk.injEq] at h
      obtain ⟨_, _, ⟨x, _, hx, y, _, hy, -, rfl⟩, -, rfl⟩ := h
      obtain ⟨a, ha⟩ := readFloat_take hx
      obtain ⟨a', ha'⟩ := readFloat_take hy
      simp [stepCell, take_add ha ha', bind, Except.bind, pure, Except.pure]
  | vector dim =>
      cases h
      rfl

/-- A read stands at what the row holds of the column. -/
inductive Stepped.At (kind : Kind) : Stepped → Slot → Prop
  | missing : At kind .missing .missing
  | null : At kind .null .null
  | value {b widths rest : Bytes} {k : ℕ} {o : Option Value} (h : readCell widths k kind b = .ok (o, rest)) :
      At kind (.value b widths k) (.cell o)

/-- **Where a trusted read stands** in columns that parse. -/
lemma stepColumns_of_columns (h : Columns states widths i k cols b slots rest) (hcol : cols[d]? = some col)
    (hslot : slots[d]? = some slot) :
    ∃ st, stepColumns states widths (i + d) i k cols b = .ok st ∧ st.At col.2 slot := by
  induction h generalizing d with
  | nil => simp at hcol
  | @missing i k cols b slots rest c hs hrest ih =>
      cases d with
      | zero =>
          cases hslot
          exact ⟨_, by simp [stepColumns, hs], .missing⟩
      | succ d =>
          obtain ⟨st, hst, hat⟩ := ih hcol hslot
          refine ⟨st, ?_, hat⟩
          rw [Nat.add_right_comm i 1 d] at hst
          simpa [stepColumns, hs, Nat.add_assoc] using hst
  | @null i k cols b slots rest c hs hrest ih =>
      cases d with
      | zero =>
          cases hslot
          exact ⟨_, by simp [stepColumns, hs], .null⟩
      | succ d =>
          obtain ⟨st, hst, hat⟩ := ih hcol hslot
          refine ⟨st, ?_, hat⟩
          rw [Nat.add_right_comm i 1 d] at hst
          simpa [stepColumns, hs, Nat.add_assoc] using hst
  | @cell i k cols b o b' slots rest c hs hread hrest ih =>
      cases d with
      | zero =>
          cases hslot
          cases hcol
          exact ⟨_, by simp [stepColumns, hs], .value hread⟩
      | succ d =>
          obtain ⟨st, hst, hat⟩ := ih hcol hslot
          refine ⟨st, ?_, hat⟩
          rw [Nat.add_right_comm i 1 d] at hst
          simpa [stepColumns, hs, Nat.add_assoc, stepCell_of_readCell hread, bind, Except.bind] using hst

lemma stepTrusted_of_parses (h : Parses layout bytes slots extra) (hcol : layout.fields[d]? = some col)
    (hslot : slots[d]? = some slot) : ∃ st, stepTrusted layout bytes d = .ok st ∧ st.At col.2 slot := by
  obtain ⟨o, b, _, hopen, hcols, -, -⟩ := h
  obtain ⟨st, hst, hat⟩ := stepColumns_of_columns hcols hcol hslot
  rw [Nat.zero_add] at hst
  exact ⟨st, by simp [stepTrusted, hopen, hst, bind, Except.bind], hat⟩

lemma absentOr_absentOr (v : FieldValue) :
    absentOr layout field (absentOr layout field v) = absentOr layout field v := by
  unfold absentOr
  cases v <;> cases h : layout.absentDefault field <;> simp

/-- **The trusted reader returns what the full reader does**, of every row that the full reader accepts.  It
ends at its field, so of other rows it may return a value where the full reader refuses. -/
theorem readFieldInTrusted_of_readFieldIn (h : readFieldIn layout bytes field = .ok v) :
    readFieldInTrusted layout bytes field = .ok v := by
  unfold readFieldInTrusted readFieldInTrustedRaw
  cases hpos : layout.position fun c => c.1 == field with
  | none =>
      obtain ⟨_, _, -, rfl⟩ := readFieldIn_eq_ok.1 h
      simp only [h, bind, Except.bind, pure, Except.pure, absentOr_absentOr]
  | some d =>
      obtain ⟨slots, extra, hparses, rfl⟩ := readFieldIn_eq_ok.1 h
      obtain ⟨⟨name, kind⟩, slot, hslotOf, hcol, hslot, -⟩ := slotOf_of_position hparses.length_eq hpos
      obtain ⟨st, hst, hat⟩ := stepTrusted_of_parses hparses hcol hslot
      have hheld : heldField layout slots extra field = slot.fieldValue d kind := by
        rw [heldField, findSlot_eq_slotOf, hslotOf]
        rfl
      rw [hheld]
      cases hat with
      | missing => simp [hst, bind, Except.bind, pure, Except.pure, Slot.fieldValue]
      | null => simp [hst, bind, Except.bind, pure, Except.pure, Slot.fieldValue]
      | value hread => simp [hst, hcol, hread, bind, Except.bind, pure, Except.pure, Slot.fieldValue]

/-- An integer behind a text, a real and a null, before a vector, a missing column and the extras. -/
theorem readFieldInTrusted_sixColumns :
    readFieldInTrusted sixColumns sixRow "count" = .ok (.inline (.number (.int 300))) :=
  readFieldInTrusted_of_readFieldIn rfl

end

/-! ## Texts -/

/-- What a text reader makes of a field that is declared as a text. -/
def TextFieldRef.of : FieldValue → TextFieldRef
  | .missing => missing
  | .null => null
  | .inline v => ofValue (some v)
  | .vector _ _ => elsewhere

/-- **A text reader's answer fits the field**; `elsewhere` says nothing of it. -/
inductive TextFieldRef.Fits : TextFieldRef → FieldValue → Prop
  | text (s : String) : Fits (.text s) (.inline (.string s))
  | null : Fits .null .null
  | missing : Fits .missing .missing
  | elsewhere (v : FieldValue) : Fits .elsewhere v

/-- The ordinal of a vector. -/
def FieldValue.ordinal : FieldValue → Option ℕ
  | vector i _ => some i
  | _ => none

section

variable {layout : Layout} {widths b rest bytes : Bytes} {i d k dim : ℕ} {cols : List (String × Kind)}
  {slots : List Slot} {extra : List (String × Value)} {field : String} {v : FieldValue} {t : TextFieldRef}
  {o : Option Value} {p q : String × Kind → Bool} {r : Option ℕ}

lemma slotOf_congr (h : ∀ c ∈ cols, p c = q c) : slotOf p i cols slots = slotOf q i cols slots := by
  induction cols generalizing i slots with
  | nil => rfl
  | cons c cols ih =>
      rw [List.forall_mem_cons] at h
      cases slots with
      | nil => rfl
      | cons s slots => rw [slotOf, slotOf, h.1, ih h.2]

/-- A column has one kind. -/
lemma isTextColumn_eq (hn : layout.names.Nodup) (hcol : (field, Kind.text) ∈ layout.fields) :
    ∀ c ∈ layout.fields, isTextColumn field c = (c.1 == field) := by
  rintro ⟨name, kind⟩ hc
  unfold isTextColumn
  by_cases h : name = field
  · subst h
    have hkind : kind = .text := by
      rw [Layout.names] at hn
      exact (Prod.ext_iff.1 (List.inj_on_of_nodup_map hn hc hcol rfl)).2
    simp [hkind]
  · simp [h]

lemma isTextColumn_iff {c : String × Kind} : isTextColumn field c = true ↔ c = (field, .text) := by
  simp [isTextColumn, Prod.ext_iff]

lemma readCell_text (h : readCell widths k .text b = .ok (o, rest)) : ∃ s, o = some (.string s) := by
  simp only [readCell, bind_eq_ok, Prod.exists, pure_eq_ok, Prod.mk.injEq] at h
  obtain ⟨s, _, -, rfl, -⟩ := h
  exact ⟨s, rfl⟩

/-- What a row holds of a declared text, read as a text. -/
lemma held_text (hparses : Parses layout bytes slots extra) (hn : layout.names.Nodup)
    (hd : layout.position (isTextColumn field) = some d) : ∃ slot, slots[d]? = some slot
      ∧ layout.fields[d]? = some (field, .text) ∧ heldField layout slots extra field = slot.fieldValue d .text
      ∧ slotOf (isTextColumn field) 0 layout.fields slots = some (d, (field, .text), slot) := by
  obtain ⟨col, slot, hslotOf, hcol, hslot, hp⟩ := slotOf_of_position hparses.length_eq hd
  obtain rfl := isTextColumn_iff.1 hp
  refine ⟨slot, hslot, hcol, ?_, hslotOf⟩
  rw [heldField, findSlot_eq_slotOf, ← slotOf_congr (isTextColumn_eq hn (List.mem_of_getElem? hcol)), hslotOf]
  rfl

/-- The reader of a declared text accepts what parses. -/
lemma readTextFieldInRaw_eq_ok (hn : layout.names.Nodup) (hd : layout.position (isTextColumn field) = some d) :
    readTextFieldInRaw layout bytes field = .ok t
      ↔ ∃ slots extra, Parses layout bytes slots extra ∧ t = .of (heldField layout slots extra field) := by
  unfold readTextFieldInRaw
  rw [hd]
  dsimp only
  rw [scanRow_eq_ok (fun widths i k col s b s' rest => readOrPass_eq_ok (passCell_skims widths k col.2))
    fun key s b s' rest => readOrPass_eq_ok (jsonSkip_skims 64)]
  refine exists_congr fun slots => exists_congr fun extra => and_congr_right fun hparses => ?_
  obtain ⟨slot, -, -, hheld, hslotOf⟩ := held_text hparses hn hd
  have hfold : foldSlots (fun i _ v => if i = d then TextFieldRef.null else v)
      (fun i col o v => useOr (if i = d then some TextFieldRef.ofValue else none) v o) 0 layout.fields slots .missing
      = pick (fun _ => .null) (fun _ _ o _ => .ofValue o) .missing
          (slotOf (isTextColumn field) 0 layout.fields slots) := by
    rw [← foldOne_eq hparses.length_eq]
    have hd : layout.fields.findIdx? (isTextColumn field) = some d := hd
    simp only [useOr_ite, hd, Option.map_some, Nat.add_zero, foldOne, Option.some.injEq, eq_comm (b := d)]
  rw [hfold, hslotOf, hheld]
  have hconst : ∀ t : TextFieldRef, extra.foldl (fun s m => useOr none s m.2) t = t := fun t =>
    foldl_const (s := t) extra
  rw [hconst]
  cases slot with
  | cell o => cases o <;> rfl
  | _ => rfl

/-- What stands in a declared text is a text. -/
lemma fits_held (hparses : Parses layout bytes slots extra) (hn : layout.names.Nodup)
    (hd : layout.position (isTextColumn field) = some d) :
    (TextFieldRef.of (heldField layout slots extra field)).Fits (heldField layout slots extra field)
      ∧ TextFieldRef.of (heldField layout slots extra field) ≠ .elsewhere
      ∧ readTextFieldInTrustedRaw layout bytes field = .ok (.of (heldField layout slots extra field)) := by
  obtain ⟨slot, hslot, hcol, hheld, -⟩ := held_text hparses hn hd
  obtain ⟨st, hst, hat⟩ := stepTrusted_of_parses hparses hcol hslot
  rw [hheld]
  unfold readTextFieldInTrustedRaw
  rw [hd]
  cases hat with
  | missing => exact ⟨.missing, by rintro ⟨⟩, by simp [hst, bind, Except.bind, pure, Except.pure]; rfl⟩
  | null => exact ⟨.null, by rintro ⟨⟩, by simp [hst, bind, Except.bind, pure, Except.pure]; rfl⟩
  | @value b widths rest k o hread =>
      obtain ⟨s, rfl⟩ := readCell_text hread
      simp only [readCell, bind_eq_ok, Prod.exists, pure_eq_ok, Prod.mk.injEq, Option.some.injEq,
        Value.string.injEq] at hread
      obtain ⟨s, _, hread, rfl, rfl⟩ := hread
      exact ⟨.text s, by rintro ⟨⟩, by simp [hst, hread, bind, Except.bind, pure, Except.pure]; rfl⟩

/-- **A text reader answers as the reader of the field does**, or `elsewhere`: of fields that are not declared as
texts, and of a default.  The trusted reader answers the same. -/
theorem readTextFieldIn_of_readFieldIn (hvalid : layout.Valid) (h : readFieldIn layout bytes field = .ok v) :
    ∃ t, readTextFieldIn layout bytes field = .ok t ∧ readTextFieldInTrusted layout bytes field = .ok t ∧ t.Fits v
      ∧ (t = .elsewhere ↔ (field, Kind.text) ∉ layout.fields
        ∨ readFieldInRaw layout bytes field = .ok .missing ∧ (layout.absentDefault field).isSome) := by
  obtain ⟨slots, extra, hparses, rfl⟩ := readFieldIn_eq_ok.1 h
  cases hd : layout.position (isTextColumn field) with
  | none =>
      have hnot : (field, Kind.text) ∉ layout.fields := fun hcol => by
        have hp := List.findIdx?_eq_none_iff.1 hd _ hcol
        rw [isTextColumn_iff.2 rfl] at hp
        cases hp
      refine ⟨.elsewhere, ?_, ?_, .elsewhere _, by simp [hnot]⟩
      · simp [readTextFieldIn, readTextFieldInRaw, hd, textAbsentOr, bind, Except.bind, pure, Except.pure]
      · simp [readTextFieldInTrusted, readTextFieldInTrustedRaw, hd, textAbsentOr, bind, Except.bind, pure, Except.pure]
  | some d =>
      have hn : layout.names.Nodup := hvalid.nodup
      have hraw := (readTextFieldInRaw_eq_ok hn hd).2 ⟨slots, extra, hparses, rfl⟩
      have hheld : readFieldInRaw layout bytes field = .ok (heldField layout slots extra field) :=
        readFieldInRaw_eq_ok.2 ⟨slots, extra, hparses, rfl⟩
      obtain ⟨hfits, hne, htrusted⟩ := fits_held hparses hn hd
      have hcol : (field, Kind.text) ∈ layout.fields := by
        obtain ⟨_, -, hcol, -, -⟩ := held_text hparses hn hd
        exact List.mem_of_getElem? hcol
      generalize heldField layout slots extra field = v at hraw hheld hfits hne htrusted ⊢
      generalize TextFieldRef.of v = t at hraw hfits hne htrusted
      refine ⟨textAbsentOr layout field t, ?_, ?_, ?_, ?_⟩
      · simp only [readTextFieldIn, hraw, bind, Except.bind, pure, Except.pure]
      · simp only [readTextFieldInTrusted, htrusted, bind, Except.bind, pure, Except.pure]
      · cases hfits with
        | missing =>
            unfold textAbsentOr absentOr
            cases layout.absentDefault field with
            | none => exact .missing
            | some d => exact .elsewhere _
        | elsewhere => exact absurd rfl hne
        | text s => exact .text s
        | null => exact .null
      · simp only [hheld, Except.ok.injEq, hcol, not_true, false_or]
        cases hfits with
        | missing =>
            unfold textAbsentOr
            cases layout.absentDefault field <;> simp
        | elsewhere => exact absurd rfl hne
        | text s => simp [textAbsentOr]
        | null => simp [textAbsentOr]

/-- An integer, a text, and a text that was added later with a default. -/
def threeColumns : Layout where
  id := 7
  fields := [("count", .int), ("title", .text), ("lang", .text)]
  absent := some [("lang", .string "en")]

/-- The text behind the integer is borrowed, and the default is not. -/
theorem readTextFieldIn_threeColumns :
    (readTextFieldIn threeColumns [29, 10, 1, 1, 44, 2, 104, 105] "title" = .ok (.text "hi")
      ∧ readTextFieldInTrusted threeColumns [29, 10, 1, 1, 44, 2, 104, 105] "title" = .ok (.text "hi"))
    ∧ readTextFieldIn threeColumns [29, 10, 1, 1, 44, 2, 104, 105] "lang" = .ok .elsewhere
      ∧ readTextFieldInTrusted threeColumns [29, 10, 1, 1, 44, 2, 104, 105] "lang" = .ok .elsewhere := by
  have hvalid : threeColumns.Valid := validate_eq_ok.1 rfl
  have htitle : readFieldIn threeColumns [29, 10, 1, 1, 44, 2, 104, 105] "title"
    = .ok (.inline (.string "hi")) := rfl
  have hlang : readFieldIn threeColumns [29, 10, 1, 1, 44, 2, 104, 105] "lang"
    = .ok (.inline (.string "en")) := rfl
  obtain ⟨t, hread, htrusted, hfits, helse⟩ := readTextFieldIn_of_readFieldIn hvalid htitle
  obtain ⟨u, hread', htrusted', -, helse'⟩ := readTextFieldIn_of_readFieldIn hvalid hlang
  have ht : t = .text "hi" := by
    cases hfits with
    | text s => rfl
    | elsewhere v =>
        have hraw : readFieldInRaw threeColumns [29, 10, 1, 1, 44, 2, 104, 105] "title"
          = .ok (.inline (.string "hi")) := rfl
        rcases helse.1 rfl with hcol | ⟨hmissing, -⟩
        · exact absurd (by simp [threeColumns]) hcol
        · rw [hraw] at hmissing
          cases hmissing
  have hu : u = .elsewhere := helse'.2 (Or.inr ⟨rfl, rfl⟩)
  rw [ht] at hread htrusted
  rw [hu] at hread' htrusted'
  exact ⟨⟨hread, htrusted⟩, hread', htrusted'⟩

end

/-! ## Vectors -/

section

variable {layout : Layout} {bytes : Bytes} {d dim : ℕ} {slots : List Slot} {extra : List (String × Value)}
  {field : String} {r : Option ℕ}

/-- A target is found when the field is not declared, or is a vector of that dimension. -/
lemma vectorTarget_eq_ok (hn : layout.names.Nodup) : vectorTarget layout field dim = .ok r
    ↔ r = layout.position (fun c => c.1 == field) ∧ ∀ kind, (field, kind) ∈ layout.fields → kind = .vector dim := by
  unfold vectorTarget
  cases hpos : layout.position fun c => c.1 == field with
  | none =>
      have hnot : ∀ kind, (field, kind) ∉ layout.fields := by
        intro kind hmem
        have hp := List.findIdx?_eq_none_iff.1 hpos _ hmem
        simp at hp
      simp [hnot, eq_comm]
  | some d =>
      obtain ⟨hlt, hname, -⟩ := List.findIdx?_eq_some_iff_getElem.1 hpos
      rw [beq_iff_eq] at hname
      have hmem : layout.fields[d] ∈ layout.fields := List.getElem_mem hlt
      have honly : ∀ kind, (field, kind) ∈ layout.fields → kind = layout.fields[d].2 := fun kind hkind =>
        (Prod.ext_iff.1 (List.inj_on_of_nodup_map hn hkind hmem hname.symm)).2
      have hself : (field, layout.fields[d].2) ∈ layout.fields := hname ▸ hmem
      dsimp only
      rw [List.getElem?_eq_getElem hlt]
      generalize layout.fields[d] = c at honly hself
      obtain ⟨name, kind⟩ := c
      dsimp only at honly hself
      have hall : (∀ kind', (field, kind') ∈ layout.fields → kind' = .vector dim) ↔ kind = .vector dim :=
        ⟨fun h => h _ hself, fun h kind' hkind => (honly kind' hkind).trans h⟩
      rw [hall]
      cases kind with
      | vector d' =>
          dsimp only
          split_ifs with hd
          · subst hd
            simp [eq_comm]
          · simp [hd]
      | _ => simp

/-- What the locator has after the columns is the place of the vector that the row holds. -/
lemma fold_vector (hparses : Parses layout bytes slots extra) (hn : layout.names.Nodup)
    (hkind : ∀ kind, (field, kind) ∈ layout.fields → kind = .vector dim) :
    foldSlots (fun _ _ found => found) (fun i col _ found => if isVector col.2 = true
        ∧ vectorTarget layout field dim = .ok (some i) then some i else found) 0 layout.fields slots none
      = (heldField layout slots extra field).ordinal := by
  have htarget := (vectorTarget_eq_ok (r := layout.position fun c => c.1 == field) hn).2 ⟨rfl, hkind⟩
  have hfold : foldSlots (fun _ _ found => found) (fun i col _ found => if isVector col.2 = true
        ∧ vectorTarget layout field dim = .ok (some i) then some i else found) 0 layout.fields slots none
      = pick id (fun i col _ found => if isVector col.2 then some i else found) none
          (slotOf (fun c => c.1 == field) 0 layout.fields slots) := by
    rw [← foldOne_eq hparses.length_eq, htarget]
    simp only [Except.ok.injEq, Nat.add_zero, Option.map_id', foldOne, id_eq, ite_self, Layout.position]
    congr 1
    funext i col o found
    by_cases hi : layout.fields.findIdx? (fun c => c.1 == field) = some i <;> simp [hi]
  rw [hfold, heldField, findSlot_eq_slotOf]
  cases hslotOf : slotOf (fun c => c.1 == field) 0 layout.fields slots with
  | none =>
      simp only [Option.map_none, pick]
      cases extra.lookup field with
      | none => rfl
      | some v =>
          rw [FieldValue.ofExtra]
          split_ifs <;> rfl
  | some f =>
      obtain ⟨d, ⟨name, kind⟩, slot⟩ := f
      obtain ⟨d', rfl, hfind, hcol, hslot⟩ := slotOf_eq_some hslotOf
      obtain ⟨hlt, hname, -⟩ := List.findIdx?_eq_some_iff_getElem.1 hfind
      have hmem := List.mem_of_getElem? hcol
      rw [List.getElem?_eq_getElem hlt, Option.some.injEq] at hcol
      rw [hcol, beq_iff_eq] at hname
      obtain rfl : kind = .vector dim := hkind kind (hname ▸ hmem)
      obtain ⟨st, -, hat⟩ := stepTrusted_of_parses hparses (List.getElem?_eq_getElem hlt) hslot
      rw [hcol] at hat
      cases hat with
      | missing => rfl
      | null => rfl
      | value hread =>
          cases hread
          rfl

/-- **A vector is located where the reader of its field finds it**; a field that is declared as anything but a
vector of that dimension is refused.  Every cell is stepped over, and the answer is the place of the column. -/
theorem locateVector_eq_ok : locateVector layout bytes field dim = .ok r ↔ layout.Valid
    ∧ (∀ kind, (field, kind) ∈ layout.fields → kind = .vector dim)
    ∧ ∃ v, readFieldInRaw layout bytes field = .ok v ∧ r = v.ordinal := by
  have hcell : ∀ (widths : Bytes) i k (col : String × Kind) (found : Option ℕ) b s' rest,
      (passCell widths k col.2 b >>= fun passed =>
        (pure (if isVector col.2 = true ∧ vectorTarget layout field dim = .ok (some i) then some i else found,
          passed.2) : Except String (Option ℕ × Bytes))) = .ok (s', rest)
      ↔ ∃ v, readCell widths k col.2 b = .ok (v, rest) ∧ s' = if isVector col.2 = true
        ∧ vectorTarget layout field dim = .ok (some i) then some i else found := by
    intro widths i k col found b s' rest
    simp only [bind_eq_ok, Prod.exists, passCell_skims widths k col.2 _ _ _, pure_eq_ok, Prod.mk.injEq]
    constructor
    · rintro ⟨_, _, ⟨v, hv⟩, rfl, rfl⟩
      exact ⟨v, hv, rfl⟩
    · rintro ⟨v, hv, rfl⟩
      exact ⟨(), rest, ⟨v, hv⟩, rfl, rfl⟩
  simp only [locateVector, bind_eq_ok, validate_eq_ok, exists_const, pure_eq_ok]
  refine and_congr_right fun hvalid => ?_
  have hn : layout.names.Nodup := hvalid.nodup
  simp only [vectorTarget_eq_ok hn]
  have hfold : ∀ slots extra, Parses layout bytes slots extra →
      (∀ kind, (field, kind) ∈ layout.fields → kind = .vector dim) →
      extra.foldl (fun found m => useOr none found m.2)
        (foldSlots (fun _ _ found => found) (fun i col _ found => if isVector col.2 = true
          ∧ vectorTarget layout field dim = .ok (some i) then some i else found) 0 layout.fields slots none)
        = (heldField layout slots extra field).ordinal := fun slots extra hparses hkind =>
    (foldl_const extra).trans (fold_vector hparses hn hkind)
  constructor
  · rintro ⟨found, hscan, _, ⟨-, hkind⟩, rfl⟩
    rw [scanRow_eq_ok hcell fun key s b s' rest => readOrPass_eq_ok (jsonSkip_skims 64)] at hscan
    obtain ⟨slots, extra, hparses, rfl⟩ := hscan
    exact ⟨hkind, _, readFieldInRaw_eq_ok.2 ⟨slots, extra, hparses, rfl⟩, hfold slots extra hparses hkind⟩
  · rintro ⟨hkind, v, hv, rfl⟩
    obtain ⟨slots, extra, hparses, rfl⟩ := readFieldInRaw_eq_ok.1 hv
    refine ⟨_, ?_, _, ⟨rfl, hkind⟩, rfl⟩
    rw [scanRow_eq_ok hcell fun key s b s' rest => readOrPass_eq_ok (jsonSkip_skims 64)]
    exact ⟨slots, extra, hparses, (hfold slots extra hparses hkind).symm⟩

end

end Engine.DenseRow
