import Sekejap.DenseRow.Codec

/-!
# What a row holds

A row that opens holds, for every column, that it is missing, null, or has a value (`Slot`), and then
the fields its layout does not declare.  `Parses` relates the bytes to these.

* **`walk_columns`** — a walk over the columns is a fold over what they hold, whatever the walk does
  with a column, as long as it reads as many bytes as the decoder does.
* **`decodeRaw_eq_ok`** — the full decoder accepts what parses, and no other bytes.
* **`fetched_agrees`** — every field of the document the decoder returns is what the row holds of it.
-/

open Bytes

open Fallible

open Reading (Reader)

namespace Engine.DenseRow

/-! ## Valid layouts -/

/-- **A layout that passes `validate`.** -/
structure Layout.Valid (layout : Layout) : Prop where
  columns : layout.fields.length ≤ maxColumns
  nodup : layout.names.Nodup
  dimensions : ∀ name dim, (name, Kind.vector dim) ∈ layout.fields → 0 < dim ∧ dim ≤ maxDimension

/-- A dimension is in its range, where there is one. -/
def DimensionFits : Kind → Prop
  | .vector dim => 0 < dim ∧ dim ≤ maxDimension
  | _ => True

lemma checkDimension_eq_ok {kind : Kind} {u : Unit} :
    checkDimension kind = .ok u ↔ DimensionFits kind := by
  cases kind <;> simp [checkDimension, DimensionFits, Nat.pos_iff_ne_zero]

lemma validateFields_eq_ok {narrow : Bool} {before : List String} {fields : List (String × Kind)}
    {u : Unit} : validateFields narrow before fields = .ok u ↔
      (∀ c ∈ fields, DimensionFits c.2)
        ∧ (narrow = true → (fields.map Prod.fst).Nodup ∧ ∀ c ∈ fields, c.1 ∉ before) := by
  induction fields generalizing before with
  | nil => simp [validateFields]
  | cons c fields ih =>
      obtain ⟨name, kind⟩ := c
      have hmem : name ∈ fields.map Prod.fst ↔ ∃ c ∈ fields, c.1 = name := List.mem_map
      simp only [validateFields, bind_eq_ok, checkDimension_eq_ok, refuse_eq_ok, ih, exists_const,
        List.forall_mem_cons, List.map_cons, List.nodup_cons, not_and]
      constructor
      · rintro ⟨hd, hne, hds, hrest⟩
        refine ⟨⟨hd, hds⟩, fun hn => ?_⟩
        obtain ⟨hnodup, hbefore⟩ := hrest hn
        refine ⟨⟨fun h => ?_, hnodup⟩, hne hn, fun c hc h => hbefore c hc (List.mem_cons_of_mem _ h)⟩
        obtain ⟨c, hc, rfl⟩ := hmem.1 h
        exact hbefore c hc List.mem_cons_self
      · rintro ⟨⟨hd, hds⟩, hrest⟩
        refine ⟨hd, fun hn => (hrest hn).2.1, hds, fun hn => ?_⟩
        obtain ⟨⟨hnot, hnodup⟩, -, hbefore⟩ := hrest hn
        refine ⟨hnodup, fun c hc h => ?_⟩
        obtain heq | h := List.mem_cons.1 h
        · exact hnot (hmem.2 ⟨c, hc, heq⟩)
        · exact hbefore c hc h

lemma validate_eq_ok {layout : Layout} {u : Unit} : layout.validate = .ok u ↔ layout.Valid := by
  have hfits : (∀ c ∈ layout.fields, DimensionFits c.2)
      ↔ ∀ name dim, (name, Kind.vector dim) ∈ layout.fields → 0 < dim ∧ dim ≤ maxDimension := by
    constructor
    · intro h name dim hc
      exact h _ hc
    · rintro h ⟨name, kind⟩ hc
      cases kind with
      | vector dim => exact h name dim hc
      | _ => trivial
  simp only [Layout.validate, bind_eq_ok, refuse_eq_ok, validateFields_eq_ok, exists_const, hfits,
    decide_eq_true_eq, not_lt, not_and, not_not]
  constructor
  · rintro ⟨hlen, ⟨hd, hnarrow⟩, hwide⟩
    refine ⟨hlen, ?_, hd⟩
    by_cases h32 : layout.fields.length ≤ 32
    · exact (hnarrow h32).1
    · exact hwide (Nat.not_le.1 h32)
  · rintro ⟨hlen, hnodup, hd⟩
    exact ⟨hlen, ⟨hd, fun _ => ⟨hnodup, by simp⟩⟩, fun _ => hnodup⟩

/-! ## Slots -/

/-- What a row holds of a column; the value of a vector is not in the row. -/
inductive Slot where
  | missing
  | null
  | cell (v : Option Value)

/-- **The columns of a row**, from ordinal `i` on, with the bytes behind them. -/
inductive Columns (states : Option Bytes) (widths : Bytes) :
    ℕ → ℕ → List (String × Kind) → Bytes → List Slot → Bytes → Prop
  | nil {i k b} : Columns states widths i k [] b [] b
  | missing {i k cols b slots rest} {col : String × Kind} (hs : stateGet states i = 0)
      (h : Columns states widths (i + 1) (nextInteger k col.2) cols b slots rest) :
      Columns states widths i k (col :: cols) b (.missing :: slots) rest
  | null {i k cols b slots rest} {col : String × Kind} (hs : stateGet states i = 1)
      (h : Columns states widths (i + 1) (nextInteger k col.2) cols b slots rest) :
      Columns states widths i k (col :: cols) b (.null :: slots) rest
  | cell {i k cols b v b' slots rest} {col : String × Kind} (hs : stateGet states i = 2)
      (hread : readCell widths k col.2 b = .ok (v, b'))
      (h : Columns states widths (i + 1) (nextInteger k col.2) cols b' slots rest) :
      Columns states widths i k (col :: cols) b (.cell v :: slots) rest

/-- A fold over the columns with what they hold. -/
def foldSlots {σ : Type} (onNull : ℕ → String × Kind → σ → σ)
    (onCell : ℕ → String × Kind → Option Value → σ → σ) :
    ℕ → List (String × Kind) → List Slot → σ → σ
  | i, _ :: cols, .missing :: slots, s => foldSlots onNull onCell (i + 1) cols slots s
  | i, col :: cols, .null :: slots, s => foldSlots onNull onCell (i + 1) cols slots (onNull i col s)
  | i, col :: cols, .cell v :: slots, s =>
      foldSlots onNull onCell (i + 1) cols slots (onCell i col v s)
  | _, _, _, s => s

section

variable {σ : Type} {states : Option Bytes} {widths : Bytes} {i k : ℕ} {cols : List (String × Kind)}
  {b rest : Bytes} {slots : List Slot} {onNull : ℕ → String × Kind → σ → σ}
  {step : ℕ → ℕ → String × Kind → σ → Reader String σ}
  {onCell : ℕ → String × Kind → Option Value → σ → σ}

attribute [local simp] walk foldSlots

/-- **A walk that keeps step with the decoder is a fold over what the columns hold.** -/
theorem walk_columns (h : Columns states widths i k cols b slots rest)
    (hstep : ∀ i k col s b v b', readCell widths k col.2 b = .ok (v, b') →
      step i k col s b = .ok (onCell i col v s, b')) (s : σ) :
    walk states onNull step i k cols s b = .ok (foldSlots onNull onCell i cols slots s, rest) := by
  induction h generalizing s with
  | nil => rfl
  | missing hs _ ih => simp [hs, ih]
  | null hs _ ih => simp [hs, ih]
  | cell hs hread _ ih => simp only [walk, hs, foldSlots, hstep _ _ _ s _ _ _ hread, bind, Except.bind, ih]

/-- **A walk that keeps step with the decoder reads every column**, and folds over what they hold. -/
lemma walk_eq_ok {s s' : σ} (hstep : ∀ i k col s b s' rest, step i k col s b = .ok (s', rest)
      ↔ ∃ v, readCell widths k col.2 b = .ok (v, rest) ∧ s' = onCell i col v s) :
    walk states onNull step i k cols s b = .ok (s', rest)
      ↔ ∃ slots, Columns states widths i k cols b slots rest ∧ s' = foldSlots onNull onCell i cols slots s := by
  constructor
  · intro h
    induction cols generalizing i k s b with
    | nil =>
        cases h
        exact ⟨[], .nil, rfl⟩
    | cons col cols ih =>
        rw [walk] at h
        split at h
        · next hs =>
            obtain ⟨slots, hcols, rfl⟩ := ih h
            exact ⟨_, .missing hs hcols, rfl⟩
        · next hs =>
            obtain ⟨slots, hcols, rfl⟩ := ih h
            exact ⟨_, .null hs hcols, rfl⟩
        · next hs =>
            simp only [bind_eq_ok, Prod.exists, hstep _ _ _ _ _ _ _] at h
            obtain ⟨_, _, ⟨v, hread, rfl⟩, h⟩ := h
            obtain ⟨slots, hcols, rfl⟩ := ih h
            exact ⟨_, .cell hs hread hcols, rfl⟩
        · cases h
  · rintro ⟨slots, hcols, rfl⟩
    exact walk_columns hcols (fun i k col s b v b' hread => (hstep i k col s b _ b').2 ⟨v, hread, rfl⟩) s

lemma decodeCell_eq_ok (widths : Bytes) (i k : ℕ) (col : String × Kind) (s : Partial) (b : Bytes) (s' : Partial)
    (rest : Bytes) : decodeCell widths i k col s b = .ok (s', rest)
    ↔ ∃ v, readCell widths k col.2 b = .ok (v, rest) ∧ s' = s.take i col v := by
  simp only [decodeCell, bind_eq_ok, Prod.exists, pure_eq_ok, Prod.mk.injEq]
  constructor
  · rintro ⟨v, _, hv, rfl, rfl⟩
    exact ⟨v, hv, rfl⟩
  · rintro ⟨v, hv, rfl⟩
    exact ⟨v, rest, hv, rfl, rfl⟩

end

/-! ## Rows -/

/-- The bytes behind the columns, and the fields that are not declared. -/
def Behind (h : ℕ) (b : Bytes) (extra : List (String × Value)) : Prop :=
  if h / 2 % 2 = 1 then jsonRead 65 b = .ok (.object extra, []) else extra = [] ∧ b = []

/-- **The bytes of a row** hold so much of the columns, and these other fields. -/
inductive Parses (layout : Layout) (bytes : Bytes) (slots : List Slot) (extra : List (String × Value)) :
    Prop
  | intro (o : Opened) (b b' : Bytes) (opened : openRow layout bytes = .ok (o, b))
      (columns : Columns o.states o.widths 0 0 layout.fields b slots b')
      (behind : Behind o.header b' extra) (undeclared : ∀ m ∈ extra, m.1 ∉ layout.names)

/-- The members of the extras go in one after another. -/
def insertMembers (extra obj : List (String × Value)) : List (String × Value) :=
  extra.foldl (fun obj m => insertMember m.1 m.2 obj) obj

/-- The document before its vectors are fetched. -/
def inlineObject (layout : Layout) (slots : List Slot) (extra : List (String × Value)) :
    List (String × Value) :=
  insertMembers extra (foldSlots decodeNull Partial.take 0 layout.fields slots ⟨[], []⟩).obj

/-- The vectors of a row. -/
def vectorsOf (layout : Layout) (slots : List Slot) : List (ℕ × String × Kind) :=
  (foldSlots decodeNull Partial.take 0 layout.fields slots ⟨[], []⟩).vectors

lemma addExtras_eq_ok {layout : Layout} {extra obj obj' : List (String × Value)} :
    addExtras layout extra obj = .ok obj' ↔
      (∀ m ∈ extra, m.1 ∉ layout.names) ∧ obj' = insertMembers extra obj := by
  induction extra generalizing obj with
  | nil => simp [addExtras, insertMembers, eq_comm]
  | cons m extra ih => simp [addExtras, ih, insertMembers, and_assoc]

lemma decodeExtras_eq_ok {layout : Layout} {h : ℕ} {b : Bytes} {obj obj' : List (String × Value)} :
    decodeExtras layout h obj b = .ok (obj', []) ↔ ∃ extra, Behind h b extra
      ∧ (∀ m ∈ extra, m.1 ∉ layout.names) ∧ obj' = insertMembers extra obj := by
  unfold decodeExtras Behind
  split_ifs with hflag
  · simp only [bind_eq_ok, Prod.exists, orElse_eq_ok, addExtras_eq_ok, pure_eq_ok, Prod.mk.injEq]
    constructor
    · rintro ⟨v, b, hread, extra, hv, _, ⟨hund, rfl⟩, rfl, rfl⟩
      cases v with
      | object ms =>
          cases hv
          exact ⟨extra, hread, hund, rfl⟩
      | _ => cases hv
    · rintro ⟨extra, hread, hund, rfl⟩
      exact ⟨_, [], hread, extra, rfl, _, ⟨hund, rfl⟩, rfl, rfl⟩
  · constructor
    · intro h
      cases h
      exact ⟨[], ⟨rfl, rfl⟩, by simp, rfl⟩
    · rintro ⟨_, ⟨rfl, rfl⟩, -, rfl⟩
      rfl

/-- **The full decoder accepts what parses**, when its vectors can be fetched. -/
theorem decodeRaw_eq_ok {layout : Layout} {bytes : Bytes} {get : ℕ → ℕ → Except String (Option Value)}
    {doc : Value} :
    decodeWithVectorValuesRaw layout bytes get = .ok doc ↔ layout.Valid ∧ ∃ slots extra,
      Parses layout bytes slots extra ∧ ∃ obj, doc = .object obj
        ∧ fetchVectors get (vectorsOf layout slots) (inlineObject layout slots extra) = .ok obj := by
  simp only [decodeWithVectorValuesRaw, bind_eq_ok, Prod.exists, refuse_eq_ok, not_not, pure_eq_ok,
    exists_const, validate_eq_ok]
  refine and_congr_right fun _ => ?_
  constructor
  · rintro ⟨o, b, hopen, s, b', hwalk, obj, _, hextra, rfl, obj', hfetch, rfl⟩
    obtain ⟨slots, hcols, rfl⟩ := (walk_eq_ok (decodeCell_eq_ok o.widths)).1 hwalk
    obtain ⟨extra, hbehind, hund, rfl⟩ := decodeExtras_eq_ok.1 hextra
    exact ⟨slots, extra, ⟨o, b, b', hopen, hcols, hbehind, hund⟩, obj', rfl, hfetch⟩
  · rintro ⟨slots, extra, ⟨o, b, b', hopen, hcols, hbehind, hund⟩, obj, rfl, hfetch⟩
    have hwalk : walk o.states decodeNull (decodeCell o.widths) 0 0 layout.fields ⟨[], []⟩ b
        = .ok (foldSlots decodeNull Partial.take 0 layout.fields slots ⟨[], []⟩, b') :=
      (walk_eq_ok (decodeCell_eq_ok o.widths)).2 ⟨slots, hcols, rfl⟩
    exact ⟨_, _, hopen, _, _, hwalk, _, _, decodeExtras_eq_ok.2 ⟨extra, hbehind, hund, rfl⟩, rfl, obj,
      hfetch, rfl⟩

/-! ## Fields -/

/-- `FieldValue` -/
inductive FieldValue where
  | missing
  | null
  | inline (v : Value)
  | vector (ordinal dimension : ℕ)

/-- The value of a column. -/
def FieldValue.ofCell (i : ℕ) (kind : Kind) : Option Value → FieldValue
  | some v => inline v
  | none => vector i (dimension kind)

/-- The value of a field that is not declared. -/
def FieldValue.ofExtra : Option Value → FieldValue
  | none => missing
  | some v => if v.isNull then null else inline v

def Slot.fieldValue (i : ℕ) (kind : Kind) : Slot → FieldValue
  | missing => .missing
  | null => .null
  | cell v => .ofCell i kind v

/-- The column of a name, from ordinal `i` on, and what the row holds of it. -/
def findSlot (name : String) : ℕ → List (String × Kind) → List Slot → Option (ℕ × Kind × Slot)
  | i, col :: cols, slot :: slots =>
      if col.1 = name then some (i, col.2, slot) else findSlot name (i + 1) cols slots
  | _, _, _ => none

/-- **What a row holds of a field.** -/
def heldField (layout : Layout) (slots : List Slot) (extra : List (String × Value)) (name : String) :
    FieldValue :=
  match findSlot name 0 layout.fields slots with
  | some (i, kind, slot) => slot.fieldValue i kind
  | none => .ofExtra (extra.lookup name)

/-- **The member of a document that a row was decoded into is what the row holds of it**; a vector is
what was fetched. -/
def FieldValue.Agrees (get : ℕ → ℕ → Except String (Option Value)) (o : Option Value) :
    FieldValue → Prop
  | missing => o = none
  | null => o = some .null
  | inline v => o = some v
  | vector i dim => get i dim = .ok o

section

variable {name k : String} {v : Value} {obj extra : List (String × Value)} {layout : Layout}
  {slots : List Slot} {get : ℕ → ℕ → Except String (Option Value)} {cols : List (String × Kind)}
  {i : ℕ} {s : Partial}

lemma lookup_cons_if (m : String × Value) :
    (m :: obj).lookup name = if name = m.1 then some m.2 else obj.lookup name := by
  rw [List.lookup_cons]
  split_ifs with h
  · rw [beq_iff_eq.2 h]
  · rw [beq_false_of_ne h]

lemma lookup_insertMember (obj : List (String × Value)) :
    (insertMember k v obj).lookup name = if name = k then some v else obj.lookup name := by
  induction obj with
  | nil => rw [insertMember, lookup_cons_if]
  | cons m obj ih =>
      rw [insertMember]
      split_ifs with hm h h
      · rw [lookup_cons_if, if_pos h]
      · rw [lookup_cons_if, lookup_cons_if, if_neg h, if_neg (hm ▸ h)]
      · rw [lookup_cons_if, ih, if_pos h, if_neg fun hn => hm (hn.symm.trans h)]
      · rw [lookup_cons_if, lookup_cons_if, ih, if_neg h]

lemma keys_insertMember (obj : List (String × Value)) :
    (insertMember k v obj).map Prod.fst
      = if k ∈ obj.map Prod.fst then obj.map Prod.fst else obj.map Prod.fst ++ [k] := by
  induction obj with
  | nil => rfl
  | cons m obj ih =>
      rw [insertMember]
      by_cases hm : m.1 = k
      · simp [hm]
      · have hk : k ≠ m.1 := fun h => hm h.symm
        rw [if_neg hm, List.map_cons, ih]
        simp only [List.map_cons, List.mem_cons, hk, false_or]
        split_ifs <;> rfl

lemma nodup_insertMember (h : (obj.map Prod.fst).Nodup) :
    ((insertMember k v obj).map Prod.fst).Nodup := by
  rw [keys_insertMember]
  split_ifs with hk
  · exact h
  · rw [List.nodup_append]
    exact ⟨h, List.nodup_singleton k, fun x hx y hy heq => hk (List.mem_singleton.1 hy ▸ heq ▸ hx)⟩

lemma insertMembers_nodup (h : (obj.map Prod.fst).Nodup) :
    ((insertMembers extra obj).map Prod.fst).Nodup := by
  induction extra generalizing obj with
  | nil => exact h
  | cons m extra ih => exact ih (nodup_insertMember h)

lemma lookup_insertMembers (hk : (extra.map Prod.fst).Nodup) :
    (insertMembers extra obj).lookup name = (extra.lookup name).or (obj.lookup name) := by
  induction extra generalizing obj with
  | nil => rfl
  | cons m extra ih =>
      rw [List.map_cons, List.nodup_cons] at hk
      rw [insertMembers, List.foldl_cons]
      change (insertMembers extra (insertMember m.1 m.2 obj)).lookup name = _
      rw [ih hk.2, lookup_insertMember, lookup_cons_if]
      split_ifs with h
      · -- the key is not in what follows
        have hnone : extra.lookup name = none := by
          rw [List.lookup_eq_none_iff]
          intro p hp
          refine bne_iff_ne.2 fun he => hk.1 ?_
          rw [← h, he]
          exact List.mem_map_of_mem hp
        rw [hnone, Option.none_or, Option.some_or]
      · rfl

lemma findSlot_of_not_mem (h : name ∉ cols.map Prod.fst) : findSlot name i cols slots = none := by
  induction cols generalizing i slots with
  | nil => rfl
  | cons col cols ih =>
      rw [List.map_cons, List.mem_cons, not_or] at h
      cases slots with
      | nil => rfl
      | cons slot slots => rw [findSlot, if_neg (fun he => h.1 he.symm), ih h.2]

/-- What a column leaves in the document before the vectors are fetched. -/
def Slot.inline : Slot → Option Value
  | null => some .null
  | cell v => v
  | missing => none

attribute [local simp] foldSlots findSlot

lemma foldSlots_lookup (hn : (cols.map Prod.fst).Nodup) :
    (foldSlots decodeNull Partial.take i cols slots s).obj.lookup name
      = ((findSlot name i cols slots).bind fun f => f.2.2.inline).or (s.obj.lookup name) := by
  induction cols generalizing i slots s with
  | nil => simp
  | cons col cols ih =>
      rw [List.map_cons, List.nodup_cons] at hn
      cases slots with
      | nil => simp
      | cons slot slots =>
          have hnone : col.1 = name → findSlot name (i + 1) cols slots = none := fun h =>
            findSlot_of_not_mem (h ▸ hn.1)
          cases slot with
          | missing =>
              rw [foldSlots, ih hn.2, findSlot]
              split_ifs with h
              · rw [hnone h]
                rfl
              · rfl
          | null =>
              rw [foldSlots, ih hn.2, findSlot, decodeNull, lookup_insertMember]
              by_cases h : col.1 = name
              · rw [hnone h, if_pos h, if_pos h.symm]
                rfl
              · rw [if_neg h, if_neg fun he => h he.symm]
          | cell v =>
              rw [foldSlots, ih hn.2, findSlot]
              cases v with
              | none =>
                  split_ifs with h
                  · rw [hnone h]
                    rfl
                  · rfl
              | some v =>
                  rw [Partial.take, lookup_insertMember]
                  by_cases h : col.1 = name
                  · rw [hnone h, if_pos h, if_pos h.symm]
                    rfl
                  · rw [if_neg h, if_neg fun he => h he.symm]

lemma foldSlots_nodup (hs : (s.obj.map Prod.fst).Nodup) :
    ((foldSlots decodeNull Partial.take i cols slots s).obj.map Prod.fst).Nodup := by
  induction cols generalizing i slots s with
  | nil => exact hs
  | cons col cols ih =>
      cases slots with
      | nil => exact hs
      | cons slot slots =>
          cases slot with
          | missing => exact ih hs
          | null => exact ih (nodup_insertMember hs)
          | cell v =>
              cases v with
              | none => exact ih hs
              | some v => exact ih (nodup_insertMember hs)

/-- The columns whose values are in cells of their own. -/
def cellColumns : ℕ → List (String × Kind) → List Slot → List (ℕ × String × Kind)
  | i, _ :: cols, .missing :: slots | i, _ :: cols, .null :: slots
  | i, _ :: cols, .cell (some _) :: slots => cellColumns (i + 1) cols slots
  | i, col :: cols, .cell none :: slots => (i, col) :: cellColumns (i + 1) cols slots
  | _, _, _ => []

attribute [local simp] cellColumns

lemma foldSlots_vectors : (foldSlots decodeNull Partial.take i cols slots s).vectors
    = s.vectors ++ cellColumns i cols slots := by
  induction cols generalizing i slots s with
  | nil => simp
  | cons col cols ih =>
      cases slots with
      | nil => simp
      | cons slot slots =>
          cases slot with
          | missing => rw [foldSlots, ih, cellColumns]
          | null => rw [foldSlots, ih, cellColumns, decodeNull]
          | cell v =>
              cases v with
              | none => rw [foldSlots, ih, cellColumns, Partial.take, List.append_assoc, List.singleton_append]
              | some v => rw [foldSlots, ih, cellColumns, Partial.take]

lemma mem_cellColumns_ordinal {c : ℕ × String × Kind} (h : c ∈ cellColumns i cols slots) :
    c.2.1 ∈ cols.map Prod.fst := by
  induction cols generalizing i slots with
  | nil => simp at h
  | cons col cols ih =>
      rw [List.map_cons]
      cases slots with
      | nil => simp at h
      | cons slot slots =>
          cases slot with
          | missing | null => exact List.mem_cons_of_mem _ (ih h)
          | cell v =>
              cases v with
              | some v => exact List.mem_cons_of_mem _ (ih h)
              | none =>
                  rw [cellColumns, List.mem_cons] at h
                  obtain rfl | h := h
                  · exact List.mem_cons_self
                  · exact List.mem_cons_of_mem _ (ih h)

lemma cellColumns_nodup (hn : (cols.map Prod.fst).Nodup) :
    ((cellColumns i cols slots).map fun c => c.2.1).Nodup := by
  induction cols generalizing i slots with
  | nil => simp
  | cons col cols ih =>
      rw [List.map_cons, List.nodup_cons] at hn
      cases slots with
      | nil => simp
      | cons slot slots =>
          cases slot with
          | missing | null => exact ih hn.2
          | cell v =>
              cases v with
              | some v => exact ih hn.2
              | none =>
                  rw [cellColumns, List.map_cons, List.nodup_cons]
                  refine ⟨fun h => ?_, ih hn.2⟩
                  obtain ⟨c, hc, he⟩ := List.mem_map.1 h
                  exact hn.1 (he ▸ mem_cellColumns_ordinal hc)

lemma mem_cellColumns (hn : (cols.map Prod.fst).Nodup) {j : ℕ} {kind : Kind} :
    (j, name, kind) ∈ cellColumns i cols slots ↔ findSlot name i cols slots = some (j, kind, .cell none) := by
  induction cols generalizing i slots with
  | nil => simp
  | cons col cols ih =>
      rw [List.map_cons, List.nodup_cons] at hn
      cases slots with
      | nil => simp
      | cons slot slots =>
          have hnot : col.1 = name → (j, name, kind) ∉ cellColumns (i + 1) cols slots := fun h hm =>
            hn.1 (h ▸ mem_cellColumns_ordinal hm)
          rw [findSlot]
          cases slot with
          | missing | null =>
              rw [cellColumns]
              split_ifs with h
              · simp [hnot h]
              · exact ih hn.2
          | cell v =>
              cases v with
              | some v =>
                  rw [cellColumns]
                  split_ifs with h
                  · simp [hnot h]
                  · exact ih hn.2
              | none =>
                  rw [cellColumns, List.mem_cons, Prod.mk.injEq, Prod.ext_iff]
                  split_ifs with h
                  · simp [hnot h, h, eq_comm]
                  · rw [← ih hn.2]
                    simp [Ne.symm h]

lemma fetch_other {vs : List (ℕ × String × Kind)} {obj' : List (String × Value)}
    (h : fetchVectors get vs obj = .ok obj') (hname : name ∉ vs.map fun c => c.2.1) :
    obj'.lookup name = obj.lookup name := by
  induction vs generalizing obj with
  | nil =>
      cases h
      rfl
  | cons c vs ih =>
      rw [List.map_cons, List.mem_cons, not_or] at hname
      simp only [fetchVectors, bind_eq_ok] at h
      obtain ⟨o, -, h⟩ := h
      rw [ih h hname.2]
      cases o with
      | none => rfl
      | some v => rw [lookup_insertMember, if_neg hname.1]

lemma fetch_lookup {vs : List (ℕ × String × Kind)} {obj' : List (String × Value)} {j : ℕ} {kind : Kind}
    (h : fetchVectors get vs obj = .ok obj') (hn : (vs.map fun c => c.2.1).Nodup)
    (hmem : (j, name, kind) ∈ vs) :
    ∃ o, get j (dimension kind) = .ok o ∧ obj'.lookup name = o.or (obj.lookup name) := by
  induction vs generalizing obj with
  | nil => simp at hmem
  | cons c vs ih =>
      rw [List.map_cons, List.nodup_cons] at hn
      simp only [fetchVectors, bind_eq_ok] at h
      obtain ⟨o, ho, h⟩ := h
      obtain rfl | hmem := List.mem_cons.1 hmem
      · refine ⟨o, ho, ?_⟩
        rw [fetch_other h hn.1]
        cases o with
        | none => rfl
        | some v => rw [lookup_insertMember, if_pos rfl, Option.some_or]
      · obtain ⟨o', ho', hlook⟩ := ih h hn.2 hmem
        refine ⟨o', ho', hlook.trans ?_⟩
        have hne : name ≠ c.2.1 := by
          rintro rfl
          exact hn.1 (List.mem_map.2 ⟨_, hmem, rfl⟩)
        cases o with
        | none => rfl
        | some v => rw [lookup_insertMember, if_neg hne]

lemma fetch_nodup {vs : List (ℕ × String × Kind)} {obj' : List (String × Value)}
    (h : fetchVectors get vs obj = .ok obj') (hn : (obj.map Prod.fst).Nodup) :
    (obj'.map Prod.fst).Nodup := by
  induction vs generalizing obj with
  | nil =>
      cases h
      exact hn
  | cons c vs ih =>
      simp only [fetchVectors, bind_eq_ok] at h
      obtain ⟨o, -, h⟩ := h
      cases o with
      | none => exact ih h hn
      | some v => exact ih h (nodup_insertMember hn)

lemma members_nodup {read : Reader String Value} {n : ℕ} {seen : List String} {b rest : Bytes}
    {ms : List (String × Value)} (h : Read.members read n seen b = .ok (ms, rest)) :
    (ms.map Prod.fst).Nodup ∧ ∀ m ∈ ms, m.1 ∉ seen := by
  induction n generalizing seen b ms with
  | zero =>
      cases h
      simp
  | succ n ih =>
      simp only [Read.members, bind_eq_ok, Prod.exists, refuse_eq_ok, pure_eq_ok, Prod.mk.injEq] at h
      obtain ⟨k, _, -, v, _, -, _, hk, ms, _, h, rfl, rfl⟩ := h
      obtain ⟨hnodup, hseen⟩ := ih h
      refine ⟨List.nodup_cons.2 ⟨fun hm => ?_, hnodup⟩, List.forall_mem_cons.2 ⟨hk, fun m hm => ?_⟩⟩
      · obtain ⟨m, hm', hk'⟩ := List.mem_map.1 hm
        exact hseen m hm' (hk' ▸ List.mem_cons_self)
      · exact fun h => hseen m hm (List.mem_cons_of_mem _ h)

lemma jsonRead_object {left : ℕ} {b rest : Bytes} {ms : List (String × Value)} :
    jsonRead (left + 1) b = .ok (.object ms, rest) ↔ ∃ b' n b'', b = 8 :: b'
      ∧ Read.count b' = .ok (n, b'') ∧ Read.members (jsonRead left) n [] b'' = .ok (ms, rest) := by
  constructor
  · intro h
    simp only [jsonRead, bind_eq_ok, Prod.exists] at h
    obtain ⟨tag, b', hb, h⟩ := h
    cases b with
    | nil => cases hb
    | cons x b =>
        cases hb
        split_ifs at h with h0 h1 h2 h3 h4 h5 h6 h7 h8
        all_goals
          simp only [bind_eq_ok, Prod.exists, pure_eq_ok, Prod.mk.injEq, reduceCtorEq, false_and,
            and_false, exists_false] at h
        obtain ⟨n, b'', hcount, ms', _, hms, heq, rfl⟩ := h
        cases heq
        exact ⟨_, n, b'', by rw [h8], hcount, hms⟩
  · rintro ⟨b', n, b'', rfl, hcount, hms⟩
    simp [jsonRead, Read.byte, bind, Except.bind, hcount, hms, pure, Except.pure]

lemma Behind.nodup {h : ℕ} {b : Bytes} (hb : Behind h b extra) : (extra.map Prod.fst).Nodup := by
  unfold Behind at hb
  split_ifs at hb
  · obtain ⟨_, _, _, -, -, hms⟩ := jsonRead_object.1 hb
    exact (members_nodup hms).1
  · rw [hb.1]
    exact List.nodup_nil

lemma isNull_iff {v : Value} : v.isNull = true ↔ v = .null := by
  cases v <;> simp [Value.isNull]

lemma FieldValue.agrees_ofExtra {o : Option Value} : (FieldValue.ofExtra o).Agrees get o := by
  cases o with
  | none => rfl
  | some v =>
      rw [FieldValue.ofExtra]
      split_ifs with h
      · exact congrArg some (isNull_iff.1 h)
      · rfl

/-- **Every field of a decoded document is what the row holds of it.** -/
theorem fetched_agrees {bytes : Bytes} (hn : layout.names.Nodup) (hp : Parses layout bytes slots extra)
    (h : fetchVectors get (vectorsOf layout slots) (inlineObject layout slots extra) = .ok obj) :
    (obj.map Prod.fst).Nodup
      ∧ ∀ name, (heldField layout slots extra name).Agrees get (obj.lookup name) := by
  obtain ⟨o, b, b', -, -, hbehind, hund⟩ := hp
  have hkeys := hbehind.nodup
  refine ⟨fetch_nodup h (insertMembers_nodup (foldSlots_nodup (s := ⟨[], []⟩) List.nodup_nil)), fun name => ?_⟩
  have hvectors : vectorsOf layout slots = cellColumns 0 layout.fields slots := by
    rw [vectorsOf, foldSlots_vectors, List.nil_append]
  have hinline : (inlineObject layout slots extra).lookup name
      = (extra.lookup name).or ((findSlot name 0 layout.fields slots).bind fun f => f.2.2.inline) := by
    rw [inlineObject, lookup_insertMembers hkeys, foldSlots_lookup hn, List.lookup_nil, Option.or_none]
  rw [hvectors] at h
  have hother : (∀ j kind, findSlot name 0 layout.fields slots ≠ some (j, kind, .cell none)) →
      obj.lookup name = (inlineObject layout slots extra).lookup name := by
    intro hne
    refine fetch_other h fun hm => ?_
    obtain ⟨⟨j, _, kind⟩, hc, rfl⟩ := List.mem_map.1 hm
    exact hne j kind ((mem_cellColumns hn).1 hc)
  rw [heldField]
  cases hfind : findSlot name 0 layout.fields slots with
  | none =>
      rw [hother (by simp [hfind]), hinline, hfind, Option.bind_none, Option.or_none]
      exact FieldValue.agrees_ofExtra
  | some f =>
      obtain ⟨j, kind, slot⟩ := f
      have hnone : extra.lookup name = none := by
        rw [List.lookup_eq_none_iff]
        intro m hm
        refine bne_iff_ne.2 fun he => hund m hm ?_
        by_contra hnot
        rw [findSlot_of_not_mem (he ▸ hnot)] at hfind
        cases hfind
      rw [hnone, hfind, Option.none_or, Option.bind_some] at hinline
      cases slot with
      | missing => exact (hother (by simp [hfind])).trans hinline
      | null => exact (hother (by simp [hfind])).trans hinline
      | cell v =>
          cases v with
          | some v => exact (hother (by simp [hfind])).trans hinline
          | none =>
              obtain ⟨o', ho', hlook⟩ := fetch_lookup h (cellColumns_nodup hn) ((mem_cellColumns hn).2 hfind)
              rw [hinline, Slot.inline, Option.or_none] at hlook
              rw [hlook]
              exact ho'

end

end Engine.DenseRow
