import Sekejap.DenseRow.RoundTrip

/-!
# The readers of a row

The readers of `core/engine/src/store/dense_v3.rs` that return less than the whole document: one field,
several of them, a text, the place of a vector.  All but the trusted ones go over the row to its end
and validate what they pass over (`scanRow`); what they do not want of a JSON value is skipped
(`json_skip` of `core/engine/src/lib.rs`).  The trusted ones step over the columns before the one that
is asked for, and stop there.

* **`jsonSkip_skims`** — a JSON value is skipped exactly when it can be read.
* **`scanRow_eq_ok`** — a validating reader accepts what parses, and no other bytes; what it returns is
  a fold over what the row holds.
-/

open Bytes

open Fallible

open Reading (Reader Skims)

namespace Engine

/-! ## Skipping JSON -/

namespace Read

/-- So many values are passed over. -/
def skipItems (skip : Reader String Unit) : ℕ → Reader String Unit
  | 0, b => .ok ((), b)
  | n + 1, b => do
      let (_, b) ← skip b
      skipItems skip n b

/-- So many members are; `seen` are the keys that came before. -/
def skipMembers (skip : Reader String Unit) : ℕ → List String → Reader String Unit
  | 0, _, b => .ok ((), b)
  | n + 1, seen, b => do
      let (k, b) ← text b
      refuse (k ∈ seen) "duplicate object key"
      let (_, b) ← skip b
      skipMembers skip n (k :: seen) b

end Read

/-- `json_skip` at depth `65 - left`. -/
def jsonSkip : ℕ → Reader String Unit
  | 0, _ => .error "nesting limit"
  | left + 1, b => do
      let (tag, b) ← Read.byte b
      if tag ≤ 2 then pure ((), b)
      else if tag = 3 then do
        let (_, b) ← Read.int b
        pure ((), b)
      else if tag = 4 then do
        let (_, b) ← Read.uv b
        pure ((), b)
      else if tag = 5 then do
        let (_, b) ← Read.float b
        pure ((), b)
      else if tag = 6 then do
        let (_, b) ← Read.text b
        pure ((), b)
      else if tag = 7 then do
        let (n, b) ← Read.count b
        Read.skipItems (jsonSkip left) n b
      else if tag = 8 then do
        let (n, b) ← Read.count b
        Read.skipMembers (jsonSkip left) n [] b
      else throw "unknown JSON tag"

section

variable {skip : Reader String Unit} {read : Reader String Value} {b rest : Bytes} {u : Unit}

lemma skipItems_skims (h : Skims skip read) (n : ℕ) : Skims (Read.skipItems skip n) (Read.items read n) := by
  induction n with
  | zero =>
      intro b u rest
      simp [Read.skipItems, Read.items]
  | succ n ih =>
      intro b u rest
      simp only [Read.skipItems, Read.items, bind_eq_ok, Prod.exists, h _ _ _, ih _ _ _, pure_eq_ok, Prod.mk.injEq]
      constructor
      · rintro ⟨_, b', ⟨v, hv⟩, l, hl⟩
        exact ⟨v :: l, v, b', hv, l, rest, hl, rfl, rfl⟩
      · rintro ⟨_, v, b', hv, l, _, hl, rfl, rfl⟩
        exact ⟨(), b', ⟨v, hv⟩, l, hl⟩

lemma skipMembers_skims (h : Skims skip read) (n : ℕ) (seen : List String) :
    Skims (Read.skipMembers skip n seen) (Read.members read n seen) := by
  induction n generalizing seen with
  | zero =>
      intro b u rest
      simp [Read.skipMembers, Read.members]
  | succ n ih =>
      intro b u rest
      simp only [Read.skipMembers, Read.members, bind_eq_ok, Prod.exists, h _ _ _, ih _ _ _ _, pure_eq_ok,
        refuse_eq_ok, Prod.mk.injEq]
      constructor
      · rintro ⟨k, b', hk, _, hseen, _, b'', ⟨v, hv⟩, l, hl⟩
        exact ⟨(k, v) :: l, k, b', hk, v, b'', hv, (), hseen, l, rest, hl, rfl, rfl⟩
      · rintro ⟨_, k, b', hk, v, b'', hv, _, hseen, l, _, hl, rfl, rfl⟩
        exact ⟨k, b', hk, (), hseen, (), b'', ⟨v, hv⟩, l, hl⟩

/-- **`json_skip` passes over what `json_read` reads**, and refuses what it refuses. -/
theorem jsonSkip_skims (left : ℕ) : Skims (jsonSkip left) (jsonRead left) := by
  induction left with
  | zero =>
      intro b u rest
      simp [jsonSkip, jsonRead]
  | succ left ih =>
      refine Skims.bind (d := Read.byte) fun tag => ?_
      dsimp only
      by_cases h2 : tag ≤ 2
      · have htag : tag = 0 ∨ tag = 1 ∨ tag = 2 := by
          simp only [UInt8.le_iff_toNat_le, ← UInt8.toNat_inj] at h2 ⊢
          simp at h2 ⊢
          omega
        obtain rfl | rfl | rfl := htag
        all_goals exact Skims.const _
      · have hne : tag ≠ 0 ∧ tag ≠ 1 ∧ tag ≠ 2 := by
          refine ⟨?_, ?_, ?_⟩ <;> rintro rfl <;> exact h2 (by decide)
        simp only [h2, hne, if_false]
        split_ifs
        · exact Skims.bind (d := Read.int) fun x => Skims.const (Value.number (.int x))
        · exact Skims.bind (d := Read.uv) fun x => Skims.const (Value.number (.int x))
        · exact Skims.bind (d := Read.float) fun x => Skims.const (Value.number (.float x))
        · exact Skims.bind (d := Read.text) fun s => Skims.const (Value.string s)
        · exact Skims.bind (d := Read.count) fun n => (skipItems_skims ih n).map fun l b => ⟨_, rfl⟩
        · exact Skims.bind (d := Read.count) fun n => (skipMembers_skims ih n []).map fun l b => ⟨_, rfl⟩
        · intro b u rest
          simp [throw, throwThe, MonadExceptOf.throw]

end

namespace DenseRow

variable {σ τ α : Type}

/-! ## Positions -/

/-- The first column that `p` accepts. -/
def Layout.position (layout : Layout) (p : String × Kind → Bool) : Option ℕ := layout.fields.findIdx? p

/-! ## Whole rows -/

/-- The value of a column that a reader does not want: only JSON has a way of its own. -/
def passCell (widths : Bytes) (k : ℕ) (kind : Kind) : Reader String Unit := fun b =>
  match kind with
  | .json => jsonSkip 65 b
  | kind => do
      let (_, b) ← readCell widths k kind b
      pure ((), b)

/-- A value that is read and put to use, or that is passed over. -/
def readOrPass (read : Reader String α) (skip : Reader String Unit) (use : Option (α → σ)) (s : σ) :
    Reader String σ := fun b =>
  match use with
  | some f => do
      let (v, b) ← read b
      pure (f v, b)
  | none => do
      let (_, b) ← skip b
      pure (s, b)

/-- The members of the extras; `seen` are the keys that came before. -/
def eachExtra (layout : Layout) (onMember : String → σ → Reader String σ) : ℕ → List String → σ → Reader String σ
  | 0, _, s, b => .ok (s, b)
  | n + 1, seen, s, b => do
      let (key, b) ← Read.text b
      refuse (key ∈ seen) "duplicate object key"
      refuse (key ∈ layout.names) "declared key in extras"
      let (s, b) ← onMember key s b
      eachExtra layout onMember n (key :: seen) s b

def walkExtras (layout : Layout) (onMember : String → σ → Reader String σ) (h : ℕ) (s : σ) : Reader String σ :=
  fun b =>
    if h / 2 % 2 = 1 then do
      let (tag, b) ← Read.byte b
      refuse (tag ≠ 8) "extras must be object"
      let (n, b) ← Read.count b
      eachExtra layout onMember n [] s b
    else .ok (s, b)

/-- **What every validating reader of a row does**: it goes over the columns and the extras to the end of the row,
whatever it keeps of them. -/
def scanRow (layout : Layout) (onNull : ℕ → String × Kind → σ → σ)
    (onCell : Bytes → ℕ → ℕ → String × Kind → σ → Reader String σ) (onMember : String → σ → Reader String σ)
    (s : σ) (bytes : Bytes) : Except String σ := do
  let (o, b) ← openRow layout bytes
  let (s, b) ← walk o.states onNull (onCell o.widths) 0 0 layout.fields s b
  let (s, b) ← walkExtras layout onMember o.header s b
  refuse (b ≠ []) "trailing bytes"
  pure s

/-! ## One field -/

def absentOr (layout : Layout) (field : String) (v : FieldValue) : FieldValue :=
  match v, layout.absentDefault field with
  | .missing, some d => .inline d
  | v, _ => v

/-- One field: its column is read and the others are passed, to the end of the row. -/
def readFieldInRaw (layout : Layout) (bytes : Bytes) (field : String) : Except String FieldValue :=
  let declared := layout.position fun c => c.1 == field
  scanRow layout (fun i _ v => if declared = some i then .null else v)
    (fun widths i k col => readOrPass (readCell widths k col.2) (passCell widths k col.2)
      (if declared = some i then some (.ofCell i col.2) else none))
    (fun key => readOrPass (jsonRead 64) (jsonSkip 64)
      (if declared = none ∧ key = field then some fun v => .ofExtra (some v) else none))
    .missing bytes

def readFieldIn (layout : Layout) (bytes : Bytes) (field : String) : Except String FieldValue := do
  let v ← readFieldInRaw layout bytes field
  pure (absentOr layout field v)

def readField (layout : Layout) (bytes : Bytes) (field : String) : Except String FieldValue := do
  layout.validate
  readFieldIn layout bytes field

/-! ## Several fields -/

structure FieldPlan where
  /-- for every ordinal, the requested slot that wants it -/
  wanted : List (Option ℕ)
  undeclared : Bool

namespace FieldPlan

/-- One requested field more. -/
def want (layout : Layout) (plan : FieldPlan) (slot : ℕ) (field : String) : FieldPlan :=
  match layout.position fun c => c.1 == field with
  | some ordinal => { plan with wanted := plan.wanted.set ordinal (some slot) }
  | none => { plan with undeclared := true }

def wantAll (layout : Layout) : ℕ → List String → FieldPlan → FieldPlan
  | _, [], plan => plan
  | slot, field :: fields, plan => wantAll layout (slot + 1) fields (plan.want layout slot field)

def new (layout : Layout) (fields : List String) : Except String FieldPlan := do
  layout.validate
  pure (wantAll layout 0 fields ⟨List.replicate layout.fields.length none, false⟩)

/-- The slot that an ordinal feeds. -/
def slotOf (plan : FieldPlan) (i : ℕ) : Option ℕ := (plan.wanted[i]?).join

/-- The slot of a key that is not declared. -/
def extraSlot (plan : FieldPlan) (fields : List String) (key : String) : Option ℕ :=
  if plan.undeclared then fields.findIdx? (· == key) else none

end FieldPlan

/-- A value for a slot, if there is one. -/
def fill (slot : Option ℕ) (v : FieldValue) (out : List FieldValue) : List FieldValue :=
  match slot with
  | some slot => out.set slot v
  | none => out

def readFieldsRaw (layout : Layout) (bytes : Bytes) (fields : List String) (plan : FieldPlan) :
    Except String (List FieldValue) := do
  refuse (plan.wanted.length ≠ layout.fields.length) "projection plan does not match this layout"
  scanRow layout
    (fun i _ out => fill (plan.slotOf i) .null out)
    (fun widths i k col out => readOrPass (readCell widths k col.2) (passCell widths k col.2)
      ((plan.slotOf i).map fun slot v => out.set slot (.ofCell i col.2 v)) out)
    (fun key out => readOrPass (jsonRead 64) (jsonSkip 64)
      ((plan.extraSlot fields key).map fun slot v => out.set slot (.ofExtra (some v))) out)
    (List.replicate fields.length .missing) bytes

/-- The defaults of the fields that a row lacks. -/
def readFields (layout : Layout) (bytes : Bytes) (fields : List String) (plan : FieldPlan) :
    Except String (List FieldValue) := do
  let out ← readFieldsRaw layout bytes fields plan
  pure (if layout.absent.isSome then List.zipWith (absentOr layout) fields out else out)

/-! ## A text, and the place of a vector -/

/-- `TextFieldRef` -/
inductive TextFieldRef where
  | text (s : String)
  | null
  | missing
  | elsewhere

/-- The column is of that name, and a text. -/
def isTextColumn (field : String) (c : String × Kind) : Bool := c.1 == field && decide (c.2 = .text)

def TextFieldRef.ofValue : Option Value → TextFieldRef
  | some (.string s) => text s
  | _ => elsewhere

def readTextFieldInRaw (layout : Layout) (bytes : Bytes) (field : String) : Except String TextFieldRef :=
  match layout.position (isTextColumn field) with
  | none => .ok .elsewhere
  | some declared =>
      scanRow layout (fun i _ v => if i = declared then .null else v)
        (fun widths i k col => readOrPass (readCell widths k col.2) (passCell widths k col.2)
          (if i = declared then some .ofValue else none))
        (fun _ => readOrPass (jsonRead 64) (jsonSkip 64) none)
        .missing bytes

/-- A default cannot be borrowed from the row. -/
def textAbsentOr (layout : Layout) (field : String) : TextFieldRef → TextFieldRef
  | .missing => if (layout.absentDefault field).isSome then .elsewhere else .missing
  | v => v

def readTextFieldIn (layout : Layout) (bytes : Bytes) (field : String) : Except String TextFieldRef := do
  let v ← readTextFieldInRaw layout bytes field
  pure (textAbsentOr layout field v)

/-- The vector column that is asked for. -/
def vectorTarget (layout : Layout) (field : String) (dim : ℕ) : Except String (Option ℕ) :=
  match layout.position fun c => c.1 == field with
  | none => .ok none
  | some i =>
      match layout.fields[i]? with
      | some (_, .vector d) =>
          if d = dim then .ok (some i) else .error "historical vector dimension mismatch"
      | _ => .error "historical vector field kind mismatch"

def isVector : Kind → Bool
  | .vector _ => true
  | _ => false

def locateVector (layout : Layout) (bytes : Bytes) (field : String) (dim : ℕ) : Except String (Option ℕ) := do
  layout.validate
  let target := vectorTarget layout field dim
  let found ← scanRow layout (fun _ _ found => found)
    (fun widths i k col found b => do
      let (_, b) ← passCell widths k col.2 b
      pure (if isVector col.2 = true ∧ target = .ok (some i) then some i else found, b))
    (fun _ => readOrPass (jsonRead 64) (jsonSkip 64) none)
    none bytes
  let _ ← target
  pure found

/-! ## Stepping over -/

/-- A value before the one that is asked for: its length alone is looked at. -/
def stepCell (widths : Bytes) (k : ℕ) (kind : Kind) : Reader String Unit := fun b =>
  match kind with
  | .text | .geo => do
      let (_, b) ← Read.blob b
      pure ((), b)
  | .int => do
      let (_, b) ← Read.take (widthGet widths k + 1) b
      pure ((), b)
  | .real => do
      let (_, b) ← Read.take 8 b
      pure ((), b)
  | .bool => do
      let (_, b) ← Read.take 1 b
      pure ((), b)
  | .json => jsonSkip 65 b
  | .point => do
      let (_, b) ← Read.take 16 b
      pure ((), b)
  | .vector _ => .ok ((), b)

/-- `Stepped` -/
inductive Stepped where
  | missing
  | null
  | value (b : Bytes) (widths : Bytes) (widthIndex : ℕ)

def stepColumns (states : Option Bytes) (widths : Bytes) (declared : ℕ) :
    ℕ → ℕ → List (String × Kind) → Bytes → Except String Stepped
  | _, _, [], _ => .error "the loop returns at the declared ordinal"
  | i, k, col :: cols, b =>
      match stateGet states i with
      | 0 =>
          if i = declared then .ok .missing
          else stepColumns states widths declared (i + 1) (nextInteger k col.2) cols b
      | 1 =>
          if i = declared then .ok .null
          else stepColumns states widths declared (i + 1) (nextInteger k col.2) cols b
      | 2 =>
          if i = declared then .ok (.value b widths k)
          else do
            let (_, b) ← stepCell widths k col.2 b
            stepColumns states widths declared (i + 1) (nextInteger k col.2) cols b
      | _ => .error "invalid field state"

def stepTrusted (layout : Layout) (bytes : Bytes) (declared : ℕ) : Except String Stepped := do
  let (o, b) ← openRow layout bytes
  stepColumns o.states o.widths declared 0 0 layout.fields b

def readFieldInTrustedRaw (layout : Layout) (bytes : Bytes) (field : String) : Except String FieldValue :=
  match layout.position fun c => c.1 == field with
  | none => readFieldIn layout bytes field
  | some declared => do
      let stepped ← stepTrusted layout bytes declared
      match stepped with
      | .missing => pure .missing
      | .null => pure .null
      | .value b widths k =>
          match layout.fields[declared]? with
          | none => throw "index out of bounds"
          | some (_, kind) => do
              let (v, _) ← readCell widths k kind b
              pure (.ofCell declared kind v)

def readFieldInTrusted (layout : Layout) (bytes : Bytes) (field : String) : Except String FieldValue := do
  let v ← readFieldInTrustedRaw layout bytes field
  pure (absentOr layout field v)

def readTextFieldInTrustedRaw (layout : Layout) (bytes : Bytes) (field : String) : Except String TextFieldRef :=
  match layout.position (isTextColumn field) with
  | none => .ok .elsewhere
  | some declared => do
      let stepped ← stepTrusted layout bytes declared
      match stepped with
      | .missing => pure .missing
      | .null => pure .null
      | .value b _ _ => do
          let (s, _) ← Read.text b
          pure (.text s)

def readTextFieldInTrusted (layout : Layout) (bytes : Bytes) (field : String) : Except String TextFieldRef := do
  let v ← readTextFieldInTrustedRaw layout bytes field
  pure (textAbsentOr layout field v)

/-! ## What the readers accept -/

section

variable {layout : Layout} {states : Option Bytes} {widths b rest bytes : Bytes} {i k n : ℕ}
  {cols : List (String × Kind)} {slots : List Slot} {extra : List (String × Value)} {s s' : σ}
  {onNull : ℕ → String × Kind → σ → σ} {step : ℕ → ℕ → String × Kind → σ → Reader String σ}
  {onCell : Bytes → ℕ → ℕ → String × Kind → σ → Reader String σ} {onMember : String → σ → Reader String σ}
  {takeCell : ℕ → String × Kind → Option Value → σ → σ} {takeMember : String → Value → σ → σ}

lemma passCell_skims (widths : Bytes) (k : ℕ) (kind : Kind) :
    Skims (passCell widths k kind) (readCell widths k kind) := by
  cases kind with
  | json => exact (jsonSkip_skims 65).map fun v b => ⟨some v, rfl⟩
  | _ =>
      intro b u rest
      simp only [passCell, bind_eq_ok, Prod.exists, pure_eq_ok, Prod.mk.injEq]
      constructor
      · rintro ⟨v, _, hv, -, rfl⟩
        exact ⟨v, hv⟩
      · rintro ⟨v, hv⟩
        exact ⟨v, rest, hv, trivial, rfl⟩

/-- What a reader has of a value that it reads or passes over. -/
def useOr (use : Option (α → σ)) (s : σ) (v : α) : σ :=
  match use with
  | some f => f v
  | none => s

lemma readOrPass_eq_ok {read : Reader String α} {skip : Reader String Unit} (h : Skims skip read)
    {use : Option (α → σ)} : readOrPass read skip use s b = .ok (s', rest)
      ↔ ∃ v, read b = .ok (v, rest) ∧ s' = useOr use s v := by
  unfold readOrPass
  cases use with
  | some f =>
      simp only [bind_eq_ok, Prod.exists, pure_eq_ok, Prod.mk.injEq, useOr]
      constructor
      · rintro ⟨v, _, hv, rfl, rfl⟩
        exact ⟨v, hv, rfl⟩
      · rintro ⟨v, hv, rfl⟩
        exact ⟨v, rest, hv, rfl, rfl⟩
  | none =>
      simp only [bind_eq_ok, Prod.exists, pure_eq_ok, Prod.mk.injEq, useOr, h _ _ _]
      constructor
      · rintro ⟨_, _, ⟨v, hv⟩, rfl, rfl⟩
        exact ⟨v, hv, rfl⟩
      · rintro ⟨v, hv, rfl⟩
        exact ⟨(), rest, ⟨v, hv⟩, rfl, rfl⟩

lemma eachExtra_eq_ok (hmember : ∀ key s b s' rest, onMember key s b = .ok (s', rest)
      ↔ ∃ v, jsonRead 64 b = .ok (v, rest) ∧ s' = takeMember key v s) {seen : List String} :
    eachExtra layout onMember n seen s b = .ok (s', rest) ↔ ∃ ms, Read.members (jsonRead 64) n seen b = .ok (ms, rest)
      ∧ (∀ m ∈ ms, m.1 ∉ layout.names) ∧ s' = ms.foldl (fun s m => takeMember m.1 m.2 s) s := by
  induction n generalizing seen s b with
  | zero =>
      simp only [eachExtra, Read.members, Except.ok.injEq, Prod.mk.injEq]
      constructor
      · rintro ⟨rfl, rfl⟩
        exact ⟨[], ⟨rfl, rfl⟩, by simp, rfl⟩
      · rintro ⟨_, ⟨rfl, rfl⟩, -, rfl⟩
        exact ⟨rfl, rfl⟩
  | succ n ih =>
      simp only [eachExtra, Read.members, bind_eq_ok, Prod.exists, refuse_eq_ok, hmember _ _ _ _ _, ih, pure_eq_ok,
        Prod.mk.injEq]
      constructor
      · rintro ⟨key, b', hkey, _, hseen, _, hnot, _, b'', ⟨v, hv, rfl⟩, ms, hms, hund, rfl⟩
        exact ⟨(key, v) :: ms, ⟨key, b', hkey, v, b'', hv, (), hseen, ms, rest, hms, rfl, rfl⟩,
          List.forall_mem_cons.2 ⟨hnot, hund⟩, rfl⟩
      · rintro ⟨_, ⟨key, b', hkey, v, b'', hv, _, hseen, ms, _, hms, rfl, rfl⟩, hund, rfl⟩
        rw [List.forall_mem_cons] at hund
        exact ⟨key, b', hkey, (), hseen, (), hund.1, _, b'', ⟨v, hv, rfl⟩, ms, hms, hund.2, rfl⟩

lemma walkExtras_eq_ok (hmember : ∀ key s b s' rest, onMember key s b = .ok (s', rest)
      ↔ ∃ v, jsonRead 64 b = .ok (v, rest) ∧ s' = takeMember key v s) {h : ℕ} :
    walkExtras layout onMember h s b = .ok (s', []) ↔ ∃ extra, Behind h b extra
      ∧ (∀ m ∈ extra, m.1 ∉ layout.names) ∧ s' = extra.foldl (fun s m => takeMember m.1 m.2 s) s := by
  unfold walkExtras Behind
  split_ifs with hflag
  · simp only [bind_eq_ok, Prod.exists, refuse_eq_ok, not_not, eachExtra_eq_ok hmember, jsonRead_object]
    constructor
    · rintro ⟨_, b', hb, _, rfl, n, b'', hcount, ms, hms, hund, rfl⟩
      cases b with
      | nil => cases hb
      | cons x b =>
          cases hb
          exact ⟨ms, ⟨b', n, b'', rfl, hcount, hms⟩, hund, rfl⟩
    · rintro ⟨ms, ⟨b', n, b'', rfl, hcount, hms⟩, hund, rfl⟩
      exact ⟨8, b', rfl, (), rfl, n, b'', hcount, ms, hms, hund, rfl⟩
  · simp only [Except.ok.injEq, Prod.mk.injEq]
    constructor
    · rintro ⟨rfl, rfl⟩
      exact ⟨[], ⟨rfl, rfl⟩, by simp, rfl⟩
    · rintro ⟨_, ⟨rfl, rfl⟩, -, rfl⟩
      exact ⟨rfl, rfl⟩

/-- **A reader of whole rows accepts what parses**, and folds over what it holds. -/
theorem scanRow_eq_ok (hcell : ∀ widths i k col s b s' rest, onCell widths i k col s b = .ok (s', rest)
      ↔ ∃ v, readCell widths k col.2 b = .ok (v, rest) ∧ s' = takeCell i col v s)
    (hmember : ∀ key s b s' rest, onMember key s b = .ok (s', rest)
      ↔ ∃ v, jsonRead 64 b = .ok (v, rest) ∧ s' = takeMember key v s) :
    scanRow layout onNull onCell onMember s bytes = .ok s' ↔ ∃ slots extra, Parses layout bytes slots extra
      ∧ s' = extra.foldl (fun s m => takeMember m.1 m.2 s) (foldSlots onNull takeCell 0 layout.fields slots s) := by
  simp only [scanRow, bind_eq_ok, Prod.exists, walk_eq_ok (hcell _), refuse_eq_ok, not_not, pure_eq_ok, exists_const]
  constructor
  · rintro ⟨o, b, hopen, _, b', ⟨slots, hcols, rfl⟩, _, _, hextra, rfl, rfl⟩
    obtain ⟨extra, hbehind, hund, rfl⟩ := (walkExtras_eq_ok hmember).1 hextra
    exact ⟨slots, extra, ⟨o, b, b', hopen, hcols, hbehind, hund⟩, rfl⟩
  · rintro ⟨slots, extra, ⟨o, b, b', hopen, hcols, hbehind, hund⟩, rfl⟩
    exact ⟨o, b, hopen, _, b', ⟨slots, hcols, rfl⟩, _, [],
      (walkExtras_eq_ok hmember).2 ⟨extra, hbehind, hund, rfl⟩, rfl, rfl⟩

end

end DenseRow

end Engine
