import Sekejap.Lib.ByteOrder
import Sekejap.Lib.Fallible

/-!
# Readers of bytes

A reader takes what it reads off the front of a byte string and returns the rest.  Of a format that
has one spelling for every value, **`Spells`** says all there is to say: the reader takes the spelling
of what it returns, and takes every spelling there is.  Of a format in which a value may be spelt in
several ways, **`Reads`** says the same over the spellings.

Both carry over to counted lists (`Spells.many`, `Reads.many`), and the writer of a list is taken apart
by `writeAll_eq_ok`.  **`Skims`** relates a reader to one that only passes over what it reads.
-/

open Bytes

open Fallible

namespace Reading

variable {ε α β ω : Type} {b rest : Bytes} {e : ε}

/-- A reader returns what it read and the bytes behind it. -/
abbrev Reader (ε α : Type) := Bytes → Except ε (α × Bytes)

/-- **The reader takes the spelling `s x` of what it returns**, for every `x` in `P`, and no other
bytes. -/
def Spells (d : Reader ε α) (s : α → Bytes) (P : α → Prop) : Prop :=
  ∀ b x rest, d b = .ok (x, rest) ↔ P x ∧ b = s x ++ rest

/-- The reader takes the spelling of any `w` that stands for what it returns. -/
def Reads (d : Reader ε α) (s : ω → Bytes) (R : ω → α → Prop) : Prop :=
  ∀ b x rest, d b = .ok (x, rest) ↔ ∃ w, R w x ∧ b = s w ++ rest

lemma Spells.reads {d : Reader ε α} {s : α → Bytes} {P : α → Prop} (h : Spells d s P) :
    Reads d s fun w x => P w ∧ w = x := by
  intro b x rest
  rw [h]
  constructor
  · intro hx
    exact ⟨x, ⟨hx.1, rfl⟩, hx.2⟩
  · rintro ⟨w, ⟨hw, rfl⟩, hb⟩
    exact ⟨hw, hb⟩

/-! ## Bytes and numbers -/

/-- The next `n` bytes. -/
def take (e : ε) (n : ℕ) : Reader ε Bytes := fun b =>
  if n ≤ b.length then .ok (b.take n, b.drop n) else .error e

def byte (e : ε) : Reader ε UInt8
  | [] => .error e
  | x :: b => .ok (x, b)

/-- A number of `n` bytes, most significant byte first. -/
def number (e : ε) (n : ℕ) : Reader ε ℕ := fun b => do
  let (x, b) ← take e n b
  pure (bigEndianNat x, b)

lemma take_eq_ok {n : ℕ} {x : Bytes} : take e n b = .ok (x, rest) ↔ x.length = n ∧ b = x ++ rest := by
  unfold take
  split_ifs with h
  · simp only [Except.ok.injEq, Prod.mk.injEq]
    constructor
    · rintro ⟨rfl, rfl⟩
      simp [h]
    · rintro ⟨rfl, rfl⟩
      simp
  · constructor
    · intro h
      cases h
    · rintro ⟨rfl, rfl⟩
      simp at h

lemma byte_eq_ok {x : UInt8} : byte e b = .ok (x, rest) ↔ b = x :: rest := by
  cases b <;> simp [byte]

lemma number_eq_ok {n x : ℕ} :
    number e n b = .ok (x, rest) ↔ x < 256 ^ n ∧ b = bigEndian n x ++ rest := by
  simp only [number, bind_eq_ok, Prod.exists, take_eq_ok, pure_eq_ok, Prod.mk.injEq]
  constructor
  · rintro ⟨a, rest, ⟨hlen, rfl⟩, rfl, rfl⟩
    exact ⟨hlen ▸ bigEndianNat_lt a, by rw [bigEndian_bigEndianNat hlen]⟩
  · rintro ⟨hx, rfl⟩
    exact ⟨_, _, ⟨length_bigEndian n x, rfl⟩, bigEndianNat_bigEndian hx, rfl⟩

/-! ## Machine words -/

lemma bigEndianNat_lt_of {n : ℕ} (h : b.length = n) : bigEndianNat b < 256 ^ n := h ▸ bigEndianNat_lt b

lemma toNat_u16 (h : b.length = 2) : (UInt16.ofNat (bigEndianNat b)).toNat = bigEndianNat b :=
  Nat.mod_eq_of_lt (bigEndianNat_lt_of h)

lemma toNat_u32 (h : b.length = 4) : (UInt32.ofNat (bigEndianNat b)).toNat = bigEndianNat b :=
  Nat.mod_eq_of_lt (bigEndianNat_lt_of h)

lemma toNat_u64 (h : b.length = 8) : (UInt64.ofNat (bigEndianNat b)).toNat = bigEndianNat b :=
  Nat.mod_eq_of_lt (bigEndianNat_lt_of h)

lemma u16_bigEndian (x : UInt16) : UInt16.ofNat (bigEndianNat (bigEndian 2 x.toNat)) = x := by
  rw [bigEndianNat_bigEndian x.toNat_lt, UInt16.ofNat_toNat]

lemma u32_bigEndian (x : UInt32) : UInt32.ofNat (bigEndianNat (bigEndian 4 x.toNat)) = x := by
  rw [bigEndianNat_bigEndian x.toNat_lt, UInt32.ofNat_toNat]

/-! ## Optional parts -/

lemma rel_and {P : ω → Prop} {R : ω → α → Prop} {o : Option ω} {o' : Option α} :
    Option.Rel (fun w x => P w ∧ R w x) o o' ↔ (∀ w ∈ o, P w) ∧ Option.Rel R o o' := by
  constructor
  · intro h
    cases h with
    | none => exact ⟨by simp, .none⟩
    | some h => exact ⟨by simpa using h.1, .some h.2⟩
  · rintro ⟨hP, h⟩
    cases h with
    | none => exact .none
    | some h => exact .some ⟨hP _ rfl, h⟩

/-- What is there when `c` says so. -/
def optional (c : Prop) [Decidable c] (d : Reader ε α) : Reader ε (Option α) := fun b =>
  if c then do
    let (x, b) ← d b
    pure (some x, b)
  else pure (none, b)

/-- The spelling of a part, or nothing. -/
def optionBytes (s : ω → Bytes) : Option ω → Bytes
  | none => []
  | some w => s w

lemma Reads.optional {d : Reader ε α} {s : ω → Bytes} {R : ω → α → Prop} (h : Reads d s R) (c : Prop)
    [Decidable c] :
    Reads (optional c d) (optionBytes s) fun w x => (w.isSome ↔ c) ∧ Option.Rel R w x := by
  intro b x rest
  unfold Reading.optional
  split_ifs with hc
  · simp only [bind_eq_ok, Prod.exists, h _ _ _, pure_eq_ok, Prod.mk.injEq]
    constructor
    · rintro ⟨x, _, ⟨w, hw, rfl⟩, rfl, rfl⟩
      exact ⟨some w, ⟨by simp [hc], .some hw⟩, rfl⟩
    · rintro ⟨w, ⟨hsome, hw⟩, rfl⟩
      cases hw with
      | none => simp [hc] at hsome
      | @some w x hw => exact ⟨x, rest, ⟨w, hw, rfl⟩, rfl, rfl⟩
  · simp only [pure_eq_ok, Prod.mk.injEq]
    constructor
    · rintro ⟨rfl, rfl⟩
      exact ⟨none, ⟨by simp [hc], .none⟩, rfl⟩
    · rintro ⟨w, ⟨hsome, hw⟩, rfl⟩
      cases hw with
      | none => exact ⟨rfl, rfl⟩
      | some hw => simp [hc] at hsome

lemma Spells.optional {d : Reader ε α} {s : α → Bytes} {P : α → Prop} (h : Spells d s P) (c : Prop)
    [Decidable c] :
    Spells (optional c d) (optionBytes s) fun o => (o.isSome ↔ c) ∧ ∀ x ∈ o, P x := by
  intro b o rest
  rw [h.reads.optional c]
  constructor
  · rintro ⟨w, ⟨hsome, hw⟩, hb⟩
    cases hw with
    | none => exact ⟨⟨hsome, by simp⟩, hb⟩
    | @some w x hw =>
        obtain ⟨hw, rfl⟩ := hw
        exact ⟨⟨hsome, by simpa using hw⟩, hb⟩
  · rintro ⟨⟨hsome, hP⟩, hb⟩
    refine ⟨o, ⟨hsome, ?_⟩, hb⟩
    cases o with
    | none => exact .none
    | some x => exact .some ⟨hP x rfl, rfl⟩

/-! ## Lists -/

/-- So many, one after another. -/
def many (d : Reader ε α) : ℕ → Reader ε (List α)
  | 0, b => .ok ([], b)
  | n + 1, b => do
      let (x, b) ← d b
      let (l, b) ← many d n b
      pure (x :: l, b)

lemma Reads.many {d : Reader ε α} {s : ω → Bytes} {R : ω → α → Prop} (h : Reads d s R) (n : ℕ) :
    Reads (many d n) (fun l => l.flatMap s) fun ws xs => ws.length = n ∧ List.Forall₂ R ws xs := by
  induction n with
  | zero =>
      intro b x rest
      simp only [Reading.many, Except.ok.injEq, Prod.mk.injEq, List.length_eq_zero_iff]
      constructor
      · rintro ⟨rfl, rfl⟩
        exact ⟨[], ⟨rfl, .nil⟩, rfl⟩
      · rintro ⟨ws, ⟨rfl, hx⟩, rfl⟩
        cases hx
        exact ⟨rfl, rfl⟩
  | succ n ih =>
      intro b x rest
      simp only [Reading.many, bind_eq_ok, Prod.exists, h _ _ _, ih _ _ _, pure_eq_ok, Prod.mk.injEq]
      constructor
      · rintro ⟨x, _, ⟨w, hw, rfl⟩, xs, _, ⟨ws, ⟨hlen, hws⟩, rfl⟩, rfl, rfl⟩
        exact ⟨w :: ws, ⟨by simp [hlen], .cons hw hws⟩, by simp⟩
      · rintro ⟨ws, ⟨hlen, hws⟩, rfl⟩
        cases hws with
        | nil => cases hlen
        | @cons w x ws xs hw hws =>
            exact ⟨x, _, ⟨w, hw, by simp⟩, xs, rest, ⟨ws, ⟨by simpa using hlen, hws⟩, rfl⟩, rfl, rfl⟩

lemma Spells.many {d : Reader ε α} {s : α → Bytes} {P : α → Prop} (h : Spells d s P) (n : ℕ) :
    Spells (many d n) (fun l => l.flatMap s) fun l => l.length = n ∧ ∀ x ∈ l, P x := by
  intro b x rest
  rw [h.reads.many n]
  constructor
  · rintro ⟨ws, ⟨hlen, hws⟩, hb⟩
    have heq : ws = x := by
      rw [← List.forall₂_eq_eq_eq]
      exact hws.imp fun _ _ h => h.2
    subst heq
    exact ⟨⟨hlen, fun y hy => (List.forall₂_same.mp hws y hy).1⟩, hb⟩
  · rintro ⟨⟨hlen, hx⟩, hb⟩
    exact ⟨x, ⟨hlen, List.forall₂_same.mpr fun y hy => ⟨hx y hy, rfl⟩⟩, hb⟩

/-- Each one's bytes in turn, or the first refusal. -/
def writeAll (f : α → Except ε Bytes) : List α → Except ε Bytes
  | [] => .ok []
  | x :: l => do
      let b ← f x
      let rest ← writeAll f l
      pure (b ++ rest)

lemma writeAll_eq_ok {f : α → Except ε Bytes} {s : α → Bytes} {P : α → Prop}
    (h : ∀ x b, f x = .ok b ↔ P x ∧ b = s x) {l : List α} :
    writeAll f l = .ok b ↔ (∀ x ∈ l, P x) ∧ b = l.flatMap s := by
  induction l generalizing b with
  | nil => simp [writeAll, eq_comm]
  | cons x l ih =>
      simp only [writeAll, bind_eq_ok, h, ih, pure_eq_ok, List.forall_mem_cons, List.flatMap_cons]
      constructor
      · rintro ⟨_, ⟨hx, rfl⟩, _, ⟨hl, rfl⟩, rfl⟩
        exact ⟨⟨hx, hl⟩, rfl⟩
      · rintro ⟨⟨hx, hl⟩, rfl⟩
        exact ⟨_, ⟨hx, rfl⟩, _, ⟨hl, rfl⟩, rfl⟩

/-! ## Skimming -/

/-- **A reader that only passes over what another one reads**: it takes the same bytes. -/
def Skims (skim : Reader ε Unit) (d : Reader ε α) : Prop :=
  ∀ b u rest, skim b = .ok (u, rest) ↔ ∃ x, d b = .ok (x, rest)

lemma Skims.const (x : α) : Skims (fun b => (.ok ((), b) : Except ε (Unit × Bytes))) fun b => .ok (x, b) := by
  intro b u rest
  simp

/-- One reader, and then two of which one skims what the other reads. -/
lemma Skims.bind {d : Reader ε β} {skim : β × Bytes → Except ε (Unit × Bytes)}
    {read : β × Bytes → Except ε (α × Bytes)} (h : ∀ x, Skims (fun b => skim (x, b)) fun b => read (x, b)) :
    Skims (fun b => d b >>= skim) fun b => d b >>= read := by
  intro b u rest
  simp only [bind_eq_ok, Prod.exists, h _ _ _ _]
  constructor
  · rintro ⟨y, b', hd, x, hx⟩
    exact ⟨x, y, b', hd, hx⟩
  · rintro ⟨x, y, b', hd, hx⟩
    exact ⟨y, b', hd, x, hx⟩

/-- What the other one makes of the value does not matter. -/
lemma Skims.map {skim : Reader ε Unit} {d : Reader ε α} {f : α × Bytes → Except ε (β × Bytes)} (h : Skims skim d)
    (hf : ∀ x b, ∃ y, f (x, b) = .ok (y, b)) : Skims skim fun b => d b >>= f := by
  intro b u rest
  simp only [h _ _ _, bind_eq_ok, Prod.exists]
  constructor
  · rintro ⟨x, hx⟩
    obtain ⟨y, hy⟩ := hf x rest
    exact ⟨y, x, rest, hx, hy⟩
  · rintro ⟨y, x, b', hx, hy⟩
    obtain ⟨y', hy'⟩ := hf x b'
    rw [hy', Except.ok.injEq, Prod.mk.injEq] at hy
    exact ⟨x, hy.2 ▸ hx⟩

end Reading
