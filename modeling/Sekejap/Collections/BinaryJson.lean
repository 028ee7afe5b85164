import Sekejap.Collections.Document
import Sekejap.Lib.Bytes

/-!
# Binary JSON

The bag of an edge, like the undeclared part of a row, is stored as a JSON value in binary
(`json_write`, `json_read` of `core/engine/src/lib.rs`): a tag byte, then a varint, a signed integer of
one to eight bytes, eight bytes of a float, or a counted sequence.  The members of an object are
written in the order of their keys and read in any order.

* **`readBinaryJson_binaryJson`** — what was written is read back, with the members of every object
  in the order of their keys.
-/

open Bytes

open Fallible

namespace Engine

/-! ## Values as `serde_json` builds them -/

/-- An integer is an `i64` or a `u64`, and a float is finite. -/
def Number.wellFormed : Number → Prop
  | .int n => -2 ^ 63 ≤ n ∧ n < 2 ^ 64
  | .float bits => bits < 2 ^ 64 ∧ isFinite bits = true

/-- A value of `serde_json`: its numbers are, and no object has a key twice. -/
inductive Value.WellFormed : Value → Prop
  | null : WellFormed .null
  | bool (b : Bool) : WellFormed (.bool b)
  | number {n : Number} (h : n.wellFormed) : WellFormed (.number n)
  | string (s : String) : WellFormed (.string s)
  | array {items : List Value} (h : ∀ v ∈ items, WellFormed v) : WellFormed (.array items)
  | object {members : List (String × Value)} (hk : (members.map Prod.fst).Nodup)
      (h : ∀ m ∈ members, WellFormed m.2) : WellFormed (.object members)

/-! ## Writing -/

/-- Seven bits a byte, the lowest first; a `u64` has at most ten such groups. -/
def groups : ℕ → ℕ → Bytes
  | 0, x => [UInt8.ofNat x]
  | n + 1, x => if x < 128 then [UInt8.ofNat x] else UInt8.ofNat (x % 128 + 128) :: groups n (x / 128)

def uv (x : ℕ) : Bytes := groups 9 x

def blob (b : Bytes) : Bytes := uv b.length ++ b

/-- The bytes of a text. -/
def utf8 (s : String) : Bytes := s.toUTF8.data.toList

/-- `to_be_bytes` -/
def beBytes (n x : ℕ) : Bytes := (leBytes n x).reverse

/-- Leading bytes that only repeat the sign are left out. -/
def trimSign : Bytes → Bytes
  | a :: b :: rest =>
      if (a = 0 ∧ b < 128) ∨ (a = 255 ∧ 128 ≤ b) then trimSign (b :: rest) else a :: b :: rest
  | l => l

/-- `int`: how many bytes, then the bytes. -/
def writeInt (x : ℤ) : Bytes :=
  let b := trimSign (beBytes 8 (x % 2 ^ 64).toNat)
  UInt8.ofNat b.length :: b

def writeNumber : Number → Except String Bytes
  | .int x =>
      if -2 ^ 63 ≤ x ∧ x < 2 ^ 63 then .ok (3 :: writeInt x)
      else if 0 ≤ x ∧ x < 2 ^ 64 then .ok (4 :: uv x.toNat)
      else .error "number range"
  | .float bits => .ok (5 :: leBytes 8 bits)

/-- Ascending key order. -/
def keyLe {α : Type} (a b : String × α) : Bool := decide (a.1 ≤ b.1)

/-- `sorted_entries` -/
def sortedEntries {α : Type} (members : List (String × α)) : List (String × α) :=
  members.mergeSort keyLe

mutual

def jsonWrite (v : Value) (depth : ℕ) : Except String Bytes :=
  if 64 < depth then .error "nesting limit"
  else
    match v with
    | .null => .ok [0]
    | .bool false => .ok [1]
    | .bool true => .ok [2]
    | .number n => writeNumber n
    | .string s => .ok (6 :: blob (utf8 s))
    | .array items => do
        let written ← writeItems items (depth + 1)
        pure (7 :: (uv items.length ++ written.flatten))
    | .object members => do
        let written ← writeMembers members (depth + 1)
        pure (8 :: (uv members.length
          ++ (sortedEntries written).flatMap fun m => blob (utf8 m.1) ++ m.2))

def writeItems : List Value → ℕ → Except String (List Bytes)
  | [], _ => .ok []
  | v :: items, depth => do
      let b ← jsonWrite v depth
      let rest ← writeItems items depth
      pure (b :: rest)

/-- The members of an object, before they are put in order. -/
def writeMembers : List (String × Value) → ℕ → Except String (List (String × Bytes))
  | [], _ => .ok []
  | m :: members, depth => do
      let b ← jsonWrite m.2 depth
      let rest ← writeMembers members depth
      pure ((m.1, b) :: rest)

end

def binaryJson (v : Value) : Except String Bytes := jsonWrite v 0

/-! ## Reading -/

namespace Read

/-- Each of these takes what it reads off the front, and returns the rest. -/
def take (n : ℕ) (b : Bytes) : Except String (Bytes × Bytes) :=
  if n ≤ b.length then .ok (b.take n, b.drop n) else .error "truncated record"

def byte : Bytes → Except String (UInt8 × Bytes)
  | [] => .error "truncated record"
  | x :: b => .ok (x, b)

/-- The groups of a varint from the `i`-th on, over the `n` collected so far. -/
def uvGroups : ℕ → ℕ → ℕ → Bytes → Except String (ℕ × Bytes)
  | 0, _, _, _ => .error "varint overflow"
  | left + 1, i, n, b => do
      let (x, b) ← byte b
      refuse (i = 9 ∧ 1 < x) "varint overflow"
      let n := n + x.toNat % 128 * 128 ^ i
      if x < 128 then do
        refuse (0 < i ∧ x = 0) "noncanonical varint"
        pure (n, b)
      else uvGroups left (i + 1) n b

def uv (b : Bytes) : Except String (ℕ × Bytes) := uvGroups 10 0 0 b

def count (b : Bytes) : Except String (ℕ × Bytes) := do
  let (n, b) ← uv b
  refuse (b.length < n) "length/count exceeds remaining bytes"
  pure (n, b)

def blob (b : Bytes) : Except String (Bytes × Bytes) := do
  let (n, b) ← count b
  take n b

def text (b : Bytes) : Except String (String × Bytes) := do
  let (x, b) ← blob b
  let s ← orElse (String.fromUTF8? ⟨x.toArray⟩) "invalid utf-8"
  pure (s, b)

end Read

/-- `i64::from_be_bytes`, for any number of bytes. -/
def signed (b : Bytes) : ℤ :=
  if b.head?.any (128 ≤ ·) then (leNat b.reverse : ℤ) - 256 ^ b.length else leNat b.reverse

namespace Read

/-- The missing bytes repeat the sign. -/
def int (b : Bytes) : Except String (ℤ × Bytes) := do
  let (n, b) ← byte b
  refuse (n = 0 ∨ 8 < n) "integer width"
  let (x, b) ← take n.toNat b
  let sign : UInt8 := if x.head?.any (128 ≤ ·) then 255 else 0
  pure (signed (List.replicate (8 - n.toNat) sign ++ x), b)

/-- The bits of a finite float. -/
def float (b : Bytes) : Except String (ℕ × Bytes) := do
  let (x, b) ← take 8 b
  refuse (isFinite (leNat x) = false) "nonfinite float"
  pure (leNat x, b)

/-- So many items, one after another. -/
def items (read : Bytes → Except String (Value × Bytes)) : ℕ → Bytes → Except String (List Value × Bytes)
  | 0, b => .ok ([], b)
  | n + 1, b => do
      let (v, b) ← read b
      let (rest, b) ← items read n b
      pure (v :: rest, b)

/-- So many members; `seen` are the keys that came before. -/
def members (read : Bytes → Except String (Value × Bytes)) :
    ℕ → List String → Bytes → Except String (List (String × Value) × Bytes)
  | 0, _, b => .ok ([], b)
  | n + 1, seen, b => do
      let (k, b) ← text b
      let (v, b) ← read b
      refuse (k ∈ seen) "duplicate object key"
      let (rest, b) ← members read n (k :: seen) b
      pure ((k, v) :: rest, b)

end Read

/-- `json_read` at depth `65 - left`. -/
def jsonRead : ℕ → Bytes → Except String (Value × Bytes)
  | 0, _ => .error "nesting limit"
  | left + 1, b => do
      let (tag, b) ← Read.byte b
      if tag = 0 then pure (.null, b)
      else if tag = 1 then pure (.bool false, b)
      else if tag = 2 then pure (.bool true, b)
      else if tag = 3 then do
        let (x, b) ← Read.int b
        pure (.number (.int x), b)
      else if tag = 4 then do
        let (x, b) ← Read.uv b
        pure (.number (.int x), b)
      else if tag = 5 then do
        let (bits, b) ← Read.float b
        pure (.number (.float bits), b)
      else if tag = 6 then do
        let (s, b) ← Read.text b
        pure (.string s, b)
      else if tag = 7 then do
        let (n, b) ← Read.count b
        let (items, b) ← Read.items (jsonRead left) n b
        pure (.array items, b)
      else if tag = 8 then do
        let (n, b) ← Read.count b
        let (members, b) ← Read.members (jsonRead left) n [] b
        pure (.object members, b)
      else throw "unknown binary JSON tag"

def readBinaryJson (b : Bytes) : Except String Value := do
  let (v, rest) ← jsonRead 65 b
  refuse (rest ≠ []) "trailing bytes"
  pure v

/-! ## Reading what was written -/

mutual

/-- A value with the members of every object in the order of their keys. -/
def Value.canonical : Value → Value
  | .array items => .array (canonicalItems items)
  | .object members => .object (sortedEntries (canonicalMembers members))
  | v => v

def canonicalItems : List Value → List Value
  | [] => []
  | v :: items => v.canonical :: canonicalItems items

def canonicalMembers : List (String × Value) → List (String × Value)
  | [] => []
  | m :: members => (m.1, m.2.canonical) :: canonicalMembers members

end

section

variable {rest : Bytes}

lemma toNat_ofNat_of_lt {x : ℕ} (h : x < 256) : (UInt8.ofNat x).toNat = x := by
  simp [Nat.mod_eq_of_lt h]

/-- The groups that are left of a varint. -/
lemma uvGroups_groups : ∀ (f i n x : ℕ), f + i = 9 → x * 128 ^ i < 2 ^ 64 → (0 < i → 0 < x) →
    Read.uvGroups (f + 1) i n (groups f x ++ rest) = .ok (n + x * 128 ^ i, rest)
  | 0, i, n, x, hi, hx, hpos => by
      obtain rfl : i = 9 := by omega
      have hx2 : x < 2 := by
        by_contra hge
        have : 2 * 128 ^ 9 ≤ x * 128 ^ 9 := Nat.mul_le_mul_right _ (by omega)
        omega
      have hx0 : x ≠ 0 := (hpos (by omega)).ne'
      obtain rfl : x = 1 := by omega
      rfl
  | f + 1, i, n, x, hi, hx, hpos => by
      rw [groups, Read.uvGroups]
      split_ifs with h128
      · have hb : (UInt8.ofNat x).toNat = x := toNat_ofNat_of_lt (by omega)
        have hlt : UInt8.ofNat x < 128 := by
          rw [UInt8.lt_iff_toNat_lt, hb]
          exact h128
        have hz : ¬ (0 < i ∧ UInt8.ofNat x = 0) := by
          rintro ⟨h0, hz⟩
          have := congrArg UInt8.toNat hz
          rw [hb] at this
          exact (hpos h0).ne' this
        have h9 : ¬ (i = 9 ∧ 1 < UInt8.ofNat x) := by omega
        simp only [Read.byte, List.cons_append, List.nil_append, bind, Except.bind, refuse, if_neg h9,
          if_pos hlt, if_neg hz, pure, Except.pure, hb, Nat.mod_eq_of_lt h128]
      · have hb : (UInt8.ofNat (x % 128 + 128)).toNat = x % 128 + 128 :=
          toNat_ofNat_of_lt (by omega)
        have hge : ¬ UInt8.ofNat (x % 128 + 128) < 128 := by
          rw [UInt8.lt_iff_toNat_lt, hb]
          exact Nat.not_lt.2 (Nat.le_add_left 128 _)
        have h9 : ¬ (i = 9 ∧ 1 < UInt8.ofNat (x % 128 + 128)) := by omega
        have hsum : x % 128 * 128 ^ i + x / 128 * 128 ^ (i + 1) = x * 128 ^ i := by
          rw [pow_succ, mul_comm (128 ^ i) 128, ← mul_assoc, ← add_mul, Nat.mod_add_div' x 128]
        have ih := uvGroups_groups f (i + 1) (n + x % 128 * 128 ^ i) (x / 128) (by omega) (by omega)
          fun _ => Nat.div_pos (by omega) (by norm_num)
        simp only [Read.byte, List.cons_append, bind, Except.bind, refuse, if_neg h9, if_neg hge, hb,
          Nat.add_mod_right, Nat.mod_mod]
        rw [ih, add_assoc, hsum]

lemma read_uv {x : ℕ} (h : x < 2 ^ 64) : Read.uv (uv x ++ rest) = .ok (x, rest) := by
  have hgroups : Read.uvGroups 10 0 0 (groups 9 x ++ rest) = .ok (0 + x * 128 ^ 0, rest) :=
    uvGroups_groups 9 0 0 x rfl (by simpa using h) (by simp)
  rw [Read.uv, uv, hgroups, pow_zero, mul_one, zero_add]

lemma read_count {x : ℕ} (h : x < 2 ^ 64) (hle : x ≤ rest.length) :
    Read.count (uv x ++ rest) = .ok (x, rest) := by
  simp [Read.count, read_uv h, bind, Except.bind, refuse, Nat.not_lt.2 hle, pure, Except.pure]

lemma read_take {x : Bytes} {n : ℕ} (h : x.length = n) : Read.take n (x ++ rest) = .ok (x, rest) := by
  simp [Read.take, ← h]

lemma read_blob {x : Bytes} (h : x.length < 2 ^ 64) : Read.blob (blob x ++ rest) = .ok (x, rest) := by
  have hcount : Read.count (uv x.length ++ (x ++ rest)) = .ok (x.length, x ++ rest) :=
    read_count h (by simp)
  rw [blob, List.append_assoc, Read.blob, hcount]
  exact read_take rfl

lemma fromUTF8_utf8 (s : String) : String.fromUTF8? ⟨(utf8 s).toArray⟩ = some s := by
  have hs : (⟨(utf8 s).toArray⟩ : ByteArray) = s.toUTF8 := by simp [utf8]
  rw [hs, String.fromUTF8?]
  exact dif_pos s.isValidUTF8

lemma read_text {s : String} (h : (utf8 s).length < 2 ^ 64) :
    Read.text (blob (utf8 s) ++ rest) = .ok (s, rest) := by
  rw [Read.text, read_blob h]
  simp [bind, Except.bind, fromUTF8_utf8, orElse, pure, Except.pure]

lemma leNat_reverse_cons (a : UInt8) (l : Bytes) :
    leNat (a :: l).reverse = leNat l.reverse + a.toNat * 256 ^ l.length := by
  have happend : ∀ m : Bytes, leNat (m ++ [a]) = leNat m + a.toNat * 256 ^ m.length := by
    intro m
    induction m with
    | nil => simp [leNat]
    | cons c m ih =>
        rw [List.cons_append, leNat, leNat, ih, List.length_cons, pow_succ]
        ring
  rw [List.reverse_cons, happend, List.length_reverse]

/-- The first byte as a signed one. -/
lemma signed_cons (a : UInt8) (l : Bytes) :
    signed (a :: l) = leNat l.reverse + ((a.toNat : ℤ) - if 128 ≤ a then 256 else 0) * 256 ^ l.length := by
  rw [signed, leNat_reverse_cons, List.length_cons, pow_succ]
  simp only [List.head?_cons, Option.any_some, decide_eq_true_eq]
  split_ifs with h
  · push_cast
    ring
  · push_cast
    ring

/-- A sign byte in front changes nothing. -/
lemma signed_cons_sign {a b : UInt8} {l : Bytes} (h : (a = 0 ∧ b < 128) ∨ (a = 255 ∧ 128 ≤ b)) :
    signed (a :: b :: l) = signed (b :: l) := by
  rw [signed_cons a, leNat_reverse_cons, signed_cons b, List.length_cons, pow_succ]
  obtain ⟨rfl, hb⟩ | ⟨rfl, hb⟩ := h
  · rw [if_neg (by decide), if_neg (UInt8.not_le.2 hb)]
    push_cast
    simp
  · rw [if_pos (by decide), if_pos hb]
    push_cast
    ring_nf

lemma signed_trimSign (l : Bytes) : signed (trimSign l) = signed l := by
  induction l with
  | nil => rfl
  | cons a l ih =>
      cases l with
      | nil => rfl
      | cons b l =>
          rw [trimSign]
          split_ifs with h
          · rw [ih, signed_cons_sign h]
          · rfl

lemma trimSign_length {l : Bytes} (h : l ≠ []) :
    0 < (trimSign l).length ∧ (trimSign l).length ≤ l.length := by
  induction l with
  | nil => exact absurd rfl h
  | cons a l ih =>
      cases l with
      | nil => simp [trimSign]
      | cons b l =>
          rw [trimSign]
          split_ifs
          · obtain ⟨hpos, hle⟩ := ih (by simp)
            exact ⟨hpos, hle.trans (by simp)⟩
          · simp

/-- The bytes a reader puts in front. -/
lemma signed_extend {x : Bytes} (h : x ≠ []) (n : ℕ) :
    signed (List.replicate n (if x.head?.any (128 ≤ ·) then (255 : UInt8) else 0) ++ x)
      = signed x := by
  obtain ⟨b, l, rfl⟩ := List.exists_cons_of_ne_nil h
  induction n with
  | zero => rfl
  | succ n ih =>
      rw [List.replicate_succ, List.cons_append, ← ih]
      generalize hs : (if (b :: l).head?.any (128 ≤ ·) then (255 : UInt8) else 0) = s
      have hsign : ∀ c : UInt8, (128 ≤ c ↔ 128 ≤ b) → (s = 0 ∧ c < 128) ∨ (s = 255 ∧ 128 ≤ c) := by
        intro c hc
        by_cases hb : 128 ≤ b
        · exact Or.inr ⟨by rw [← hs]; simp [hb], hc.2 hb⟩
        · refine Or.inl ⟨by rw [← hs]; simp [hb], UInt8.not_le.1 fun hle => hb (hc.1 hle)⟩
      cases n with
      | zero => exact signed_cons_sign (hsign b Iff.rfl)
      | succ n =>
          refine signed_cons_sign (hsign s ?_)
          rw [← hs]
          by_cases hb : 128 ≤ b <;> simp [hb]

/-- The eight bytes of an `i64`. -/
lemma signed_beBytes {x : ℤ} (hlo : -2 ^ 63 ≤ x) (hhi : x < 2 ^ 63) :
    signed (beBytes 8 (x % 2 ^ 64).toNat) = x := by
  set m := (x % 2 ^ 64).toNat with hm
  have hm64 : m < 256 ^ 8 := by omega
  have hnat : leNat (beBytes 8 m).reverse = m := by
    rw [beBytes, List.reverse_reverse, leNat_leBytes_of_lt hm64]
  have hlen : (beBytes 8 m).length = 8 := by simp [beBytes]
  obtain ⟨a, l, hal⟩ := List.exists_cons_of_length_eq_add_one hlen
  have hl : l.length = 7 := by simpa [hal] using hlen
  have hlow := leNat_lt l.reverse
  rw [List.length_reverse, hl] at hlow
  rw [hal] at hnat ⊢
  rw [leNat_reverse_cons, hl] at hnat
  rw [signed_cons, hl]
  have ha : 128 ≤ a ↔ 128 ≤ a.toNat := by
    rw [UInt8.le_iff_toNat_le]
    rfl
  have hxm : (m : ℤ) = x % 2 ^ 64 := by omega
  have hcast : (m : ℤ) = leNat l.reverse + a.toNat * 256 ^ 7 := by
    rw [← hnat]
    push_cast
    rfl
  split_ifs with h
  · have h128 := ha.1 h
    have hneg : (m : ℤ) = x + 2 ^ 64 := by omega
    linear_combination hneg - hcast
  · have h128 : ¬ 128 ≤ a.toNat := fun h' => h (ha.2 h')
    have hpos : (m : ℤ) = x := by omega
    linear_combination hpos - hcast

lemma read_int {x : ℤ} (hlo : -2 ^ 63 ≤ x) (hhi : x < 2 ^ 63) :
    Read.int (writeInt x ++ rest) = .ok (x, rest) := by
  rw [writeInt]
  set b := beBytes 8 (x % 2 ^ 64).toNat with hb
  have hb8 : b.length = 8 := by simp [hb, beBytes]
  have hne : b ≠ [] := List.ne_nil_of_length_pos (by omega)
  obtain ⟨hpos, hle⟩ := trimSign_length hne
  have hn : (UInt8.ofNat (trimSign b).length).toNat = (trimSign b).length :=
    toNat_ofNat_of_lt (by omega)
  have hwidth : ¬ (UInt8.ofNat (trimSign b).length = 0 ∨ 8 < UInt8.ofNat (trimSign b).length) := by
    rintro (h0 | h8)
    · have := congrArg UInt8.toNat h0
      rw [hn] at this
      exact hpos.ne' this
    · rw [UInt8.lt_iff_toNat_lt, hn] at h8
      exact absurd h8 (Nat.not_lt.2 (hle.trans hb8.le))
  have hx : signed (trimSign b) = x := (signed_trimSign b).trans (signed_beBytes hlo hhi)
  simp only [Read.int, Read.byte, List.cons_append, bind, Except.bind, refuse, if_neg hwidth, hn,
    read_take rfl, pure, Except.pure, signed_extend (List.ne_nil_of_length_pos hpos), hx]

lemma read_float {bits : ℕ} (h : (Number.float bits).wellFormed) :
    Read.float (leBytes 8 bits ++ rest) = .ok (bits, rest) := by
  have hbits : leNat (leBytes 8 bits) = bits := leNat_leBytes_of_lt h.1
  simp [Read.float, read_take (length_leBytes 8 bits), bind, Except.bind, refuse, hbits, h.2, pure,
    Except.pure]

lemma read_number {n : Number} {b : Bytes} (h : n.wellFormed) (hw : writeNumber n = .ok b) (left : ℕ) :
    jsonRead (left + 1) (b ++ rest) = .ok (.number n, rest) := by
  cases n with
  | float bits =>
      cases hw
      simp [jsonRead, Read.byte, bind, Except.bind, read_float h, pure, Except.pure]
  | int x =>
      rw [writeNumber] at hw
      split_ifs at hw with h64 hu64
      · cases hw
        simp [jsonRead, Read.byte, bind, Except.bind, read_int h64.1 h64.2, pure, Except.pure]
      · cases hw
        have hlt : x.toNat < 2 ^ 64 := by omega
        simp [jsonRead, Read.byte, bind, Except.bind, read_uv hlt, pure, Except.pure,
          Int.toNat_of_nonneg hu64.1]

lemma length_uv_pos (x : ℕ) : 0 < (uv x).length := by
  rw [uv, groups]
  split_ifs <;> simp

lemma jsonWrite_length_pos {v : Value} {depth : ℕ} {b : Bytes} (h : jsonWrite v depth = .ok b) :
    0 < b.length := by
  rw [jsonWrite.eq_def] at h
  split_ifs at h
  cases v with
  | null => cases h; simp
  | bool x => cases x <;> cases h <;> simp
  | number n =>
      cases n with
      | int x =>
          simp only [writeNumber] at h
          split_ifs at h <;> cases h <;> simp
      | float bits => cases h; simp
  | string s => cases h; simp
  | array items =>
      simp only [bind_eq_ok, pure_eq_ok] at h
      obtain ⟨written, -, rfl⟩ := h
      simp
  | object members =>
      simp only [bind_eq_ok, pure_eq_ok] at h
      obtain ⟨written, -, rfl⟩ := h
      simp

/-- Every item takes a byte or more. -/
lemma read_items_length : ∀ (items : List Value) (depth : ℕ) (written : List Bytes),
    writeItems items depth = .ok written → items.length ≤ written.flatten.length
  | [], _, _, _ => by simp
  | v :: items, depth, written, hw => by
      simp only [writeItems, bind_eq_ok, pure_eq_ok] at hw
      obtain ⟨b, hb, ws, hws, rfl⟩ := hw
      have hpos := jsonWrite_length_pos hb
      have ih := read_items_length items depth ws hws
      simp only [List.length_cons, List.flatten_cons, List.length_append]
      omega

/-- A member of an object that has been written: its key, its value and the value's bytes. -/
structure WrittenMember where
  key : String
  value : Value
  bytes : Bytes

/-- The bytes of a member. -/
def WrittenMember.encoded (w : WrittenMember) : Bytes := blob (utf8 w.key) ++ w.bytes

lemma WrittenMember.encoded_pos (w : WrittenMember) : 0 < w.encoded.length := by
  have := length_uv_pos (utf8 w.key).length
  simp only [encoded, blob, List.length_append]
  omega

/-- The members are read back in the order they were written in. -/
lemma read_members {left : ℕ} : ∀ (l : List WrittenMember) (seen : List String),
    (∀ w ∈ l, (utf8 w.key).length < 2 ^ 64
      ∧ ∀ rest, jsonRead left (w.bytes ++ rest) = .ok (w.value.canonical, rest)) →
    (l.map WrittenMember.key).Nodup → (∀ k ∈ l.map WrittenMember.key, k ∉ seen) →
    Read.members (jsonRead left) l.length seen
      ((l.flatMap WrittenMember.encoded) ++ rest)
      = .ok (l.map fun w => (w.key, w.value.canonical), rest)
  | [], _, _, _, _ => rfl
  | w :: l, seen, hread, hnodup, hseen => by
      obtain ⟨hkey, hval⟩ := hread w List.mem_cons_self
      rw [List.map_cons, List.nodup_cons] at hnodup
      have hw : w.key ∉ seen := hseen w.key (by simp)
      have ih := read_members l (w.key :: seen) (fun w' hw' => hread w' (List.mem_cons_of_mem _ hw'))
        hnodup.2 fun k hk => by
          rw [List.mem_cons, not_or]
          exact ⟨fun he => hnodup.1 (he ▸ hk), hseen k (List.mem_cons_of_mem _ hk)⟩
      simp only [List.flatMap_cons, WrittenMember.encoded, List.append_assoc, List.length_cons,
        Read.members, read_text hkey, hval, bind, Except.bind, refuse, if_neg hw, ih, pure, Except.pure,
        List.map_cons]

lemma mem_sortedEntries {α : Type} (l : List (String × α)) (m : String × α) :
    m ∈ sortedEntries l ↔ m ∈ l := List.mem_mergeSort

lemma sublist_flatMap {α : Type} {a : α} {l : List α} (f : α → Bytes) (h : a ∈ l) :
    (f a).Sublist (l.flatMap f) := by
  obtain ⟨s, t, rfl⟩ := List.append_of_mem h
  rw [List.flatMap_append, List.flatMap_cons]
  exact (List.sublist_append_left _ _).trans (List.sublist_append_right _ _)

/-- Members in the order of their keys. -/
def sortedMembers (l : List WrittenMember) : List WrittenMember :=
  l.mergeSort fun a b => decide (a.key ≤ b.key)

lemma sortedEntries_map {α : Type} (f : WrittenMember → α) (l : List WrittenMember) :
    sortedEntries (l.map fun w => (w.key, f w)) = (sortedMembers l).map fun w => (w.key, f w) := by
  rw [sortedEntries, sortedMembers, List.map_mergeSort]
  intro a _ b _
  rfl

lemma canonicalMembers_eq (members : List (String × Value)) :
    canonicalMembers members = members.map fun m => (m.1, m.2.canonical) := by
  induction members with
  | nil => rfl
  | cons m members ih => rw [canonicalMembers, ih, List.map_cons]

lemma length_le_flatMap (l : List WrittenMember) : l.length ≤ (l.flatMap WrittenMember.encoded).length := by
  induction l with
  | nil => simp
  | cons w l ih =>
      have := w.encoded_pos
      simp only [List.length_cons, List.flatMap_cons, List.length_append]
      omega

lemma read_object {left : ℕ} {l : List WrittenMember} (hk : (l.map WrittenMember.key).Nodup)
    (hlen : ((sortedMembers l).flatMap WrittenMember.encoded).length < 2 ^ 64)
    (hl : ∀ w ∈ l, ∀ rest, jsonRead left (w.bytes ++ rest) = .ok (w.value.canonical, rest)) :
    jsonRead (left + 1) (8 :: (uv l.length ++ (sortedMembers l).flatMap WrittenMember.encoded) ++ rest)
      = .ok (.object (sortedEntries (l.map fun w => (w.key, w.value.canonical))), rest) := by
  have hlength : (sortedMembers l).length = l.length := List.length_mergeSort l
  have hperm : (sortedMembers l).Perm l := List.mergeSort_perm l _
  have hle := length_le_flatMap (sortedMembers l)
  have hn : Read.count (uv l.length ++ ((sortedMembers l).flatMap WrittenMember.encoded ++ rest))
      = .ok (l.length, (sortedMembers l).flatMap WrittenMember.encoded ++ rest) :=
    read_count (by omega) (by rw [List.length_append]; omega)
  have hread : Read.members (jsonRead left) (sortedMembers l).length []
      ((sortedMembers l).flatMap WrittenMember.encoded ++ rest)
      = .ok ((sortedMembers l).map fun w => (w.key, w.value.canonical), rest) := by
    refine read_members _ [] (fun w hw => ⟨?_, hl w (hperm.mem_iff.1 hw)⟩)
      ((hperm.map WrittenMember.key).nodup_iff.2 hk) (by simp)
    have hle := (sublist_flatMap WrittenMember.encoded hw).length_le
    simp only [WrittenMember.encoded, blob, List.length_append] at hle
    omega
  rw [hlength] at hread
  simp [jsonRead, Read.byte, bind, Except.bind, hn, hread, pure, Except.pure, sortedEntries_map]

mutual

lemma read_value : ∀ (v : Value) (depth : ℕ) (b : Bytes), v.WellFormed →
    jsonWrite v depth = .ok b → b.length < 2 ^ 64 →
    ∀ rest, jsonRead (65 - depth) (b ++ rest) = .ok (v.canonical, rest)
  | v, depth, b, hv, hb, hlen => by
      intro rest
      rw [jsonWrite.eq_def] at hb
      split_ifs at hb with hdepth
      obtain ⟨left, hleft⟩ : ∃ left, 65 - depth = left + 1 := ⟨64 - depth, by omega⟩
      rw [hleft]
      cases hv with
      | null =>
          cases hb
          rfl
      | bool x =>
          cases x <;> cases hb <;> rfl
      | number hn => exact read_number hn hb left
      | string s =>
          cases hb
          have hs : (utf8 s).length < 2 ^ 64 := by
            simp only [List.length_cons, blob, List.length_append] at hlen
            omega
          simp [jsonRead, Read.byte, bind, Except.bind, read_text hs, pure, Except.pure,
            Value.canonical]
      | @array items hitems =>
          simp only [bind_eq_ok, pure_eq_ok] at hb
          obtain ⟨written, hwritten, rfl⟩ := hb
          simp only [List.length_cons, List.length_append] at hlen
          have hread := read_items items (depth + 1) written hitems hwritten (by omega) rest
          have hcount := read_items_length items (depth + 1) written hwritten
          have hn : Read.count (uv items.length ++ (written.flatten ++ rest))
              = .ok (items.length, written.flatten ++ rest) :=
            read_count (by omega) (by rw [List.length_append]; omega)
          rw [show 65 - (depth + 1) = left by omega] at hread
          simp [jsonRead, Read.byte, bind, Except.bind, hn, hread, pure, Except.pure,
            Value.canonical]
      | @object members hk hmembers =>
          simp only [bind_eq_ok, pure_eq_ok] at hb
          obtain ⟨written, hwritten, rfl⟩ := hb
          have hsub : ∀ m ∈ written, m.2.length < 2 ^ 64 := by
            intro m hm
            have hle := List.Sublist.length_le
              (sublist_flatMap (fun m => blob (utf8 m.1) ++ m.2) ((mem_sortedEntries _ _).2 hm))
            simp only [List.length_cons, List.length_append] at hlen hle
            omega
          obtain ⟨l, rfl, rfl, hl⟩ := members_written members (depth + 1) written hmembers hwritten hsub
          have hsorted : (sortedEntries (l.map fun w => (w.key, w.bytes))).flatMap
                (fun m => blob (utf8 m.1) ++ m.2) = (sortedMembers l).flatMap WrittenMember.encoded := by
            rw [sortedEntries_map, List.flatMap_map]
            rfl
          rw [hsorted] at hlen ⊢
          rw [List.map_map] at hk
          simp only [List.length_cons, List.length_append] at hlen
          rw [show 65 - (depth + 1) = left by omega] at hl
          rw [List.length_map, Value.canonical, canonicalMembers_eq, List.map_map]
          exact read_object hk (by omega) hl

lemma members_written : ∀ (members : List (String × Value)) (depth : ℕ)
    (written : List (String × Bytes)), (∀ m ∈ members, m.2.WellFormed) →
    writeMembers members depth = .ok written → (∀ m ∈ written, m.2.length < 2 ^ 64) →
    ∃ l : List WrittenMember, members = l.map (fun w => (w.key, w.value))
      ∧ written = l.map (fun w => (w.key, w.bytes))
      ∧ ∀ w ∈ l, ∀ rest, jsonRead (65 - depth) (w.bytes ++ rest) = .ok (w.value.canonical, rest)
  | [], depth, written, _, hw, _ => by
      rw [writeMembers] at hw
      cases hw
      exact ⟨[], rfl, rfl, by simp⟩
  | m :: members, depth, written, hwf, hw, hlen => by
      simp only [writeMembers, bind_eq_ok, pure_eq_ok] at hw
      obtain ⟨b, hb, ws, hws, rfl⟩ := hw
      have hv := read_value m.2 depth b (hwf m List.mem_cons_self) hb (hlen _ List.mem_cons_self)
      obtain ⟨l, rfl, rfl, hl⟩ := members_written members depth ws
        (fun m' hm' => hwf m' (List.mem_cons_of_mem _ hm')) hws
        fun m' hm' => hlen m' (List.mem_cons_of_mem _ hm')
      refine ⟨⟨m.1, m.2, b⟩ :: l, rfl, rfl, fun w hw => ?_⟩
      obtain rfl | hw := List.mem_cons.1 hw
      · exact hv
      · exact hl w hw

lemma read_items : ∀ (items : List Value) (depth : ℕ) (written : List Bytes),
    (∀ v ∈ items, v.WellFormed) → writeItems items depth = .ok written →
    written.flatten.length < 2 ^ 64 → ∀ rest,
    Read.items (jsonRead (65 - depth)) items.length (written.flatten ++ rest)
      = .ok (canonicalItems items, rest)
  | [], depth, written, _, hw, _, rest => by
      rw [writeItems] at hw
      cases hw
      simp [Read.items, canonicalItems]
  | v :: items, depth, written, hwf, hw, hlen, rest => by
      simp only [writeItems, bind_eq_ok, pure_eq_ok] at hw
      obtain ⟨b, hb, ws, hws, rfl⟩ := hw
      simp only [List.flatten_cons, List.length_append] at hlen
      have hv := read_value v depth b (hwf v List.mem_cons_self) hb (by omega) (ws.flatten ++ rest)
      have ih := read_items items depth ws (fun v' hv' => hwf v' (List.mem_cons_of_mem _ hv')) hws
        (by omega) rest
      simp only [List.length_cons, Read.items, List.flatten_cons, List.append_assoc, hv, bind,
        Except.bind, ih, pure, Except.pure, canonicalItems]

end

end

/-- **A value is read back as it was written**, the members of every object in the order of their
keys. -/
theorem readBinaryJson_binaryJson {v : Value} {b : Bytes} (hv : v.WellFormed)
    (hb : binaryJson v = .ok b) (hlen : b.length < 2 ^ 64) :
    readBinaryJson b = .ok v.canonical := by
  have hread := read_value v 0 b hv hb hlen []
  rw [List.append_nil] at hread
  simp [readBinaryJson, hread, bind, Except.bind, refuse, pure, Except.pure]

end Engine
