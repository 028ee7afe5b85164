import Sekejap.Text.Varint

/-!
# Posting segments

A late build packs the postings of a term into values (`core/engine/src/index/text/segments.rs`): how many
postings, the last sequence, and then each posting as its distance from the one before and its frequency.
A value that would grow too large is cut, and is filed under its last sequence.

* **`decode_segment`**, **`eq_segment_of_decode`** — a value is read back, and what is read was written so.
* **`packAll_eq`** — the values of an ascending list are those of its parts, one after another.
* **`postings_packed`** — the parts are in order, each is small enough, and a seek to a sequence comes to
  the one value that can hold it.
-/

open Fallible

namespace Engine.Segments

/-- A document and how often it has the term. -/
abbrev Posting := ℕ × ℕ

/-! ## Reading -/

/-- `FORMAT` -/
def format : UInt8 := 1

/-- The loop of `decode_into`: so many postings after the sequence given; the postings, the last
sequence, and what follows. -/
def decodePostings : ℕ → ℕ → Bytes → Except Error (List Posting × ℕ × Bytes)
  | 0, sequence, b => .ok ([], sequence, b)
  | n + 1, sequence, b => do
      let (delta, b) ← readVarint b
      refuse (delta = 0) (.corrupt "text segment sequences do not ascend")
      refuse (2 ^ 64 ≤ sequence + delta) (.corrupt "text segment sequence overflow")
      let (frequency, b) ← readVarint b
      refuse (frequency = 0 ∨ 2 ^ 32 ≤ frequency) (.corrupt "text segment term frequency bounds")
      let (out, last, b) ← decodePostings n (sequence + delta) b
      pure ((sequence + delta, frequency) :: out, last, b)

/-- `decode` -/
def decode : Bytes → Except Error (List Posting)
  | [] => .error (.corrupt "empty text segment")
  | tag :: b => do
      refuse (tag ≠ format) (.corrupt "unknown text segment format")
      let (count, b) ← readVarint b
      let (last, b) ← readVarint b
      refuse (count = 0 ∨ last = 0) (.corrupt "empty text segment header")
      refuse (b.length < count) (.corrupt "text segment count exceeds its bytes")
      let (out, sequence, b) ← decodePostings count 0 b
      refuse (b ≠ []) (.corrupt "text segment has trailing bytes")
      refuse (sequence ≠ last) (.corrupt "text segment last sequence disagrees with its postings")
      pure out

/-! ## Packing -/

/-- `MAX_SEGMENT_BYTES` -/
def maxSegmentBytes : ℕ := 3600

/-- `MAX_HEADER_BYTES` -/
def maxHeaderBytes : ℕ := 1 + 10 + 10

structure Packer where
  body : Bytes
  count : ℕ
  previous : ℕ
  last : ℕ
  deriving DecidableEq

namespace Packer

def new : Packer := ⟨[], 0, 0, 0⟩

/-- `take`: the value of what is held, under its last sequence, and a packer that holds nothing. -/
def take (p : Packer) : Except Error ((ℕ × Bytes) × Packer) :=
  if p.count = 0 then .error (.corrupt "empty text segment")
  else .ok ((p.last, format :: (putVarint p.count ++ putVarint p.last ++ p.body)), new)

/-- The posting joins what is held. -/
def add (p : Packer) (sequence frequency : ℕ) : Packer :=
  ⟨p.body ++ putVarint (sequence - p.previous) ++ putVarint frequency, p.count + 1, sequence, sequence⟩

/-- `push`: a value that is finished, if the posting does not fit it, and the packer after it. -/
def push (p : Packer) (sequence frequency : ℕ) : Except Error (Option (ℕ × Bytes) × Packer) := do
  refuse (sequence = 0 ∨ frequency = 0) (.corrupt "text segment posting bounds")
  refuse (sequence ≤ p.previous ∧ p.count ≠ 0) (.corrupt "text segment postings must ascend")
  let width := varintLen (sequence - p.previous) + varintLen frequency
  if p.count ≠ 0 ∧ maxHeaderBytes + p.body.length + width > maxSegmentBytes then do
    let (finished, p) ← p.take
    pure (some finished, p.add sequence frequency)
  else
    pure (none, p.add sequence frequency)

/-- `finish` -/
def finish (p : Packer) : Except Error (Option (ℕ × Bytes) × Packer) :=
  if p.count = 0 then .ok (none, p)
  else do
    let (finished, p) ← p.take
    pure (some finished, p)

/-- Every posting is pushed, and then the packer is finished: the values in the order they come. -/
def packAll (p : Packer) : List Posting → Except Error (List (ℕ × Bytes))
  | [] => do
      let (finished, _) ← p.finish
      pure finished.toList
  | x :: postings => do
      let (finished, p) ← p.push x.1 x.2
      let rest ← p.packAll postings
      pure (finished.toList ++ rest)

end Packer

/-! ## A value and its postings -/

/-- What a value has for its postings, each after the sequence before it. -/
def bodyOf (previous : ℕ) : List Posting → Bytes
  | [] => []
  | x :: postings => putVarint (x.1 - previous) ++ putVarint x.2 ++ bodyOf x.1 postings

/-- The last sequence, or `previous`. -/
def lastOf (previous : ℕ) : List Posting → ℕ
  | [] => previous
  | x :: postings => lastOf x.1 postings

/-- The value of some postings. -/
def segment (postings : List Posting) : Bytes :=
  format :: (putVarint postings.length ++ putVarint (lastOf 0 postings) ++ bodyOf 0 postings)

/-- Postings in strictly ascending order after `previous`, each with a frequency. -/
def Ascends (previous : ℕ) : List Posting → Prop
  | [] => True
  | x :: postings => previous < x.1 ∧ x.1 < 2 ^ 64 ∧ x.2 ≠ 0 ∧ x.2 < 2 ^ 32 ∧ Ascends x.1 postings

variable {previous : ℕ} {postings more : List Posting} {x : Posting} {b rest : Bytes}

lemma bodyOf_append : bodyOf previous (postings ++ more) =
    bodyOf previous postings ++ bodyOf (lastOf previous postings) more := by
  induction postings generalizing previous with
  | nil => rfl
  | cons x postings ih => simp [bodyOf, lastOf, ih]

lemma lastOf_append : lastOf previous (postings ++ more) = lastOf (lastOf previous postings) more := by
  induction postings generalizing previous with
  | nil => rfl
  | cons x postings ih => exact ih

lemma ascends_append : Ascends previous (postings ++ more) ↔
    Ascends previous postings ∧ Ascends (lastOf previous postings) more := by
  induction postings generalizing previous with
  | nil => simp [Ascends, lastOf]
  | cons x postings ih => simp [Ascends, lastOf, ih, and_assoc]

lemma Ascends.mono {q : ℕ} (h : Ascends previous postings) (hq : q ≤ previous) :
    Ascends q postings := by
  cases postings with
  | nil => trivial
  | cons x postings => exact ⟨hq.trans_lt h.1, h.2⟩

lemma Ascends.le_lastOf (h : Ascends previous postings) : previous ≤ lastOf previous postings := by
  induction postings generalizing previous with
  | nil => exact le_rfl
  | cons x postings ih => exact h.1.le.trans (ih h.2.2.2.2)

lemma Ascends.lastOf_lt (h : Ascends previous postings) (hp : previous < 2 ^ 64) :
    lastOf previous postings < 2 ^ 64 := by
  induction postings generalizing previous with
  | nil => exact hp
  | cons x postings ih => exact ih h.2.2.2.2 h.2.1

lemma length_le_bodyOf : postings.length ≤ (bodyOf previous postings).length := by
  induction postings generalizing previous with
  | nil => exact le_rfl
  | cons x postings ih =>
      have hdelta := length_putVarint_pos (x.1 - previous)
      have := @ih x.1
      simp only [bodyOf, List.length_append, List.length_cons]
      omega

/-- The postings of a value are read back. -/
lemma decodePostings_bodyOf (h : Ascends previous postings) :
    decodePostings postings.length previous (bodyOf previous postings ++ rest) =
      .ok (postings, lastOf previous postings, rest) := by
  induction postings generalizing previous with
  | nil => rfl
  | cons x postings ih =>
      obtain ⟨hlt, hword, hfreq, hhalf, hrest⟩ := h
      have hdelta : x.1 - previous < 2 ^ 64 := by omega
      have hsum : previous + (x.1 - previous) = x.1 := by omega
      have hzero : ¬ x.1 - previous = 0 := by omega
      have hover : ¬ 2 ^ 64 ≤ x.1 := by omega
      have hbounds : ¬ (x.2 = 0 ∨ 2 ^ 32 ≤ x.2) := by omega
      simp only [List.length_cons, decodePostings, bodyOf, List.append_assoc]
      rw [readVarint_putVarint hdelta]
      simp only [bind, Except.bind, refuse, hsum, if_neg hzero, if_neg hover]
      rw [readVarint_putVarint (by omega)]
      simp only [if_neg hbounds, ih hrest]
      rfl

lemma Ascends.length_le (h : Ascends previous postings) :
    previous + postings.length ≤ lastOf previous postings := by
  induction postings generalizing previous with
  | nil => exact le_rfl
  | cons x postings ih =>
      have := ih h.2.2.2.2
      have := h.1
      simp only [List.length_cons, lastOf]
      omega

lemma Ascends.length_lt (h : Ascends 0 postings) : postings.length < 2 ^ 64 := by
  have h1 := h.length_le
  have h2 := h.lastOf_lt (by norm_num)
  omega

/-- **A value is read back.** -/
lemma decode_segment (hne : postings ≠ []) (h : Ascends 0 postings) :
    decode (segment postings) = .ok postings := by
  have hlast := h.length_le
  have hpos : 0 < postings.length := List.length_pos_of_ne_nil hne
  have hheader : ¬ (postings.length = 0 ∨ lastOf 0 postings = 0) := by omega
  have hcount : ¬ (bodyOf 0 postings).length < postings.length := length_le_bodyOf.not_gt
  have hbody := @decodePostings_bodyOf 0 postings [] h
  rw [List.append_nil] at hbody
  simp only [segment, decode, List.append_assoc]
  rw [readVarint_putVarint h.length_lt]
  simp only [bind, Except.bind, refuse, ne_eq, not_true_eq_false, if_false]
  rw [readVarint_putVarint (h.lastOf_lt (by norm_num))]
  simp only [if_neg hheader, if_neg hcount, hbody, not_true_eq_false, if_false]
  rfl

/-- What the loop reads was written so. -/
lemma eq_bodyOf_of_decodePostings {n last : ℕ}
    (h : decodePostings n previous b = .ok (postings, last, rest)) :
    b = bodyOf previous postings ++ rest ∧ postings.length = n ∧ Ascends previous postings ∧
      last = lastOf previous postings := by
  induction n generalizing previous b postings with
  | zero =>
      obtain ⟨rfl, rfl, rfl⟩ : [] = postings ∧ previous = last ∧ b = rest := by
        simpa [decodePostings] using h
      exact ⟨rfl, rfl, trivial, rfl⟩
  | succ n ih =>
      simp only [decodePostings, bind_eq_ok, refuse_eq_ok, pure_eq_ok, Prod.exists,
        Prod.mk.injEq] at h
      obtain ⟨delta, b₁, hdelta, -, hzero, -, hover, frequency, b₂, hfreq, -, hbounds, out, last', b₃,
        hout, rfl, rfl, rfl⟩ := h
      obtain ⟨rfl, -⟩ := eq_putVarint_of_readVarint hdelta
      obtain ⟨rfl, -⟩ := eq_putVarint_of_readVarint hfreq
      obtain ⟨rfl, rfl, hasc, rfl⟩ := ih hout
      refine ⟨?_, rfl, ⟨?_, ?_, ?_, ?_, hasc⟩, rfl⟩
      · simp [bodyOf]
      all_goals
        simp only
        omega

/-- **What is read was written so**: a value is the value of its postings. -/
lemma eq_segment_of_decode (h : decode b = .ok postings) :
    b = segment postings ∧ postings ≠ [] ∧ Ascends 0 postings := by
  cases b with
  | nil => cases h
  | cons tag b =>
      simp only [decode, bind_eq_ok, refuse_eq_ok, pure_eq_ok, Prod.exists, not_not] at h
      obtain ⟨-, rfl, count, b₁, hcount, last, b₂, hlast, -, hheader, -, -, out, sequence, b₃, hout, -,
        rfl, -, rfl, rfl⟩ := h
      obtain ⟨rfl, -⟩ := eq_putVarint_of_readVarint hcount
      obtain ⟨rfl, -⟩ := eq_putVarint_of_readVarint hlast
      obtain ⟨rfl, rfl, hasc, rfl⟩ := eq_bodyOf_of_decodePostings hout
      refine ⟨by simp [segment], ?_, hasc⟩
      rintro rfl
      simp at hheader

/-! ## What a packer does -/

/-- The packer that holds some postings. -/
def Packer.holding (held : List Posting) : Packer :=
  ⟨bodyOf 0 held, held.length, lastOf 0 held, lastOf 0 held⟩

/-- The postings do not fit one value with the header it may have. -/
def Overflows (held : List Posting) : Prop := maxSegmentBytes < maxHeaderBytes + (bodyOf 0 held).length

instance (held : List Posting) : Decidable (Overflows held) := inferInstanceAs (Decidable (_ < _))

section Packing

variable {held : List Posting}

lemma take_holding (hne : held ≠ []) :
    (Packer.holding held).take = .ok ((lastOf 0 held, segment held), .new) := by
  have hcount : ¬ (Packer.holding held).count = 0 := by simpa [Packer.holding] using hne
  rw [Packer.take, if_neg hcount]
  rfl

lemma add_holding (x : Posting) :
    (Packer.holding held).add x.1 x.2 = Packer.holding (held ++ [x]) := by
  simp [Packer.add, Packer.holding, bodyOf_append, lastOf_append, bodyOf, lastOf]

/-- **What a push does.** -/
lemma push_holding (h : Ascends (lastOf 0 held) [x]) :
    (Packer.holding held).push x.1 x.2 =
      if held ≠ [] ∧ Overflows (held ++ [x]) then
        .ok (some (lastOf 0 held, segment held), Packer.holding [x])
      else .ok (none, Packer.holding (held ++ [x])) := by
  obtain ⟨hlt, -, hfreq, -, -⟩ := h
  have hzero : ¬ (x.1 = 0 ∨ x.2 = 0) := by omega
  have hcount : (Packer.holding held).count ≠ 0 ↔ held ≠ [] := by simp [Packer.holding]
  have hasc : ¬ (x.1 ≤ (Packer.holding held).previous ∧ held ≠ []) := by
    rintro ⟨hle, -⟩
    exact absurd hle hlt.not_ge
  have hwidth : maxHeaderBytes + (Packer.holding held).body.length +
      (varintLen (x.1 - (Packer.holding held).previous) + varintLen x.2) =
        maxHeaderBytes + (bodyOf 0 (held ++ [x])).length := by
    simp only [Packer.holding, varintLen_eq, bodyOf_append, bodyOf, List.append_nil, List.length_append]
    omega
  have hpush : (Packer.holding held).push x.1 x.2 =
      if held ≠ [] ∧ maxSegmentBytes < maxHeaderBytes + (bodyOf 0 (held ++ [x])).length then
        (Packer.holding held).take >>= fun r => pure (some r.1, r.2.add x.1 x.2)
      else pure (none, (Packer.holding held).add x.1 x.2) := by
    simp only [Packer.push, refuse, if_neg hzero, hcount, if_neg hasc, bind, Except.bind, gt_iff_lt,
      hwidth]
  rw [hpush]
  by_cases hcut : held ≠ [] ∧ Overflows (held ++ [x])
  · rw [if_pos hcut, if_pos (show held ≠ [] ∧ _ < _ from hcut), take_holding hcut.1]
    exact congrArg Except.ok (congrArg (Prod.mk _) (@add_holding [] x))
  · rw [if_neg hcut, if_neg (show ¬ (held ≠ [] ∧ _ < _) from hcut), add_holding]
    rfl

/-- The parts that postings are cut into, after those that are held. -/
def parts (held : List Posting) : List Posting → List (List Posting)
  | [] => if held = [] then [] else [held]
  | x :: postings =>
      if held ≠ [] ∧ Overflows (held ++ [x]) then held :: parts [x] postings
      else parts (held ++ [x]) postings

/-- **The values of an ascending list are those of its parts.** -/
lemma packAll_eq (h : Ascends (lastOf 0 held) postings) :
    (Packer.holding held).packAll postings =
      .ok ((parts held postings).map fun c => (lastOf 0 c, segment c)) := by
  induction postings generalizing held with
  | nil =>
      rw [Packer.packAll, parts, Packer.finish]
      by_cases hne : held = []
      · subst hne
        rfl
      · have hcount : ¬ (Packer.holding held).count = 0 := by simpa [Packer.holding] using hne
        rw [if_neg hcount, take_holding hne, if_neg hne]
        rfl
  | cons x postings ih =>
      obtain ⟨hx, hrest⟩ := (@ascends_append _ [x] _).mp h
      rw [Packer.packAll, push_holding hx, parts]
      split
      · simp only [bind, Except.bind, @ih [x] hrest]
        rfl
      · have hnext : Ascends (lastOf 0 (held ++ [x])) postings := by
          rw [lastOf_append]
          exact hrest
        simp only [bind, Except.bind, ih hnext]
        rfl

lemma parts_flatten : (parts held postings).flatten = held ++ postings := by
  induction postings generalizing held with
  | nil =>
      rw [parts]
      split <;> simp_all
  | cons x postings ih =>
      rw [parts]
      split
      · simp [ih]
      · simp [ih]

lemma ne_nil_of_mem_parts {c : List Posting} (h : c ∈ parts held postings) : c ≠ [] := by
  induction postings generalizing held with
  | nil =>
      rw [parts] at h
      split at h <;> simp_all
  | cons x postings ih =>
      rw [parts] at h
      split at h
      · rename_i hcut
        rcases List.mem_cons.mp h with rfl | h
        · exact hcut.1
        · exact ih h
      · exact ih h

/-- One posting fits. -/
lemma not_overflows_single (h : Ascends 0 [x]) : ¬ Overflows [x] := by
  obtain ⟨-, hword, -, hhalf, -⟩ := h
  have h1 := length_putVarint_word (n := x.1 - 0) (by omega)
  have h2 := length_putVarint_half hhalf
  simp only [Overflows, bodyOf, maxSegmentBytes, maxHeaderBytes, List.length_append, List.append_nil]
  omega

lemma not_overflows_of_mem_parts {c : List Posting} (hheld : held ≠ [] → ¬ Overflows held)
    (hasc : Ascends 0 (held ++ postings)) (h : c ∈ parts held postings) : ¬ Overflows c := by
  induction postings generalizing held with
  | nil =>
      rw [parts] at h
      split at h
      · cases h
      · rename_i hne
        rw [List.mem_singleton.mp h]
        exact hheld hne
  | cons x postings ih =>
      rw [parts] at h
      split at h
      · rename_i hcut
        rcases List.mem_cons.mp h with rfl | h
        · exact hheld hcut.1
        · have hrest := ((@ascends_append _ held _).mp hasc).2.mono (Nat.zero_le _)
          have hx := ((@ascends_append _ [x] _).mp hrest).1
          exact @ih [x] (fun _ => not_overflows_single hx) hrest h
      · rename_i hcut
        refine ih (fun _ hover => ?_) (by simpa using hasc) h
        by_cases hne : held = []
        · subst hne
          exact not_overflows_single ((@ascends_append _ [x] _).mp hasc).1 hover
        · exact hcut ⟨hne, hover⟩

/-- A value of postings that fit is small enough. -/
lemma length_segment_le (h : Ascends 0 postings) (hfits : ¬ Overflows postings) :
    (segment postings).length ≤ maxSegmentBytes := by
  have hcount := length_putVarint_word h.length_lt
  have hlast := length_putVarint_word (h.lastOf_lt (by norm_num))
  simp only [Overflows, maxHeaderBytes, not_lt] at hfits
  simp only [segment, List.length_cons, List.length_append]
  omega

lemma Overflows.append (h : Overflows postings) (more : List Posting) : Overflows (postings ++ more) := by
  simp only [Overflows, bodyOf_append, List.length_append] at h ⊢
  omega

lemma parts_of_fits (hne : held ++ postings ≠ []) (hfits : ¬ Overflows (held ++ postings)) :
    parts held postings = [held ++ postings] := by
  induction postings generalizing held with
  | nil =>
      rw [List.append_nil] at hne ⊢
      rw [parts, if_neg hne]
  | cons x postings ih =>
      have hone : held ++ x :: postings = held ++ [x] ++ postings := by simp
      rw [hone] at hne hfits ⊢
      rw [parts, if_neg fun hcut => hfits (hcut.2.append postings)]
      exact ih hne hfits

/-- **Postings make one value just when they fit it.** -/
lemma parts_eq_single (hasc : Ascends 0 postings) (hne : postings ≠ []) :
    parts [] postings = [postings] ↔ ¬ Overflows postings := by
  constructor
  · intro h
    have hmem : postings ∈ parts [] postings := by simp [h]
    exact not_overflows_of_mem_parts (fun h => absurd rfl h) hasc hmem
  · exact @parts_of_fits _ [] hne

/-- **The packer makes one value of postings just when they fit it.** -/
lemma packAll_eq_single (hasc : Ascends 0 postings) (hne : postings ≠ []) :
    Packer.new.packAll postings = .ok [(lastOf 0 postings, segment postings)] ↔
      ¬ Overflows postings := by
  have hpack : Packer.new.packAll postings = _ := @packAll_eq _ [] hasc
  rw [hpack, Except.ok.injEq, ← parts_eq_single hasc hne]
  constructor
  · intro h
    obtain ⟨c, hc, -⟩ := List.map_eq_singleton_iff.mp h
    have hflat : (parts [] postings).flatten = postings := parts_flatten
    rw [hc, List.flatten_singleton] at hflat
    rw [hc, hflat]
  · intro h
    rw [h]
    rfl

end Packing

/-! ## A whole list -/

section Lists

variable {held : List Posting} {segs : List (ℕ × Bytes)} {p : Packer}

/-- A list that is packed has no posting of zero. -/
lemma ne_zero_of_packAll (h : p.packAll postings = .ok segs) : ∀ x ∈ postings, x.1 ≠ 0 ∧ x.2 ≠ 0 := by
  induction postings generalizing p segs with
  | nil => simp
  | cons y postings ih =>
      simp only [Packer.packAll, bind_eq_ok, pure_eq_ok, Prod.exists] at h
      obtain ⟨finished, q, hpush, rest, hrest, -⟩ := h
      simp only [Packer.push, bind_eq_ok, refuse_eq_ok, not_or] at hpush
      intro x hx
      rcases List.mem_cons.mp hx with rfl | hx
      · obtain ⟨-, hzero, -⟩ := hpush
        exact hzero
      · exact ih hrest x hx

lemma ascends_of_pairwise (hprev : ∀ x ∈ postings, previous < x.1)
    (hwords : ∀ x ∈ postings, x.1 < 2 ^ 64 ∧ x.2 < 2 ^ 32) (hfreq : ∀ x ∈ postings, x.2 ≠ 0)
    (h : postings.Pairwise fun x y => x.1 < y.1) : Ascends previous postings := by
  induction postings generalizing previous with
  | nil => trivial
  | cons x postings ih =>
      rw [List.pairwise_cons] at h
      rw [List.forall_mem_cons] at hprev hwords hfreq
      exact ⟨hprev.1, hwords.1.1, hfreq.1, hwords.1.2, ih h.1 hwords.2 hfreq.2 h.2⟩

lemma Ascends.lt_of_mem (h : Ascends previous postings) (hx : x ∈ postings) : previous < x.1 := by
  induction postings generalizing previous with
  | nil => cases hx
  | cons y postings ih =>
      rcases List.mem_cons.mp hx with rfl | hx
      · exact h.1
      · exact h.1.trans (ih h.2.2.2.2 hx)

lemma Ascends.le_last (h : Ascends previous postings) (hx : x ∈ postings) :
    x.1 ≤ lastOf previous postings := by
  induction postings generalizing previous with
  | nil => cases hx
  | cons y postings ih =>
      rcases List.mem_cons.mp hx with rfl | hx
      · exact h.2.2.2.2.le_lastOf
      · exact ih h.2.2.2.2 hx

lemma exists_lastOf (hne : postings ≠ []) : ∃ x ∈ postings, lastOf previous postings = x.1 := by
  induction postings generalizing previous with
  | nil => exact absurd rfl hne
  | cons y postings ih =>
      cases postings with
      | nil => exact ⟨y, by simp, rfl⟩
      | cons z postings =>
          obtain ⟨x, hx, heq⟩ := @ih y.1 (by simp)
          exact ⟨x, List.mem_cons_of_mem y hx, heq⟩

/-- What holds of lists cut from an ascending one: each ascends, and those before are less. -/
lemma ascends_flatten {cuts : List (List Posting)} (h : Ascends previous cuts.flatten) :
    (∀ c ∈ cuts, Ascends previous c) ∧
      cuts.Pairwise fun c c' => ∀ x ∈ c, ∀ y ∈ c', x.1 < y.1 := by
  induction cuts generalizing previous with
  | nil => simp
  | cons c cuts ih =>
      rw [List.flatten_cons, ascends_append] at h
      have hrest := h.2.mono h.1.le_lastOf
      obtain ⟨hall, hpair⟩ := ih hrest
      refine ⟨List.forall_mem_cons.mpr ⟨h.1, hall⟩, List.pairwise_cons.mpr ⟨?_, hpair⟩⟩
      intro c' hc' x hx y hy
      have hlt := h.2.lt_of_mem (List.mem_flatten.mpr ⟨c', hc', hy⟩)
      exact (h.1.le_last hx).trans_lt hlt

/-- **A seek comes to the one value that can hold a sequence.** -/
lemma find_cut {cuts : List (List Posting)} {c : List Posting}
    (hne : ∀ c ∈ cuts, c ≠ []) (h : Ascends 0 cuts.flatten) (hc : c ∈ cuts) (hx : x ∈ c) :
    cuts.find? (fun c => x.1 ≤ lastOf 0 c) = some c := by
  obtain ⟨hall, hpair⟩ := ascends_flatten h
  clear h
  induction cuts with
  | nil => cases hc
  | cons d cuts ih =>
      rw [List.pairwise_cons] at hpair
      rw [List.forall_mem_cons] at hall hne
      rcases List.mem_cons.mp hc with rfl | hc
      · rw [List.find?_cons_of_pos]
        simpa using hall.1.le_last hx
      · -- the last of an earlier part is less
        have hlast : lastOf 0 d < x.1 := by
          obtain ⟨y, hy, heq⟩ := @exists_lastOf 0 d hne.1
          rw [heq]
          exact hpair.1 c hc y hy x hx
        rw [List.find?_cons_of_neg (by simpa using hlast)]
        exact ih hne.2 hc hall.2 hpair.2

/-- What packed values are: the parts of a list, in order, each filed under its own key, small enough,
and found by a seek. -/
structure Packed (decode : Bytes → Except Error (List (ℕ × ℕ))) (shown : List (ℕ × ℕ) → List (ℕ × ℕ))
    (key : List (ℕ × ℕ) → ℕ) (reaches : ℕ → ℕ → Bool) (list : List (ℕ × ℕ))
    (segs : List (ℕ × Bytes)) (cuts : List (List (ℕ × ℕ))) : Prop where
  each : List.Forall₂ (fun seg c => seg.1 = key c ∧ decode seg.2 = .ok (shown c) ∧
    seg.2.length ≤ maxSegmentBytes ∧ c ≠ []) segs cuts
  all : cuts.flatten = list
  ordered : cuts.Pairwise fun c c' => ∀ x ∈ c, ∀ y ∈ c', x.1 < y.1
  keys : segs.Pairwise fun s t => s.1 < t.1
  /-- A seek to a sequence comes to the one value that can hold it. -/
  seek : ∀ seg c, (seg, c) ∈ segs.zip cuts → ∀ x ∈ c, segs.find? (fun s => reaches x.1 s.1) = some seg

lemma eq_of_mem_zip_map {α β : Type*} {f : β → α} {l : List β} {a : α} {c : β}
    (h : (a, c) ∈ (l.map f).zip l) : a = f c ∧ c ∈ l := by
  obtain ⟨i, hi, heq⟩ := List.getElem_of_mem h
  simp only [List.getElem_zip, List.getElem_map, Prod.mk.injEq] at heq
  exact ⟨by rw [← heq.1, heq.2], (List.of_mem_zip h).2⟩

/-- **The values of an ascending list of postings.** -/
lemma postings_packed (h : Ascends 0 postings) :
    ∃ segs cuts, Packer.new.packAll postings = .ok segs ∧
      Packed decode id (lastOf 0) (fun s last => s ≤ last) postings segs cuts := by
  have hflat : (parts [] postings).flatten = postings := parts_flatten
  have hcuts : Ascends 0 (parts [] postings).flatten := by rwa [hflat]
  obtain ⟨hall, hpair⟩ := ascends_flatten hcuts
  have hne : ∀ c ∈ parts [] postings, c ≠ [] := fun c hc => ne_nil_of_mem_parts hc
  refine ⟨_, parts [] postings, @packAll_eq _ [] h, ?_, hflat, hpair, ?_, ?_⟩
  · rw [List.forall₂_map_left_iff, List.forall₂_same]
    intro c hc
    have hfits := not_overflows_of_mem_parts (fun h => absurd rfl h) h hc
    exact ⟨rfl, decode_segment (hne c hc) (hall c hc), length_segment_le (hall c hc) hfits, hne c hc⟩
  · rw [List.pairwise_map]
    refine hpair.imp_of_mem fun {c c'} hc hc' hlt => ?_
    obtain ⟨x, hx, hxlast⟩ := @exists_lastOf 0 c (hne c hc)
    obtain ⟨y, hy, hylast⟩ := @exists_lastOf 0 c' (hne c' hc')
    simp only [hxlast, hylast]
    exact hlt x hx y hy
  · intro seg c hmem x hx
    obtain ⟨rfl, hc⟩ := eq_of_mem_zip_map hmem
    rw [List.find?_map, Function.comp_def, find_cut hne hcuts hc hx]
    rfl

end Lists

end Engine.Segments
