import Sekejap.Gql.Value

/-!
# Values as keys

A value of a working table is a key: its rank, and below it what is compared next.  All that comparison,
grouping and hashing have in common is that none of them sees more than the key.
-/

open Bytes

open Collections (EntityId)

open Engine.Graph (EdgeKey)

open Ieee (Datum f32 f64 f64From truncate)

open Nested

namespace Engine.Grouping

/-! ## Labels -/

/-- A number, or a text. -/
abbrev Label := ℤ ×ₗ ℚ ×ₗ String

namespace Label

def nat (n : ℕ) : Label := toLex (n, toLex (0, ""))

def datum (d : Datum) : Label := toLex ((ofLex d.place).1, toLex ((ofLex d.place).2, ""))

def text (s : String) : Label := toLex (0, toLex (0, s))

lemma compare_datum (d e : Datum) : compare (datum d) (datum e) = compare d.place e.place := by
  have hself : compare "" "" = .eq := Std.ReflOrd.compare_self
  calc compare (datum d) (datum e)
      = (compare (ofLex d.place).1 (ofLex e.place).1).then
          ((compare (ofLex d.place).2 (ofLex e.place).2).then (compare "" "")) := rfl
    _ = compare d.place e.place := by rw [hself, Ordering.then_eq]; rfl

lemma compare_nat (m n : ℕ) : compare (nat m) (nat n) = compare m n := by
  have hself : compare (toLex ((0 : ℚ), "")) (toLex (0, "")) = .eq := Std.ReflOrd.compare_self
  calc compare (nat m) (nat n)
      = (compare (m : ℤ) n).then (compare (toLex ((0 : ℚ), "")) (toLex (0, ""))) := rfl
    _ = compare (m : ℤ) n := by rw [hself, Ordering.then_eq]
    _ = compare m n := by
      rw [← cmp_eq_compare, ← cmp_eq_compare]
      exact Nat.strictMono_cast.cmp_map_eq m n

lemma compare_text (s t : String) : compare (text s) (text t) = compare s t := by
  have hint : compare (0 : ℤ) 0 = .eq := Std.ReflOrd.compare_self
  have hrat : compare (0 : ℚ) 0 = .eq := Std.ReflOrd.compare_self
  calc compare (text s) (text t)
      = (compare (0 : ℤ) 0).then ((compare (0 : ℚ) 0).then (compare s t)) := rfl
    _ = compare s t := by rw [hint, hrat, Ordering.eq_then, Ordering.eq_then]

lemma nat_inj {m n : ℕ} (h : nat m = nat n) : m = n := by
  have := congrArg (fun l : Label => (ofLex l).1) h
  exact Int.ofNat.inj this

lemma datum_inj {d e : Datum} (h : datum d = datum e) : d = e := by
  refine Datum.place_inj (ofLex_inj.1 (Prod.ext ?_ ?_))
  · exact congrArg (fun l : Label => (ofLex l).1) h
  · exact congrArg (fun l : Label => (ofLex (ofLex l).2).1) h

lemma text_inj {s t : String} (h : text s = text t) : s = t :=
  congrArg (fun l : Label => (ofLex (ofLex l).2).2) h

end Label

/-! ## Numbers -/

namespace Num

/-- What a number stands for. -/
def datum : Num → Datum
  | int i => .finite i
  | float bits => f64.read bits

/-- The number is one that the code has: an `i64` or a `u64`, or 64 bits. -/
def InRange : Num → Prop
  | int i => -2 ^ 63 ≤ i ∧ i < 2 ^ 64
  | float bits => bits < 2 ^ 64

end Num

lemma toLex_lt {m n : ℤ} {p q : ℚ} (h : m < n) : toLex (m, p) < toLex (n, q) :=
  Prod.Lex.toLex_lt_toLex.2 (Or.inl h)

lemma place_lt_nan {d : Datum} (h : d ≠ .nan) : d.place < Datum.nan.place := by
  rcases d with _ | (_ | _) | q
  · exact absurd rfl h
  all_goals exact toLex_lt (by decide)

lemma isNan_iff {d : Datum} : d.isNan = true ↔ d = .nan := by
  cases d <;> simp [Datum.isNan]

lemma cmpFloat_eq (a b : Datum) : cmpFloat a b = compare a.place b.place := by
  by_cases ha : a = .nan
  · by_cases hb : b = .nan
    · rw [ha, hb, Std.ReflOrd.compare_self]
      rfl
    · rw [cmpFloat, isNan_iff.2 ha, Bool.eq_false_iff.2 (mt isNan_iff.1 hb), ha,
        compare_gt_iff_gt.2 (place_lt_nan hb)]
  · by_cases hb : b = .nan
    · rw [cmpFloat, isNan_iff.2 hb, Bool.eq_false_iff.2 (mt isNan_iff.1 ha), hb,
        compare_lt_iff_lt.2 (place_lt_nan ha)]
    · rw [cmpFloat, Bool.eq_false_iff.2 (mt isNan_iff.1 ha), Bool.eq_false_iff.2 (mt isNan_iff.1 hb)]
      simp only [Datum.partialCmp_eq ha hb, Option.getD_some]

/-- The integral part of a number and what is cut off tell where it lies from an integer. -/
lemma compare_truncate (i : ℤ) (q : ℚ) :
    (compare i (truncate q)).then (compare (truncate q : ℚ) q) = compare (i : ℚ) q := by
  rw [truncate]
  split_ifs with hq
  · rcases lt_trichotomy i ⌊q⌋ with h | rfl | h
    · have hlt : (i : ℚ) < q := (Int.cast_lt.2 h).trans_le (Int.floor_le q)
      rw [compare_lt_iff_lt.2 h, compare_lt_iff_lt.2 hlt]
      rfl
    · rw [Std.ReflOrd.compare_self, Ordering.eq_then]
    · rw [compare_gt_iff_gt.2 h, compare_gt_iff_gt.2 (Int.floor_lt.1 h)]
      rfl
  · rcases lt_trichotomy i ⌈q⌉ with h | rfl | h
    · rw [compare_lt_iff_lt.2 h, compare_lt_iff_lt.2 (Int.lt_ceil.1 h)]
      rfl
    · rw [Std.ReflOrd.compare_self, Ordering.eq_then]
    · have hlt : q < (i : ℚ) := (Int.le_ceil q).trans_lt (Int.cast_lt.2 h)
      rw [compare_gt_iff_gt.2 h, compare_gt_iff_gt.2 hlt]
      rfl

lemma compare_finite (p q : ℚ) : compare (Datum.finite p).place (Datum.finite q).place = compare p q := by
  have hself : compare (0 : ℤ) 0 = .eq := Std.ReflOrd.compare_self
  calc compare (Datum.finite p).place (Datum.finite q).place
      = (compare (0 : ℤ) 0).then (compare p q) := rfl
    _ = compare p q := by rw [hself, Ordering.eq_then]

lemma truncate_intCast (i : ℤ) : truncate i = i := by
  rw [truncate, Int.floor_intCast, Int.ceil_intCast, ite_self]

/-- **An integer is compared with a float** by where they stand. -/
lemma cmpIntFloat_eq {i : ℤ} (hi : -2 ^ 63 ≤ i ∧ i < 2 ^ 64) (f : Datum) :
    cmpIntFloat i f = compare (Datum.finite i).place f.place := by
  have hlow : (-2 ^ 127 : ℚ) < i := by
    have : (-2 ^ 127 : ℤ) < i := by omega
    exact_mod_cast this
  have hhigh : (i : ℚ) < 2 ^ 127 := by
    have : i < (2 ^ 127 : ℤ) := by omega
    exact_mod_cast this
  rcases f with _ | (_ | _) | q
  · rw [compare_lt_iff_lt.2 (place_lt_nan (by simp))]
    rfl
  · exact (compare_lt_iff_lt.2 (toLex_lt Int.zero_lt_one)).symm
  · exact (compare_gt_iff_gt.2 (toLex_lt (Int.negSucc_lt_zero 0))).symm
  · rw [compare_finite, cmpIntFloat]
    have hge : (Datum.finite q).ge i128Bound = decide (2 ^ 127 ≤ q) := by
      rw [Datum.ge, i128Bound, Datum.partialCmp]
      rcases lt_trichotomy q (2 ^ 127) with h | h | h
      · rw [compare_lt_iff_lt.2 h, decide_eq_false (not_le.2 h)]
        rfl
      · rw [compare_eq_iff_eq.2 h, decide_eq_true h.ge]
        rfl
      · rw [compare_gt_iff_gt.2 h, decide_eq_true h.le]
        rfl
    have hlt : (Datum.finite q).lt (.finite (-2 ^ 127)) = decide (q < -2 ^ 127) := by
      rw [Datum.lt, Datum.partialCmp]
      rcases lt_trichotomy q (-2 ^ 127) with h | h | h
      · rw [compare_lt_iff_lt.2 h, decide_eq_true h]
        rfl
      · rw [compare_eq_iff_eq.2 h, decide_eq_false h.not_lt]
        rfl
      · rw [compare_gt_iff_gt.2 h, decide_eq_false h.not_gt]
        rfl
    have hnan : (Datum.finite q).isNan = false := rfl
    rw [hge, hlt, hnan, Bool.false_or]
    simp only [decide_eq_true_eq]
    split_ifs with hq hq'
    · exact (compare_lt_iff_lt.2 (hhigh.trans_le hq)).symm
    · exact (compare_gt_iff_gt.2 (hq'.trans hlow)).symm
    · -- the cast cuts nothing off that lies within its bounds
      have hcast : asI128 (Datum.finite q).trunc = truncate q := by
        have hupper : truncate q ≤ 2 ^ 127 - 1 := by
          rw [truncate]
          split_ifs
          · have : ⌊q⌋ < 2 ^ 127 := Int.floor_lt.2 (by push_cast; exact not_le.1 hq)
            omega
          · have : ⌈q⌉ ≤ 0 := Int.ceil_le.2 (by push_cast; linarith)
            omega
        have hlower : -2 ^ 127 ≤ truncate q := by
          rw [truncate]
          split_ifs
          · have : 0 ≤ ⌊q⌋ := Int.floor_nonneg.2 ‹_›
            omega
          · have : (-2 ^ 127 : ℤ) ≤ ⌈q⌉ := by
              have h1 : ((-2 ^ 127 : ℤ) : ℚ) ≤ ⌈q⌉ := by
                push_cast
                exact (not_lt.1 hq').trans (Int.le_ceil q)
              exact_mod_cast h1
            exact this
        rw [asI128, Datum.trunc, Datum.toInt, truncate_intCast, min_eq_right hupper, max_eq_right hlower]
      rw [hcast, cmpFloat_eq, Datum.trunc, compare_finite, compare_truncate]

lemma compare_swap {α : Type*} [LinearOrder α] (a b : α) : (compare a b).swap = compare b a :=
  Std.OrientedOrd.eq_swap.symm

/-- **Numbers are compared** by where they stand, whichever way they are stored. -/
lemma cmpNum_eq {x y : Num} (hx : x.InRange) (hy : y.InRange) :
    cmpNum x y = compare x.datum.place y.datum.place := by
  cases x with
  | int i =>
      cases y with
      | int j =>
          rw [cmpNum, Num.datum, Num.datum, compare_finite, ← cmp_eq_compare, ← cmp_eq_compare]
          exact (Int.cast_strictMono.cmp_map_eq i j).symm
      | float bits => exact cmpIntFloat_eq hx _
  | float bits =>
      cases y with
      | int j =>
          rw [cmpNum, cmpIntFloat_eq hy]
          exact compare_swap _ _
      | float bits' => exact cmpFloat_eq _ _

lemma f64From_lt (lane : ℕ) : f64From lane < 2 ^ 64 := by
  have hsign : f64.signBit = 2 ^ 63 := rfl
  have hinfinity : f64.infinity = 2047 * 2 ^ 52 := rfl
  rw [f64From]
  split
  · rw [Ieee.Format.nearest, hsign, hinfinity]
    split_ifs <;> omega
  · rw [hsign, hinfinity]
    split_ifs <;> omega
  · have hlane : lane % 2 ^ f32.mantissa * 2 ^ (f64.mantissa - f32.mantissa) < 2 ^ 23 * 2 ^ 29 :=
      Nat.mul_lt_mul_of_pos_right (Nat.mod_lt _ (by decide)) (by decide)
    rw [hsign, hinfinity]
    split_ifs <;> omega

/-- A float that is an integer feeds what the integer does. -/
lemma feedNum_integral {bits : ℕ} {i : ℤ} (h : f64.read bits = .finite i) (hi : |(i : ℚ)| < 2 ^ 127) :
    feedNum (.float bits) = 0 :: feedI128 i := by
  have hfract : (Datum.finite (i : ℚ)).fract.partialCmp (.finite 0) = some .eq := by
    rw [Datum.fract, truncate_intCast, sub_self, Datum.partialCmp, Std.ReflOrd.compare_self]
  have habs : (Datum.finite (i : ℚ)).abs.lt i128Bound = true := by
    rw [Datum.abs, Datum.lt, i128Bound, Datum.partialCmp, compare_lt_iff_lt.2 hi]
    rfl
  have hcast : asI128 (.finite i) = i := by
    have hbounds := abs_lt.1 hi
    have h1 : (-2 ^ 127 : ℤ) < i := by exact_mod_cast hbounds.1
    have h2 : i < (2 ^ 127 : ℤ) := by exact_mod_cast hbounds.2
    rw [asI128, Datum.toInt, truncate_intCast]
    omega
  rw [feedNum]
  simp only [h]
  rw [if_neg (by simp [Datum.isNan]), if_pos ⟨hfract, habs⟩, hcast]

/-- **Numbers that stand for the same feed the same.** -/
lemma feedNum_eq {x y : Num} (hx : x.InRange) (hy : y.InRange) (h : x.datum = y.datum) :
    feedNum x = feedNum y := by
  have habs : ∀ {i : ℤ}, (Num.int i).InRange → |(i : ℚ)| < 2 ^ 127 := by
    intro i hi
    have hi' : |i| < 2 ^ 127 := abs_lt.2 ⟨by have := hi.1; omega, by have := hi.2; omega⟩
    exact_mod_cast hi'
  cases x with
  | int i =>
      cases y with
      | int j =>
          have hij : i = j := Int.cast_injective (Datum.finite.inj h)
          rw [hij]
      | float bits => exact (feedNum_integral h.symm (habs hx)).symm
  | float bits =>
      cases y with
      | int j => exact feedNum_integral h (habs hy)
      | float bits' =>
          simp only [Num.datum] at h
          rw [feedNum, feedNum]
          simp only [h]
          split_ifs with hnan hint
          · rfl
          · rfl
          · -- neither a zero nor no number, so the bits are the same
            have hsame : bits = bits' := by
              refine Ieee.Format.eq_of_read_eq (by decide) (show bits < 2 * f64.signBit from hx)
                (show bits' < 2 * f64.signBit from hy) h ?_ ?_
              · rw [h]
                intro hzero
                refine hint ?_
                rw [hzero]
                exact ⟨by decide +kernel, by decide +kernel⟩
              · rw [h]
                exact fun hn => hnan (isNan_iff.2 hn)
            rw [hsame]

/-! ## JSON -/

def member (m : String × Key Label) : Key Label := .node (Label.text m.1) m.2 .nil

mutual

/-- What is below the rank of a JSON value. -/
def jsonBody : Value → Key Label
  | .null => .nil
  | .bool b => .leaf (Label.nat b.toNat)
  | .number n => .leaf (Label.datum (jsonNum n).datum)
  | .string s => .leaf (Label.text s)
  | .array items => .row (Label.nat 0) (itemKeys items)
  | .object members => .row (Label.nat 0) ((sortedEntries (memberKeys members)).map member)

def itemKeys : List Value → List (Key Label)
  | [] => []
  | v :: items => .node (Label.nat (jsonRank v)) (jsonBody v) .nil :: itemKeys items

def memberKeys : List (String × Value) → List (String × Key Label)
  | [] => []
  | m :: members => (m.1, .node (Label.nat (jsonRank m.2)) (jsonBody m.2) .nil) :: memberKeys members

end

def jsonKey (v : Value) : Key Label := .node (Label.nat (jsonRank v)) (jsonBody v) .nil

lemma itemKeys_eq (items : List Value) : itemKeys items = items.map jsonKey := by
  induction items with
  | nil => rfl
  | cons v items ih => rw [itemKeys, ih, List.map_cons, jsonKey]

lemma memberKeys_eq (members : List (String × Value)) :
    memberKeys members = members.map fun m => (m.1, jsonKey m.2) := by
  induction members with
  | nil => rfl
  | cons m members ih => rw [memberKeys, ih, List.map_cons, jsonKey]

/-- The members are put in order by their names alone. -/
lemma sortedEntries_memberKeys (members : List (String × Value)) :
    (sortedEntries (memberKeys members)).map member
      = (sortedEntries members).map fun m => member (m.1, jsonKey m.2) := by
  have hsort : sortedEntries (memberKeys members) = (sortedEntries members).map fun m => (m.1, jsonKey m.2) := by
    rw [memberKeys_eq, sortedEntries, sortedEntries, List.map_mergeSort]
    intro a _ b _
    rfl
  rw [hsort, List.map_map]
  rfl

lemma jsonBody_array (items : List Value) :
    jsonBody (.array items) = .row (Label.nat 0) (items.map jsonKey) := by
  rw [jsonBody, itemKeys_eq]

lemma jsonBody_object (members : List (String × Value)) : jsonBody (.object members)
    = .row (Label.nat 0) ((sortedEntries members).map fun m => member (m.1, jsonKey m.2)) := by
  rw [jsonBody, sortedEntries_memberKeys]

lemma jsonNum_inRange {n : Number} (h : n.wellFormed) : (jsonNum n).InRange := by
  cases n with
  | int i => exact h
  | float bits => exact h.1

/-- Two ranks, and below them a key each. -/
lemma cmp_ranked (m n : ℕ) (k l : Key Label) :
    (Key.node (Label.nat m) k .nil).cmp (.node (Label.nat n) l .nil) = (compare m n).then (k.cmp l) := by
  have hnil : (Key.nil : Key Label).cmp .nil = .eq := rfl
  rw [Key.cmp, Label.compare_nat, hnil, Ordering.then_eq]

lemma compare_toNat (a b : Bool) : compare a b = compare a.toNat b.toNat := by
  cases a <;> cases b <;> rfl

lemma toNat_inj {a b : Bool} (h : a.toNat = b.toNat) : a = b := by
  cases a <;> cases b <;> first | rfl | cases h

/-- The items of two lists, taken with their membership. -/
lemma cmpLex_attach {β γ : Type*} (c : β → γ → Ordering) (xs : List β) (ys : List γ) :
    cmpLex (fun (x : {x // x ∈ xs}) y => c x.1 y) xs.attach ys = cmpLex c xs ys := by
  have hgen : ∀ (l : List β) (p : ∀ x ∈ l, x ∈ xs) (ys : List γ),
      cmpLex (fun (x : {x // x ∈ xs}) y => c x.1 y) (l.pmap Subtype.mk p) ys = cmpLex c l ys := by
    intro l
    induction l with
    | nil =>
        intro p ys
        cases ys <;> rfl
    | cons x l ih =>
        intro p ys
        cases ys with
        | nil => rfl
        | cons y ys => rw [List.pmap, cmpLex_cons, cmpLex_cons, ih]
  exact hgen xs (fun _ h => h) ys

lemma then_of_ne {m n : ℕ} (h : m ≠ n) (o o' : Ordering) : (compare m n).then o = (compare m n).then o' := by
  rcases h.lt_or_gt with h | h
  · rw [compare_lt_iff_lt.2 h]
    rfl
  · rw [compare_gt_iff_gt.2 h]
    rfl

section json

variable {a b : Value}

/-- Values of two ranks are compared by these alone. -/
lemma cmpJson_of_rank (h : jsonRank a = jsonRank b → cmpJson a b = (jsonBody a).cmp (jsonBody b)) :
    cmpJson a b = (jsonKey a).cmp (jsonKey b) := by
  rw [jsonKey, jsonKey, cmp_ranked]
  by_cases hrank : jsonRank a = jsonRank b
  · rw [h hrank, hrank, Std.ReflOrd.compare_self, Ordering.eq_then]
  · rw [cmpJson.eq_def]
    exact then_of_ne hrank _ _

lemma cmpJson_array (x y : List Value) : cmpJson (.array x) (.array y) = cmpLex cmpJson x y := by
  rw [cmpJson.eq_def]
  exact cmpLex_attach cmpJson x y

lemma cmpJson_object (x y : List (String × Value)) : cmpJson (.object x) (.object y)
    = cmpLex (fun p q => (compare p.1 q.1).then (cmpJson p.2 q.2)) (sortedEntries x) (sortedEntries y) := by
  rw [cmpJson.eq_def]
  exact cmpLex_attach (fun p q : String × Value => (compare p.1 q.1).then (cmpJson p.2 q.2)) _ _

/-- **JSON values are compared as their keys are.** -/
lemma cmpJson_eq (ha : a.WellFormed) (hb : b.WellFormed) : cmpJson a b = (jsonKey a).cmp (jsonKey b) := by
  induction ha generalizing b with
  | null =>
      refine cmpJson_of_rank fun hrank => ?_
      cases hb with
      | null =>
          rw [cmpJson.eq_def]
          rfl
      | _ => cases hrank
  | bool p =>
      refine cmpJson_of_rank fun hrank => ?_
      cases hb with
      | bool q =>
          rw [cmpJson.eq_def, jsonBody, jsonBody, Key.cmp_leaf, Label.compare_nat, ← compare_toNat]
          rfl
      | _ => cases hrank
  | number hn =>
      refine cmpJson_of_rank fun hrank => ?_
      cases hb with
      | number hm =>
          rw [cmpJson.eq_def, jsonBody, jsonBody, Key.cmp_leaf, Label.compare_datum,
            ← cmpNum_eq (jsonNum_inRange hn) (jsonNum_inRange hm)]
          rfl
      | _ => cases hrank
  | string s =>
      refine cmpJson_of_rank fun hrank => ?_
      cases hb with
      | string t =>
          rw [cmpJson.eq_def, jsonBody, jsonBody, Key.cmp_leaf, Label.compare_text]
          rfl
      | _ => cases hrank
  | array hx ih =>
      refine cmpJson_of_rank fun hrank => ?_
      cases hb with
      | array hy =>
          rw [cmpJson_array, jsonBody_array, jsonBody_array]
          exact cmp_row fun p hp q hq => ih p hp (hy q hq)
      | _ => cases hrank
  | object hk hx ih =>
      refine cmpJson_of_rank fun hrank => ?_
      cases hb with
      | object hl hy =>
          rw [cmpJson_object, jsonBody_object, jsonBody_object]
          refine cmp_row fun p hp q hq => ?_
          rw [ih p ((mem_sortedEntries _ p).1 hp) (hy q ((mem_sortedEntries _ q).1 hq)), member, member,
            Key.cmp, Label.compare_text]
          exact congrArg _ Ordering.then_eq.symm
      | _ => cases hrank

/-- Lists whose images are the same have the same images under what these determine. -/
lemma map_eq_map {β γ δ : Type*} {f : β → γ} {g : β → δ} {xs ys : List β} (h : xs.map f = ys.map f)
    (hfg : ∀ x ∈ xs, ∀ y ∈ ys, f x = f y → g x = g y) : xs.map g = ys.map g := by
  induction xs generalizing ys with
  | nil =>
      rw [List.map_nil, eq_comm, List.map_eq_nil_iff] at h
      rw [h]
  | cons x xs ih =>
      cases ys with
      | nil => cases h
      | cons y ys =>
          rw [List.map_cons, List.map_cons, List.cons.injEq] at h
          rw [List.map_cons, List.map_cons, hfg x List.mem_cons_self y List.mem_cons_self h.1,
            ih h.2 fun x hx y hy => hfg x (List.mem_cons_of_mem _ hx) y (List.mem_cons_of_mem _ hy)]

lemma flatMap_eq {β γ : Type*} {k : β → γ} {f : β → Bytes} {xs ys : List β} (h : xs.map k = ys.map k)
    (hf : ∀ x ∈ xs, ∀ y ∈ ys, k x = k y → f x = f y) : xs.flatMap f = ys.flatMap f := by
  rw [List.flatMap_def, List.flatMap_def, map_eq_map h hf]

lemma flatMap_attach {β : Type*} (f : β → Bytes) (xs : List β) :
    (xs.attach.flatMap fun p => f p.1) = xs.flatMap f := by
  have := List.flatMap_map Subtype.val f xs.attach
  rw [List.attach_map_subtype_val] at this
  exact this.symm

lemma feedJson_array (items : List Value) :
    feedJson (.array items) = 4 :: (feedUsize items.length ++ items.flatMap feedJson) := by
  rw [feedJson.eq_def]
  simp only [flatMap_attach]
  rfl

lemma feedJson_object (members : List (String × Value)) : feedJson (.object members)
    = 5 :: (feedUsize members.length ++ (sortedEntries members).flatMap fun m => feedText m.1 ++ feedJson m.2) := by
  rw [feedJson.eq_def]
  simp only [flatMap_attach (fun m : String × Value => feedText m.1 ++ feedJson m.2)]
  rfl

lemma length_sortedEntries {α : Type} (members : List (String × α)) :
    (sortedEntries members).length = members.length := (List.mergeSort_perm _ _).length_eq

lemma jsonKey_inj (h : jsonKey a = jsonKey b) : jsonRank a = jsonRank b ∧ jsonBody a = jsonBody b := by
  rw [jsonKey, jsonKey, Key.node.injEq] at h
  exact ⟨Label.nat_inj h.1, h.2.1⟩

/-- **JSON values of one key feed the same.** -/
lemma feedJson_eq (ha : a.WellFormed) (hb : b.WellFormed) (h : jsonKey a = jsonKey b) :
    feedJson a = feedJson b := by
  induction ha generalizing b with
  | null =>
      obtain ⟨hrank, hbody⟩ := jsonKey_inj h
      cases hb with
      | null => rfl
      | _ => cases hrank
  | bool p =>
      obtain ⟨hrank, hbody⟩ := jsonKey_inj h
      cases hb with
      | bool q =>
          rw [jsonBody, jsonBody, Key.leaf, Key.leaf, Key.node.injEq] at hbody
          rw [toNat_inj (Label.nat_inj hbody.1)]
      | _ => cases hrank
  | number hn =>
      obtain ⟨hrank, hbody⟩ := jsonKey_inj h
      cases hb with
      | number hm =>
          rw [jsonBody, jsonBody, Key.leaf, Key.leaf, Key.node.injEq] at hbody
          have hfeed := feedNum_eq (jsonNum_inRange hn) (jsonNum_inRange hm) (Label.datum_inj hbody.1)
          rw [feedJson.eq_def, feedJson.eq_def]
          exact congrArg (List.cons 2) hfeed
      | _ => cases hrank
  | string s =>
      obtain ⟨hrank, hbody⟩ := jsonKey_inj h
      cases hb with
      | string t =>
          rw [jsonBody, jsonBody, Key.leaf, Key.leaf, Key.node.injEq] at hbody
          rw [Label.text_inj hbody.1]
      | _ => cases hrank
  | array hx ih =>
      obtain ⟨hrank, hbody⟩ := jsonKey_inj h
      cases hb with
      | array hy =>
          rw [jsonBody_array, jsonBody_array] at hbody
          have hkeys := Key.row_inj hbody
          have hlength := congrArg List.length hkeys
          rw [List.length_map, List.length_map] at hlength
          rw [feedJson_array, feedJson_array, hlength, flatMap_eq hkeys fun p hp q hq => ih p hp (hy q hq)]
      | _ => cases hrank
  | object hk hx ih =>
      obtain ⟨hrank, hbody⟩ := jsonKey_inj h
      cases hb with
      | object hl hy =>
          rw [jsonBody_object, jsonBody_object] at hbody
          have hkeys := Key.row_inj hbody
          have hlength := congrArg List.length hkeys
          rw [List.length_map, List.length_map, length_sortedEntries, length_sortedEntries] at hlength
          rw [feedJson_object, feedJson_object, hlength]
          rw [flatMap_eq hkeys fun p hp q hq hpq => ?_]
          rw [member, member, Key.node.injEq] at hpq
          rw [Label.text_inj hpq.1,
            ih p ((mem_sortedEntries _ p).1 hp) (hy q ((mem_sortedEntries _ q).1 hq)) hpq.2.1]
      | _ => cases hrank

end json

/-! ## Elements and paths -/

section elements

variable {heap : ℕ → PathNode}

/-- Numbers one after the other. -/
def numbers (ns : List ℕ) : Key Label := .row (Label.nat 0) (ns.map fun n => .leaf (Label.nat n))

lemma numbers_inj {ms ns : List ℕ} (h : numbers ms = numbers ns) : ms = ns := by
  refine List.map_injective_iff.2 (fun m n hmn => ?_) (Key.row_inj h)
  rw [Key.leaf, Key.leaf, Key.node.injEq] at hmn
  exact Label.nat_inj hmn.1

lemma cmp_numbers (ms ns : List ℕ) : cmpLex compare ms ns = (numbers ms).cmp (numbers ns) :=
  cmp_row fun m _ n _ => by rw [Key.cmp_leaf, Label.compare_nat]

def entityNumbers (id : EntityId) : List ℕ := [id.collection, id.sequence]

/-- What an edge is told by. -/
def EdgeRef.numbers (e : EdgeRef) : List ℕ :=
  entityNumbers e.key.source ++ [e.key.context, e.key.edgeType] ++ entityNumbers e.key.destination ++ [e.id]

lemma cmpEntity_eq (a b : EntityId) :
    cmpEntity a b = (numbers (entityNumbers a)).cmp (numbers (entityNumbers b)) := by
  rw [← cmp_numbers, entityNumbers, entityNumbers, cmpLex_cons, cmpLex_cons, cmpEntity]
  exact congrArg _ Ordering.then_eq.symm

lemma EdgeRef.cmp_eq (a b : EdgeRef) :
    a.cmp b = (Grouping.numbers a.numbers).cmp (Grouping.numbers b.numbers) := by
  have hnil : cmpLex (compare : ℕ → ℕ → Ordering) [] [] = .eq := rfl
  rw [← cmp_numbers]
  simp only [EdgeRef.numbers, entityNumbers, List.cons_append, List.nil_append, cmpLex_cons, hnil, EdgeRef.cmp,
    cmpEdgeKey, cmpEntity, Ordering.then_assoc, Ordering.then_eq]

lemma entityNumbers_inj {a b : EntityId} (h : entityNumbers a = entityNumbers b) : a = b := by
  cases a
  cases b
  simpa [entityNumbers] using h

lemma EdgeRef.numbers_eq_iff {a b : EdgeRef} : a.numbers = b.numbers ↔ (a.key, a.id) = (b.key, b.id) := by
  constructor
  · intro h
    simp only [EdgeRef.numbers, entityNumbers, List.cons_append, List.nil_append, List.cons.injEq, and_true] at h
    obtain ⟨h1, h2, h3, h4, h5, h6, h7⟩ := h
    have hsource : a.key.source = b.key.source := entityNumbers_inj (by rw [entityNumbers, entityNumbers, h1, h2])
    have hdestination : a.key.destination = b.key.destination :=
      entityNumbers_inj (by rw [entityNumbers, entityNumbers, h5, h6])
    have hkey : a.key = b.key := by
      cases ha : a.key
      cases hb : b.key
      simp_all
    rw [hkey, h7]
  · intro h
    rw [Prod.mk.injEq] at h
    rw [EdgeRef.numbers, EdgeRef.numbers, h.1, h.2]

lemma EdgeRef.feed_eq {a b : EdgeRef} (h : a.numbers = b.numbers) : a.feed = b.feed := by
  obtain ⟨hkey, hid⟩ := Prod.mk.inj (EdgeRef.numbers_eq_iff.1 h)
  rw [EdgeRef.feed, EdgeRef.feed, hkey, hid]

namespace PathNode

/-- The start of a path. -/
def first : PathNode → EntityId
  | start _ node => node
  | step _ parent _ _ _ _ => parent.first

/-- The steps of a path, the last first. -/
def steps : PathNode → List (EdgeRef × Bool)
  | start _ _ => []
  | step _ parent edge forward _ _ => (edge, forward) :: parent.steps

lemma walk_eq (p : PathNode) (passed : List (EdgeRef × Bool)) :
    p.walk passed = (p.first, (passed ++ p.steps).reverse) := by
  induction p generalizing passed with
  | start addr node => rw [walk, first, steps, List.append_nil]
  | step addr parent edge forward node len ih =>
      rw [walk, ih, first, steps, List.append_assoc, List.singleton_append]

lemma Held.heap_addr {p : PathNode} (h : p.Held heap) : heap p.addr = p := by
  cases p with
  | start addr node => exact h
  | step addr parent edge forward node len => exact h.1

lemma Held.parent {addr len : ℕ} {parent : PathNode} {edge : EdgeRef} {forward : Bool} {node : EntityId}
    (h : (step addr parent edge forward node len).Held heap) : parent.Held heap := h.2

lemma Counted.len_eq {p : PathNode} (h : p.Counted) : p.len = p.steps.length % 2 ^ 32 := by
  induction p with
  | start addr node => rfl
  | step addr parent edge forward node len ih =>
      rw [PathNode.len, h.1, ih h.2, steps, List.length_cons, Nat.mod_add_mod]

/-- What a step is told by. -/
def stepNumbers (s : EdgeRef × Bool) : List ℕ × Bool := (s.1.numbers, s.2)

/-- **The walk back from two tips** finds whether the paths have the same start and steps. -/
lemma eq_iff {a b : PathNode} (ha : a.Held heap) (hb : b.Held heap) (hca : a.Counted) (hcb : b.Counted) :
    a.eq b = true ↔ a.first = b.first ∧ a.steps.map stepNumbers = b.steps.map stepNumbers := by
  -- one address holds one node
  have hsame : ∀ {x y : PathNode}, x.Held heap → y.Held heap → x.addr = y.addr → x = y := by
    intro x y hx hy hxy
    rw [← hx.heap_addr, ← hy.heap_addr, hxy]
  induction a generalizing b with
  | start addr node =>
      by_cases haddr : addr = b.addr
      · obtain rfl := hsame ha hb haddr
        simp [eq, PathNode.addr]
      · cases b with
        | start addr' node' => simp [eq, haddr, first, steps]
        | step addr' parent' edge' forward' node' len' => simp [eq, haddr, steps]
  | step addr parent edge forward node len ih =>
      by_cases haddr : addr = b.addr
      · obtain rfl := hsame ha hb haddr
        simp [eq, PathNode.addr]
      · cases b with
        | start addr' node' => simp [eq, haddr, steps]
        | step addr' parent' edge' forward' node' len' =>
            have hrest := ih ha.parent hb.parent hca.2 hcb.2
            have hedge : edge.eq edge' = true ↔ edge.numbers = edge'.numbers := by
              rw [EdgeRef.eq, decide_eq_true_eq, EdgeRef.numbers_eq_iff]
            have hlen : parent.steps.map stepNumbers = parent'.steps.map stepNumbers → len = len' := by
              intro hsteps
              have hlength := congrArg List.length hsteps
              rw [List.length_map, List.length_map] at hlength
              rw [hca.1, hcb.1, hca.2.len_eq, hcb.2.len_eq, hlength]
            rw [eq, decide_eq_false haddr, Bool.false_or, first, first, steps, steps, List.map_cons,
              List.map_cons, List.cons.injEq, stepNumbers, stepNumbers, Prod.mk.injEq]
            dsimp only
            split_ifs with hdiff
            · refine iff_of_false not_false ?_
              rintro ⟨-, ⟨hnumbers, hforward⟩, hsteps⟩
              rcases hdiff with h | h | h
              · exact h (hlen hsteps)
              · exact h hforward
              · rw [hedge.2 hnumbers] at h
                cases h
            · rw [not_or, not_or, not_not, not_not, Bool.not_eq_false] at hdiff
              exact hrest.trans ⟨fun h => ⟨h.1, ⟨hedge.1 hdiff.2.2, hdiff.2.1⟩, h.2⟩, fun h => ⟨h.1, h.2.2⟩⟩

lemma feed_eq {a b : PathNode} (hfirst : a.first = b.first)
    (hsteps : a.steps.map stepNumbers = b.steps.map stepNumbers) : a.feed = b.feed := by
  induction a generalizing b with
  | start addr node =>
      cases b with
      | start addr' node' => exact congrArg feedEntity hfirst
      | step addr' parent' edge' forward' node' len' => cases hsteps
  | step addr parent edge forward node len ih =>
      cases b with
      | start addr' node' => cases hsteps
      | step addr' parent' edge' forward' node' len' =>
          rw [steps, steps, List.map_cons, List.map_cons, List.cons.injEq, stepNumbers, stepNumbers,
            Prod.mk.injEq] at hsteps
          obtain ⟨⟨hnumbers, hforward⟩, hrest⟩ := hsteps
          dsimp only at hnumbers hforward
          rw [feed, feed, EdgeRef.feed_eq hnumbers, hforward, @ih parent' hfirst hrest]

end PathNode

def stepKey (s : EdgeRef × Bool) : Key Label :=
  .node (Label.nat 0) (numbers s.1.numbers) (.leaf (Label.nat s.2.toNat))

namespace PathRef

/-- The start, and the steps in the order of the path. -/
def key (p : PathRef heap) : Key Label :=
  .node (Label.nat 0) (numbers (entityNumbers p.tip.first)) (.row (Label.nat 0) (p.tip.steps.reverse.map stepKey))

lemma inOrder_eq (p : PathRef heap) : p.inOrder = (p.tip.first, p.tip.steps.reverse) := by
  rw [inOrder, PathNode.walk_eq, List.nil_append]

lemma stepKey_eq_iff (s t : EdgeRef × Bool) :
    stepKey s = stepKey t ↔ PathNode.stepNumbers s = PathNode.stepNumbers t := by
  rw [stepKey, stepKey, Key.node.injEq, Key.leaf, Key.leaf, Key.node.injEq, PathNode.stepNumbers,
    PathNode.stepNumbers, Prod.mk.injEq]
  constructor
  · intro h
    exact ⟨numbers_inj h.2.1, toNat_inj (Label.nat_inj h.2.2.1)⟩
  · rintro ⟨hnumbers, hforward⟩
    rw [hnumbers, hforward]
    exact ⟨rfl, rfl, rfl, rfl, rfl⟩

lemma key_eq_iff (p q : PathRef heap) : p.key = q.key ↔ p.tip.first = q.tip.first
    ∧ p.tip.steps.map PathNode.stepNumbers = q.tip.steps.map PathNode.stepNumbers := by
  constructor
  · intro h
    rw [key, key, Key.node.injEq] at h
    have hkeys := Key.row_inj h.2.2
    rw [List.map_reverse, List.map_reverse, List.reverse_inj] at hkeys
    exact ⟨entityNumbers_inj (numbers_inj h.2.1), map_eq_map hkeys fun s _ t _ => (stepKey_eq_iff s t).1⟩
  · rintro ⟨hfirst, hsteps⟩
    rw [key, key, hfirst, List.map_reverse, List.map_reverse,
      map_eq_map hsteps fun s _ t _ => (stepKey_eq_iff s t).2]

/-- **Paths are compared as their keys are**; the shortcut finds a path equal to itself. -/
lemma cmp_eq (p q : PathRef heap) : p.cmp q = p.key.cmp q.key := by
  rw [cmp]
  split_ifs with haddr
  · have hsame : p.tip = q.tip := by rw [← p.held.heap_addr, ← q.held.heap_addr, haddr]
    rw [key, key, hsame]
    exact Std.ReflCmp.compare_self.symm
  · rw [inOrder_eq, inOrder_eq, cmpEntity_eq, key, key, Key.cmp_node_self]
    refine congrArg _ (cmp_row fun s _ t _ => ?_)
    rw [stepKey, stepKey, Key.cmp_node_self, Key.cmp_leaf, Label.compare_nat, ← compare_toNat, EdgeRef.cmp_eq]

lemma eq_iff (p q : PathRef heap) : p.eq q = true ↔ p.cmp q = .eq := by
  rw [cmp_eq, Std.LawfulEqCmp.compare_eq_iff_eq, key_eq_iff, eq,
    PathNode.eq_iff p.held q.held p.counted q.counted]

lemma feed_eq {p q : PathRef heap} (h : p.key = q.key) : p.feed = q.feed := by
  obtain ⟨hfirst, hsteps⟩ := (key_eq_iff p q).1 h
  have hlength := congrArg List.length hsteps
  rw [List.length_map, List.length_map] at hlength
  rw [feed, feed, p.counted.len_eq, q.counted.len_eq, hlength, PathNode.feed_eq hfirst hsteps]

end PathRef

end elements

/-! ## Values -/

namespace BindingValue

variable {heap : ℕ → PathNode} {a b c : BindingValue heap}

/-- The place of an `f32` widened. -/
def laneLabel (lane : UInt32) : Label := Label.datum (f64.read (f64From lane.toNat))

mutual

/-- What is below the rank of a value. -/
def body : BindingValue heap → Key Label
  | null => .nil
  | bool b => .leaf (Label.nat b.toNat)
  | int i => .leaf (Label.datum (int i : BindingValue heap).number.datum)
  | float bits => .leaf (Label.datum (float bits : BindingValue heap).number.datum)
  | text s => .leaf (Label.text s)
  | json v => jsonKey v.1
  | vector lanes => .row (Label.nat 0) (lanes.map fun lane => .leaf (laneLabel lane))
  | geo v => jsonKey v.1
  | bytes b => numbers (b.map UInt8.toNat)
  | node n => numbers (entityNumbers n)
  | edge e => numbers e.numbers
  | path p => p.key
  | list items => .row (Label.nat 0) (keys items)

def keys : List (BindingValue heap) → List (Key Label)
  | [] => []
  | v :: items => .node (Label.nat v.rank) v.body .nil :: keys items

end

/-- A value as a key. -/
def key (v : BindingValue heap) : Key Label := .node (Label.nat v.rank) v.body .nil

lemma body_list (items : List (BindingValue heap)) : (list items).body = .row (Label.nat 0) (items.map key) := by
  have hkeys : ∀ items : List (BindingValue heap), keys items = items.map key := by
    intro items
    induction items with
    | nil => rfl
    | cons v items ih => rw [keys, ih, List.map_cons, key]
  rw [body, hkeys]

lemma key_inj (h : a.key = b.key) : a.rank = b.rank ∧ a.body = b.body := by
  rw [key, key, Key.node.injEq] at h
  exact ⟨Label.nat_inj h.1, h.2.1⟩

lemma number_inRange (i : Int64) (bits : UInt64) :
    (int i : BindingValue heap).number.InRange ∧ (float bits : BindingValue heap).number.InRange :=
  ⟨⟨Int64.le_toInt i, (Int64.toInt_lt i).trans (by norm_num)⟩, bits.toNat_lt⟩

/-- Values of two ranks are compared by these alone. -/
lemma cmp_of_rank (h : a.rank = b.rank → a.cmp b = a.body.cmp b.body) : a.cmp b = a.key.cmp b.key := by
  rw [key, key, cmp_ranked]
  by_cases hrank : a.rank = b.rank
  · rw [h hrank, hrank, Std.ReflOrd.compare_self, Ordering.eq_then]
  · rw [cmp.eq_def]
    exact then_of_ne hrank _ _

lemma cmp_list (x y : List (BindingValue heap)) : (list x).cmp (list y) = cmpLex cmp x y := by
  rw [cmp.eq_def]
  exact cmpLex_attach cmp x y

lemma compare_bytes (x y : Bytes) : compare x y = cmpLex compare (x.map UInt8.toNat) (y.map UInt8.toNat) := by
  induction x generalizing y with
  | nil => cases y <;> rfl
  | cons b x ih =>
      cases y with
      | nil => rfl
      | cons c y =>
          have hbyte : compare b c = compare b.toNat c.toNat := by
            simp only [compare, compareOfLessAndEq, UInt8.lt_iff_toNat_lt, UInt8.toNat_inj]
          rw [List.map_cons, List.map_cons, cmpLex_cons, List.compare_cons_cons, ih, hbyte]

lemma sizeOf_item {v : BindingValue heap} {items : List (BindingValue heap)} (h : v ∈ items) :
    sizeOf v < sizeOf (list items) := by
  have := List.sizeOf_lt_of_mem h
  rw [list.sizeOf_spec]
  omega

/-- What holds of a list where it holds of its items holds of all values. -/
lemma items_induction {p : BindingValue heap → Prop}
    (h : ∀ a, (∀ items, a = list items → ∀ v ∈ items, p v) → p a) (a : BindingValue heap) : p a := by
  induction hn : sizeOf a using Nat.strong_induction_on generalizing a with
  | _ n ih =>
      refine h a fun items ha v hv => ih (sizeOf v) ?_ v rfl
      rw [← hn, ha]
      exact sizeOf_item hv

/-- **Values are compared as their keys are.** -/
lemma cmp_eq (a b : BindingValue heap) : a.cmp b = a.key.cmp b.key := by
  induction a using items_induction generalizing b with
  | _ a ih =>
      refine cmp_of_rank fun hrank => ?_
      cases a with
      | null =>
          cases b with
          | null =>
              rw [cmp.eq_def]
              rfl
          | _ => cases hrank
      | bool p =>
          cases b with
          | bool q =>
              rw [cmp.eq_def, body, body, Key.cmp_leaf, Label.compare_nat, ← compare_toNat]
              rfl
          | _ => cases hrank
      | int i =>
          have hi := (@number_inRange heap i 0).1
          cases b with
          | int j =>
              rw [body, body, Key.cmp_leaf, Label.compare_datum, ← cmpNum_eq hi (number_inRange j 0).1, cmp.eq_def]
              rfl
          | float y =>
              rw [body, body, Key.cmp_leaf, Label.compare_datum, ← cmpNum_eq hi (number_inRange 0 y).2, cmp.eq_def]
              rfl
          | _ => cases hrank
      | float x =>
          have hx := (@number_inRange heap 0 x).2
          cases b with
          | int j =>
              rw [body, body, Key.cmp_leaf, Label.compare_datum, ← cmpNum_eq hx (number_inRange j 0).1, cmp.eq_def]
              rfl
          | float y =>
              rw [body, body, Key.cmp_leaf, Label.compare_datum, ← cmpNum_eq hx (number_inRange 0 y).2, cmp.eq_def]
              rfl
          | _ => cases hrank
      | text s =>
          cases b with
          | text t =>
              rw [cmp.eq_def, body, body, Key.cmp_leaf, Label.compare_text]
              rfl
          | _ => cases hrank
      | json v =>
          cases b with
          | json w =>
              rw [cmp.eq_def, body, body, ← cmpJson_eq v.2 w.2]
              rfl
          | _ => cases hrank
      | vector x =>
          cases b with
          | vector y =>
              rw [cmp.eq_def, body, body, ← cmp_row fun p _ q _ => ?_]
              · exact Ordering.eq_then
              · rw [Key.cmp_leaf, laneLabel, laneLabel, Label.compare_datum, ← cmpFloat_eq]
          | _ => cases hrank
      | geo v =>
          cases b with
          | geo w =>
              rw [cmp.eq_def, body, body, ← cmpJson_eq v.2 w.2]
              rfl
          | _ => cases hrank
      | bytes x =>
          cases b with
          | bytes y =>
              rw [cmp.eq_def, body, body, ← cmp_numbers, ← compare_bytes]
              rfl
          | _ => cases hrank
      | node m =>
          cases b with
          | node n =>
              rw [cmp.eq_def, body, body, ← cmpEntity_eq]
              rfl
          | _ => cases hrank
      | edge e =>
          cases b with
          | edge f =>
              rw [cmp.eq_def, body, body, ← EdgeRef.cmp_eq]
              rfl
          | _ => cases hrank
      | path p =>
          cases b with
          | path q =>
              rw [cmp.eq_def, body, body, ← PathRef.cmp_eq]
              rfl
          | _ => cases hrank
      | list x =>
          cases b with
          | list y =>
              rw [cmp_list, body_list, body_list]
              exact cmp_row fun p hp q _ => ih x rfl p hp q
          | _ => cases hrank

lemma feed_list (items : List (BindingValue heap)) :
    (list items).feed = 11 :: (feedUsize items.length ++ items.flatMap feed) := by
  rw [feed.eq_def]
  simp only [flatMap_attach]
  rfl

lemma leaf_inj {x y : Label} (h : Key.leaf x = .leaf y) : x = y := by
  rw [Key.leaf, Key.leaf, Key.node.injEq] at h
  exact h.1

/-- **Values of one key feed the same.** -/
lemma feed_eq (h : a.key = b.key) : a.feed = b.feed := by
  induction a using items_induction generalizing b with
  | _ a ih =>
      obtain ⟨hrank, hbody⟩ := key_inj h
      -- the rank is fed first, so what remains is what comes after it
      have hnumber : ∀ {x y : BindingValue heap}, x.number.InRange → y.number.InRange →
          Key.leaf (Label.datum x.number.datum) = .leaf (Label.datum y.number.datum) →
          (2 : UInt8) :: feedNum x.number = 2 :: feedNum y.number := fun hx hy hxy =>
        congrArg _ (feedNum_eq hx hy (Label.datum_inj (leaf_inj hxy)))
      cases a with
      | null =>
          cases b with
          | null => rfl
          | _ => cases hrank
      | bool p =>
          cases b with
          | bool q =>
              rw [body, body] at hbody
              rw [toNat_inj (Label.nat_inj (leaf_inj hbody))]
          | _ => cases hrank
      | int i =>
          have hi := (@number_inRange heap i 0).1
          cases b with
          | int j =>
              rw [body, body] at hbody
              rw [feed.eq_def, feed.eq_def]
              exact hnumber hi (number_inRange j 0).1 hbody
          | float y =>
              rw [body, body] at hbody
              rw [feed.eq_def, feed.eq_def]
              exact hnumber hi (number_inRange 0 y).2 hbody
          | _ => cases hrank
      | float x =>
          have hx := (@number_inRange heap 0 x).2
          cases b with
          | int j =>
              rw [body, body] at hbody
              rw [feed.eq_def, feed.eq_def]
              exact hnumber hx (number_inRange j 0).1 hbody
          | float y =>
              rw [body, body] at hbody
              rw [feed.eq_def, feed.eq_def]
              exact hnumber hx (number_inRange 0 y).2 hbody
          | _ => cases hrank
      | text s =>
          cases b with
          | text t =>
              rw [body, body] at hbody
              rw [Label.text_inj (leaf_inj hbody)]
          | _ => cases hrank
      | json v =>
          cases b with
          | json w =>
              rw [feed.eq_def, feed.eq_def]
              exact congrArg _ (feedJson_eq v.2 w.2 hbody)
          | _ => cases hrank
      | vector x =>
          cases b with
          | vector y =>
              rw [body, body] at hbody
              have hkeys := Key.row_inj hbody
              have hlength := congrArg List.length hkeys
              rw [List.length_map, List.length_map] at hlength
              have hlanes := flatMap_eq hkeys fun lane _ lane' _ h =>
                @feedNum_eq (.float (f64From lane.toNat)) (.float (f64From lane'.toNat)) (f64From_lt _)
                  (f64From_lt _) (Label.datum_inj (leaf_inj h))
              rw [feed.eq_def, feed.eq_def]
              exact congrArg _ (congrArg₂ (· ++ ·) (congrArg feedUsize hlength) hlanes)
          | _ => cases hrank
      | geo v =>
          cases b with
          | geo w =>
              rw [feed.eq_def, feed.eq_def]
              exact congrArg _ (feedJson_eq v.2 w.2 hbody)
          | _ => cases hrank
      | bytes x =>
          cases b with
          | bytes y =>
              rw [body, body] at hbody
              rw [List.map_injective_iff.2 (fun _ _ => UInt8.toNat_inj.1) (numbers_inj hbody)]
          | _ => cases hrank
      | node m =>
          cases b with
          | node n =>
              rw [body, body] at hbody
              rw [entityNumbers_inj (numbers_inj hbody)]
          | _ => cases hrank
      | edge e =>
          cases b with
          | edge f =>
              rw [body, body] at hbody
              rw [feed.eq_def, feed.eq_def]
              exact congrArg _ (EdgeRef.feed_eq (numbers_inj hbody))
          | _ => cases hrank
      | path p =>
          cases b with
          | path q =>
              rw [body, body] at hbody
              rw [feed.eq_def, feed.eq_def]
              exact congrArg _ (PathRef.feed_eq hbody)
          | _ => cases hrank
      | list x =>
          cases b with
          | list y =>
              rw [body_list, body_list] at hbody
              have hkeys := Key.row_inj hbody
              have hlength := congrArg List.length hkeys
              rw [List.length_map, List.length_map] at hlength
              rw [feed_list, feed_list, hlength, flatMap_eq hkeys fun p hp q _ => ih x rfl p hp]
          | _ => cases hrank

end BindingValue

end Engine.Grouping
