import Sekejap.DenseRow.Parsed

/-!
# A row is read back as it was written

* **`parses_encodeDirect`** — what `encode_direct` wrote parses, and holds of every column what the
  document has there.
* **`decodeDirect_encodeDirect`** — it is decoded to the document, but for the documented normalisation
  (`storedForm`) and the defaults of later columns.
-/

open Bytes

open Fallible

open Reading (Reader)

open Ieee (f32 f64)

namespace Engine.DenseRow

/-! ## The normalisation -/

/-- A coordinate rounded to an `f32`. -/
def coordinateForm (x : Value) : Value :=
  match x.asF64 with
  | some bits => .number (.float (f64OfF32 (Spatial.f32OfF64 bits)))
  | none => x

/-- **A value of a column as a row gives it back**: a REAL as its `f64`, a geometry in its decoded form,
the coordinates of a vector rounded, and the members of JSON objects in the order of their keys. -/
def storedForm (kind : Kind) (v : Value) : Value :=
  match kind with
  | .real =>
      match v.asF64 with
      | some bits => .number (.float bits)
      | none => v
  | .json => v.canonical
  | .geo | .point =>
      match Spatial.geo v with
      | some g => Spatial.geoJson g
      | none => v
  | .vector _ =>
      match v with
      | .array a => .array (a.map coordinateForm)
      | v => v
  | _ => v

/-- What the row itself holds of a value. -/
def cellForm (kind : Kind) (v : Value) : Option Value :=
  match kind with
  | .vector _ => none
  | kind => some (storedForm kind v)

/-! ## Packed fields -/

section

variable {states bits : Bytes} {i j k x w : ℕ}

lemma testBit_of_lt {n m : ℕ} (hx : x < 2 ^ n) (hm : n ≤ m) : x.testBit m = false :=
  Nat.testBit_lt_two_pow (hx.trans_le (Nat.pow_le_pow_right (by omega) hm))

lemma testBit_stateGet (states : Bytes) (i m : ℕ) :
    (stateGet (some states) i).testBit m = (decide (m < 2) && bitAt states (i * 2 + m)) :=
  testBit_fieldAt (by omega) m

lemma stateGet_stateSet (hx : x < 4) (hi : i / 4 < states.length)
    (hfresh : stateGet (some states) i = 0) :
    stateGet (some (stateSet states i x)) i = x
      ∧ ∀ j, j ≠ i → stateGet (some (stateSet states i x)) j = stateGet (some states) j := by
  have hpow : 2 ^ 2 ≤ 2 ^ (8 - i * 2 % 8) := Nat.pow_le_pow_right (by omega) (by omega)
  have hroom : x < 2 ^ (8 - i * 2 % 8) := by omega
  have hbit := bitAt_orAt (b := states) (p := i * 2) (by omega) hroom
  have hlow : ∀ m, 2 ≤ m → x.testBit m = false := fun m hm => testBit_of_lt (n := 2) hx hm
  constructor
  · refine fieldAt_eq (by omega) hx fun m hm => ?_
    have hzero : bitAt states (i * 2 + m) = false := by
      have hget := congrArg (fun v => Nat.testBit v m) hfresh
      simpa [testBit_stateGet, hm] using hget
    have hbyte : (i * 2 + m) / 8 = i * 2 / 8 := by omega
    simp [stateSet, hbit, hzero, hbyte]
  · intro j hj
    refine fieldAt_eq (by omega) (fieldAt_lt _ _ _) fun m hm => ?_
    rw [stateSet, hbit, testBit_stateGet]
    by_cases hle : i * 2 ≤ j * 2 + m
    · rw [hlow (j * 2 + m - i * 2) (by omega)]
      simp [hm]
    · simp [hm, hle]

lemma testBit_widthGet (bits : Bytes) (k m : ℕ) :
    (widthGet bits k).testBit m = (decide (m < 3) && bitAt bits (k * 3 + m)) := by
  have hfield : ∀ p, (fieldAt bits p 1).testBit = fun n => decide (n < 1) && bitAt bits (p + n) :=
    fun p => funext fun n => testBit_fieldAt (by omega) n
  simp only [widthGet, List.foldl_cons, List.foldl_nil, Nat.testBit_or, Nat.testBit_shiftLeft, hfield,
    Nat.zero_testBit, Bool.false_or]
  rcases m with _ | _ | _ | m <;> simp

lemma length_widthSet (bits : Bytes) (k w : ℕ) : (widthSet bits k w).length = bits.length := by
  simp [widthSet]

lemma bitAt_widthSet (hk : k * 3 + 2 < 8 * bits.length) (q : ℕ) :
    bitAt (widthSet bits k w) q
      = (bitAt bits q || (decide (k * 3 ≤ q ∧ q < k * 3 + 3) && w.testBit (q - k * 3))) := by
  have hone : ∀ b : Bytes, b.length = bits.length → ∀ m < 3, bitAt (orAt b (k * 3 + m) (w >>> m &&& 1)) q
      = (bitAt b q || (decide (q = k * 3 + m) && w.testBit m)) := by
    intro b hb m hm
    have hx : w >>> m &&& 1 < 2 ^ (8 - (k * 3 + m) % 8) := by
      refine (Nat.lt_of_le_of_lt Nat.and_le_right ?_)
      exact Nat.one_lt_two_pow (by omega)
    rw [bitAt_orAt (by omega) hx, Nat.testBit_and, Nat.testBit_shiftRight]
    by_cases hq : q = k * 3 + m
    · simp [hq]
    · by_cases hle : k * 3 + m ≤ q
      · have hne : q - (k * 3 + m) ≠ 0 := by omega
        have hone : Nat.testBit 1 (q - (k * 3 + m)) = false := testBit_of_lt (n := 1) (by omega) (by omega)
        simp [hq, hone]
      · simp [hq, hle]
  simp only [widthSet, List.foldl_cons, List.foldl_nil]
  rw [hone _ (by simp) 2 (by omega), hone _ (by simp) 1 (by omega), hone _ rfl 0 (by omega)]
  by_cases h : k * 3 ≤ q ∧ q < k * 3 + 3
  · obtain rfl | rfl | rfl : q = k * 3 ∨ q = k * 3 + 1 ∨ q = k * 3 + 2 := by omega
    all_goals simp
  · have h0 : q ≠ k * 3 := by omega
    have h1 : q ≠ k * 3 + 1 := by omega
    have h2 : q ≠ k * 3 + 2 := by omega
    simp [h0, h1, h2, h]

lemma widthGet_widthSet (hw : w < 8) (hk : k * 3 + 2 < 8 * bits.length)
    (hfresh : widthGet bits k = 0) :
    widthGet (widthSet bits k w) k = w
      ∧ ∀ j, j ≠ k → widthGet (widthSet bits k w) j = widthGet bits j := by
  constructor
  · refine Nat.eq_of_testBit_eq fun m => ?_
    rw [testBit_widthGet, bitAt_widthSet hk]
    by_cases hm : m < 3
    · have hzero := congrArg (fun v => Nat.testBit v m) hfresh
      simp only [testBit_widthGet, hm, decide_true, Bool.true_and, Nat.zero_testBit] at hzero
      simp [hm, hzero]
    · rw [testBit_of_lt (n := 3) hw (Nat.not_lt.1 hm)]
      simp [hm]
  · intro j hj
    refine Nat.eq_of_testBit_eq fun m => ?_
    rw [testBit_widthGet, testBit_widthGet, bitAt_widthSet hk]
    by_cases hm : m < 3
    · have hout : ¬ (k * 3 ≤ j * 3 + m ∧ j * 3 + m < k * 3 + 3) := by omega
      simp [hout]
    · simp [hm]

lemma stateGet_zeros (n i : ℕ) : stateGet (some (List.replicate n 0)) i = 0 :=
  fieldAt_eq (by omega) (by norm_num) fun m _ => by simp

lemma widthGet_zeros (n k : ℕ) : widthGet (List.replicate n 0) k = 0 := by
  refine Nat.eq_of_testBit_eq fun m => ?_
  rw [testBit_widthGet]
  simp

end

/-! ## Numbers -/

section

variable {v x : Value} {bits n : ℕ} {b rest : Bytes}

lemma f64OfNat_lt (h : n < 2 ^ 64) : f64OfNat n < 2 ^ 63 := by
  unfold f64OfNat
  split_ifs with h0
  · norm_num
  · have hlog : Nat.log2 n < 64 := (Nat.log2_lt h0).2 h
    have hn : n < 2 ^ (Nat.log2 n + 1) := Nat.lt_log2_self
    dsimp only
    split_ifs with h52 hround
    · have hpow : n * 2 ^ (52 - Nat.log2 n) < 2 ^ 53 :=
        calc n * 2 ^ (52 - Nat.log2 n) < 2 ^ (Nat.log2 n + 1) * 2 ^ (52 - Nat.log2 n) :=
              Nat.mul_lt_mul_of_pos_right hn (Nat.two_pow_pos _)
          _ = 2 ^ 53 := by rw [← pow_add]; congr 1; omega
      omega
    all_goals
      have hq : n / 2 ^ (Nat.log2 n - 52) < 2 ^ 53 := by
        rw [Nat.div_lt_iff_lt_mul (Nat.two_pow_pos _), ← pow_add]
        exact hn.trans_eq (by congr 1; omega)
      omega

lemma f64OfInt_lt {n : ℤ} (hlo : -2 ^ 63 ≤ n) (hhi : n < 2 ^ 64) : f64OfInt n < 2 ^ 64 := by
  have := f64OfNat_lt (n := n.natAbs) (by omega)
  unfold f64OfInt
  split_ifs <;> omega

lemma asF64_lt (hv : v.WellFormed) (h : v.asF64 = some bits) : bits < 2 ^ 64 := by
  cases hv with
  | @number n hn =>
      cases n with
      | int n =>
          cases h
          exact f64OfInt_lt hn.1 hn.2
      | float _ =>
          cases h
          exact hn.1
  | _ => cases h

lemma f32OfF64_lt (v : ℕ) : Spatial.f32OfF64 v < 2 ^ 32 := by
  have hinf : f32.infinity = 255 * 2 ^ 23 := rfl
  have hsign : f32.signBit = 2 ^ 31 := rfl
  unfold Spatial.f32OfF64 Ieee.Format.nearest
  rw [hinf, hsign]
  split_ifs <;> omega

end

/-! ## Cells -/

section

variable {v : Value} {kind : Kind} {d d' : Draft} {i k : ℕ}

lemma vectorBytes_coordinates {a : List Value} {b : Bytes} (h : vectorBytes a = .ok b) :
    b.length = a.length * 4
      ∧ ∀ rest, coordinates a.length (b ++ rest) = .ok (a.map coordinateForm, rest) := by
  induction a generalizing b with
  | nil =>
      cases h
      exact ⟨rfl, fun rest => rfl⟩
  | cons x a ih =>
      simp only [vectorBytes, bind_eq_ok, orElse_eq_ok, refuse_eq_ok, exists_const, pure_eq_ok] at h
      obtain ⟨bits, hbits, hfinite, b, hb, rfl⟩ := h
      obtain ⟨hlen, hread⟩ := ih hb
      refine ⟨by simp [hlen, Nat.succ_mul, Nat.add_comm], fun rest => ?_⟩
      have htake : Read.take 4 (leBytes 4 (Spatial.f32OfF64 bits) ++ (b ++ rest))
          = .ok (leBytes 4 (Spatial.f32OfF64 bits), b ++ rest) := read_take (length_leBytes _ _)
      have hbitsLe : leNat (leBytes 4 (Spatial.f32OfF64 bits)) = Spatial.f32OfF64 bits :=
        leNat_leBytes_of_lt (f32OfF64_lt bits)
      simp [coordinates, htake, hbitsLe, hfinite, hread, refuse, coordinateForm, hbits, bind,
        Except.bind, pure, Except.pure]

/-- The cell of a vector. -/
lemma vectorJson_vectorBytes {a : List Value} {b : Bytes} (h : vectorBytes a = .ok b) :
    vectorJson b a.length = .ok (.array (a.map coordinateForm)) := by
  obtain ⟨hlen, hread⟩ := vectorBytes_coordinates h
  have hread := hread []
  rw [List.append_nil] at hread
  simp [vectorJson, hlen, hread, refuse, bind, Except.bind, pure, Except.pure]

lemma mem_of_lookup {α : Type} {l : List (String × α)} {name : String} {a : α}
    (h : l.lookup name = some a) : (name, a) ∈ l := by
  obtain ⟨l₁, l₂, rfl, -⟩ := List.lookup_eq_some_iff.1 h
  simp

lemma get_wellFormed {member : String} {c : Value} (hv : v.WellFormed) (h : v.get member = some c) :
    c.WellFormed := by
  cases hv with
  | object hk hms => exact hms _ (mem_of_lookup h)
  | _ => cases h

/-- A point that a row takes is two finite floats. -/
lemma geo_point {x y : ℕ} (hv : v.WellFormed) (h : Spatial.geo v = some (.point x y)) :
    (Number.float x).wellFormed ∧ (Number.float y).wellFormed := by
  obtain ⟨members, c, kind, -, -, hc, -, hg⟩ := Spatial.geomFromValue_eq_ok.1 (Spatial.geomFromValue_of_geo h)
  obtain ⟨-, hpair⟩ := Spatial.geomOf_eq_point hg
  have hwf := get_wellFormed hv hc
  have hrange := Spatial.geo_inRange h rfl
  simp only [Spatial.inRange, Bool.and_eq_true] at hrange
  cases hwf with
  | @array items hitems =>
      match items, hpair with
      | [a, b], hpair =>
          simp only [Spatial.coordinatePair, Option.bind_eq_bind, Option.bind_eq_some_iff, Option.pure_def,
            Option.some.injEq, Prod.mk.injEq] at hpair
          obtain ⟨_, hx, _, hy, rfl, rfl⟩ := hpair
          exact ⟨⟨asF64_lt (hitems a (by simp)) hx, by tauto⟩, asF64_lt (hitems b (by simp)) hy, by tauto⟩
  | _ => cases hpair

lemma asI64_eq_some {n : ℤ} (h : v.asI64 = some n) :
    v = .number (.int n) ∧ -2 ^ 63 ≤ n ∧ n < 2 ^ 63 := by
  cases v with
  | number m =>
      cases m with
      | int m =>
          rw [Value.asI64] at h
          split_ifs at h with hm
          cases h
          exact ⟨rfl, hm⟩
      | float _ => cases h
  | _ => cases h

/-- **A value is read back as the row holds it**, at the width it was written with. -/
lemma encodeCell_spec (hv : v.WellFormed) (h : encodeCell i k kind v d = .ok d')
    (hlen : d'.body.length < 2 ^ 64) (hk : kind = .int → k * 3 + 2 < 8 * d.widths.length)
    (hfresh : kind = .int → widthGet d.widths k = 0)
    (hgeo : kind = .geo → ∀ g, Spatial.geo v = some g → Spatial.Geom.decode g.encode = some g) :
    d'.states = d.states ∧ d'.widths.length = d.widths.length
      ∧ (∀ m, (kind = .int → m ≠ k) → widthGet d'.widths m = widthGet d.widths m)
      ∧ (∃ x, d'.body = d.body ++ x ∧ ∀ widths rest,
          (kind = .int → widthGet widths k = widthGet d'.widths k) →
          readCell widths k kind (x ++ rest) = .ok (cellForm kind v, rest))
      ∧ (∀ c ∈ d.vectors, c ∈ d'.vectors)
      ∧ (∀ dim, kind = .vector dim → ∃ b, (i, b) ∈ d'.vectors ∧ vectorJson b dim = .ok (storedForm kind v)) := by
  cases kind with
  | text =>
      simp only [encodeCell, bind_eq_ok, orElse_eq_ok, pure_eq_ok] at h
      obtain ⟨s, hs, rfl⟩ := h
      cases v with
      | string t =>
          cases hs
          have hs64 : (utf8 s).length < 2 ^ 64 := by
            simp only [Draft.push, blob, List.length_append] at hlen
            omega
          refine ⟨rfl, rfl, fun m _ => rfl, ⟨_, rfl, fun widths rest _ => ?_⟩, fun c hc => hc,
            fun _ hkind => by cases hkind⟩
          simp [readCell, read_text hs64, cellForm, storedForm, bind, Except.bind, pure, Except.pure]
      | _ => cases hs
  | int =>
      simp only [encodeCell, bind_eq_ok, orElse_eq_ok, pure_eq_ok] at h
      obtain ⟨n, hn, rfl⟩ := h
      obtain ⟨rfl, hlo, hhi⟩ := asI64_eq_some hn
      have hbe : (beBytes 8 (n % 2 ^ 64).toNat).length = 8 := by simp [beBytes]
      have hne : beBytes 8 (n % 2 ^ 64).toNat ≠ [] := List.ne_nil_of_length_pos (by omega)
      have hsigned : signed (trimSign (beBytes 8 (n % 2 ^ 64).toNat)) = n :=
        (signed_trimSign _).trans (signed_beBytes hlo hhi)
      obtain ⟨hpos, hle⟩ := trimSign_length hne
      generalize trimSign (beBytes 8 (n % 2 ^ 64).toNat) = b at hsigned hpos hle ⊢
      obtain ⟨hget, hother⟩ := widthGet_widthSet (w := b.length - 1) (by omega) (hk rfl) (hfresh rfl)
      refine ⟨rfl, length_widthSet _ _ _, fun m hm => hother m (hm rfl), ⟨b, rfl, fun widths rest hw => ?_⟩,
        fun c hc => hc, fun _ hkind => by cases hkind⟩
      have hwidth : widthGet widths k + 1 = b.length := by
        rw [hw rfl, Draft.push, Draft.setWidth, hget]
        omega
      have hread : Read.take (widthGet widths k + 1) (b ++ rest) = .ok (b, rest) := read_take hwidth.symm
      have hvalue := signed_extend (List.ne_nil_of_length_pos hpos) (8 - b.length)
      rw [hsigned] at hvalue
      simp only [readCell, readInt, hread, hvalue, bind, Except.bind, pure, Except.pure]
      rfl
  | real =>
      simp only [encodeCell, bind_eq_ok, orElse_eq_ok, pure_eq_ok, Option.filter_eq_some_iff] at h
      obtain ⟨bits, ⟨hbits, hfinite⟩, rfl⟩ := h
      refine ⟨rfl, rfl, fun m _ => rfl, ⟨_, rfl, fun widths rest _ => ?_⟩, fun c hc => hc,
        fun _ hkind => by cases hkind⟩
      have hread : Read.float (leBytes 8 bits ++ rest) = .ok (bits, rest) :=
        read_float ⟨asF64_lt hv hbits, hfinite⟩
      simp [readCell, hread, cellForm, storedForm, hbits, bind, Except.bind, pure, Except.pure]
  | bool =>
      simp only [encodeCell, bind_eq_ok, orElse_eq_ok, pure_eq_ok] at h
      obtain ⟨x, hx, rfl⟩ := h
      cases v with
      | bool y =>
          cases hx
          refine ⟨rfl, rfl, fun m _ => rfl, ⟨_, rfl, fun widths rest _ => ?_⟩, fun c hc => hc,
            fun _ hkind => by cases hkind⟩
          cases x <;> rfl
      | _ => cases hx
  | json =>
      simp only [encodeCell, bind_eq_ok, pure_eq_ok] at h
      obtain ⟨b, hb, rfl⟩ := h
      refine ⟨rfl, rfl, fun m _ => rfl, ⟨_, rfl, fun widths rest _ => ?_⟩, fun c hc => hc,
        fun _ hkind => by cases hkind⟩
      have hb64 : b.length < 2 ^ 64 := by
        simp only [Draft.push, List.length_append] at hlen
        omega
      have hread := read_value v 0 b hv hb hb64 rest
      simp [readCell, hread, cellForm, storedForm, bind, Except.bind, pure, Except.pure]
  | geo =>
      simp only [encodeCell, geometry_eq_ok, bind_eq_ok, pure_eq_ok] at h
      obtain ⟨g, hg, rfl⟩ := h
      refine ⟨rfl, rfl, fun m _ => rfl, ⟨_, rfl, fun widths rest _ => ?_⟩, fun c hc => hc,
        fun _ hkind => by cases hkind⟩
      have hb64 : g.encode.length < 2 ^ 64 := by
        simp only [Draft.push, blob, List.length_append] at hlen
        omega
      simp [readCell, readGeometry, read_blob hb64, hgeo rfl g hg, orElse, cellForm, storedForm, hg, bind,
        Except.bind, pure, Except.pure]
  | point =>
      simp only [encodeCell, geometry_eq_ok, bind_eq_ok, pure_eq_ok] at h
      obtain ⟨g, hg, b, hb, rfl⟩ := h
      cases g with
      | point x y =>
          cases hb
          obtain ⟨hx, hy⟩ := geo_point hv hg
          refine ⟨rfl, rfl, fun m _ => rfl, ⟨_, rfl, fun widths rest _ => ?_⟩, fun c hc => hc,
            fun _ hkind => by cases hkind⟩
          have hreadx : Read.float (leBytes 8 x ++ (leBytes 8 y ++ rest)) = .ok (x, leBytes 8 y ++ rest) :=
            read_float hx
          have hready : Read.float (leBytes 8 y ++ rest) = .ok (y, rest) := read_float hy
          simp [readCell, readPoint, hreadx, hready, cellForm, storedForm, hg, bind, Except.bind, pure,
            Except.pure]
      | _ => cases hb
  | vector dim =>
      simp only [encodeCell, bind_eq_ok, orElse_eq_ok, refuse_eq_ok, not_not, exists_const, pure_eq_ok] at h
      obtain ⟨a, ha, rfl, b, hb, rfl⟩ := h
      cases v with
      | array items =>
          cases ha
          refine ⟨rfl, rfl, fun m _ => rfl, ⟨[], (List.append_nil _).symm, fun widths rest _ => rfl⟩, fun c hc =>
            List.mem_append_left _ hc, ?_⟩
          rintro _ ⟨⟩
          exact ⟨b, by simp [Draft.addVector], vectorJson_vectorBytes hb⟩
      | _ => cases ha

end

/-! ## Geometries -/

section

open Spatial

variable {v : Value} {α : Type} {item : Value → Option α} {P : α → Prop}

lemma coordinatePair_isPair (hv : v.WellFormed) {p : ℕ × ℕ} (h : coordinatePair v = some p) : Geom.IsPair p := by
  cases hv with
  | @array items hitems =>
      unfold coordinatePair at h
      split at h
      · next x y heq =>
          cases heq
          simp only [Option.bind_eq_bind, Option.bind_eq_some_iff, Option.pure_def, Option.some.injEq] at h
          obtain ⟨a, ha, b, hb, rfl⟩ := h
          exact ⟨asF64_lt (hitems _ (by simp)) ha, asF64_lt (hitems _ (by simp)) hb⟩
      · cases h
  | _ => cases h

lemma sequence_forall (hitem : ∀ w : Value, w.WellFormed → ∀ x, item w = some x → P x) (hv : v.WellFormed)
    {l : List α} (h : sequence item v = some l) : ∀ x ∈ l, P x := by
  cases hv with
  | @array items hitems =>
      replace h : items.mapM item = some l := h
      induction items generalizing l with
      | nil =>
          cases h
          simp
      | cons w items ih =>
          simp only [List.mapM_cons, Option.bind_eq_bind, Option.bind_eq_some_iff, Option.pure_def,
            Option.some.injEq] at h
          obtain ⟨x, hx, l, hl, rfl⟩ := h
          rw [List.forall_mem_cons] at hitems
          exact List.forall_mem_cons.2 ⟨hitem w hitems.1 x hx, ih hitems.2 hl⟩
  | _ => cases h

/-- A geometry of a value fits when its bytes are few. -/
lemma geo_fits (hv : v.WellFormed) {g : Geom} (h : geo v = some g) (hlen : g.encode.length < 2 ^ 32) :
    g.Fits := by
  obtain ⟨members, c, kind, -, -, hc, -, hg⟩ := geomFromValue_eq_ok.1 (geomFromValue_of_geo h)
  have hwf := get_wellFormed hv hc
  have hpair : ∀ w : Value, w.WellFormed → ∀ p, coordinatePair w = some p → Geom.IsPair p :=
    fun w hw p hp => coordinatePair_isPair hw hp
  have hring : ∀ w : Value, w.WellFormed → ∀ r, sequence coordinatePair w = some r → ∀ p ∈ r, Geom.IsPair p :=
    fun w hw r hr => sequence_forall hpair hw hr
  have hcoords : ∀ r : List (ℕ × ℕ), (∀ p ∈ r, Geom.IsPair p) → (Geom.coordsBytes r).length < 2 ^ 32 →
      Geom.Counts Geom.IsPair r := fun r hr hlen =>
    Geom.counts_of_length (fun p => (by omega : 1 ≤ 16).trans (Geom.length_pairBytes p)) hlen fun p hp _ => hr p hp
  have hrings : ∀ rs : List (List (ℕ × ℕ)), (∀ r ∈ rs, ∀ p ∈ r, Geom.IsPair p) →
      (Geom.ringsetsBytes rs).length < 2 ^ 32 → Geom.Counts (Geom.Counts Geom.IsPair) rs := fun rs hrs hlen =>
    Geom.counts_of_length (fun r => (by omega : 1 ≤ 4).trans (Geom.length_countedBytes r)) hlen fun r hr =>
      hcoords r (hrs r hr)
  rw [geomOf] at hg
  split_ifs at hg
  all_goals obtain ⟨l, hl, rfl⟩ := Option.map_eq_some_iff.1 (Option.some.inj hg)
  all_goals simp only [Geom.encode, List.length_cons] at hlen
  · exact hpair c hwf _ hl
  · exact hcoords l (hring c hwf l hl) (by omega)
  · exact hrings l (sequence_forall hring hwf hl) (by omega)
  · exact hcoords l (hring c hwf l hl) (by omega)
  · exact hrings l (sequence_forall hring hwf hl) (by omega)
  · exact Geom.counts_of_length (s := Geom.ringsetsBytes) (fun rs => (by omega : 1 ≤ 4).trans
      (Geom.length_countedBytes rs)) (by omega) fun rs hrs =>
        hrings rs (sequence_forall (fun w hw rs => sequence_forall hring hw) hwf hl rs hrs)

end

/-! ## Columns -/

/-- What a row holds of a column of the document it was written from. -/
def writtenSlot (obj : List (String × Value)) (col : String × Kind) : Slot :=
  match obj.lookup col.1 with
  | none => .missing
  | some v => if v.isNull then .null else .cell (cellForm col.2 v)

/-- The two bits of a column. -/
def Slot.state : Slot → ℕ
  | missing => 0
  | null => 1
  | cell _ => 2

/-- The states of a row, when it has them. -/
def statesOf (hasStates : Bool) (states : Bytes) : Option Bytes := if hasStates then some states else none

/-- What stands in a row for a column. -/
def Slot.ReadsFrom (widths : Bytes) (k : ℕ) (kind : Kind) (x rest : Bytes) : Slot → Prop
  | missing | null => x = []
  | cell v => readCell widths k kind (x ++ rest) = .ok (v, rest)

/-- The values of a document that a layout declares as geometries survive the kernel's codec. -/
def GeometriesDecode (fields : List (String × Kind)) (obj : List (String × Value)) : Prop :=
  ∀ name v g, (name, Kind.geo) ∈ fields → obj.lookup name = some v → Spatial.geo v = some g →
    Spatial.Geom.decode g.encode = some g

/-- **A draft with room for the columns that are to come**, and nothing yet of their states and widths. -/
structure Draft.Ready (d : Draft) (hasStates : Bool) (i k : ℕ) (cols : List (String × Kind)) : Prop where
  states_room : hasStates = true → i + cols.length ≤ 4 * d.states.length
  widths_room : (k + cols.countP fun c => decide (c.2 = .int)) * 3 ≤ 8 * d.widths.length
  states_fresh : ∀ j, i ≤ j → stateGet (some d.states) j = 0
  widths_fresh : ∀ m, k ≤ m → widthGet d.widths m = 0

section

variable {obj : List (String × Value)} {hasStates : Bool} {i k : ℕ} {col : String × Kind}
  {cols : List (String × Kind)} {d d' : Draft}

/-- **What one column does to a draft.** -/
structure Draft.Took (d d' : Draft) (obj : List (String × Value)) (hasStates : Bool) (i k : ℕ)
    (col : String × Kind) : Prop where
  states_length : d'.states.length = d.states.length
  widths_length : d'.widths.length = d.widths.length
  states_other : ∀ j, j ≠ i → stateGet (some d'.states) j = stateGet (some d.states) j
  widths_other : ∀ m, (col.2 = .int → m ≠ k) → widthGet d'.widths m = widthGet d.widths m
  state : stateGet (statesOf hasStates d'.states) i = (writtenSlot obj col).state
  body : ∃ x, d'.body = d.body ++ x ∧ ∀ widths rest,
    (col.2 = .int → widthGet widths k = widthGet d'.widths k) →
    (writtenSlot obj col).ReadsFrom widths k col.2 x rest
  vectors : ∀ c ∈ d.vectors, c ∈ d'.vectors
  vector : ∀ v dim, obj.lookup col.1 = some v → v.isNull = false → col.2 = .vector dim →
    ∃ b, (i, b) ∈ d'.vectors ∧ vectorJson b dim = .ok (storedForm col.2 v)

lemma encodeColumn_took (h : encodeColumn obj hasStates i k col d = .ok d')
    (hready : d.Ready hasStates i k (col :: cols)) (hlen : d'.body.length < 2 ^ 64)
    (hwf : ∀ v, obj.lookup col.1 = some v → v.WellFormed)
    (hpresent : hasStates = false → lacks obj col.1 = false)
    (hgeo : GeometriesDecode (col :: cols) obj) : d.Took d' obj hasStates i k col := by
  have hroom : hasStates = true → i / 4 < d.states.length := by
    intro hs
    have := hready.states_room hs
    rw [List.length_cons] at this
    omega
  have hset : ∀ x, x < 4 → hasStates = true →
      stateGet (some (stateSet d.states i x)) i = x
        ∧ ∀ j, j ≠ i → stateGet (some (stateSet d.states i x)) j = stateGet (some d.states) j :=
    fun x hx hs => stateGet_stateSet hx (hroom hs) (hready.states_fresh i le_rfl)
  have hlength : ∀ x, (stateSet d.states i x).length = d.states.length := fun x => length_orAt _ _ _
  rw [encodeColumn] at h
  cases hlook : obj.lookup col.1 with
  | none =>
      rw [hlook] at h
      cases h
      have hslot : writtenSlot obj col = .missing := by rw [writtenSlot, hlook]
      have hs : hasStates = true := by
        by_contra hs
        have := hpresent (Bool.not_eq_true _ ▸ hs)
        simp [lacks, hlook] at this
      refine ⟨rfl, rfl, fun _ _ => rfl, fun _ _ => rfl, ?_, ⟨[], (List.append_nil _).symm, ?_⟩,
        fun c hc => hc, fun v dim hv => ?_⟩
      · rw [hslot, statesOf, if_pos hs]
        exact hready.states_fresh i le_rfl
      · intro widths rest _
        rw [hslot]
        exact rfl
      · rw [hlook] at hv
        cases hv
  | some v =>
      rw [hlook] at h
      dsimp only at h
      cases hnull : v.isNull with
      | true =>
          rw [hnull, if_pos rfl, if_pos rfl, Except.ok.injEq] at h
          have hslot : writtenSlot obj col = .null := by
            simp only [writtenSlot, hlook, hnull, if_true]
          have hs : hasStates = true := by
            by_contra hs
            have := hpresent (Bool.not_eq_true _ ▸ hs)
            simp [lacks, hlook, hnull] at this
          rw [hs, if_pos rfl] at h
          subst h
          obtain ⟨hget, hother⟩ := hset 1 (by omega) hs
          refine ⟨hlength 1, rfl, hother, fun _ _ => rfl, ?_, ⟨[], (List.append_nil _).symm, ?_⟩,
            fun c hc => hc, fun w dim hw hn => ?_⟩
          · rw [hslot, statesOf, if_pos hs]
            exact hget
          · intro widths rest _
            rw [hslot]
            exact rfl
          · rw [hlook] at hw
            cases hw
            rw [hnull] at hn
            cases hn
      | false =>
          rw [hnull, if_neg Bool.false_ne_true, if_neg Bool.false_ne_true] at h
          have hslot : writtenSlot obj col = .cell (cellForm col.2 v) := by
            simp only [writtenSlot, hlook, hnull, Bool.false_eq_true, if_false]
          set d₀ : Draft := if hasStates = true then d.setState i 2 else d with hd₀
          have hwidths : d₀.widths = d.widths := by
            rw [hd₀]
            split_ifs <;> rfl
          have hbody : d₀.body = d.body := by
            rw [hd₀]
            split_ifs <;> rfl
          have hvecs : d₀.vectors = d.vectors := by
            rw [hd₀]
            split_ifs <;> rfl
          have hint : col.2 = .int → (k + 1) * 3 ≤ 8 * d.widths.length := by
            intro hkind
            have := hready.widths_room
            rw [List.countP_cons] at this
            simp only [hkind, decide_true, if_true] at this
            omega
          obtain ⟨hst, hwl, hwo, ⟨x, hx, hread⟩, hv1, hv2⟩ := encodeCell_spec (hwf v hlook) h hlen
            (fun hkind => by rw [hwidths]; have := hint hkind; omega)
            (fun _ => by rw [hwidths]; exact hready.widths_fresh k le_rfl)
            (fun hkind g hg => hgeo col.1 v g (hkind ▸ List.mem_cons_self) hlook hg)
          rw [hwidths] at hwl hwo
          rw [hbody] at hx
          rw [hvecs] at hv1
          have hstate : d'.states.length = d.states.length
              ∧ (∀ j, j ≠ i → stateGet (some d'.states) j = stateGet (some d.states) j)
              ∧ stateGet (statesOf hasStates d'.states) i = 2 := by
            rw [hst, hd₀]
            split_ifs with hs
            · obtain ⟨hget, hother⟩ := hset 2 (by omega) hs
              rw [statesOf, if_pos hs]
              exact ⟨hlength 2, hother, hget⟩
            · rw [statesOf, if_neg hs]
              exact ⟨rfl, fun _ _ => rfl, rfl⟩
          refine ⟨hstate.1, hwl, hstate.2.1, hwo, hslot ▸ hstate.2.2, ⟨x, hx, fun widths rest hw => ?_⟩, hv1,
            fun w dim hw _ hkind => ?_⟩
          · rw [hslot]
            exact hread widths rest hw
          · rw [hlook] at hw
            cases hw
            exact hv2 dim hkind

lemma push_body_le (d : Draft) (b : Bytes) : d.body.length ≤ (d.push b).body.length := by
  simp [Draft.push]

lemma encodeCell_body_le {kind : Kind} {v : Value} (h : encodeCell i k kind v d = .ok d') :
    d.body.length ≤ d'.body.length := by
  cases kind with
  | vector dim =>
      simp only [encodeCell, bind_eq_ok, pure_eq_ok] at h
      obtain ⟨_, -, _, -, _, -, rfl⟩ := h
      exact le_rfl
  | point =>
      simp only [encodeCell, bind_eq_ok, pure_eq_ok] at h
      obtain ⟨_, -, _, -, rfl⟩ := h
      exact push_body_le d _
  | _ =>
      simp only [encodeCell, bind_eq_ok, pure_eq_ok] at h
      obtain ⟨_, -, rfl⟩ := h
      exact push_body_le _ _

lemma encodeColumn_body_le (h : encodeColumn obj hasStates i k col d = .ok d') :
    d.body.length ≤ d'.body.length := by
  rw [encodeColumn] at h
  split at h
  · cases h
    exact le_rfl
  · dsimp only at h
    split_ifs at h with hnull hs hs
    · cases h
      exact le_rfl
    · cases h
      exact le_rfl
    · have hle := encodeCell_body_le h
      exact hle
    · exact encodeCell_body_le h

lemma encodeColumns_body_le (h : encodeColumns obj hasStates i k cols d = .ok d') :
    d.body.length ≤ d'.body.length := by
  induction cols generalizing i k d with
  | nil =>
      cases h
      exact le_rfl
  | cons col cols ih =>
      simp only [encodeColumns, bind_eq_ok] at h
      obtain ⟨d₁, hcol, h⟩ := h
      exact (encodeColumn_body_le hcol).trans (ih h)

/-- The bytes of a geometry are a part of the body. -/
lemma encodeColumns_geo_le (h : encodeColumns obj hasStates i k cols d = .ok d') {name : String} {v : Value}
    {g : Spatial.Geom} (hcol : (name, Kind.geo) ∈ cols) (hv : obj.lookup name = some v)
    (hg : Spatial.geo v = some g) : g.encode.length ≤ d'.body.length := by
  induction cols generalizing i k d with
  | nil => simp at hcol
  | cons col cols ih =>
      simp only [encodeColumns, bind_eq_ok] at h
      obtain ⟨d₁, hone, h⟩ := h
      obtain rfl | hcol := List.mem_cons.1 hcol
      · refine le_trans ?_ (encodeColumns_body_le h)
        have hnull : v.isNull = false := by
          cases v with
          | null => cases hg
          | _ => rfl
        simp only [encodeColumn, hv, hnull, Bool.false_eq_true, if_false, encodeCell, geometry_eq_ok.2 hg,
          bind, Except.bind, pure, Except.pure, Except.ok.injEq] at hone
        subst hone
        simp only [Draft.push, blob, List.length_append]
        omega
      · exact ih h hcol

lemma Draft.Took.ready {d₁ : Draft} (ht : d.Took d₁ obj hasStates i k col)
    (hready : d.Ready hasStates i k (col :: cols)) :
    d₁.Ready hasStates (i + 1) (nextInteger k col.2) cols := by
  have hwide := hready.widths_room
  rw [List.countP_cons] at hwide
  refine ⟨fun hs => ?_, ?_, fun j hj => ?_, fun m hm => ?_⟩
  · have := hready.states_room hs
    rw [ht.states_length]
    rw [List.length_cons] at this
    omega
  · rw [ht.widths_length, nextInteger]
    by_cases hkind : col.2 = .int
    · simp only [hkind, decide_true, if_true] at hwide ⊢
      omega
    · simp only [hkind, decide_false, Bool.false_eq_true, if_false] at hwide ⊢
      omega
  · rw [ht.states_other j (by omega)]
    exact hready.states_fresh j (by omega)
  · rw [nextInteger] at hm
    rw [ht.widths_other m fun hkind => ?_]
    · refine hready.widths_fresh m ?_
      split_ifs at hm <;> omega
    · rw [if_pos hkind] at hm
      omega

/-- **What the columns do to a draft**: what they wrote is read back, whatever follows. -/
structure Draft.Wrote (d d' : Draft) (obj : List (String × Value)) (hasStates : Bool) (i k : ℕ)
    (cols : List (String × Kind)) : Prop where
  states_length : d'.states.length = d.states.length
  widths_length : d'.widths.length = d.widths.length
  states_before : ∀ j < i, stateGet (some d'.states) j = stateGet (some d.states) j
  widths_before : ∀ m < k, widthGet d'.widths m = widthGet d.widths m
  body : ∃ x, d'.body = d.body ++ x ∧ ∀ rest, Columns (statesOf hasStates d'.states) d'.widths i k cols
    (x ++ rest) (cols.map (writtenSlot obj)) rest
  vectors : ∀ c ∈ d.vectors, c ∈ d'.vectors
  cells : ∀ c ∈ cellColumns i cols (cols.map (writtenSlot obj)), ∃ v b, obj.lookup c.2.1 = some v
    ∧ (c.1, b) ∈ d'.vectors ∧ vectorJson b (dimension c.2.2) = .ok (storedForm c.2.2 v)

lemma Draft.Wrote.state (hw : d.Wrote d' obj hasStates i k cols) {j : ℕ} (hj : j < i) :
    stateGet (statesOf hasStates d'.states) j = stateGet (statesOf hasStates d.states) j := by
  rw [statesOf, statesOf]
  split_ifs
  · exact hw.states_before j hj
  · rfl

/-- A column, and then the others. -/
lemma Draft.Took.wrote {d₁ : Draft} (ht : d.Took d₁ obj hasStates i k col)
    (hw : d₁.Wrote d' obj hasStates (i + 1) (nextInteger k col.2) cols) :
    d.Wrote d' obj hasStates i k (col :: cols) := by
  obtain ⟨x, hx, hread⟩ := ht.body
  obtain ⟨y, hy, hcols⟩ := hw.body
  have hstate : stateGet (statesOf hasStates d'.states) i = (writtenSlot obj col).state :=
    (hw.state (Nat.lt_succ_self i)).trans ht.state
  have hwidth : col.2 = .int → widthGet d'.widths k = widthGet d₁.widths k := by
    intro hkind
    refine hw.widths_before k ?_
    rw [nextInteger, if_pos hkind]
    omega
  refine ⟨hw.states_length.trans ht.states_length, hw.widths_length.trans ht.widths_length,
    fun j hj => ?_, fun m hm => ?_, ⟨x ++ y, by rw [hy, hx, List.append_assoc], fun rest => ?_⟩,
    fun c hc => hw.vectors c (ht.vectors c hc), fun c hc => ?_⟩
  · rw [hw.states_before j (by omega), ht.states_other j (by omega)]
  · rw [hw.widths_before m (by rw [nextInteger]; split_ifs <;> omega), ht.widths_other m fun _ => by omega]
  · have hslot := hread d'.widths (y ++ rest) hwidth
    rw [List.map_cons, List.append_assoc]
    cases hs : writtenSlot obj col with
    | missing =>
        rw [hs] at hslot hstate
        rw [show x = [] from hslot]
        exact .missing hstate (hcols rest)
    | null =>
        rw [hs] at hslot hstate
        rw [show x = [] from hslot]
        exact .null hstate (hcols rest)
    | cell v =>
        rw [hs] at hslot hstate
        exact .cell hstate hslot (hcols rest)
  · rw [List.map_cons] at hc
    cases hlook : obj.lookup col.1 with
    | none =>
        rw [writtenSlot, hlook] at hc
        exact hw.cells c hc
    | some v =>
        cases hnull : v.isNull with
        | true =>
            simp only [writtenSlot, hlook, hnull, if_true] at hc
            exact hw.cells c hc
        | false =>
            cases hkind : col.2 with
            | vector dim =>
                simp only [writtenSlot, hlook, hnull, hkind, Bool.false_eq_true, if_false, cellForm,
                  cellColumns, List.mem_cons] at hc
                obtain rfl | hc := hc
                · obtain ⟨b, hb, hjson⟩ := ht.vector v dim hlook hnull hkind
                  exact ⟨v, b, hlook, hw.vectors _ hb, by rw [hkind] at hjson ⊢; exact hjson⟩
                · exact hw.cells c hc
            | _ =>
                simp only [writtenSlot, hlook, hnull, hkind, Bool.false_eq_true, if_false, cellForm,
                  cellColumns] at hc
                exact hw.cells c hc

/-- **The columns of a document are read back from what was written.** -/
lemma encodeColumns_wrote (h : encodeColumns obj hasStates i k cols d = .ok d')
    (hready : d.Ready hasStates i k cols) (hlen : d'.body.length < 2 ^ 64)
    (hwf : ∀ name v, obj.lookup name = some v → v.WellFormed)
    (hpresent : hasStates = false → ∀ c ∈ cols, lacks obj c.1 = false)
    (hgeo : GeometriesDecode cols obj) : d.Wrote d' obj hasStates i k cols := by
  induction cols generalizing i k d with
  | nil =>
      cases h
      exact ⟨rfl, rfl, fun _ _ => rfl, fun _ _ => rfl, ⟨[], (List.append_nil _).symm, fun rest => .nil⟩,
        fun c hc => hc, by simp [cellColumns]⟩
  | cons col cols ih =>
      simp only [encodeColumns, bind_eq_ok] at h
      obtain ⟨d₁, hcol, h⟩ := h
      have ht := encodeColumn_took hcol hready ((encodeColumns_body_le h).trans_lt hlen) (hwf col.1)
        (fun hs => hpresent hs col List.mem_cons_self) hgeo
      exact ht.wrote (ih h (ht.ready hready) (fun hs c hc => hpresent hs c (List.mem_cons_of_mem _ hc))
        fun name v g hmem => hgeo name v g (List.mem_cons_of_mem _ hmem))

end

/-! ## Extras -/

section

variable {layout : Layout} {obj extra : List (String × Value)} {b tail : Bytes}

/-- A member with its value in canonical form. -/
def canonicalMember (m : String × Value) : String × Value := (m.1, m.2.canonical)

lemma extras_written (h : Reading.writeAll writeExtra extra = .ok b)
    (hwf : ∀ m ∈ extra, m.2.WellFormed) (hlen : b.length < 2 ^ 64) :
    ∃ l : List WrittenMember, extra = l.map (fun w => (w.key, w.value))
      ∧ b = l.flatMap WrittenMember.encoded
      ∧ ∀ w ∈ l, (utf8 w.key).length < 2 ^ 64
        ∧ ∀ rest, jsonRead 64 (w.bytes ++ rest) = .ok (w.value.canonical, rest) := by
  induction extra generalizing b with
  | nil =>
      cases h
      exact ⟨[], rfl, rfl, by simp⟩
  | cons m extra ih =>
      simp only [Reading.writeAll, writeExtra, bind_eq_ok, pure_eq_ok] at h
      obtain ⟨_, ⟨x, hx, rfl⟩, rest, hrest, rfl⟩ := h
      simp only [List.length_append, blob] at hlen
      rw [List.forall_mem_cons] at hwf
      obtain ⟨l, rfl, rfl, hl⟩ := ih hrest hwf.2 (by omega)
      refine ⟨⟨m.1, m.2, x⟩ :: l, rfl, by simp [WrittenMember.encoded], List.forall_mem_cons.2 ⟨⟨?_, ?_⟩, hl⟩⟩
      · show (utf8 m.1).length < 2 ^ 64
        omega
      · exact read_value m.2 1 x hwf.1 hx (by omega)

lemma behind_extras (h : writeExtras extra = .ok tail) (hlen : tail.length < 2 ^ 64)
    (hk : (extra.map Prod.fst).Nodup) (hwf : ∀ m ∈ extra, m.2.WellFormed) {header : ℕ}
    (hheader : header / 2 % 2 = 1 ↔ extra ≠ []) : Behind header tail (extra.map canonicalMember) := by
  rw [writeExtras] at h
  unfold Behind
  split_ifs at h with hnil
  · cases h
    rw [if_neg (by simp [hheader, hnil])]
    simp [hnil]
  · simp only [bind_eq_ok, pure_eq_ok] at h
    obtain ⟨b, hb, rfl⟩ := h
    simp only [List.length_cons, List.length_append] at hlen
    obtain ⟨l, rfl, rfl, hl⟩ := extras_written hb hwf (by omega)
    rw [if_pos (hheader.2 hnil), jsonRead_object]
    have hle := length_le_flatMap l
    rw [List.map_map] at hk
    have hread : Read.members (jsonRead 64) l.length [] (l.flatMap WrittenMember.encoded ++ [])
        = .ok (l.map fun w => (w.key, w.value.canonical), []) := read_members l [] hl hk (by simp)
    rw [List.append_nil] at hread
    refine ⟨_, l.length, l.flatMap WrittenMember.encoded, rfl, ?_, ?_⟩
    · rw [List.length_map]
      exact read_count (by omega) hle
    · rw [List.map_map]
      exact hread

lemma mem_extras {m : String × Value} : m ∈ extras layout obj ↔ m ∈ obj ∧ m.1 ∉ layout.names := by
  rw [extras, mem_sortedEntries, List.mem_filter, decide_eq_true_eq]

lemma extras_nodup (hk : (obj.map Prod.fst).Nodup) : ((extras layout obj).map Prod.fst).Nodup := by
  have hperm : (extras layout obj).Perm (obj.filter fun m => decide (m.1 ∉ layout.names)) :=
    List.mergeSort_perm _ _
  rw [(hperm.map Prod.fst).nodup_iff]
  exact hk.sublist (List.filter_sublist.map Prod.fst)

end

/-! ## Rows -/

section

variable {layout : Layout} {doc : Value} {e : Encoded} {obj : List (String × Value)}

/-- What a row is written from: the draft of its columns and the bytes of its extras. -/
lemma encodeDirect_eq_ok : encodeDirect layout doc = .ok e ↔ layout.Valid ∧ layout.id < 2 ^ 32
    ∧ ∃ obj d tail, doc = .object obj
      ∧ encodeColumns obj (layout.names.any (lacks obj)) 0 0 layout.fields
          ⟨List.replicate (if layout.names.any (lacks obj) then layout.stateBytes else 0) 0,
            List.replicate layout.widthBytes 0, [], []⟩ = .ok d
      ∧ writeExtras (extras layout obj) = .ok tail
      ∧ e = ⟨uv (headerWord layout (layout.names.any (lacks obj)) (decide (extras layout obj ≠ [])))
          ++ (d.states ++ (d.widths ++ (d.body ++ tail))), d.vectors⟩ := by
  simp only [encodeDirect, bind_eq_ok, orElse_eq_ok, refuse_eq_ok, exists_const, pure_eq_ok, validate_eq_ok,
    Nat.not_le]
  refine and_congr_right fun _ => ?_
  constructor
  · rintro ⟨obj, hobj, hid, d, hd, tail, htail, rfl⟩
    cases doc with
    | object ms =>
        cases hobj
        exact ⟨hid, _, d, tail, rfl, hd, htail, rfl⟩
    | _ => cases hobj
  · rintro ⟨hid, obj, d, tail, rfl, hd, htail, rfl⟩
    exact ⟨obj, rfl, hid, d, hd, tail, htail, rfl⟩

lemma header_flags (layout : Layout) (a b : Bool) :
    headerWord layout a b / 4 = layout.id ∧ (headerWord layout a b % 2 = 1 ↔ a = true)
      ∧ (headerWord layout a b / 2 % 2 = 1 ↔ b = true) := by
  unfold headerWord
  cases a <;> cases b <;> simp <;> omega

lemma lookup_wellFormed (hdoc : (Value.object obj).WellFormed) (name : String) (v : Value)
    (h : obj.lookup name = some v) : v.WellFormed := by
  cases hdoc with
  | object _ hms => exact hms _ (mem_of_lookup h)

lemma object_wellFormed (hdoc : (Value.object obj).WellFormed) :
    (obj.map Prod.fst).Nodup ∧ ∀ m ∈ obj, m.2.WellFormed := by
  cases hdoc with
  | object hk hms => exact ⟨hk, hms⟩

/-- **A row that was written parses**, and the cells of its vectors were written beside it. -/
theorem parses_encodeDirect (h : encodeDirect layout (.object obj) = .ok e)
    (hdoc : (Value.object obj).WellFormed) (hlen : e.row.length < 2 ^ 64)
    (hgeo : GeometriesDecode layout.fields obj) :
    Parses layout e.row (layout.fields.map (writtenSlot obj)) ((extras layout obj).map canonicalMember)
      ∧ ∀ c ∈ cellColumns 0 layout.fields (layout.fields.map (writtenSlot obj)), ∃ v b,
        obj.lookup c.2.1 = some v ∧ (c.1, b) ∈ e.vectors
          ∧ vectorJson b (dimension c.2.2) = .ok (storedForm c.2.2 v) := by
  obtain ⟨hvalid, hid, obj', d, tail, hobj, hd, htail, rfl⟩ := encodeDirect_eq_ok.1 h
  cases hobj
  obtain ⟨hkeys, hms⟩ := object_wellFormed hdoc
  generalize hstates : layout.names.any (lacks obj) = hasStates at hd hlen ⊢
  simp only [List.length_append] at hlen
  have hready : (⟨List.replicate (if hasStates = true then layout.stateBytes else 0) 0,
      List.replicate layout.widthBytes 0, [], []⟩ : Draft).Ready hasStates 0 0 layout.fields := by
    refine ⟨fun hs => ?_, ?_, fun j _ => stateGet_zeros _ j, fun m _ => widthGet_zeros _ m⟩
    · simp only [hs, if_true, List.length_replicate, Layout.stateBytes]
      omega
    · simp only [List.length_replicate, Layout.widthBytes, Layout.integers]
      omega
  have hpresent : hasStates = false → ∀ c ∈ layout.fields, lacks obj c.1 = false := by
    rintro rfl c hc
    exact Bool.not_eq_true _ ▸ List.any_eq_false.1 hstates c.1 (List.mem_map_of_mem hc)
  have hw := encodeColumns_wrote hd hready (by omega) (lookup_wellFormed hdoc) hpresent hgeo
  obtain ⟨x, hx, hcols⟩ := hw.body
  rw [List.nil_append] at hx
  obtain ⟨hquot, hodd, hsecond⟩ := header_flags layout hasStates (decide (extras layout obj ≠ []))
  have hslen := hw.states_length
  have hwlen := hw.widths_length
  simp only [List.length_replicate] at hslen hwlen
  set header := headerWord layout hasStates (decide (extras layout obj ≠ [])) with hheader
  refine ⟨.intro ⟨header, statesOf hasStates d.states, d.widths⟩ (d.body ++ tail) tail ?_ ?_ ?_ ?_, hw.cells⟩
  · have huv : Read.uv (uv header ++ (d.states ++ (d.widths ++ (d.body ++ tail))))
        = .ok (header, d.states ++ (d.widths ++ (d.body ++ tail))) := read_uv (by omega)
    have hwidths : Read.take layout.widthBytes (d.widths ++ (d.body ++ tail)) = .ok (d.widths, d.body ++ tail) :=
      read_take hwlen
    have hstatesRead : Reading.optional (header % 2 = 1) (Read.take layout.stateBytes)
        (d.states ++ (d.widths ++ (d.body ++ tail)))
        = .ok (statesOf hasStates d.states, d.widths ++ (d.body ++ tail)) := by
      unfold Reading.optional
      cases hasStates with
      | true =>
          rw [if_pos (hodd.2 rfl), read_take (by simpa using hslen)]
          rfl
      | false =>
          have hnil : d.states = [] := List.length_eq_zero_iff.1 (by simpa using hslen)
          rw [if_neg fun ho => Bool.false_ne_true (hodd.1 ho), hnil]
          rfl
    have hdomain : refuse (2 ^ 32 ≤ header / 4) "layout ID domain" = .ok () :=
      refuse_eq_ok.2 (Nat.not_le.2 (hquot.symm ▸ hid))
    have hlayout : refuse (header / 4 ≠ layout.id) "wrong layout" = .ok () :=
      refuse_eq_ok.2 (not_not.2 hquot)
    simp only [openRow, huv, hdomain, hlayout, hstatesRead, hwidths, bind, Except.bind, pure, Except.pure]
  · rw [hx]
    exact hcols tail
  · refine behind_extras htail (by omega) (extras_nodup hkeys) (fun m hm => hms m (mem_extras.1 hm).1) ?_
    rw [hsecond, decide_eq_true_eq]
  · intro m hm
    obtain ⟨m', hm', rfl⟩ := List.mem_map.1 hm
    exact (mem_extras.1 hm').2

end

/-! ## The round trip -/

section

variable {name : String} {obj extra : List (String × Value)} {layout : Layout} {cols : List (String × Kind)}
  {get : ℕ → ℕ → Except String (Option Value)} {i j : ℕ} {w : String × Kind → Slot} {kind : Kind}

/-- A member is found where there is one of its key. -/
lemma lookup_eq_some {α : Type} {l : List (String × α)} (hl : (l.map Prod.fst).Nodup) {a : α} :
    l.lookup name = some a ↔ (name, a) ∈ l := by
  refine ⟨mem_of_lookup, fun h => ?_⟩
  obtain ⟨l₁, l₂, rfl⟩ := List.mem_iff_append.1 h
  refine List.lookup_eq_some_iff.2 ⟨l₁, l₂, rfl, fun p hp => bne_iff_ne.2 ?_⟩
  rw [List.map_append, List.nodup_append] at hl
  exact fun he => hl.2.2 p.1 (List.mem_map_of_mem hp) name (by simp) he.symm

lemma lookup_map_canonical : (obj.map canonicalMember).lookup name = (obj.lookup name).map Value.canonical := by
  induction obj with
  | nil => rfl
  | cons m obj ih =>
      rw [List.map_cons, lookup_cons_if, lookup_cons_if, ih, canonicalMember]
      split_ifs <;> rfl

/-- The fields that are not declared, by name. -/
lemma lookup_extras (hk : (obj.map Prod.fst).Nodup) :
    (extras layout obj).lookup name = if name ∈ layout.names then none else obj.lookup name := by
  have hnodup : ((extras layout obj).map Prod.fst).Nodup := extras_nodup hk
  refine Option.ext fun v => ?_
  rw [lookup_eq_some hnodup, mem_extras]
  split_ifs with h
  · simp [h]
  · rw [lookup_eq_some hk]
    simp [h]

/-- A column is found by its name. -/
lemma findSlot_map (hn : (cols.map Prod.fst).Nodup) (hcol : (name, kind) ∈ cols) :
    ∃ j, findSlot name i cols (cols.map w) = some (j, kind, w (name, kind))
      ∧ (w (name, kind) = .cell none → (j, name, kind) ∈ cellColumns i cols (cols.map w)) := by
  have hfound : ∃ j, findSlot name i cols (cols.map w) = some (j, kind, w (name, kind)) := by
    induction cols generalizing i with
    | nil => simp at hcol
    | cons col cols ih =>
        rw [List.map_cons, List.nodup_cons] at hn
        rw [List.map_cons, findSlot]
        obtain rfl | hcol := List.mem_cons.1 hcol
        · exact ⟨i, if_pos rfl⟩
        · rw [if_neg fun he : col.1 = name => hn.1 (he ▸ List.mem_map_of_mem hcol)]
          exact ih hn.2 hcol
  obtain ⟨j, hj⟩ := hfound
  exact ⟨j, hj, fun hcell => (mem_cellColumns hn).2 (hcell ▸ hj)⟩

lemma FieldValue.eq_of_agrees_ofExtra {o o' : Option Value} (h : (FieldValue.ofExtra o).Agrees get o') : o' = o := by
  cases o with
  | none => exact h
  | some v =>
      rw [FieldValue.ofExtra] at h
      split_ifs at h with hnull
      · rw [isNull_iff.1 hnull]
        exact h
      · exact h

/-! ## The vectors and the defaults -/

lemma fetchVectors_ok {vs : List (ℕ × String × Kind)}
    (h : ∀ c ∈ vs, ∃ o, get c.1 (dimension c.2.2) = .ok o) : ∃ obj', fetchVectors get vs obj = .ok obj' := by
  induction vs generalizing obj with
  | nil => exact ⟨obj, rfl⟩
  | cons c vs ih =>
      rw [List.forall_mem_cons] at h
      obtain ⟨⟨o, ho⟩, hrest⟩ := h
      simp only [fetchVectors, ho, bind, Except.bind]
      exact ih hrest

/-- A default stands for what is missing, and for nothing else. -/
lemma lookup_fillMembers {defaults : List (String × Value)} :
    (fillMembers defaults obj).lookup name = (obj.lookup name).or (defaults.lookup name) := by
  induction defaults generalizing obj with
  | nil => simp [fillMembers]
  | cons m defaults ih =>
      rw [fillMembers, ih, lookup_cons_if]
      by_cases hm : (obj.lookup m.1).isSome
      · rw [if_pos hm]
        split_ifs with hname
        · obtain ⟨v, hv⟩ := Option.isSome_iff_exists.1 hm
          rw [hname, hv]
          rfl
        · rfl
      · rw [if_neg hm, lookup_insertMember]
        split_ifs with hname
        · rw [Option.not_isSome_iff_eq_none] at hm
          rw [hname, hm]
          rfl
        · rfl

lemma fillMembers_nodup {defaults : List (String × Value)} (h : (obj.map Prod.fst).Nodup) :
    ((fillMembers defaults obj).map Prod.fst).Nodup := by
  induction defaults generalizing obj with
  | nil => exact h
  | cons m defaults ih =>
      rw [fillMembers]
      split_ifs
      · exact ih h
      · exact ih (nodup_insertMember h)

end

/-- **A member of a document as a row gives it back.** -/
def Layout.storedMember (layout : Layout) (name : String) (v : Value) : Value :=
  match layout.fields.lookup name with
  | some kind => if v.isNull then .null else storedForm kind v
  | none => v.canonical

section

variable {layout : Layout} {doc : Value} {e : Encoded} {obj : List (String × Value)} {name : String}
  {get : ℕ → Except String Bytes}

lemma vectorIn_ok {i dim : ℕ} {b : Bytes} {v : Value} (hget : get i = .ok b) (hjson : vectorJson b dim = .ok v) :
    vectorIn get i dim = .ok (some v) := by
  simp only [vectorIn, hget, hjson, bind, Except.bind, pure, Except.pure]

/-- The decoder fills in the defaults, and its caller does so again. -/
lemma decodeDirect_of_raw {b : Bytes} (h : decodeWithVectorValuesRaw layout b (vectorIn get) = .ok (.object obj)) :
    decodeDirect layout b get
      = .ok (.object (fillMembers (layout.absent.getD []) (fillMembers (layout.absent.getD []) obj))) := by
  simp only [decodeDirect, decodeDirectRaw, decodeWithVectorValues, h, bind, Except.bind, pure, Except.pure, fillAbsent]

lemma lookup_absent : (layout.absent.getD []).lookup name = layout.absentDefault name := by
  rw [Layout.absentDefault]
  cases layout.absent <;> rfl

/-- What the row that was written holds of a field agrees with one value alone: its stored form. -/
lemma stored_of_agrees (hvalid : layout.Valid) (hkeys : (obj.map Prod.fst).Nodup)
    (hget : ∀ c ∈ e.vectors, get c.1 = .ok c.2)
    (hcells : ∀ c ∈ cellColumns 0 layout.fields (layout.fields.map (writtenSlot obj)), ∃ v b,
      obj.lookup c.2.1 = some v ∧ (c.1, b) ∈ e.vectors
        ∧ vectorJson b (dimension c.2.2) = .ok (storedForm c.2.2 v)) {o : Option Value}
    (h : (heldField layout (layout.fields.map (writtenSlot obj)) ((extras layout obj).map canonicalMember)
      name).Agrees (vectorIn get) o) : o = (obj.lookup name).map (layout.storedMember name) := by
  have hn : (layout.fields.map Prod.fst).Nodup := hvalid.nodup
  rw [heldField] at h
  cases hlook : layout.fields.lookup name with
  | none =>
      have hnot : name ∉ layout.names := by
        intro hmem
        obtain ⟨⟨_, kind⟩, hcol, rfl⟩ := List.mem_map.1 hmem
        rw [(lookup_eq_some hn).2 hcol] at hlook
        cases hlook
      rw [findSlot_of_not_mem hnot] at h
      rw [FieldValue.eq_of_agrees_ofExtra h, lookup_map_canonical, lookup_extras hkeys, if_neg hnot]
      congr 1
      funext v
      rw [Layout.storedMember, hlook]
  | some kind =>
      have hcol := mem_of_lookup hlook
      obtain ⟨j, hj, hcell⟩ := findSlot_map (i := 0) (w := writtenSlot obj) hn hcol
      rw [hj] at h
      simp only [writtenSlot] at h hcell
      cases hv : obj.lookup name with
      | none =>
          rw [hv] at h
          exact h
      | some v =>
          rw [hv] at h hcell
          rw [Option.map_some, Layout.storedMember, hlook]
          dsimp only at h hcell ⊢
          split_ifs at h hcell ⊢ with hnull
          · exact h
          · cases kind with
            | vector dim =>
                obtain ⟨v', b, hv', hb, hjson⟩ := hcells _ (hcell rfl)
                cases hv.symm.trans hv'
                exact Except.ok.inj (h.symm.trans (vectorIn_ok (hget _ hb) hjson))
            | _ => exact h

/-- **A row is decoded to the document it was written from**, each member in its stored form, with the defaults of
the columns that it lacks.  Between the two stands what a row parses to: `parses_encodeDirect` says what the
encoder writes, and the decoder is shown to build its document of that. -/
theorem decodeDirect_encodeDirect (h : encodeDirect layout doc = .ok e) (hdoc : doc.WellFormed)
    (hlen : e.row.length < 2 ^ 32) (hget : ∀ c ∈ e.vectors, get c.1 = .ok c.2) :
    ∃ obj obj', doc = .object obj ∧ decodeDirect layout e.row get = .ok (.object obj')
      ∧ (obj'.map Prod.fst).Nodup ∧ ∀ name, obj'.lookup name
        = ((obj.lookup name).map (layout.storedMember name)).or (layout.absentDefault name) := by
  obtain ⟨hvalid, -, obj, d, tail, rfl, hd, -, rfl⟩ := encodeDirect_eq_ok.1 h
  obtain ⟨hkeys, hms⟩ := object_wellFormed hdoc
  have hgeo : GeometriesDecode layout.fields obj := by
    intro name v g hcol hv hg
    have hle := encodeColumns_geo_le hd hcol hv hg
    simp only [List.length_append] at hlen
    exact Spatial.Geom.decode_encode (geo_fits (lookup_wellFormed hdoc name v hv) hg (by omega))
  obtain ⟨hparses, hcells⟩ := parses_encodeDirect h hdoc (by omega) hgeo
  have hvectors : vectorsOf layout (layout.fields.map (writtenSlot obj))
      = cellColumns 0 layout.fields (layout.fields.map (writtenSlot obj)) := by
    rw [vectorsOf, foldSlots_vectors, List.nil_append]
  obtain ⟨raw, hraw⟩ : ∃ raw, fetchVectors (vectorIn get) (vectorsOf layout (layout.fields.map (writtenSlot obj)))
      (inlineObject layout (layout.fields.map (writtenSlot obj)) ((extras layout obj).map canonicalMember))
        = .ok raw := by
    refine fetchVectors_ok fun c hc => ?_
    rw [hvectors] at hc
    obtain ⟨v, b, -, hb, hjson⟩ := hcells c hc
    exact ⟨_, vectorIn_ok (hget _ hb) hjson⟩
  obtain ⟨hnodup, hagrees⟩ := fetched_agrees hvalid.nodup hparses hraw
  have hdecode := decodeRaw_eq_ok.2 ⟨hvalid, _, _, hparses, raw, rfl, hraw⟩
  refine ⟨obj, _, rfl, decodeDirect_of_raw hdecode, fillMembers_nodup (fillMembers_nodup hnodup), fun name => ?_⟩
  rw [lookup_fillMembers, lookup_fillMembers, Option.or_assoc, Option.or_self, lookup_absent,
    stored_of_agrees hvalid hkeys hget hcells (hagrees name)]

/-! ## A row -/

/-- Columns of five kinds, the last of them added later with a default. -/
def sixColumns : Layout where
  id := 7
  fields := [("title", .text), ("score", .real), ("seen", .int), ("count", .int), ("place", .vector 2),
    ("lang", .text)]
  absent := some [("lang", .string "en")]

/-- A document with a null, without its last column, and with a member that is not declared. -/
def sixMembers : List (String × Value) :=
  [("title", .string "hi"), ("score", .number (.float 0x3FE0000000000000)), ("seen", .null),
    ("count", .number (.int 300)),
    ("place", .array [.number (.int 1), .number (.float 0xC000000000000000)]), ("note", .bool true)]

/-- Its row: the header, the states, the widths, a text, a real, an integer of two bytes and the extras. -/
def sixRow : Bytes :=
  [31, 154, 2, 8, 2, 104, 105, 0, 0, 0, 0, 0, 0, 224, 63, 1, 44, 8, 1, 4, 110, 111, 116, 101, 2]

/-- The vector is the only cell. -/
def sixCells (i : ℕ) : Except String Bytes :=
  if i = 4 then .ok [0, 0, 128, 63, 0, 0, 0, 192] else .error "no cell"

/-- The coordinates as they are read back, `1` and `-2`. -/
def sixPlace : Value := .array [.number (.float 0x3FF0000000000000), .number (.float 0xC000000000000000)]

lemma encodeDirect_sixColumns : encodeDirect sixColumns (.object sixMembers)
    = .ok ⟨sixRow, [(4, [0, 0, 128, 63, 0, 0, 0, 192])]⟩ := by
  decide +kernel

lemma sixMembers_wellFormed : (Value.object sixMembers).WellFormed := by
  refine .object (by decide) ?_
  simp only [sixMembers, List.forall_mem_cons, List.not_mem_nil, false_implies, implies_true, and_true]
  refine ⟨.string _, .number ⟨by decide, by decide⟩, .null, .number ⟨by decide, by decide⟩, .array ?_, .bool _⟩
  simp only [List.forall_mem_cons, List.not_mem_nil, false_implies, implies_true, and_true]
  exact ⟨.number ⟨by decide, by decide⟩, .number ⟨by decide, by decide⟩⟩

/-- The coordinates of the document are rounded to `f32`s and widened again. -/
lemma storedMember_place : sixColumns.storedMember "place"
    (.array [.number (.int 1), .number (.float 0xC000000000000000)]) = sixPlace := by
  have hform : ∀ x bits, x.asF64 = some bits → f64OfF32 (Spatial.f32OfF64 bits) = bits →
      coordinateForm x = .number (.float bits) := by
    intro x bits hx hbits
    simp only [coordinateForm, hx, hbits]
  have hone := hform (.number (.int 1)) 0x3FF0000000000000 (by decide +kernel) (by decide +kernel)
  have htwo := hform (.number (.float 0xC000000000000000)) _ rfl (by decide +kernel)
  show Value.array [coordinateForm _, coordinateForm _] = _
  rw [hone, htwo]
  rfl

theorem decodeDirect_encodeDirect_sixColumns : ∃ obj,
    decodeDirect sixColumns sixRow sixCells = .ok (.object obj)
      ∧ obj.lookup "title" = some (.string "hi")
      ∧ obj.lookup "score" = some (.number (.float 0x3FE0000000000000))
      ∧ obj.lookup "seen" = some .null ∧ obj.lookup "count" = some (.number (.int 300))
      ∧ obj.lookup "place" = some sixPlace ∧ obj.lookup "lang" = some (.string "en")
      ∧ obj.lookup "note" = some (.bool true) := by
  have hcells : ∀ c ∈ [(4, [0, 0, 128, 63, 0, 0, 0, 192])], sixCells c.1 = .ok c.2 := by simp [sixCells]
  obtain ⟨_, obj, hdoc, hdecode, -, hlook⟩ := decodeDirect_encodeDirect encodeDirect_sixColumns
    sixMembers_wellFormed (by decide) hcells
  cases hdoc
  exact ⟨obj, hdecode, hlook "title", hlook "score", hlook "seen", hlook "count",
    (hlook "place").trans (congrArg some storedMember_place), hlook "lang", hlook "note"⟩

end

end Engine.DenseRow
