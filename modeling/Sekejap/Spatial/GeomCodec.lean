import Sekejap.Collections.BinaryJson
import Sekejap.Lib.Reading
import Sekejap.Spatial.Geometry

/-!
# The bytes of a geometry

`Geom::encode` and `Geom::decode` of `core/kernel/src/spatial.rs`: a tag, then the coordinates, or so
many lists of them, each behind its count in four bytes.  A count is cut to 32 bits when it is
written, and a count that the bytes cannot hold is refused before anything is read.

* **`decode_encode`** — a geometry whose lists are shorter than `2 ^ 32` is decoded as it was encoded.
-/

open Bytes

open Fallible

open Reading (Reader Spells many take)

namespace Engine.Spatial.Geom

/-! ## Writing -/

/-- A list behind its count, `len() as u32`. -/
def countedBytes {α : Type} (item : α → Bytes) (l : List α) : Bytes :=
  leBytes 4 l.length ++ l.flatMap item

def pairBytes (p : ℕ × ℕ) : Bytes := leBytes 8 p.1 ++ leBytes 8 p.2

/-- `coords` -/
def coordsBytes : List (ℕ × ℕ) → Bytes := countedBytes pairBytes

/-- `ringsets` -/
def ringsetsBytes : List (List (ℕ × ℕ)) → Bytes := countedBytes coordsBytes

def encode : Geom → Bytes
  | point x y => 1 :: pairBytes (x, y)
  | lineString c => 2 :: coordsBytes c
  | polygon rs => 3 :: ringsetsBytes rs
  | multiPoint c => 4 :: coordsBytes c
  | multiLineString rs => 5 :: ringsetsBytes rs
  | multiPolygon ps => 6 :: countedBytes ringsetsBytes ps

/-! ## Reading -/

/-- `n` bytes, the lowest first. -/
def lowFirst (n : ℕ) : Reader Unit ℕ := fun b => do
  let (x, b) ← take () n b
  pure (leNat x, b)

/-- `[f64_at, f64_at]` -/
def pair : Reader Unit (ℕ × ℕ) := fun b => do
  let (x, b) ← lowFirst 8 b
  let (y, b) ← lowFirst 8 b
  pure ((x, y), b)

/-- A count of at most `len / room + 1`, where `len` is the length of the whole, and so many items. -/
def counted {α : Type} (len room : ℕ) (item : Reader Unit α) : Reader Unit (List α) := fun b => do
  let (n, b) ← lowFirst 4 b
  refuse (len / room + 1 < n) ()
  many item n b

def coords (len : ℕ) : Reader Unit (List (ℕ × ℕ)) := counted len 16 pair

def ringsets (len : ℕ) : Reader Unit (List (List (ℕ × ℕ))) := counted len 4 (coords len)

/-- What follows the tag. -/
def decodeBody (len : ℕ) (tag : UInt8) (b : Bytes) : Except Unit Geom :=
  if tag = 1 then do
    let (p, _) ← pair b
    pure (point p.1 p.2)
  else if tag = 2 then do
    let (c, _) ← coords len b
    pure (lineString c)
  else if tag = 3 then do
    let (rs, _) ← ringsets len b
    pure (polygon rs)
  else if tag = 4 then do
    let (c, _) ← coords len b
    pure (multiPoint c)
  else if tag = 5 then do
    let (rs, _) ← ringsets len b
    pure (multiLineString rs)
  else if tag = 6 then do
    let (ps, _) ← counted len 4 (ringsets len) b
    pure (multiPolygon ps)
  else .error ()

/-- What is behind the geometry is not looked at. -/
def decode : Bytes → Option Geom
  | [] => none
  | tag :: b => (decodeBody (b.length + 1) tag b).toOption

/-! ## Reading what was written -/

/-- A list that its count can tell. -/
def Counts {α : Type} (P : α → Prop) (l : List α) : Prop := l.length < 2 ^ 32 ∧ ∀ x ∈ l, P x

/-- The bits of two `f64`s. -/
def IsPair (p : ℕ × ℕ) : Prop := p.1 < 2 ^ 64 ∧ p.2 < 2 ^ 64

/-- Every list of the geometry has a length that its count can tell. -/
def Fits : Geom → Prop
  | point x y => IsPair (x, y)
  | lineString c | multiPoint c => Counts IsPair c
  | polygon rs | multiLineString rs => Counts (Counts IsPair) rs
  | multiPolygon ps => Counts (Counts (Counts IsPair)) ps

section

variable {α : Type} {len room n : ℕ} {item : Reader Unit α} {s : α → Bytes} {P : α → Prop}

lemma lowFirst_spells (n : ℕ) : Spells (lowFirst n) (leBytes n) fun x => x < 256 ^ n := by
  intro b x rest
  simp only [lowFirst, bind_eq_ok, Prod.exists, Reading.take_eq_ok, pure_eq_ok, Prod.mk.injEq]
  constructor
  · rintro ⟨a, _, ⟨rfl, rfl⟩, rfl, rfl⟩
    exact ⟨leNat_lt a, by rw [leBytes_leNat]⟩
  · rintro ⟨hx, rfl⟩
    exact ⟨_, _, ⟨length_leBytes n x, rfl⟩, leNat_leBytes_of_lt hx, rfl⟩

lemma pair_spells : Spells pair pairBytes IsPair := by
  rintro b ⟨x, y⟩ rest
  simp only [pair, bind_eq_ok, Prod.exists, lowFirst_spells _ _ _ _, pure_eq_ok, Prod.mk.injEq,
    pairBytes, IsPair]
  constructor
  · rintro ⟨_, _, ⟨hx, rfl⟩, _, _, ⟨hy, rfl⟩, ⟨rfl, rfl⟩, rfl⟩
    exact ⟨⟨hx, hy⟩, by simp⟩
  · rintro ⟨⟨hx, hy⟩, rfl⟩
    exact ⟨x, _, ⟨hx, List.append_assoc _ _ _⟩, y, rest, ⟨hy, rfl⟩, ⟨rfl, rfl⟩, rfl⟩

lemma counted_spells (h : Spells item s P) (len room : ℕ) :
    Spells (counted len room item) (countedBytes s) fun l =>
      l.length < 2 ^ 32 ∧ l.length ≤ len / room + 1 ∧ ∀ x ∈ l, P x := by
  intro b l rest
  simp only [counted, bind_eq_ok, Prod.exists, lowFirst_spells _ _ _ _, refuse_eq_ok,
    h.many _ _ _ _, countedBytes]
  constructor
  · rintro ⟨n, _, ⟨hn, rfl⟩, _, hle, ⟨rfl, hP⟩, rfl⟩
    exact ⟨⟨by simpa using hn, Nat.not_lt.1 hle, hP⟩, by simp⟩
  · rintro ⟨⟨hn, hle, hP⟩, rfl⟩
    exact ⟨l.length, _, ⟨by simpa using hn, List.append_assoc _ _ _⟩, (), Nat.not_lt.2 hle, ⟨rfl, hP⟩,
      rfl⟩

lemma room_mul_le {room : ℕ} (hs : ∀ x, room ≤ (s x).length) (l : List α) :
    room * l.length ≤ (countedBytes s l).length := by
  have hflat : room * l.length ≤ (l.flatMap s).length := by
    induction l with
    | nil => simp
    | cons x l ih =>
        have := hs x
        rw [List.flatMap_cons, List.length_append, List.length_cons, Nat.mul_succ]
        omega
  rw [countedBytes, List.length_append]
  omega

/-- A list within bytes of length `len` passes the bound on its count. -/
lemma counts_bound (hroom : 0 < room) (hs : ∀ x, room ≤ (s x).length) {l : List α}
    (hlen : (countedBytes s l).length ≤ len) : l.length ≤ len / room + 1 := by
  have hle : l.length ≤ len / room := by
    rw [Nat.le_div_iff_mul_le hroom, mul_comm]
    exact (room_mul_le hs l).trans hlen
  omega

lemma length_item_le {l : List α} {x : α} (hx : x ∈ l) : (s x).length ≤ (countedBytes s l).length := by
  have hsub := (sublist_flatMap s hx).length_le
  rw [countedBytes, List.length_append]
  omega

/-- Lists whose bytes are few have a length that their count can tell. -/
lemma counts_of_length {l : List α} (hs : ∀ x, 1 ≤ (s x).length) (hlen : (countedBytes s l).length < 2 ^ 32)
    (hP : ∀ x ∈ l, (s x).length < 2 ^ 32 → P x) : Counts P l := by
  have hcount := room_mul_le hs l
  refine ⟨by omega, fun x hx => hP x hx ?_⟩
  have := length_item_le (s := s) hx
  omega

lemma length_pairBytes (p : ℕ × ℕ) : 16 ≤ (pairBytes p).length := by simp [pairBytes]

lemma length_countedBytes (l : List α) : 4 ≤ (countedBytes s l).length := by simp [countedBytes]

/-- The conditions a reader asks of the lists in bytes of length `len`. -/
lemma Counts.reads (hroom : 0 < room) (hs : ∀ x, room ≤ (s x).length) {Q : α → Prop} {l : List α}
    (h : Counts P l) (hlen : (countedBytes s l).length ≤ len)
    (hQ : ∀ x, P x → (s x).length ≤ len → Q x) :
    l.length < 2 ^ 32 ∧ l.length ≤ len / room + 1 ∧ ∀ x ∈ l, Q x :=
  ⟨h.1, counts_bound hroom hs hlen, fun x hx => hQ x (h.2 x hx) ((length_item_le hx).trans hlen)⟩

lemma coords_encode {c : List (ℕ × ℕ)} (h : Counts IsPair c) (hlen : (coordsBytes c).length ≤ len) :
    coords len (coordsBytes c) = .ok (c, []) := by
  refine (counted_spells pair_spells len 16 _ _ _).2 ⟨?_, by rw [List.append_nil]; rfl⟩
  exact h.reads (by omega) length_pairBytes hlen fun _ hx _ => hx

lemma ringsets_encode {rs : List (List (ℕ × ℕ))} (h : Counts (Counts IsPair) rs)
    (hlen : (ringsetsBytes rs).length ≤ len) : ringsets len (ringsetsBytes rs) = .ok (rs, []) := by
  have hspells := counted_spells (counted_spells pair_spells len 16) len 4
  refine (hspells _ _ _).2 ⟨?_, by rw [List.append_nil]; rfl⟩
  refine h.reads (by omega) length_countedBytes hlen fun c hc hle => ?_
  exact hc.reads (by omega) length_pairBytes hle fun _ hx _ => hx

lemma polygons_encode {ps : List (List (List (ℕ × ℕ)))} (h : Counts (Counts (Counts IsPair)) ps)
    (hlen : (countedBytes ringsetsBytes ps).length ≤ len) :
    counted len 4 (ringsets len) (countedBytes ringsetsBytes ps) = .ok (ps, []) := by
  have hspells := counted_spells (counted_spells (counted_spells pair_spells len 16) len 4) len 4
  refine (hspells _ _ _).2 ⟨?_, by rw [List.append_nil]; rfl⟩
  refine h.reads (by omega) length_countedBytes hlen fun rs hrs hle => ?_
  refine hrs.reads (by omega) length_countedBytes hle fun c hc hle => ?_
  exact hc.reads (by omega) length_pairBytes hle fun _ hx _ => hx

end

/-- **A geometry is decoded as it was encoded.** -/
theorem decode_encode {g : Geom} (h : g.Fits) : decode g.encode = some g := by
  cases g
  case' point x y =>
    have hread : pair (pairBytes (x, y)) = .ok ((x, y), []) :=
      (pair_spells _ _ _).2 ⟨h, (List.append_nil _).symm⟩
  case' lineString c =>
    have hread := coords_encode h (Nat.le_add_right _ 1)
  case' polygon rs =>
    have hread := ringsets_encode h (Nat.le_add_right _ 1)
  case' multiPoint c =>
    have hread := coords_encode h (Nat.le_add_right _ 1)
  case' multiLineString rs =>
    have hread := ringsets_encode h (Nat.le_add_right _ 1)
  case' multiPolygon ps =>
    have hread := polygons_encode h (Nat.le_add_right _ 1)
  all_goals
    simp [encode, decode, decodeBody, hread, bind, Except.bind, pure, Except.pure, Except.toOption]

end Engine.Spatial.Geom
