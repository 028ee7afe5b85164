import Sekejap.Lib.Crc32c
import Sekejap.Lib.Reading
import Sekejap.Collections.BinaryJson

/-!
# Metadata packets

Every record of a database's metadata is a packet of one size: a magic that names what it is, the
length of its payload, the payload, zeros, and a checksum over all before it
(`core/engine/src/collections/mod.rs`).

* **`unpack_eq_ok`** — a packet that is accepted is the packet of its payload, and the only one.

Inside a payload a text stands behind its length in one byte (`shortText`) or in two (`longText`).
-/

open Bytes Crc32c

open Fallible

open Reading

namespace Engine.Packet

/-! ## The envelope -/

/-- `PAD` -/
def pad : ℕ := 2081

def packet (magic payload : Bytes) : Except Error Bytes := do
  refuse (pad - 14 < payload.length) (.invalid "metadata too large")
  let b := resize (magic ++ bigEndian 2 payload.length ++ payload) (pad - 4)
  pure (b ++ leBytes 4 (crc32c b).toNat)

def unpack (b magic : Bytes) : Except Error Bytes := do
  refuse (b.length ≠ pad ∨ slice b 0 8 ≠ magic ∨
    (crc32c (b.take (pad - 4))).toNat ≠ leNat (slice b (pad - 4) 4))
    (.corrupt "metadata checksum/magic/size")
  let n := bigEndianNat (slice b 8 2)
  refuse (pad - 14 < n ∨ (slice b (10 + n) (pad - 4 - (10 + n))).any (· ≠ 0))
    (.corrupt "metadata length/padding")
  pure (slice b 10 n)

lemma packet_eq_ok {magic payload b : Bytes} : packet magic payload = .ok b ↔
    payload.length ≤ pad - 14 ∧
      b = resize (magic ++ bigEndian 2 payload.length ++ payload) (pad - 4) ++
        leBytes 4 (crc32c (resize (magic ++ bigEndian 2 payload.length ++ payload) (pad - 4))).toNat := by
  simp only [packet, bind_eq_ok, refuse_eq_ok, exists_const, pure_eq_ok, not_lt]
  rw [eq_comm (a := b)]

/-- A payload that is short enough has a packet. -/
lemma exists_packet {payload : Bytes} (magic : Bytes) (h : payload.length ≤ pad - 14) :
    ∃ p, packet magic payload = .ok p :=
  ⟨_, packet_eq_ok.mpr ⟨h, rfl⟩⟩

/-- What a payload is padded to. -/
lemma resize_payload {magic payload : Bytes} (hm : magic.length = 8) (hp : payload.length ≤ pad - 14) :
    resize (magic ++ bigEndian 2 payload.length ++ payload) (pad - 4) =
      magic ++ (bigEndian 2 payload.length ++
        (payload ++ List.replicate (pad - 14 - payload.length) 0)) := by
  have hlen : (magic ++ bigEndian 2 payload.length ++ payload).length = 10 + payload.length := by
    simp [hm]
    omega
  have hle : (magic ++ bigEndian 2 payload.length ++ payload).length ≤ pad - 4 := by
    rw [hlen]
    simp only [pad] at hp ⊢
    omega
  have hcount : pad - 4 - (10 + payload.length) = pad - 14 - payload.length := by
    simp only [pad]
    omega
  rw [resize, List.take_of_length_le hle, hlen, hcount]
  simp only [List.append_assoc]

lemma eq_replicate_of_any {x : Bytes} (h : x.any (· ≠ 0) = false) : x = List.replicate x.length 0 := by
  rw [List.eq_replicate_iff]
  refine ⟨rfl, fun y hy => ?_⟩
  simp only [List.any_eq_false, decide_eq_true_eq, not_not] at h
  exact h y hy

lemma drop_eq_slice (b : Bytes) (p n : ℕ) : b.drop p = slice b p n ++ b.drop (p + n) := by
  rw [slice, ← List.drop_drop, List.take_append_drop]

/-- The parts of a packet whose payload is `n` bytes long. -/
lemma pieces {b : Bytes} {n : ℕ} (hlen : b.length = pad) (hn : n ≤ pad - 14) :
    b.take (pad - 4) = slice b 0 8 ++ (slice b 8 2 ++ (slice b 10 n ++
      slice b (10 + n) (pad - 4 - (10 + n)))) := by
  have hall : b = slice b 0 8 ++ (slice b 8 2 ++ (slice b 10 n ++
      (slice b (10 + n) (pad - 4 - (10 + n)) ++ b.drop (pad - 4)))) := by
    have hend : 10 + n + (pad - 4 - (10 + n)) = pad - 4 := by
      simp only [pad] at hn ⊢
      omega
    have hrest := drop_eq_slice b (10 + n) (pad - 4 - (10 + n))
    rw [hend] at hrest
    rw [← hrest, ← drop_eq_slice b 10, ← drop_eq_slice b 8 2, ← drop_eq_slice b 0 8, List.drop_zero]
  have hfour : (b.drop (pad - 4)).length = 4 := by simp [hlen, pad]
  refine @List.append_cancel_right _ _ (b.drop (pad - 4)) _ ?_
  rw [List.take_append_drop]
  simpa using hall

/-- **A packet is accepted just when it is the packet of its payload.** -/
theorem unpack_eq_ok {magic payload b : Bytes} (hm : magic.length = 8) :
    unpack b magic = .ok payload ↔ packet magic payload = .ok b := by
  rw [packet_eq_ok]
  simp only [unpack, bind_eq_ok, refuse_eq_ok, exists_const, pure_eq_ok, not_or, not_not, not_lt,
    Bool.not_eq_true]
  constructor
  · rintro ⟨⟨hlen, hmagic, hcrc⟩, ⟨hn, hzero⟩, hslice⟩
    set n := bigEndianNat (slice b 8 2) with hdef
    have hpayload : payload.length = n := by
      rw [← hslice]
      refine length_slice_of_le ?_
      simp only [pad] at hlen hn
      omega
    have hzeros : slice b (10 + n) (pad - 4 - (10 + n)) = List.replicate (pad - 14 - n) 0 := by
      rw [eq_replicate_of_any hzero, length_slice_of_le (by simp only [pad] at hlen hn ⊢; omega)]
      simp only [pad]
      congr 1
      omega
    have htake : b.take (pad - 4) = resize (magic ++ bigEndian 2 payload.length ++ payload) (pad - 4) := by
      rw [resize_payload hm (hpayload ▸ hn), pieces hlen hn, hzeros, hslice, hmagic, hpayload, hdef,
        bigEndian_bigEndianNat (length_slice_of_le (by simp [hlen, pad]))]
    have hfour : slice b (pad - 4) 4 = b.drop (pad - 4) := by
      rw [slice, List.take_of_length_le (by simp [hlen, pad])]
    refine ⟨hpayload ▸ hn, ?_⟩
    have hlast : leBytes 4 (leNat (b.drop (pad - 4))) = b.drop (pad - 4) := by
      have := leBytes_leNat (b.drop (pad - 4))
      rwa [show (b.drop (pad - 4)).length = 4 by simp [hlen, pad]] at this
    rw [← htake, hcrc, hfour, hlast, List.take_append_drop]
  · rintro ⟨hp, rfl⟩
    have hres := resize_payload hm hp
    have hcount : bigEndianNat (bigEndian 2 payload.length) = payload.length := by
      refine bigEndianNat_bigEndian ?_
      simp only [pad] at hp
      omega
    set head := resize (magic ++ bigEndian 2 payload.length ++ payload) (pad - 4)
    set b := head ++ leBytes 4 (crc32c head).toNat with hdef
    have hlen : head.length = pad - 4 := length_resize _ _
    have hb : b = magic ++ (bigEndian 2 payload.length ++ (payload ++
        (List.replicate (pad - 14 - payload.length) 0 ++ leBytes 4 (crc32c head).toNat))) := by
      rw [hdef, hres]
      simp only [List.append_assoc]
    have hmagic : slice b 0 8 = magic := slice_segment [] hb rfl hm
    have hsize : slice b 8 2 = bigEndian 2 payload.length :=
      slice_segment magic hb hm (length_bigEndian _ _)
    have hbody : slice b 10 payload.length = payload :=
      slice_segment (magic ++ bigEndian 2 payload.length) (by rw [hb, List.append_assoc]) (by simp [hm])
        rfl
    have hzeros : slice b (10 + payload.length) (pad - 4 - (10 + payload.length)) =
        List.replicate (pad - 14 - payload.length) 0 := by
      refine slice_segment (magic ++ bigEndian 2 payload.length ++ payload)
        (by rw [hb, List.append_assoc, List.append_assoc]) ?_ ?_
      · simp [hm]
        omega
      · simp only [List.length_replicate, pad]
        omega
    have hcrc : slice b (pad - 4) 4 = leBytes 4 (crc32c head).toNat :=
      slice_last head hdef hlen (length_leBytes _ _)
    have hsum : (crc32c head).toNat < 256 ^ 4 := (crc32c head).toNat_lt
    have htake : b.take (pad - 4) = head := by rw [hdef, ← hlen, List.take_left]
    rw [hmagic, hsize, hcount, hbody, hzeros, hcrc, htake, leNat_leBytes_of_lt hsum]
    refine ⟨⟨?_, rfl, rfl⟩, ⟨hp, by simp⟩, rfl⟩
    rw [hdef, List.length_append, hlen, length_leBytes]
    rfl

/-- A packet begins with its magic. -/
lemma packet_magic {magic payload b : Bytes} (hm : magic.length = 8) (h : packet magic payload = .ok b) :
    b.take 8 = magic := by
  obtain ⟨hp, rfl⟩ := packet_eq_ok.mp h
  rw [resize_payload hm hp, List.append_assoc, List.take_left' hm]

lemma packet_length {magic payload b : Bytes} (h : packet magic payload = .ok b) : b.length = pad := by
  obtain ⟨hp, rfl⟩ := packet_eq_ok.mp h
  rw [List.length_append, length_resize, length_leBytes]
  rfl

/-! ## Texts -/

/-- `std::str::from_utf8` -/
def fromUtf8 (b : Bytes) : Except Error String :=
  orElse (String.fromUTF8? ⟨b.toArray⟩) (.corrupt "invalid utf-8")

lemma fromUtf8_eq_ok {b : Bytes} {s : String} : fromUtf8 b = .ok s ↔ b = utf8 s := by
  rw [fromUtf8, orElse_eq_ok]
  constructor
  · intro h
    rw [String.fromUTF8?] at h
    split at h
    · rw [← Option.some.inj h]
      simp [utf8, String.fromUTF8]
    · cases h
  · rintro rfl
    exact fromUTF8_utf8 s

lemma utf8_inj {s t : String} (h : utf8 s = utf8 t) : s = t := by
  have hs := fromUTF8_utf8 s
  rw [h, fromUTF8_utf8] at hs
  exact (Option.some.inj hs).symm

lemma utf8_eq_nil {s : String} : utf8 s = [] ↔ s = "" :=
  ⟨fun h => utf8_inj h, fun h => by simp [h, utf8]⟩

/-- The next `n` bytes as a text. -/
def text (e : Error) (n : ℕ) : Reader Error String := fun b => do
  let (x, b) ← take e n b
  let s ← fromUtf8 x
  pure (s, b)

lemma text_eq_ok {e : Error} {n : ℕ} {b rest : Bytes} {s : String} :
    text e n b = .ok (s, rest) ↔ (utf8 s).length = n ∧ b = utf8 s ++ rest := by
  simp only [text, bind_eq_ok, Prod.exists, take_eq_ok, fromUtf8_eq_ok, pure_eq_ok, Prod.mk.injEq]
  constructor
  · rintro ⟨x, _, ⟨hlen, rfl⟩, s, rfl, rfl, rfl⟩
    exact ⟨hlen, rfl⟩
  · rintro ⟨hlen, rfl⟩
    exact ⟨_, _, ⟨hlen, rfl⟩, _, rfl, rfl, rfl⟩

/-- A text behind its length in one byte. -/
def short (s : String) : Bytes := UInt8.ofNat (utf8 s).length :: utf8 s

/-- A text behind its length in two bytes. -/
def long (s : String) : Bytes := bigEndian 2 (utf8 s).length ++ utf8 s

def shortText (e : Error) : Reader Error String := fun b => do
  let (n, b) ← byte e b
  text e n.toNat b

def longText (e : Error) : Reader Error String := fun b => do
  let (n, b) ← number e 2 b
  text e n b

lemma shortText_spells {e : Error} : Spells (shortText e) short fun s => (utf8 s).length ≤ 255 := by
  intro b s rest
  simp only [shortText, bind_eq_ok, Prod.exists, byte_eq_ok, text_eq_ok]
  constructor
  · rintro ⟨n, _, rfl, hn, rfl⟩
    have hlt := n.toNat_lt
    refine ⟨by omega, ?_⟩
    rw [short, hn, UInt8.ofNat_toNat, List.cons_append]
  · rintro ⟨hs, rfl⟩
    refine ⟨_, _, rfl, ?_, rfl⟩
    rw [UInt8.toNat_ofNat', Nat.mod_eq_of_lt (by omega)]

lemma longText_spells {e : Error} : Spells (longText e) long fun s => (utf8 s).length < 256 ^ 2 := by
  intro b s rest
  simp only [longText, bind_eq_ok, Prod.exists, number_eq_ok, text_eq_ok]
  constructor
  · rintro ⟨n, _, ⟨hn, rfl⟩, rfl, rfl⟩
    exact ⟨hn, by rw [long, List.append_assoc]⟩
  · rintro ⟨hs, rfl⟩
    exact ⟨_, _, ⟨hs, by rw [long, List.append_assoc]⟩, rfl, rfl⟩

/-- A name of one to 255 bytes. -/
def IsName (s : String) : Prop := s ≠ "" ∧ (utf8 s).length ≤ 255

/-- `name_bytes` -/
def nameBytes (why : String) (s : String) : Except Error Bytes := do
  refuse (s = "" ∨ 255 < (utf8 s).length) (.invalid why)
  pure (short s)

lemma nameBytes_eq_ok {why s : String} {b : Bytes} : nameBytes why s = .ok b ↔ IsName s ∧ b = short s := by
  simp only [nameBytes, bind_eq_ok, refuse_eq_ok, exists_const, pure_eq_ok, not_or, not_lt, IsName]
  rw [eq_comm (a := b)]

/-- A name read back: an empty one is refused. -/
def nameText (e empty : Error) : Reader Error String := fun b => do
  let (n, b) ← byte e b
  refuse (n = 0) empty
  text e n.toNat b

lemma nameText_spells {e empty : Error} : Spells (nameText e empty) short IsName := by
  intro b s rest
  have hread := @shortText_spells e b s rest
  simp only [shortText, bind_eq_ok, Prod.exists, byte_eq_ok, text_eq_ok] at hread
  simp only [nameText, bind_eq_ok, Prod.exists, byte_eq_ok, text_eq_ok, refuse_eq_ok, exists_const, IsName,
    and_assoc]
  constructor
  · rintro ⟨n, _, rfl, hne, hn, rfl⟩
    have hs := hread.mp ⟨n, _, rfl, hn, rfl⟩
    refine ⟨?_, hs⟩
    rintro rfl
    rw [utf8_eq_nil.mpr rfl] at hn
    exact hne (UInt8.toNat_inj.mp hn.symm)
  · rintro ⟨hne, hs⟩
    obtain ⟨n, b', rfl, hn, rfl⟩ := hread.mpr hs
    refine ⟨n, _, rfl, ?_, hn, rfl⟩
    rintro rfl
    exact hne (utf8_eq_nil.mp (List.eq_nil_of_length_eq_zero hn))

end Engine.Packet
