import Sekejap.Kernel.Page

/-!
# Checkpoint metadata

`core/engine/src/store/pagewal/format.rs`.  A database carries two copies of its header, in pages
0 and 1 of the data file.  A damaged copy may fall back to its sibling; an intact unsupported one
must refuse (`diskHeader`), and a checkpoint replaces the damaged or older copy first
(`metadataWriteOrder`).

The round trip is `decode_page`: a header written as page `no` is read back from it.  What
`diskHeader` makes of a file whose two copies are each current, older or damaged is
`diskHeader_eq` — the only fact about the two copies the recovery argument needs.
-/

open Bytes Page

namespace PageWal

/-- `const PAGE`, the page size of the page-WAL. -/
def page : ℕ := 4096
def headerBytes : ℕ := 56
def compactCells : ℕ := 1
/-- Every required-feature bit this release implements. -/
def supportedFeatures : ℕ := compactCells
/-- `E4PWAL02` -/
def magicBytes : Bytes := [0x45, 0x34, 0x50, 0x57, 0x41, 0x4C, 0x30, 0x32]

/-- `bad(why)` -/
def bad (why : String) : Error := .corruptWal 0 why

/-- What page 0 says of a database, and each copy of its metadata. -/
structure Header where
  root : ℕ
  free : ℕ
  cap : ℕ
  identity : Bytes
  tx : ℕ
  features : ℕ
  deriving DecidableEq, Repr

attribute [ext] Header

namespace Header

def bytes (h : Header) : Bytes :=
  magicBytes ++ leBytes 4 h.root ++ leBytes 4 h.free ++ leBytes 8 h.cap ++ h.identity
    ++ leBytes 8 h.tx ++ leBytes 8 h.features

def decodeSlot (b : Bytes) : Except Error Header :=
  if b.length ≠ headerBytes ∨ b.slice 0 8 ≠ magicBytes then
    .error (bad "unsupported page-WAL header format")
  -- `features & !SUPPORTED_FEATURES != 0`, with one supported bit
  else if u64At b 48 / 2 ≠ 0 then
    .error (bad "unsupported required page-WAL features")
  else if b.slice 24 16 = List.replicate 16 0 then .error (bad "empty database identity")
  else .ok ⟨u32At b 8, u32At b 12, u64At b 16, b.slice 24 16, u64At b 40, u64At b 48⟩

def decode (b : Bytes) (no : ℕ) : Except Error Header := do
  let page ← PageRef.openChecked b no
  if page.kind ≠ .metaPage ∨ page.treeId ≠ 0 ∨ page.nentries ≠ 1 then
    .error (bad "checkpoint metadata shape")
  decodeSlot (page.slot 0)

/-- `PageMut::init`, one slot, `finalise(0)`, `seal(.., 1)`. -/
def page (h : Header) (no : ℕ) : Except Error Bytes := do
  let p ← PageMut.insertSlot (PageMut.init .metaPage 0 no) 0 h.bytes
  .ok (sealPage (PageMut.finalise p 0) 1)

def validateExtent (h : Header) (pages : ℕ) : Except Error Unit :=
  if h.root < 2 ∨ h.root ≥ pages then .error (bad "pilot root extent")
  else if h.free ≠ 0 ∧ (h.free < 2 ∨ h.free ≥ pages) then .error (bad "free head outside file")
  else .ok ()

end Header

/-- Page `no` of the file `d`. -/
def pageAt (d : Bytes) (no : ℕ) : Bytes := d.slice (no * PageWal.page) PageWal.page

/-- The stored checksum of a page image is the one its bytes have. -/
def Intact (b : Bytes) : Prop := checksum b = u32At b 36

instance (b : Bytes) : Decidable (Intact b) := inferInstanceAs (Decidable (_ = _))

/-- One turn of the `disk_header` loop. -/
def diskHeaderStep (d : Bytes) (no : ℕ) (selected : Option Header) :
    Except Error (Option Header) := do
  let b := pageAt d no
  if ¬ Intact b then return selected
  if formatVersionOf b ≠ formatVersion then throw (.unsupportedFormat (formatVersionOf b))
  let header ← Header.decode b no
  match selected with
  | none => return some header
  | some old =>
      if old.identity ≠ header.identity ∨ old.features ≠ header.features then
        throw (bad "checkpoint metadata identity/features disagree")
      if old.tx = header.tx ∧ old ≠ header then
        throw (bad "checkpoint metadata histories disagree")
      if old.tx > header.tx then return selected
      return some header

/-- The newest intact copy, or a refusal of the file. -/
def diskHeader (d : Bytes) : Except Error (Option Header) := do
  if d.length < 2 * PageWal.page then throw (bad "missing checkpoint metadata pages")
  let selected ← diskHeaderStep d 0 none
  diskHeaderStep d 1 selected

/-- One copy, when it is intact. -/
def metadataCopy (d : Bytes) (no : ℕ) : Except Error (Option Header) :=
  if Intact (pageAt d no) then (Header.decode (pageAt d no) no).map some else .ok none

/-- Replace a damaged or older copy first. -/
def metadataWriteOrder (d : Bytes) : Except Error (ℕ × ℕ) := do
  let a ← metadataCopy d 0
  let b ← metadataCopy d 1
  match a, b with
  | none, some _ => return (0, 1)
  | some _, none => return (1, 0)
  | some a, some b => return if a.tx > b.tx then (1, 0) else (0, 1)
  | none, none => return (0, 1)

/-! ## A header is read back from the page it is written as -/

/-- The fields are the ones the 56 bytes can hold, and the file is one this release owns. -/
structure Header.Valid (h : Header) : Prop where
  root : h.root < 2 ^ 32
  free : h.free < 2 ^ 32
  cap : h.cap < 2 ^ 64
  identity : h.identity.length = 16
  identity_ne : h.identity ≠ List.replicate 16 0
  tx : h.tx < 2 ^ 64
  features : h.features < 2

namespace Header

variable {h : Header}

lemma length_bytes (hv : h.Valid) : h.bytes.length = headerBytes := by
  simp [bytes, hv.identity, magicBytes, headerBytes]

lemma decodeSlot_bytes (hv : h.Valid) : decodeSlot h.bytes = .ok h := by
  have hi := hv.identity
  have e0 : h.bytes.slice 0 8 = magicBytes :=
    slice_segment [] (by simp only [bytes, List.append_assoc]; rfl) rfl rfl
  have e8 : h.bytes.slice 8 4 = leBytes 4 h.root :=
    slice_segment magicBytes (by simp only [bytes, List.append_assoc]; rfl)
      (by simp [magicBytes]) (length_leBytes _ _)
  have e12 : h.bytes.slice 12 4 = leBytes 4 h.free :=
    slice_segment (magicBytes ++ leBytes 4 h.root)
      (by simp only [bytes, List.append_assoc]; rfl) (by simp [magicBytes]) (length_leBytes _ _)
  have e16 : h.bytes.slice 16 8 = leBytes 8 h.cap :=
    slice_segment (magicBytes ++ leBytes 4 h.root ++ leBytes 4 h.free)
      (by simp only [bytes, List.append_assoc]; rfl) (by simp [magicBytes]) (length_leBytes _ _)
  have e24 : h.bytes.slice 24 16 = h.identity :=
    slice_segment (magicBytes ++ leBytes 4 h.root ++ leBytes 4 h.free ++ leBytes 8 h.cap)
      (by simp only [bytes, List.append_assoc]; rfl) (by simp [magicBytes]) hi
  have e40 : h.bytes.slice 40 8 = leBytes 8 h.tx :=
    slice_segment (magicBytes ++ leBytes 4 h.root ++ leBytes 4 h.free ++ leBytes 8 h.cap
      ++ h.identity) (by simp only [bytes, List.append_assoc]; rfl)
      (by simp [magicBytes, hi]) (length_leBytes _ _)
  have e48 : h.bytes.slice 48 8 = leBytes 8 h.features :=
    slice_last (magicBytes ++ leBytes 4 h.root ++ leBytes 4 h.free ++ leBytes 8 h.cap
      ++ h.identity ++ leBytes 8 h.tx) (by simp only [bytes, List.append_assoc])
      (by simp [magicBytes, hi]) (length_leBytes _ _)
  have hf : u64At h.bytes 48 = h.features := by
    rw [u64At, e48, leNat_leBytes_of_lt (lt_of_lt_of_le hv.features (by norm_num))]
  have hf2 := hv.features
  rw [decodeSlot, if_neg (by rw [length_bytes hv, e0]; simp), hf, if_neg (by omega), e24,
    if_neg hv.identity_ne]
  congr 1
  refine Header.ext ?_ ?_ ?_ rfl ?_ rfl
  · show u32At h.bytes 8 = h.root
    rw [u32At, e8, leNat_leBytes_of_lt (lt_of_lt_of_le hv.root (by norm_num))]
  · show u32At h.bytes 12 = h.free
    rw [u32At, e12, leNat_leBytes_of_lt (lt_of_lt_of_le hv.free (by norm_num))]
  · show u64At h.bytes 16 = h.cap
    rw [u64At, e16, leNat_leBytes_of_lt (lt_of_lt_of_le hv.cap (by norm_num))]
  · show u64At h.bytes 40 = h.tx
    rw [u64At, e40, leNat_leBytes_of_lt (lt_of_lt_of_le hv.tx (by norm_num))]

/-- A page with a single slot, written as the source writes metadata and free pages. -/
lemma oneSlot_page (kind : PageKind) {no : ℕ} (rec : Bytes) (hno : no < 2 ^ 32)
    (hrec : rec.length ≤ maxRecordLen) :
    ∃ p, PageMut.insertSlot (PageMut.init kind 0 no) 0 rec = .ok p
      ∧ Ident (sealPage (PageMut.finalise p 0) 1) kind 0 no
      ∧ Slots (sealPage (PageMut.finalise p 0) 1) [rec] (pageSize - rec.length) := by
  simp only [maxRecordLen, pageSize, headerLen, slotLen] at hrec
  obtain ⟨p, hp, hs, he⟩ := slots_insertSlot (r := rec) (i := 0) (slots_init kind 0 no) le_rfl
    (by simp only [List.length_nil, pageSize, headerLen, slotLen]; omega)
  refine ⟨p, hp, ?_, ?_⟩
  · exact (((ident_init kind (by norm_num) (lt_of_lt_of_le hno (by norm_num))).envelope
      he).finalise 0).sealPage 1
  · exact (hs.finalise 0).sealPage 1

lemma page_spec (hv : h.Valid) {no : ℕ} (hno : no < 2 ^ 32) :
    ∃ b, h.page no = .ok b ∧ Ident b .metaPage 0 no
      ∧ Slots b [h.bytes] (pageSize - headerBytes) ∧ Intact b := by
  obtain ⟨p, hp, hi, hs⟩ := oneSlot_page .metaPage h.bytes hno
    (by rw [length_bytes hv]; decide)
  refine ⟨sealPage (PageMut.finalise p 0) 1, ?_, hi, by rwa [length_bytes hv] at hs, ?_⟩
  · simp only [page, hp]; rfl
  · refine (checksum_sealPage ?_ 1).symm
    have := hs.length
    simp only [sealPage, length_splice, length_leBytes, formatAt, pageSize, PageMut.finalise] at *
    omega

/-- A page that names itself, verifies and lists one header decodes to that header. -/
lemma decode_of_slots (hv : h.Valid) {b : Bytes} {no fp : ℕ} (hi : Ident b .metaPage 0 no)
    (hs : Slots b [h.bytes] fp) (hc : Intact b) : decode b no = .ok h := by
  have ho : PageRef.openChecked b no = .ok ⟨b⟩ := openInner_eq_ok hi hs fun _ => hc.symm
  have hslot : Page.slot b 0 = h.bytes := hs.slot 0 _ rfl
  have hn : PageRef.nentries ⟨b⟩ = 1 := hs.count
  have ht : PageRef.treeId ⟨b⟩ = 0 := hi.treeId
  simp only [decode, ho, bind, Except.bind, hi.kind_eq, ht, hn, PageRef.slot, hslot,
    decodeSlot_bytes hv]
  rfl

/-- **Round trip.**  A header written as page `no` is read back from it. -/
lemma decode_page (hv : h.Valid) {no : ℕ} (hno : no < 2 ^ 32) {b : Bytes}
    (hb : h.page no = .ok b) : decode b no = .ok h := by
  obtain ⟨b', hb', hi, hs, hc⟩ := page_spec hv hno
  cases hb.symm.trans hb'
  exact decode_of_slots hv hi hs hc

end Header

/-! ## The two copies -/

/-- What copy `no` of the file `d` holds: a header, or damage. -/
inductive Copy (d : Bytes) (no : ℕ) : Option Header → Prop
  | intact (h : Header) (hv : h.Valid) (hp : h.page no = .ok (pageAt d no)) : Copy d no (some h)
  | damaged (hd : ¬ Intact (pageAt d no)) : Copy d no none

/-- `h'` is the header `h` or an older one of the same database. -/
def Header.Upto (h' h : Header) : Prop :=
  h'.identity = h.identity ∧ h'.features = h.features ∧ (h'.tx < h.tx ∨ h' = h)

lemma Header.upto_refl (h : Header) : h.Upto h := ⟨rfl, rfl, Or.inr rfl⟩

/-- **The metadata of `d` names `h`**: one copy holds it, and neither holds anything newer. -/
structure MetaOk (d : Bytes) (h : Header) : Prop where
  length : 2 * PageWal.page ≤ d.length
  copies : ∃ c₀ c₁, Copy d 0 c₀ ∧ Copy d 1 c₁ ∧ (c₀ = some h ∨ c₁ = some h)
    ∧ (∀ h', c₀ = some h' → h'.Upto h) ∧ (∀ h', c₁ = some h' → h'.Upto h)

section copies

variable {d : Bytes} {no : ℕ} {h : Header}

lemma Copy.facts (hno : no < 2 ^ 32) (hv : h.Valid) (hp : h.page no = .ok (pageAt d no)) :
    Intact (pageAt d no) ∧ formatVersionOf (pageAt d no) = formatVersion
      ∧ Header.decode (pageAt d no) no = .ok h := by
  obtain ⟨b, hb, hi, hs, hc⟩ := Header.page_spec hv hno
  cases hp.symm.trans hb
  exact ⟨hc, hi.format, Header.decode_of_slots hv hi hs hc⟩

lemma Copy.valid (hc : Copy d no (some h)) : h.Valid := by cases hc; assumption

lemma Copy.image (hc : Copy d no (some h)) : h.page no = .ok (pageAt d no) := by
  cases hc; assumption

/-- The copy depends on its own page only. -/
lemma Copy.congr {d' : Bytes} {c : Option Header} (hc : Copy d no c)
    (he : pageAt d' no = pageAt d no) : Copy d' no c := by
  cases hc with
  | intact h hv hp => exact .intact h hv (by rw [he]; exact hp)
  | damaged hd => exact .damaged (by rw [he]; exact hd)

lemma diskHeaderStep_damaged (hd : ¬ Intact (pageAt d no)) (sel : Option Header) :
    diskHeaderStep d no sel = .ok sel := by
  simp only [diskHeaderStep, hd, not_false_eq_true, if_true]
  rfl

lemma diskHeaderStep_none (hno : no < 2 ^ 32) (hc : Copy d no (some h)) :
    diskHeaderStep d no none = .ok (some h) := by
  obtain ⟨hi, hf, hd⟩ := Copy.facts hno hc.valid hc.image
  simp [diskHeaderStep, hi, hf, hd, bind, Except.bind, pure, Except.pure]

lemma diskHeaderStep_some (hno : no < 2 ^ 32) (hc : Copy d no (some h)) {old : Header}
    (hid : old.identity = h.identity) (hft : old.features = h.features)
    (htx : old.tx = h.tx → old = h) :
    diskHeaderStep d no (some old) = .ok (some (if old.tx > h.tx then old else h)) := by
  obtain ⟨hi, hf, hd⟩ := Copy.facts hno hc.valid hc.image
  have hne : ¬ (old.tx = h.tx ∧ old ≠ h) := fun hx => hx.2 (htx hx.1)
  simp only [diskHeaderStep, hi, not_true_eq_false, if_false, hf, ne_eq, hd, bind, Except.bind,
    pure, Except.pure, hid, hft, or_self, hne]
  split_ifs <;> rfl

lemma Header.Upto.eq_of_tx {a b : Header} (ha : a.Upto b) (h : a.tx = b.tx) : a = b :=
  ha.2.2.resolve_left (by omega)

/-- Of two copies that name `h` or something older, and one of which is `h`, the newer is `h`. -/
lemma newer_eq {a b : Header} (ha : a.Upto h) (hb : b.Upto h) (hsel : a = h ∨ b = h) :
    (if a.tx > b.tx then a else b) = h := by
  split_ifs with hgt
  · rcases hsel with rfl | rfl
    · rfl
    · rcases ha.2.2 with hlt | rfl
      · omega
      · rfl
  · rcases hsel with rfl | rfl
    · rcases hb.2.2 with hlt | rfl
      · omega
      · rfl
    · rfl

/-- **The newest intact copy is selected.** -/
lemma diskHeader_eq (hm : MetaOk d h) : diskHeader d = .ok (some h) := by
  obtain ⟨hl, c₀, c₁, h₀, h₁, hsel, hu₀, hu₁⟩ := hm
  have h0 : (0 : ℕ) < 2 ^ 32 := by norm_num
  have h1 : (1 : ℕ) < 2 ^ 32 := by norm_num
  have hlen : ¬ d.length < 2 * PageWal.page := by omega
  simp only [diskHeader, if_neg hlen, bind, Except.bind]
  cases h₀ with
  | damaged hd₀ =>
      obtain rfl : c₁ = some h := by simpa using hsel
      rw [diskHeaderStep_damaged hd₀]
      exact diskHeaderStep_none h1 h₁
  | intact a hva hpa =>
      rw [diskHeaderStep_none h0 (.intact a hva hpa)]
      have ha := hu₀ a rfl
      cases h₁ with
      | damaged hd₁ =>
          obtain rfl : a = h := by simpa using hsel
          exact diskHeaderStep_damaged hd₁ _
      | intact b hvb hpb =>
          have hb := hu₁ b rfl
          have hsel' : a = h ∨ b = h := by simpa using hsel
          have htx : a.tx = b.tx → a = b := by
            intro e
            rcases hsel' with rfl | rfl
            · exact (hb.eq_of_tx e.symm).symm
            · exact ha.eq_of_tx e
          have hstep := diskHeaderStep_some h1 (.intact b hvb hpb) (ha.1.trans hb.1.symm)
            (ha.2.1.trans hb.2.1.symm) htx
          rwa [newer_eq ha hb hsel'] at hstep

lemma metadataCopy_eq (hno : no < 2 ^ 32) {c : Option Header} (hc : Copy d no c) :
    metadataCopy d no = .ok c := by
  cases hc with
  | damaged hd => rw [metadataCopy, if_neg hd]
  | intact h hv hp =>
      obtain ⟨hi, _, hd⟩ := Copy.facts hno hv hp
      rw [metadataCopy, if_pos hi, hd]; rfl

/-- **The copy written second holds the current header while the first is replaced.** -/
lemma metadataWriteOrder_eq (hm : MetaOk d h) :
    ∃ i j, metadataWriteOrder d = .ok (i, j) ∧ (i = 0 ∧ j = 1 ∨ i = 1 ∧ j = 0)
      ∧ Copy d j (some h) := by
  obtain ⟨-, c₀, c₁, h₀, h₁, hsel, hu₀, hu₁⟩ := hm
  simp only [metadataWriteOrder, metadataCopy_eq (by norm_num) h₀,
    metadataCopy_eq (by norm_num) h₁, bind, Except.bind, pure, Except.pure]
  cases c₀ with
  | none =>
      obtain rfl : c₁ = some h := by simpa using hsel
      exact ⟨0, 1, rfl, Or.inl ⟨rfl, rfl⟩, h₁⟩
  | some a =>
      cases c₁ with
      | none =>
          obtain rfl : a = h := by simpa using hsel
          exact ⟨1, 0, rfl, Or.inr ⟨rfl, rfl⟩, h₀⟩
      | some b =>
          have ha := hu₀ a rfl
          have hb := hu₁ b rfl
          by_cases hgt : a.tx > b.tx
          · refine ⟨1, 0, by simp [hgt], Or.inr ⟨rfl, rfl⟩, ?_⟩
            rcases hsel with hsel | hsel
            · rwa [hsel] at h₀
            · obtain rfl : b = h := by simpa using hsel
              have := ha.2.2
              rcases this with hlt | rfl
              · omega
              · exact h₀
          · refine ⟨0, 1, by simp [hgt], Or.inl ⟨rfl, rfl⟩, ?_⟩
            rcases hsel with hsel | hsel
            · obtain rfl : a = h := by simpa using hsel
              rcases hb.2.2 with hlt | rfl
              · omega
              · exact h₁
            · rwa [hsel] at h₁

end copies

end PageWal
