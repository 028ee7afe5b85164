import Mathlib.Data.Nat.Digits.Lemmas
import Sekejap.Bulk.Scratch

/-!
# The manifest of a durable sort

A durable sort (`core/kernel/src/bulk.rs`) publishes the names and record counts of its runs in a file
`manifest`, from which it is opened again.  Files are byte strings under their names, in one directory.

* **`runName_inj`**, **`passName_inj`** — no two runs of a sort have one name.
* **`readSortManifest_manifest`** — what was published is read back, unless it is longer than
  `SORT_MANIFEST_MAX`.
-/

open Bytes Page Fallible Crc32c

open BTree (range?)

namespace Bulk

/-! ## Names of files -/

/-- `{n:0width}`, or `{n:0widthx}` -/
def padded (base width n : ℕ) : String :=
  let digits := base.digits n
  String.ofList ((digits ++ List.replicate (width - digits.length) 0).reverse.map Nat.digitChar)

/-- The name `spill` gives the next run. -/
def runName (durableGeneration : Option UInt64) (runs : ℕ) : String :=
  match durableGeneration with
  | some generation => "g" ++ padded 16 16 generation.toNat ++ "-run-" ++ padded 10 5 runs ++ ".dat"
  | none => "run-" ++ padded 10 5 runs ++ ".tmp"

/-- The name of what a group of `merge_down` is merged into. -/
def passName (passNo next gi : ℕ) : String :=
  "pass-" ++ padded 10 1 passNo ++ "-" ++ padded 10 1 next ++ "-" ++ padded 10 5 gi ++ ".tmp"

section Names

variable {i j : ℕ}

lemma digitChar_inj : ∀ a < 16, ∀ b < 16, Nat.digitChar a = Nat.digitChar b → a = b := by
  decide

lemma map_digitChar_inj : ∀ {a b : List ℕ}, (∀ d ∈ a, d < 16) → (∀ d ∈ b, d < 16) →
    a.map Nat.digitChar = b.map Nat.digitChar → a = b
  | [], [], _, _, _ => rfl
  | [], _ :: _, _, _, h => by simp at h
  | _ :: _, [], _, _, h => by simp at h
  | x :: a, y :: b, ha, hb, h => by
      simp only [List.map_cons, List.cons.injEq] at h
      rw [digitChar_inj x (ha x (by simp)) y (hb y (by simp)) h.1,
        map_digitChar_inj (fun d hd => ha d (by simp [hd])) (fun d hd => hb d (by simp [hd])) h.2]

lemma padded_inj {base width : ℕ} (h1 : 1 < base) (h16 : base ≤ 16)
    (h : padded base width i = padded base width j) : i = j := by
  have hlt : ∀ n, ∀ d ∈ (base.digits n ++ List.replicate (width - (base.digits n).length) 0).reverse,
      d < 16 := by
    intro n d hd
    simp only [List.mem_reverse, List.mem_append, List.mem_replicate] at hd
    rcases hd with hd | ⟨-, rfl⟩
    · exact (Nat.digits_lt_base h1 hd).trans_le h16
    · omega
  have hdigits := map_digitChar_inj (hlt i) (hlt j) (String.ofList_inj.1 h)
  have := congrArg (Nat.ofDigits base) (List.reverse_injective hdigits)
  rwa [Nat.ofDigits_append_replicate_zero, Nat.ofDigits_append_replicate_zero, Nat.ofDigits_digits,
    Nat.ofDigits_digits] at this

lemma runName_inj {g : Option UInt64} (h : runName g i = runName g j) : i = j := by
  cases g with
  | none =>
      rw [runName, runName, ← String.toList_inj] at h
      simp only [String.toList_append, List.append_cancel_right_eq, List.append_cancel_left_eq,
        String.toList_inj] at h
      exact padded_inj (by decide) (by decide) h
  | some g =>
      rw [runName, runName, ← String.toList_inj] at h
      simp only [String.toList_append, List.append_cancel_right_eq, List.append_cancel_left_eq,
        String.toList_inj] at h
      exact padded_inj (by decide) (by decide) h

/-- Up to the first occurrence of a separator. -/
lemma split_at_inj {c : Char} {a b x y : List Char} (ha : c ∉ a) (hb : c ∉ b)
    (h : a ++ c :: x = b ++ c :: y) : a = b ∧ x = y := by
  induction a generalizing b with
  | nil =>
      cases b with
      | nil => simpa using h
      | cons d b =>
          simp only [List.nil_append, List.cons_append, List.cons.injEq] at h
          exact absurd (by simp [h.1]) hb
  | cons d a ih =>
      cases b with
      | nil =>
          simp only [List.nil_append, List.cons_append, List.cons.injEq] at h
          exact absurd (by simp [h.1]) ha
      | cons e b =>
          simp only [List.cons_append, List.cons.injEq] at h
          obtain ⟨rfl, rfl⟩ := ih (fun hc => ha (by simp [hc])) (fun hc => hb (by simp [hc])) h.2
          exact ⟨by rw [h.1], rfl⟩

lemma mem_padded {base width n : ℕ} (h1 : 1 < base) (h16 : base ≤ 16) {c : Char}
    (hc : c ∈ (padded base width n).toList) : ∃ d < 16, c = Nat.digitChar d := by
  simp only [padded, String.toList_ofList, List.mem_map, List.mem_reverse, List.mem_append,
    List.mem_replicate] at hc
  rcases hc with ⟨d, hd | ⟨-, rfl⟩, rfl⟩
  · exact ⟨d, (Nat.digits_lt_base h1 hd).trans_le h16, rfl⟩
  · exact ⟨0, by omega, rfl⟩

lemma dash_not_mem_padded (width n : ℕ) : '-' ∉ (padded 10 width n).toList := by
  have hne : ∀ d < 16, Nat.digitChar d ≠ '-' := by decide
  intro hc
  obtain ⟨d, hd, he⟩ := mem_padded (by decide) (by decide) hc
  exact hne d hd he.symm

/-- Names of one pass differ by the group, names of two passes by the pass. -/
lemma passName_inj {p q m n : ℕ} (h : passName p m i = passName q n j) : p = q ∧ i = j := by
  rw [passName, passName, ← String.toList_inj] at h
  have hdash : "-".toList = ['-'] := rfl
  simp only [String.toList_append, List.append_assoc, List.append_cancel_left_eq, hdash,
    List.cons_append, List.nil_append] at h
  obtain ⟨h1, h2⟩ := split_at_inj (dash_not_mem_padded 1 p) (dash_not_mem_padded 1 q) h
  obtain ⟨-, h3⟩ := split_at_inj (dash_not_mem_padded 1 m) (dash_not_mem_padded 1 n) h2
  have h4 := List.append_cancel_right h3
  rw [String.toList_inj] at h1 h4
  exact ⟨padded_inj (by decide) (by decide) h1, padded_inj (by decide) (by decide) h4⟩

lemma runName_head (g : Option UInt64) (i : ℕ) :
    (runName g i).toList.head? = some 'g' ∨ (runName g i).toList.head? = some 'r' := by
  cases g with
  | none => exact Or.inr (by simp [runName])
  | some g => exact Or.inl (by simp [runName])

lemma passName_ne_runName (g : Option UInt64) (p n : ℕ) : passName p n i ≠ runName g j := by
  intro h
  have hp : (passName p n i).toList.head? = some 'p' := by simp [passName]
  rw [h] at hp
  rcases runName_head g j with hr | hr <;> rw [hr] at hp <;> cases hp

lemma manifest_ne_runName (g : Option UInt64) : "manifest" ≠ runName g i ∧ "manifest.tmp" ≠ runName g i := by
  constructor <;> intro h <;> rcases runName_head g i with hr | hr <;> rw [← h] at hr <;> cases hr

end Names

/-! ## Writing and reading a manifest -/

/-- The files of the directory of a sort, by name. -/
abbrev Dir := String → Option Bytes

/-- The bytes of a name. -/
def nameBytes (name : String) : Bytes := name.toUTF8.data.toList

/-- `std::str::from_utf8` -/
def fromUtf8 (b : Bytes) : Option String := String.fromUTF8? ⟨b.toArray⟩

/-- `try_fold(0u64, checked_add)` -/
def checkedSum (counts : List ℕ) : Option ℕ :=
  counts.foldlM (fun sum n => if sum + n < 2 ^ 64 then some (sum + n) else none) 0

/-- `SORT_MANIFEST_MAGIC` -/
def sortManifestMagic : Bytes := [0x4B, 0x53, 0x52, 0x55, 0x4E, 0x30, 0x31, 0x00]

/-- `SORT_MANIFEST_MAX` -/
def sortManifestMax : ℕ := 16 <<< 20

/-- `SortManifest` -/
structure SortManifest where
  watermark : ℕ
  records : ℕ
  framedBytes : ℕ
  maxKeyLen : ℕ
  maxValLen : ℕ
  runs : List String
  runCounts : List ℕ
  deriving DecidableEq, Repr

/-- One run of the list. -/
def manifestEntry (name : String) (count : ℕ) : Except Error Bytes := do
  refuse (2 ^ 16 ≤ (nameBytes name).length) (.io "durable run file name is too long")
  return leBytes 2 (nameBytes name).length ++ nameBytes name ++ leBytes 8 count

/-- The manifest with its checksum, as `write_sort_manifest` puts it together. -/
def manifestBytes (generation : ℕ) (m : SortManifest) : Except Error Bytes := do
  let numbers := [generation, m.watermark, m.records, m.framedBytes, m.maxKeyLen, m.maxValLen,
    m.runs.length].flatMap (leBytes 8)
  let entries ← (m.runs.zip m.runCounts).mapM fun run => manifestEntry run.1 run.2
  let body := sortManifestMagic ++ numbers ++ entries.flatten
  return body ++ leBytes 4 (crc32c body).toNat

/-- `write_sort_manifest`: written under another name and renamed -/
def writeSortManifest (d : Dir) (generation : ℕ) (m : SortManifest) : Except Error Dir := do
  let bytes ← manifestBytes generation m
  let d := Function.update d "manifest.tmp" (some bytes)
  return Function.update (Function.update d "manifest" (some bytes)) "manifest.tmp" none

/-- `manifest_u64`: a number and the position after it -/
def manifestU64 (bytes : Bytes) (pos : ℕ) : Except Error (ℕ × ℕ) := do
  let raw ← orElse (range? bytes pos (pos + 8)) (.io "sort manifest is truncated")
  return (leNat raw, pos + 8)

/-- The loop of `read_sort_manifest` over the runs. -/
def readRuns (d : Dir) (bytes : Bytes) (split : ℕ) : ℕ → ℕ → Except Error (List String × List ℕ × ℕ)
  | 0, pos => .ok ([], [], pos)
  | runCount + 1, pos => do
      let raw ← orElse (range? bytes pos (pos + 2)) (.io "sort manifest run name is truncated")
      let pos := pos + 2
      let nameLen := leNat raw
      let rawName ← orElse (range? bytes pos (pos + nameLen)) (.io "sort manifest run name is truncated")
      let pos := pos + nameLen
      let name ← orElse (fromUtf8 rawName) (.io "sort manifest run name is not UTF-8")
      refuse ('/' ∈ name.toList ∨ '\\' ∈ name.toList ∨ name = "." ∨ name = "..")
        (.io "sort manifest run name escapes its directory")
      refuse (d name = none) (.io "sort manifest names a missing run")
      let (count, pos) ← manifestU64 (bytes.take split) pos
      let (runs, runCounts, pos) ← readRuns d bytes split runCount pos
      return (name :: runs, count :: runCounts, pos)

/-- `read_sort_manifest` -/
def readSortManifest (d : Dir) (expectedGeneration : ℕ) : Except Error SortManifest := do
  let bytes ← orElse (d "manifest") (.io "No such file or directory")
  refuse (bytes.length < sortManifestMagic.length + 7 * 8 + 4 ∨ sortManifestMax < bytes.length)
    (.io "sort manifest length is invalid")
  let split := bytes.length - 4
  refuse ((crc32c (bytes.take split)).toNat ≠ leNat (bytes.drop split))
    (.io "sort manifest checksum mismatch")
  refuse (range? bytes 0 8 ≠ some sortManifestMagic) (.io "sort manifest magic mismatch")
  let (generation, pos) ← manifestU64 (bytes.take split) 8
  refuse (generation ≠ expectedGeneration) (.io "sort manifest generation mismatch")
  let (watermark, pos) ← manifestU64 (bytes.take split) pos
  let (records, pos) ← manifestU64 (bytes.take split) pos
  let (framedBytes, pos) ← manifestU64 (bytes.take split) pos
  let (maxKeyLen, pos) ← manifestU64 (bytes.take split) pos
  let (maxValLen, pos) ← manifestU64 (bytes.take split) pos
  let (runCount, pos) ← manifestU64 (bytes.take split) pos
  refuse ((split - pos) / 10 < runCount) (.io "sort manifest run count exceeds its bytes")
  let (runs, runCounts, pos) ← readRuns d bytes split runCount pos
  refuse (pos ≠ split) (.io "sort manifest has trailing bytes")
  refuse (checkedSum runCounts ≠ some records) (.io "sort manifest row counts disagree")
  return ⟨watermark, records, framedBytes, maxKeyLen, maxValLen, runs, runCounts⟩

/-! ## A manifest is read back -/

section ReadBack

variable {d : Dir} {runs : List String} {counts : List ℕ} {pos split n : ℕ} {bytes x y : Bytes}

lemma fromUtf8_nameBytes (name : String) : fromUtf8 (nameBytes name) = some name := by
  have h : (⟨(nameBytes name).toArray⟩ : ByteArray) = name.toByteArray := by
    rw [nameBytes, Array.toArray_toList]
    rfl
  rw [fromUtf8, h, String.fromUTF8?, dif_pos name.isValidUTF8]
  rfl

/-- What fits a `u64` is summed. -/
lemma checkedSum_eq (h : counts.sum < 2 ^ 64) : checkedSum counts = some counts.sum := by
  have hfold : ∀ (counts : List ℕ) (sum : ℕ), sum + counts.sum < 2 ^ 64 →
      counts.foldlM (fun sum n => if sum + n < 2 ^ 64 then some (sum + n) else none) sum
        = some (sum + counts.sum) := by
    intro counts
    induction counts with
    | nil => intro sum _; rfl
    | cons n counts ih =>
        intro sum h
        rw [List.sum_cons] at h
        rw [List.foldlM_cons, if_pos (by omega), List.sum_cons, ← Nat.add_assoc]
        exact ih (sum + n) (by omega)
  rw [checkedSum, hfold counts 0 (by omega), Nat.zero_add]

/-- An entry with its lengths, once they are known to fit. -/
def entryBytes (run : String × ℕ) : Bytes :=
  leBytes 2 (nameBytes run.1).length ++ nameBytes run.1 ++ leBytes 8 run.2

/-- The numbers that follow the magic. -/
def manifestNumbers (generation : ℕ) (m : SortManifest) : List ℕ :=
  [generation, m.watermark, m.records, m.framedBytes, m.maxKeyLen, m.maxValLen, m.runs.length]

/-- The bytes before the checksum. -/
def manifestBody (generation : ℕ) (m : SortManifest) : Bytes :=
  sortManifestMagic ++ (manifestNumbers generation m).flatMap (leBytes 8)
    ++ (m.runs.zip m.runCounts).flatMap entryBytes

lemma mapM_manifestEntry {l : List (String × ℕ)} (h : ∀ run ∈ l, (nameBytes run.1).length < 2 ^ 16) :
    (l.mapM fun run => manifestEntry run.1 run.2) = .ok (l.map entryBytes) := by
  induction l with
  | nil => rfl
  | cons run l ih =>
      have hrun : manifestEntry run.1 run.2 = .ok (entryBytes run) := by
        rw [manifestEntry, refuse, if_neg (by have := h run (by simp); omega)]
        rfl
      rw [List.mapM_cons, hrun, ih fun run hr => h run (by simp [hr])]
      rfl

lemma manifestBytes_eq {generation : ℕ} {m : SortManifest}
    (h : ∀ run ∈ m.runs, (nameBytes run).length < 2 ^ 16) :
    manifestBytes generation m = .ok (manifestBody generation m
      ++ leBytes 4 (crc32c (manifestBody generation m)).toNat) := by
  rw [manifestBytes, mapM_manifestEntry fun run hr => h run.1 (List.of_mem_zip hr).1]
  simp only [manifestBody, manifestNumbers, List.flatMap_def]
  rfl

lemma manifestU64_segment (hb : bytes = x ++ (leBytes 8 n ++ y)) (hx : x.length = pos)
    (hn : n < 2 ^ 64) : manifestU64 bytes pos = .ok (n, pos + 8) := by
  rw [manifestU64, BTree.range?_segment x hb hx (by simp [hx]), orElse]
  show Except.ok (leNat (leBytes 8 n), pos + 8) = _
  rw [leNat_leBytes_of_lt (by omega)]

/-- One of the numbers that follow the magic. -/
lemma manifestU64_number {ns b c : List ℕ} (hb : bytes = x ++ (ns.flatMap (leBytes 8) ++ y))
    (hns : ns = b ++ n :: c) (hx : x.length + 8 * b.length = pos) (hn : ∀ n ∈ ns, n < 2 ^ 64) :
    manifestU64 bytes pos = .ok (n, pos + 8) := by
  have hlen : (b.flatMap (leBytes 8)).length = 8 * b.length := by
    simp [List.length_flatMap, Nat.mul_comm]
  refine manifestU64_segment (x := x ++ b.flatMap (leBytes 8)) (y := c.flatMap (leBytes 8) ++ y) ?_ ?_ ?_
  · simp [hb, hns]
  · rw [List.length_append, hlen, hx]
  · exact hn n (by simp [hns])

/-- A name that a manifest can hold: it fits, and is that of a file of the directory. -/
structure Named (d : Dir) (name : String) : Prop where
  short : (nameBytes name).length < 2 ^ 16
  inside : ¬ ('/' ∈ name.toList ∨ '\\' ∈ name.toList ∨ name = "." ∨ name = "..")
  file : d name ≠ none

lemma readRuns_entries {l : List (String × ℕ)} (hl : ∀ run ∈ l, Named d run.1 ∧ run.2 < 2 ^ 64)
    (hb : bytes = x ++ (l.flatMap entryBytes ++ y)) (hx : x.length = pos)
    (hs : split = x.length + (l.flatMap entryBytes).length) :
    readRuns d bytes split l.length pos = .ok (l.map Prod.fst, l.map Prod.snd, split) := by
  induction l generalizing x pos with
  | nil => simp [readRuns, hs, hx]
  | cons run l ih =>
      obtain ⟨⟨hshort, hinside, hfile⟩, hcount⟩ := hl run (by simp)
      have hparts : bytes = x ++ (leBytes 2 (nameBytes run.1).length ++ (nameBytes run.1
          ++ (leBytes 8 run.2 ++ (l.flatMap entryBytes ++ y)))) := by
        simp [hb, entryBytes]
      have hlen : (nameBytes run.1).length = leNat (leBytes 2 (nameBytes run.1).length) :=
        (leNat_leBytes_of_lt (by omega)).symm
      have hsum : split = x.length + (2 + (nameBytes run.1).length + 8
          + (l.flatMap entryBytes).length) := by
        simp [hs, entryBytes]
        omega
      have htake : bytes.take split = (x ++ leBytes 2 (nameBytes run.1).length ++ nameBytes run.1)
          ++ (leBytes 8 run.2 ++ l.flatMap entryBytes) := by
        have hall : bytes = (x ++ leBytes 2 (nameBytes run.1).length ++ nameBytes run.1
            ++ (leBytes 8 run.2 ++ l.flatMap entryBytes)) ++ y := by
          simp [hparts]
        rw [hall, List.take_left' (by simp [hsum]; omega)]
      have h1 : range? bytes pos (pos + 2) = some (leBytes 2 (nameBytes run.1).length) :=
        BTree.range?_segment x hparts hx (by simp [hx])
      have h2 : range? bytes (pos + 2) (pos + 2 + (nameBytes run.1).length) = some (nameBytes run.1) :=
        BTree.range?_segment (x ++ leBytes 2 (nameBytes run.1).length)
          (by rw [hparts, List.append_assoc]) (by simp [hx]) (by simp [hx])
      have h3 : manifestU64 (bytes.take split) (pos + 2 + (nameBytes run.1).length)
          = .ok (run.2, pos + 2 + (nameBytes run.1).length + 8) :=
        manifestU64_segment htake (by simp [hx]; omega) hcount
      have h4 : readRuns d bytes split l.length (pos + 2 + (nameBytes run.1).length + 8)
          = .ok (l.map Prod.fst, l.map Prod.snd, split) :=
        ih (fun r hr => hl r (by simp [hr])) (x := x ++ entryBytes run) (by simp [hb])
          (by simp [entryBytes, hx]; omega) (by simp [hsum, entryBytes]; omega)
      rw [List.length_cons, readRuns, h1]
      simp only [orElse, bind, Except.bind, ← hlen, h2, fromUtf8_nameBytes, refuse, if_neg hinside,
        if_neg hfile, h3, h4]
      rfl

/-- What a manifest has room for. -/
structure Publishable (d : Dir) (generation : ℕ) (m : SortManifest) : Prop where
  numbers : ∀ n ∈ manifestNumbers generation m, n < 2 ^ 64
  counts : m.runs.length = m.runCounts.length
  sum : m.runCounts.sum = m.records
  named : ∀ run ∈ m.runs, Named d run

lemma length_manifestBody (generation : ℕ) (m : SortManifest) : (manifestBody generation m).length
    = 64 + ((m.runs.zip m.runCounts).flatMap entryBytes).length := by
  simp [manifestBody, manifestNumbers, sortManifestMagic]
  omega

/-- Each entry takes its name and ten bytes. -/
lemma length_entryBytes (run : String × ℕ) : (entryBytes run).length = 10 + (nameBytes run.1).length := by
  simp [entryBytes]
  omega

lemma length_entries (l : List (String × ℕ)) :
    (l.flatMap entryBytes).length = (l.map fun run => 10 + (nameBytes run.1).length).sum := by
  simp only [List.length_flatMap, length_entryBytes]

lemma length_entries_le {l : List (String × ℕ)} {c : ℕ} (h : ∀ run ∈ l, (nameBytes run.1).length ≤ c) :
    (l.flatMap entryBytes).length ≤ (10 + c) * l.length := by
  rw [length_entries, mul_comm]
  simpa using List.sum_le_card_nsmul (l.map fun run => 10 + (nameBytes run.1).length) (10 + c)
    (List.forall_mem_map.2 fun run hrun => Nat.add_le_add_left (h run hrun) 10)

lemma le_length_entries {l : List (String × ℕ)} {c : ℕ} (h : ∀ run ∈ l, c ≤ (nameBytes run.1).length) :
    (10 + c) * l.length ≤ (l.flatMap entryBytes).length := by
  rw [length_entries, mul_comm]
  simpa using List.card_nsmul_le_sum (l.map fun run => 10 + (nameBytes run.1).length) (10 + c)
    (List.forall_mem_map.2 fun run hrun => Nat.add_le_add_left (h run hrun) 10)

/-- A manifest that is too long is refused. -/
lemma readSortManifest_long {expected : ℕ} (hd : d "manifest" = some bytes)
    (hmax : sortManifestMax < bytes.length) :
    readSortManifest d expected = .error (.io "sort manifest length is invalid") := by
  rw [readSortManifest, hd]
  simp only [orElse, bind, Except.bind]
  rw [refuse, if_pos (Or.inr hmax)]

/-- **A manifest is read back** by the generation that wrote it, unless it is too long. -/
lemma readSortManifest_manifest {generation expected : ℕ} {m : SortManifest}
    (hm : Publishable d generation m) (hd : d "manifest" = some bytes)
    (hb : manifestBytes generation m = .ok bytes) (hmax : bytes.length ≤ sortManifestMax) :
    readSortManifest d expected = if generation = expected then .ok m
      else .error (.io "sort manifest generation mismatch") := by
  rw [manifestBytes_eq fun run hr => (hm.named run hr).short, Except.ok.injEq] at hb
  set body := manifestBody generation m with hbody
  have hlen : body.length = 64 + ((m.runs.zip m.runCounts).flatMap entryBytes).length :=
    length_manifestBody generation m
  have hsplit : bytes.length - 4 = body.length := by simp [← hb]
  have htake : bytes.take body.length = body := by rw [← hb, List.take_left' rfl]
  have hdrop : bytes.drop body.length = leBytes 4 (crc32c body).toNat := by rw [← hb, List.drop_left' rfl]
  have hcrc : leNat (leBytes 4 (crc32c body).toNat) = (crc32c body).toNat :=
    leNat_leBytes_of_lt (UInt32.toNat_lt _)
  have hmagic : range? bytes 0 8 = some sortManifestMagic :=
    BTree.range?_segment [] (by rw [← hb, hbody, manifestBody, List.append_assoc, List.append_assoc]; rfl)
      rfl rfl
  have hnum : ∀ {b c : List ℕ} {n : ℕ}, manifestNumbers generation m = b ++ n :: c →
      manifestU64 body (8 + 8 * b.length) = .ok (n, 8 + 8 * b.length + 8) := by
    intro b c n h
    exact manifestU64_number (by rw [hbody, manifestBody, List.append_assoc]) h rfl hm.numbers
  have hzip : (m.runs.zip m.runCounts).length = m.runs.length := by
    rw [List.length_zip, ← hm.counts, Nat.min_self]
  have hruns : readRuns d bytes body.length m.runs.length 64 = .ok (m.runs, m.runCounts, body.length) := by
    have hread : readRuns d bytes body.length (m.runs.zip m.runCounts).length 64
        = .ok ((m.runs.zip m.runCounts).map Prod.fst, (m.runs.zip m.runCounts).map Prod.snd,
          body.length) := by
      refine readRuns_entries (x := sortManifestMagic ++ (manifestNumbers generation m).flatMap (leBytes 8))
        (y := leBytes 4 (crc32c body).toNat) ?_ ?_ ?_ ?_
      · intro run hr
        obtain ⟨h1, h2⟩ := List.of_mem_zip hr
        have hle := List.le_sum_of_mem h2
        rw [hm.sum] at hle
        exact ⟨hm.named _ h1, hle.trans_lt (hm.numbers _ (by simp [manifestNumbers]))⟩
      · rw [← hb, hbody, manifestBody, List.append_assoc]
      · simp [manifestNumbers, sortManifestMagic]
      · rw [hbody, manifestBody, List.length_append]
    rwa [hzip, List.map_fst_zip hm.counts.le, List.map_snd_zip hm.counts.ge] at hread
  have hentries : 10 * m.runs.length ≤ ((m.runs.zip m.runCounts).flatMap entryBytes).length := by
    rw [← hzip]
    exact le_length_entries (c := 0) (by simp)
  have hsum : checkedSum m.runCounts = some m.records := by
    rw [checkedSum_eq (by rw [hm.sum]; exact hm.numbers _ (by simp [manifestNumbers])), hm.sum]
  have h0 := hnum (b := []) rfl
  have h1 := hnum (b := [generation]) rfl
  have h2 := hnum (b := [generation, m.watermark]) rfl
  have h3 := hnum (b := [generation, m.watermark, m.records]) rfl
  have h4 := hnum (b := [generation, m.watermark, m.records, m.framedBytes]) rfl
  have h5 := hnum (b := [generation, m.watermark, m.records, m.framedBytes, m.maxKeyLen]) rfl
  have h6 := hnum (b := [generation, m.watermark, m.records, m.framedBytes, m.maxKeyLen, m.maxValLen]) rfl
  simp only [List.length_cons, List.length_nil, Nat.reduceMul, Nat.reduceAdd] at h0 h1 h2 h3 h4 h5 h6
  rw [readSortManifest, hd]
  simp only [orElse, bind, Except.bind, hsplit, htake, hdrop, hcrc, hmagic, h0, h1, h2, h3, h4, h5, h6,
    hruns, hsum, refuse]
  rw [if_neg (by simp [sortManifestMagic]; omega)]
  simp only [ne_eq, not_true_eq_false, if_false]
  by_cases he : generation = expected
  · rw [if_pos he, if_neg (by simp [he])]
    simp only
    rw [if_neg (by omega)]
    rfl
  · rw [if_neg he, if_pos he]

end ReadBack

/-! ## The names of runs -/

lemma utf8ByteSize_ofList {l : List Char} (h : ∀ c ∈ l, c.utf8Size = 1) :
    (String.ofList l).utf8ByteSize = l.length := by
  induction l with
  | nil => rfl
  | cons c l ih =>
      rw [String.ofList_cons, String.utf8ByteSize_append, String.utf8ByteSize_singleton, h c (by simp),
        ih fun c hc => h c (by simp [hc]), List.length_cons, Nat.add_comm]

lemma length_padded {base width n : ℕ} (h1 : 1 < base) (h16 : base ≤ 16) :
    (nameBytes (padded base width n)).length = max width (base.digits n).length := by
  have hone : ∀ c ∈ (padded base width n).toList, c.utf8Size = 1 := by
    intro c hc
    obtain ⟨d, hd, rfl⟩ := mem_padded h1 h16 hc
    clear hc
    revert d
    decide
  have hsize : (nameBytes (padded base width n)).length
      = (String.ofList (padded base width n).toList).utf8ByteSize := by
    rw [String.ofList_toList]
    rfl
  rw [hsize, utf8ByteSize_ofList hone]
  simp [padded]
  omega

lemma length_nameBytes_append (s t : String) :
    (nameBytes (s ++ t)).length = (nameBytes s).length + (nameBytes t).length :=
  String.utf8ByteSize_append

lemma length_runName (g : UInt64) (i : ℕ) :
    (nameBytes (runName (some g) i)).length
      = 10 + max 16 (Nat.digits 16 g.toNat).length + max 5 (Nat.digits 10 i).length := by
  have h1 : (nameBytes "g").length = 1 := rfl
  have h2 : (nameBytes "-run-").length = 5 := rfl
  have h3 : (nameBytes ".dat").length = 4 := rfl
  rw [runName, length_nameBytes_append, length_nameBytes_append, length_nameBytes_append,
    length_nameBytes_append, length_padded (by decide) (by decide), length_padded (by decide) (by decide),
    h1, h2, h3]
  omega

lemma length_runName_le {g : UInt64} {i : ℕ} (hi : i < 2 ^ 64) :
    (nameBytes (runName (some g) i)).length ≤ 46 := by
  have h16 : (Nat.digits 16 g.toNat).length ≤ 16 := by
    rw [Nat.digits_length_le_iff (by decide)]
    exact g.toNat_lt
  have h10 : (Nat.digits 10 i).length ≤ 20 := by
    rw [Nat.digits_length_le_iff (by decide)]
    omega
  rw [length_runName]
  omega

lemma mem_runName {g : UInt64} {i : ℕ} {c : Char} (hc : c ∈ (runName (some g) i).toList) :
    (∃ d < 16, c = Nat.digitChar d) ∨ c ∈ "g-run-.dat".toList := by
  simp only [runName, String.toList_append, List.mem_append] at hc
  rcases hc with (((hc | hc) | hc) | hc) | hc
  · exact Or.inr (by revert hc; simp; intro h; simp [h])
  · exact Or.inl (mem_padded (by decide) (by decide) hc)
  · exact Or.inr (by revert hc; simp; tauto)
  · exact Or.inl (mem_padded (by decide) (by decide) hc)
  · exact Or.inr (by revert hc; simp; tauto)

/-- The name of a run of a durable sort can be published. -/
lemma named_runName {d : Dir} {g : UInt64} {i : ℕ} (hi : i < 2 ^ 64) (hd : d (runName (some g) i) ≠ none) :
    Named d (runName (some g) i) := by
  refine ⟨(length_runName_le hi).trans_lt (by decide), ?_, hd⟩
  have hslash : ∀ c ∈ (runName (some g) i).toList, c ≠ '/' ∧ c ≠ '\\' := by
    intro c hc
    rcases mem_runName hc with ⟨d, hd, rfl⟩ | hc
    · clear hc
      revert d
      decide
    · simp at hc
      rcases hc with rfl | rfl | rfl | rfl | rfl | rfl | rfl | rfl | rfl | rfl <;> decide
  have hhead : (runName (some g) i).toList.head? = some 'g' := by simp [runName]
  rintro (h | h | h | h)
  · exact (hslash _ h).1 rfl
  · exact (hslash _ h).2 rfl
  · rw [h] at hhead
    cases hhead
  · rw [h] at hhead
    cases hhead

end Bulk
