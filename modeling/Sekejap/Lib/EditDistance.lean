import Mathlib.Data.List.Infix
import Mathlib.Order.Bounds.Basic
import Mathlib.Tactic

/-!
# Edit distance

The fewest insertions, deletions and replacements that turn one list into another, and the table by which
it is computed: one row for each prefix of the first list, with a cell for each prefix of the second.

* **`isLeast_distance`** — `distance` is the fewest edits.
* **`nextRow_row`** — a row and one more element give the next row.
* **`row_le_extend`** — the least cell of a row bounds the distance of every extension from below, which
  is what a search prunes by.
-/

namespace EditDistance

variable {α : Type*}

/-- `k` edits that turn one list into another, from the left. -/
inductive Edits : List α → List α → ℕ → Prop
  | nil : Edits [] [] 0
  | keep (c : α) {s t : List α} {k : ℕ} : Edits s t k → Edits (c :: s) (c :: t) k
  | replace (c d : α) {s t : List α} {k : ℕ} : Edits s t k → Edits (c :: s) (d :: t) (k + 1)
  | delete (c : α) {s t : List α} {k : ℕ} : Edits s t k → Edits (c :: s) t (k + 1)
  | insert (d : α) {s t : List α} {k : ℕ} : Edits s t k → Edits s (d :: t) (k + 1)

variable {s t u v p q : List α} {c d : α} {j k : ℕ}

lemma edits_insert_all (t : List α) : Edits [] t t.length := by
  induction t with
  | nil => exact .nil
  | cons d t ih => exact .insert d ih

lemma edits_delete_all (s : List α) : Edits s [] s.length := by
  induction s with
  | nil => exact .nil
  | cons c s ih => exact .delete c ih

lemma Edits.append (h : Edits s t k) (h' : Edits u v j) :
    Edits (s ++ u) (t ++ v) (k + j) := by
  induction h with
  | nil => simpa using h'
  | keep c _ ih => exact .keep c ih
  | replace c d _ ih => exact Nat.add_right_comm _ j 1 ▸ ih.replace c d
  | delete c _ ih => exact Nat.add_right_comm _ j 1 ▸ ih.delete c
  | insert d _ ih => exact Nat.add_right_comm _ j 1 ▸ ih.insert d

lemma Edits.reverse (h : Edits s t k) : Edits s.reverse t.reverse k := by
  induction h with
  | nil => exact .nil
  | keep c _ ih => simpa using ih.append (Edits.nil.keep c)
  | replace c d _ ih => simpa using ih.append (Edits.nil.replace c d)
  | delete c _ ih => simpa using ih.append (Edits.nil.delete c)
  | insert d _ ih => simpa using ih.append (Edits.nil.insert d)

variable [DecidableEq α]

/-- The cost of standing for one another. -/
def cost (c d : α) : ℕ := if d ≠ c then 1 else 0

/-- The fewest edits, by the first elements. -/
def distance : List α → List α → ℕ
  | [], t => t.length
  | s, [] => s.length
  | c :: s, d :: t =>
      min (min (distance s (d :: t) + 1) (distance (c :: s) t + 1)) (distance s t + cost c d)
termination_by s t => s.length + t.length

@[simp] lemma distance_nil_left (t : List α) : distance [] t = t.length := by rw [distance]

@[simp] lemma distance_nil_right (s : List α) : distance s [] = s.length := by
  cases s <;> simp [distance]

lemma distance_cons_cons : distance (c :: s) (d :: t)
    = min (min (distance s (d :: t) + 1) (distance (c :: s) t + 1)) (distance s t + cost c d) := by
  rw [distance]

/-! ## The fewest edits -/

lemma edits_distance (s t : List α) : Edits s t (distance s t) := by
  induction s generalizing t with
  | nil => simpa using edits_insert_all t
  | cons c s ihs =>
      induction t with
      | nil => simpa using edits_delete_all (c :: s)
      | cons d t iht =>
          rw [distance_cons_cons]
          rcases min_choice (min (distance s (d :: t) + 1) (distance (c :: s) t + 1))
            (distance s t + cost c d) with h | h <;> rw [h]
          · rcases min_choice (distance s (d :: t) + 1) (distance (c :: s) t + 1) with h | h <;> rw [h]
            · exact .delete c (ihs (d :: t))
            · exact .insert d iht
          · rw [cost]
            split_ifs with hne
            · exact .replace c d (ihs t)
            · rw [not_not] at hne
              subst hne
              exact .keep d (ihs t)

lemma distance_le_of_edits (h : Edits s t k) : distance s t ≤ k := by
  induction h with
  | nil => simp
  | keep c _ ih =>
      rw [distance_cons_cons]
      exact (min_le_right _ _).trans (by simpa [cost] using ih)
  | @replace c d s t k _ ih =>
      have hcost : cost c d ≤ 1 := by rw [cost]; split_ifs <;> simp
      rw [distance_cons_cons]
      exact (min_le_right _ _).trans (Nat.add_le_add ih hcost)
  | @delete c s t k _ ih =>
      cases t with
      | nil => simpa using ih
      | cons d t =>
          rw [distance_cons_cons]
          exact ((min_le_left _ _).trans (min_le_left _ _)).trans (Nat.succ_le_succ ih)
  | @insert d s t k _ ih =>
      cases s with
      | nil => simpa using ih
      | cons c s =>
          rw [distance_cons_cons]
          exact ((min_le_left _ _).trans (min_le_right _ _)).trans (Nat.succ_le_succ ih)

/-- **The distance is the fewest edits.** -/
theorem isLeast_distance (s t : List α) : IsLeast {k | Edits s t k} (distance s t) :=
  ⟨edits_distance s t, fun _ h => distance_le_of_edits h⟩

/-- The fewest edits that bring one of some lists to `t` are the least of their distances. -/
lemma isLeast_edits_iff {P : List α → Prop} : IsLeast {k | ∃ p, P p ∧ Edits p t k} k
    ↔ IsLeast {k | ∃ p, P p ∧ distance p t = k} k := by
  constructor
  · rintro ⟨⟨p, hp, hedits⟩, hleast⟩
    obtain ⟨hmem, hle⟩ := isLeast_distance p t
    refine ⟨⟨p, hp, le_antisymm (hle hedits) (hleast ⟨p, hp, hmem⟩)⟩, ?_⟩
    rintro j ⟨q, hq, rfl⟩
    exact hleast ⟨q, hq, edits_distance q t⟩
  · rintro ⟨⟨p, hp, rfl⟩, hleast⟩
    refine ⟨⟨p, hp, edits_distance p t⟩, ?_⟩
    rintro j ⟨q, hq, hedits⟩
    exact (hleast ⟨q, hq, rfl⟩).trans ((isLeast_distance q t).2 hedits)

/-! ## From the right -/

lemma distance_reverse (s t : List α) : distance s.reverse t.reverse = distance s t := by
  have hle : ∀ s t : List α, distance s.reverse t.reverse ≤ distance s t := fun s t =>
    distance_le_of_edits (edits_distance s t).reverse
  refine le_antisymm (hle s t) ?_
  simpa using hle s.reverse t.reverse

/-- The distance by the last elements. -/
lemma distance_concat : distance (s ++ [c]) (t ++ [d])
    = min (min (distance s (t ++ [d]) + 1) (distance (s ++ [c]) t + 1)) (distance s t + cost c d) := by
  have h : ∀ s t : List α, distance s t = distance s.reverse t.reverse := fun s t =>
    (distance_reverse s t).symm
  rw [h (s ++ [c]), h s (t ++ [d]), h (s ++ [c]) t, h s t]
  simp only [List.reverse_append, List.reverse_cons, List.reverse_nil, List.nil_append,
    List.singleton_append, distance_cons_cons]

/-! ## The table -/

/-- The row of a prefix `p`: its distance to each prefix of `t`. -/
def row (t p : List α) : List ℕ := t.inits.map (distance p)

/-- The cells of a row past the first, from the row above and the cell to the left. -/
def fillRow (c : α) : List α → List ℕ → ℕ → List ℕ
  | d :: t, diagonal :: above :: rest, left =>
      let cell := min (min (above + 1) (left + 1)) (diagonal + cost c d)
      cell :: fillRow c t (above :: rest) cell
  | _, _, _ => []

/-- The next row, whose first cell is `first`. -/
def nextRow (t : List α) (c : α) (row : List ℕ) (first : ℕ) : List ℕ := first :: fillRow c t row first

lemma row_nil (t : List α) : row t [] = List.range (t.length + 1) := by
  rw [row, List.map_congr_left (fun p _ => distance_nil_left p)]
  refine List.ext_getElem (by simp) fun i hi hi' => ?_
  have hlt : i ≤ t.length := by simpa [Nat.lt_succ_iff] using hi'
  simp [hlt]

lemma fillRow_inits (c : α) (p q t : List α) :
    fillRow c t (t.inits.map fun r => distance p (q ++ r)) (distance (p ++ [c]) q)
      = (t.inits.map fun r => distance (p ++ [c]) (q ++ r)).tail := by
  induction t generalizing q with
  | nil => rfl
  | cons d t ih =>
      have hcell : min (min (distance p (q ++ [d]) + 1) (distance (p ++ [c]) q + 1))
          (distance p q + cost c d) = distance (p ++ [c]) (q ++ [d]) := distance_concat.symm
      have hinits : ∀ f : List α → ℕ, ((d :: t).inits.map fun r => f (q ++ r))
          = f q :: (t.inits.map fun r => f (q ++ [d] ++ r)) := by
        intro f
        simp [List.inits, Function.comp_def]
      have hfirst : ∀ f : List α → ℕ, ∃ rest, (t.inits.map fun r => f (q ++ [d] ++ r))
          = f (q ++ [d]) :: rest := by
        intro f
        cases t <;> simp [List.inits]
      obtain ⟨above, habove⟩ := hfirst (distance p)
      obtain ⟨below, hbelow⟩ := hfirst (distance (p ++ [c]))
      have hrest := ih (q ++ [d])
      rw [hinits, hinits, habove, fillRow, hcell, List.tail_cons]
      rw [habove, hbelow, List.tail_cons] at hrest
      rw [hrest, hbelow]

/-- **A row and one more element give the next row.** -/
theorem nextRow_row (t p : List α) (c : α) : nextRow t c (row t p) (p.length + 1) = row t (p ++ [c]) := by
  have hfirst : distance (p ++ [c]) [] = p.length + 1 := by simp
  have hfill := fillRow_inits c p [] t
  simp only [List.nil_append] at hfill
  rw [nextRow, row, ← hfirst, hfill, row]
  cases t <;> simp [List.inits]

/-- The last cell of a row is the distance to the whole list. -/
lemma getLast_row (t p : List α) : (row t p).getLastD 0 = distance p t := by
  have hlast : t.inits.getLast? = some t := by
    induction t with
    | nil => rfl
    | cons d t ih =>
        rw [List.inits, List.getLast?_cons, List.getLast?_map, ih]
        rfl
  rw [row, List.getLastD_eq_getLast?, List.getLast?_map, hlast]
  rfl

lemma mem_row : k ∈ row t p ↔ ∃ q, q <+: t ∧ distance p q = k := by
  simp [row, List.mem_inits]

/-- What is below every cell of a row is below every cell of the next. -/
lemma row_le_concat (h : ∀ q, q <+: t → k ≤ distance p q) (q : List α) (hq : q <+: t) :
    k ≤ distance (p ++ [c]) q := by
  induction q using List.reverseRecOn with
  | nil =>
      have hnil := h [] List.nil_prefix
      simp only [distance_nil_right, List.length_append, List.length_singleton] at hnil ⊢
      omega
  | append_singleton q d ih =>
      have hshort : q <+: t := (List.prefix_append q [d]).trans hq
      have habove := h (q ++ [d]) hq
      have hdiagonal := h q hshort
      have hleft := ih hshort
      rw [distance_concat]
      omega

/-- **What is below every cell of a row is below every extension's distance.** -/
theorem row_le_extend (h : ∀ j ∈ row t p, k ≤ j) (u : List α) : k ≤ distance (p ++ u) t := by
  have hrow : ∀ q, q <+: t → k ≤ distance p q := fun q hq => h _ (mem_row.2 ⟨q, hq, rfl⟩)
  have hext : ∀ q, q <+: t → k ≤ distance (p ++ u) q := by
    clear h
    induction u generalizing p with
    | nil => simpa using hrow
    | cons c u ih =>
        have hnext := ih (p := p ++ [c]) fun q hq => row_le_concat hrow q hq
        simpa using hnext
  exact hext t List.prefix_rfl

end EditDistance
