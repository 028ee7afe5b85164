import Mathlib.Data.Set.Insert
import Mathlib.Logic.Function.Basic
import Mathlib.Tactic

/-!
# Secondary indexes

Rows have numbers, and an index files a row under a key that is computed from it.  An entry is a key
with the number of a row.  An index that is still being built has not covered all rows yet: its
entries are right, and none of a covered row is missing.

* **`Files.swap`** — a write that takes the old entry of one row away and puts the new one keeps the
  entries right, whether or not the row is covered.
* **`Distinct.swap`**, **`Distinct.build`** — no key a covered row has is shared, if every entry that
  comes is checked against those that are there.
* **`Distinct.merge`** — nor if every entry that comes is the first of the rows with its key.
-/

namespace Secondary

variable {κ ρ : Type*} {key : ρ → Option κ} {R : ℕ → Option ρ} {covered covered' : ℕ → Prop}
  {E : Set (κ × ℕ)} {null v : κ} {n : ℕ} {r : ρ} {a b : Option κ} {new : Option ρ}

/-- **The entries are those of rows, and those of the covered rows are there.** -/
structure Files (key : ρ → Option κ) (R : ℕ → Option ρ) (covered : ℕ → Prop)
    (E : Set (κ × ℕ)) : Prop where
  sound : ∀ v n, (v, n) ∈ E → ∃ r, R n = some r ∧ key r = some v
  complete : ∀ n r, covered n → R n = some r → ∃ v, key r = some v ∧ (v, n) ∈ E

/-- No other row has the key of a covered row, `null` excepted. -/
def Distinct (null : κ) (covered : ℕ → Prop) (E : Set (κ × ℕ)) : Prop :=
  ∀ v n m, v ≠ null → covered n → (v, n) ∈ E → (v, m) ∈ E → m = n

/-- The entry `a` of row `n` is replaced by `b`. -/
def swap (E : Set (κ × ℕ)) (n : ℕ) (a b : Option κ) : Set (κ × ℕ) :=
  {p | (p ∈ E ∧ ¬ (p.2 = n ∧ a = some p.1)) ∨ (p.2 = n ∧ b = some p.1)}

lemma mem_swap {m : ℕ} :
    (v, m) ∈ swap E n a b ↔ ((v, m) ∈ E ∧ ¬ (m = n ∧ a = some v)) ∨ (m = n ∧ b = some v) := Iff.rfl

/-- An entry's row has the entry's key. -/
lemma Files.key_eq (h : Files key R covered E) (hm : (v, n) ∈ E) (hr : R n = some r) :
    key r = some v := by
  obtain ⟨s, hs, hv⟩ := h.sound v n hm
  cases hr.symm.trans hs
  exact hv

/-- **A row is written**, and its entry follows. -/
lemma Files.swap (h : Files key R covered E) (ha : a = (R n).bind key) (hb : b = new.bind key)
    (hnew : ∀ r, new = some r → (key r).isSome) :
    Files key (Function.update R n new) covered (Secondary.swap E n a b) := by
  constructor
  · intro v m hm
    rcases mem_swap.1 hm with ⟨hE, hnot⟩ | ⟨rfl, hv⟩
    · obtain ⟨r, hr, hk⟩ := h.sound v m hE
      have hne : m ≠ n := by
        rintro rfl
        exact hnot ⟨rfl, by rw [ha, hr]; exact hk⟩
      exact ⟨r, by rw [Function.update_of_ne hne]; exact hr, hk⟩
    · rw [hb] at hv
      obtain ⟨r, hr, hk⟩ := Option.bind_eq_some_iff.1 hv
      exact ⟨r, by rw [Function.update_self]; exact hr, hk⟩
  · intro m r hc hr
    by_cases hm : m = n
    · subst hm
      rw [Function.update_self] at hr
      obtain ⟨v, hv⟩ := Option.isSome_iff_exists.1 (hnew r hr)
      exact ⟨v, hv, mem_swap.2 (Or.inr ⟨rfl, by rw [hb, hr]; exact hv⟩)⟩
    · rw [Function.update_of_ne hm] at hr
      obtain ⟨v, hv, hE⟩ := h.complete m r hc hr
      exact ⟨v, hv, mem_swap.2 (Or.inl ⟨hE, fun hand => hm hand.1⟩)⟩

/-- A row is written under the key it had. -/
lemma Files.keep (h : Files key R covered E) (hk : (R n).bind key = new.bind key)
    (hnew : ∀ r, new = some r → (key r).isSome) :
    Files key (Function.update R n new) covered E := by
  constructor
  · intro v m hm
    obtain ⟨r, hr, hv⟩ := h.sound v m hm
    by_cases hmn : m = n
    · subst hmn
      rw [hr, Option.bind_some, hv] at hk
      obtain ⟨s, hs, hv'⟩ := Option.bind_eq_some_iff.1 hk.symm
      exact ⟨s, by rw [Function.update_self]; exact hs, hv'⟩
    · exact ⟨r, by rw [Function.update_of_ne hmn]; exact hr, hv⟩
  · intro m r hc hr
    by_cases hm : m = n
    · subst hm
      rw [Function.update_self] at hr
      obtain ⟨v, hv⟩ := Option.isSome_iff_exists.1 (hnew r hr)
      rw [hr, Option.bind_some, hv] at hk
      obtain ⟨s, hs, hv'⟩ := Option.bind_eq_some_iff.1 hk
      obtain ⟨w, hw, hE⟩ := h.complete m s hc hs
      cases hv'.symm.trans hw
      exact ⟨v, hv, hE⟩
    · rw [Function.update_of_ne hm] at hr
      exact h.complete m r hc hr

/-- The entry of a row is put. -/
lemma Files.put (h : Files key R covered E) (hr : R n = some r) (hk : key r = some v) :
    Files key R covered (insert (v, n) E) := by
  constructor
  · rintro w m (heq | hm)
    · cases heq
      exact ⟨r, hr, hk⟩
    · exact h.sound w m hm
  · intro m s hc hs
    obtain ⟨w, hw, hE⟩ := h.complete m s hc hs
    exact ⟨w, hw, Or.inr hE⟩

/-- Rows that have their entry may be called covered. -/
lemma Files.cover (h : Files key R covered E)
    (hc : ∀ n r, covered' n → R n = some r → covered n ∨ ∃ v, (v, n) ∈ E) :
    Files key R covered' E := by
  refine ⟨h.sound, fun n r hn hr => ?_⟩
  rcases hc n r hn hr with hcov | ⟨v, hE⟩
  · exact h.complete n r hcov hr
  · exact ⟨v, h.key_eq hE hr, hE⟩

lemma Distinct.weaken (h : Distinct null covered E)
    (hc : ∀ v n, (v, n) ∈ E → covered' n → covered n) : Distinct null covered' E :=
  fun v n m hv hn hE hE' => h v n m hv (hc v n hE hn) hE hE'

/-- A row is written under a key no other row has. -/
lemma Distinct.swap (h : Distinct null covered E)
    (hb : ∀ v, b = some v → v ≠ null → ∀ m, (v, m) ∈ E → m = n) :
    Distinct null covered (Secondary.swap E n a b) := by
  intro v i j hv hc hi hj
  rcases mem_swap.1 hi with ⟨hE, -⟩ | ⟨hin, hbi⟩ <;> rcases mem_swap.1 hj with ⟨hE', -⟩ | ⟨hjn, hbj⟩
  · exact h v i j hv hc hE hE'
  · rw [hjn, hb v hbj hv i hE]
  · rw [hin, hb v hbi hv j hE']
  · rw [hin, hjn]

/-- A builder puts an entry it has checked, and covers its row. -/
lemma Distinct.build (hf : Files key R covered E) (h : Distinct null covered E) (hr : R n = some r)
    (hk : key r = some v) (hcheck : v ≠ null → ∀ m, (v, m) ∈ E → m = n) :
    Distinct null (fun m => covered m ∨ m = n) (insert (v, n) E) := by
  intro w i j hw hc hi hj
  rcases hi with heq | hi <;> rcases hj with heq' | hj
  · rw [Prod.mk.injEq] at heq heq'
    rw [heq.2, heq'.2]
  · rw [Prod.mk.injEq] at heq
    obtain ⟨rfl, rfl⟩ := heq
    exact hcheck hw j hj
  · rw [Prod.mk.injEq] at heq'
    obtain ⟨rfl, rfl⟩ := heq'
    exact (hcheck hw i hi).symm
  · rcases hc with hc | rfl
    · exact h w i j hw hc hi hj
    · cases hk.symm.trans (hf.key_eq hi hr)
      exact hcheck hw j hj

/-- Every entry of `P` is that of a row, and of the first row with its key. -/
structure Firsts (key : ρ → Option κ) (R : ℕ → Option ρ) (null : κ) (P : Set (κ × ℕ)) : Prop where
  row : ∀ v n, (v, n) ∈ P → ∃ r, R n = some r ∧ key r = some v
  first : ∀ v n m r, (v, n) ∈ P → v ≠ null → m < n → R m = some r → key r ≠ some v

lemma Files.union (h : Files key R covered E) {P : Set (κ × ℕ)}
    (hP : ∀ v n, (v, n) ∈ P → ∃ r, R n = some r ∧ key r = some v) :
    Files key R covered (E ∪ P) := by
  constructor
  · rintro v n (hE | hp)
    · exact h.sound v n hE
    · exact hP v n hp
  · intro n r hc hr
    obtain ⟨v, hv, hE⟩ := h.complete n r hc hr
    exact ⟨v, hv, Or.inl hE⟩

/-- **A builder that puts the first row of each key** shares no key with the rows that are covered,
which are the first ones. -/
lemma Distinct.merge (hf : Files key R covered E) (h : Distinct null covered E) {P : Set (κ × ℕ)}
    (hP : Firsts key R null P) (hdown : ∀ n m, covered n → m ≤ n → covered m) :
    Distinct null covered (E ∪ P) := by
  intro v i j hv hc hi hj
  obtain ⟨ri, hri, hki⟩ := (hf.union hP.row).sound v i hi
  obtain ⟨rj, hrj, hkj⟩ := (hf.union hP.row).sound v j hj
  -- an entry of a covered row is in `E`
  have hmem : ∀ n r, covered n → R n = some r → key r = some v → (v, n) ∈ E := by
    intro n r hn hr hk
    obtain ⟨w, hw, hE⟩ := hf.complete n r hn hr
    cases hk.symm.trans hw
    exact hE
  have hiE := hmem i ri hc hri hki
  rcases hj with hjE | hjP
  · exact h v i j hv hc hiE hjE
  · rcases lt_trichotomy i j with hlt | heq | hgt
    · exact absurd hki (hP.first v j i ri hjP hv hlt hri)
    · exact heq.symm
    · exact h v i j hv hc hiE (hmem j rj (hdown i j hc hgt.le) hrj hkj)

/-- When all rows have been put so, no key is shared. -/
lemma Distinct.all (hf : Files key R covered E) {P : Set (κ × ℕ)} (hP : Firsts key R null P)
    (hall : ∀ n r, R n = some r → ∃ v, (v, n) ∈ P) : Distinct null covered' (E ∪ P) := by
  intro v i j hv _ hi hj
  obtain ⟨ri, hri, hki⟩ := (hf.union hP.row).sound v i hi
  obtain ⟨rj, hrj, hkj⟩ := (hf.union hP.row).sound v j hj
  have hmem : ∀ n r, R n = some r → key r = some v → (v, n) ∈ P := by
    intro n r hr hk
    obtain ⟨w, hw⟩ := hall n r hr
    obtain ⟨s, hs, hks⟩ := hP.row w n hw
    cases hr.symm.trans hs
    cases hk.symm.trans hks
    exact hw
  rcases lt_trichotomy i j with hlt | heq | hgt
  · exact absurd hki (hP.first v j i ri (hmem j rj hrj hkj) hv hlt hri)
  · exact heq.symm
  · exact absurd hkj (hP.first v i j rj (hmem i ri hri hki) hv hgt hrj)

end Secondary
