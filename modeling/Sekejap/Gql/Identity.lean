import Sekejap.Gql.Grouping

/-!
# Comparison, grouping and hashing agree

The laws of the order on values, the groups it makes, what they feed to a hasher, and what the comparison
with nulls answers (`core/engine/src/query/gql/value.rs`).  A null stands for any value without nulls; what
is unknown is what depends on which.

* **`identityEq_some_iff`**, **`identityEq_none_iff`** — the answer to a comparison is what all fillings of the
  nulls answer, and it is unknown where they do not agree.
* **`comparison_agrees`** — all of it together.
-/

open Nested

namespace Engine.Grouping

namespace BindingValue

variable {heap : ℕ → PathNode} {a b : BindingValue heap}

/-! ## Fillings -/

mutual

/-- No null is in the value, at any depth. -/
def NullFree : BindingValue heap → Prop
  | null => False
  | list items => AllNullFree items
  | _ => True

def AllNullFree : List (BindingValue heap) → Prop
  | [] => True
  | v :: items => v.NullFree ∧ AllNullFree items

end

mutual

/-- The second value is the first with a value for each of its nulls. -/
def Fills : BindingValue heap → BindingValue heap → Prop
  | null, w => w.NullFree
  | list items, w => ∃ items', w = list items' ∧ FillsAll items items'
  | v, w => w = v

def FillsAll : List (BindingValue heap) → List (BindingValue heap) → Prop
  | [], ys => ys = []
  | v :: items, ys => ∃ w items', ys = w :: items' ∧ v.Fills w ∧ FillsAll items items'

end

lemma allNullFree_iff (items : List (BindingValue heap)) : AllNullFree items ↔ ∀ v ∈ items, v.NullFree := by
  induction items with
  | nil => simp [AllNullFree]
  | cons v items ih => rw [AllNullFree, ih, List.forall_mem_cons]

lemma fillsAll_iff (xs ys : List (BindingValue heap)) : FillsAll xs ys ↔ List.Forall₂ Fills xs ys := by
  induction xs generalizing ys with
  | nil => rw [FillsAll, List.forall₂_nil_left_iff]
  | cons v xs ih =>
      rw [FillsAll, List.forall₂_cons_left_iff]
      simp only [ih]
      constructor
      · rintro ⟨w, ys', rfl, hw, hrest⟩
        exact ⟨w, ys', hw, hrest, rfl⟩
      · rintro ⟨w, ys', hw, hrest, rfl⟩
        exact ⟨w, ys', rfl, hw, hrest⟩

lemma fills_list {xs : List (BindingValue heap)} {w : BindingValue heap} :
    (list xs).Fills w ↔ ∃ ys, w = list ys ∧ List.Forall₂ Fills xs ys := by
  rw [Fills]
  simp only [fillsAll_iff]

/-- Neither a null nor a list. -/
def Plain (v : BindingValue heap) : Prop := v.rank ≠ 0 ∧ v.rank ≠ 11

lemma fills_plain (h : a.Plain) : a.Fills b ↔ b = a := by
  cases a
  case null => exact absurd rfl h.1
  case list => exact absurd rfl h.2
  all_goals exact Iff.rfl

lemma nullFree_plain (h : a.Plain) : a.NullFree := by
  cases a
  case null => exact absurd rfl h.1
  case list => exact absurd rfl h.2
  all_goals trivial

lemma kinds (a : BindingValue heap) : a = null ∨ (∃ items, a = list items) ∨ a.Plain := by
  cases a
  case null => exact Or.inl rfl
  case list items => exact Or.inr (Or.inl ⟨items, rfl⟩)
  all_goals exact Or.inr (Or.inr ⟨by simp [rank], by simp [rank]⟩)

/-- Every value can be filled. -/
lemma exists_fills (a : BindingValue heap) : ∃ a', a.Fills a' := by
  induction a using items_induction with
  | _ a ih =>
      rcases kinds a with rfl | ⟨items, rfl⟩ | hplain
      · exact ⟨bool true, trivial⟩
      · have hall : ∃ ys, List.Forall₂ Fills items ys := by
          have hmem := ih items rfl
          clear ih
          induction items with
          | nil => exact ⟨[], List.Forall₂.nil⟩
          | cons v items ihs =>
              obtain ⟨w, hw⟩ := hmem v List.mem_cons_self
              obtain ⟨ys, hys⟩ := ihs fun v hv => hmem v (List.mem_cons_of_mem _ hv)
              exact ⟨w :: ys, List.Forall₂.cons hw hys⟩
        obtain ⟨ys, hys⟩ := hall
        exact ⟨list ys, fills_list.2 ⟨ys, rfl, hys⟩⟩
      · exact ⟨a, (fills_plain hplain).2 rfl⟩

lemma exists_of_mem_right {xs ys : List (BindingValue heap)} (h : List.Forall₂ Fills xs ys) {w : BindingValue heap}
    (hw : w ∈ ys) : ∃ v ∈ xs, v.Fills w := by
  induction h with
  | nil => cases hw
  | cons hvw hrest ih =>
      rcases List.mem_cons.1 hw with rfl | hw
      · exact ⟨_, List.mem_cons_self, hvw⟩
      · obtain ⟨v, hv, hvw⟩ := ih hw
        exact ⟨v, List.mem_cons_of_mem _ hv, hvw⟩

/-- What is filled has no nulls. -/
lemma Fills.nullFree {a' : BindingValue heap} (h : a.Fills a') : a'.NullFree := by
  induction a using items_induction generalizing a' with
  | _ a ih =>
      rcases kinds a with rfl | ⟨items, rfl⟩ | hplain
      · exact h
      · obtain ⟨ys, rfl, hys⟩ := fills_list.1 h
        rw [NullFree, allNullFree_iff]
        intro w hw
        obtain ⟨v, hv, hvw⟩ := exists_of_mem_right hys hw
        exact ih items rfl v hv hvw
      · rw [(fills_plain hplain).1 h]
        exact nullFree_plain hplain

/-- What has no nulls is its own filling, and has no other. -/
lemma NullFree.fills_iff {a' : BindingValue heap} (h : a.NullFree) : a.Fills a' ↔ a' = a := by
  induction a using items_induction generalizing a' with
  | _ a ih =>
      rcases kinds a with rfl | ⟨items, rfl⟩ | hplain
      · cases h
      · rw [NullFree, allNullFree_iff] at h
        have hall : ∀ ys, List.Forall₂ Fills items ys ↔ ys = items := by
          have hmem : ∀ v ∈ items, ∀ w, v.Fills w ↔ w = v := fun v hv w => ih items rfl v hv (h v hv)
          clear ih h
          induction items with
          | nil => exact fun ys => List.forall₂_nil_left_iff
          | cons v items ihs =>
              intro ys
              rw [List.forall₂_cons_left_iff]
              simp only [hmem v List.mem_cons_self, ihs fun v hv => hmem v (List.mem_cons_of_mem _ hv)]
              constructor
              · rintro ⟨w, ys, rfl, rfl, rfl⟩
                rfl
              · rintro rfl
                exact ⟨v, items, rfl, rfl, rfl⟩
        rw [fills_list]
        simp only [hall]
        constructor
        · rintro ⟨ys, rfl, rfl⟩
          rfl
        · intro hw
          exact ⟨items, hw, rfl⟩
      · exact fills_plain hplain

/-! ## Equality -/

lemma eq_iff_key : a.eq b = true ↔ a.key = b.key := by
  rw [eq, cmp_eq, beq_iff_eq, Std.LawfulEqCmp.compare_eq_iff_eq]

lemma eq_of_rank_ne (h : a.rank ≠ b.rank) : a.eq b = false := by
  rw [Bool.eq_false_iff]
  exact fun heq => h (key_inj (eq_iff_key.1 heq)).1

lemma eq_list_iff (xs ys : List (BindingValue heap)) :
    (list xs).eq (list ys) = true ↔ List.Forall₂ (fun v w => v.eq w = true) xs ys := by
  have hkeys : (list xs).key = (list ys).key ↔ xs.map key = ys.map key := by
    constructor
    · intro h
      have hbody := (key_inj h).2
      rw [body_list, body_list] at hbody
      exact Key.row_inj hbody
    · intro h
      rw [key, key, body_list, body_list, h]
      rfl
  rw [eq_iff_key, hkeys, ← List.forall₂_eq_eq_eq, List.forall₂_map_left_iff, List.forall₂_map_right_iff]
  simp only [eq_iff_key]

lemma Fills.rank_eq {a' : BindingValue heap} (h : a.Fills a') (ha : a.rank ≠ 0) : a'.rank = a.rank := by
  rcases kinds a with rfl | ⟨items, rfl⟩ | hplain
  · exact absurd rfl ha
  · obtain ⟨ys, rfl, -⟩ := fills_list.1 h
    rfl
  · rw [(fills_plain hplain).1 h]

/-! ## The answer to a comparison -/

/-- The answers agree with those of all fillings: what is certain holds of each, and what is unknown of some
and not of others. -/
structure Settles (answer : Option Bool) (equal : Set Bool) : Prop where
  certain : ∀ r, answer = some r → ∀ r' ∈ equal, r' = r
  unknown : answer = none → true ∈ equal ∧ false ∈ equal

/-- Whether the fillings of two values are equal. -/
def outcomes (a b : BindingValue heap) : Set Bool := {r | ∃ a' b', a.Fills a' ∧ b.Fills b' ∧ a'.eq b' = r}

/-- Whether the fillings of two lists of values are equal item by item. -/
def allOutcomes (xs ys : List (BindingValue heap)) : Set Bool :=
  {r | ∃ xs' ys', List.Forall₂ Fills xs xs' ∧ List.Forall₂ Fills ys ys'
    ∧ ((List.Forall₂ (fun v w => v.eq w = true) xs' ys') ↔ r = true)}

/-- A null may be filled to equal a value, and to differ from it. -/
lemma outcomes_null (b : BindingValue heap) : true ∈ outcomes null b ∧ false ∈ outcomes null b := by
  obtain ⟨b', hb'⟩ := exists_fills b
  refine ⟨⟨b', b', hb'.nullFree, hb', eq_iff_key.2 rfl⟩, ?_⟩
  by_cases hrank : b'.rank = 1
  · exact ⟨int 0, b', trivial, hb', eq_of_rank_ne (by rw [hrank, rank]; decide)⟩
  · exact ⟨bool true, b', trivial, hb', eq_of_rank_ne (Ne.symm hrank)⟩

lemma outcomes_comm (a b : BindingValue heap) : outcomes a b = outcomes b a := by
  have hflip : ∀ a b : BindingValue heap, a.eq b = b.eq a := by
    intro a b
    rw [Bool.eq_iff_iff, eq_iff_key, eq_iff_key]
    exact ⟨Eq.symm, Eq.symm⟩
  refine Set.ext fun r => ⟨?_, ?_⟩
  · rintro ⟨a', b', ha, hb, h⟩
    exact ⟨b', a', hb, ha, (hflip b' a').trans h⟩
  · rintro ⟨b', a', hb, ha, h⟩
    exact ⟨a', b', ha, hb, (hflip a' b').trans h⟩

lemma outcomes_nonempty (a b : BindingValue heap) : (outcomes a b).Nonempty := by
  obtain ⟨a', ha⟩ := exists_fills a
  obtain ⟨b', hb⟩ := exists_fills b
  exact ⟨_, a', b', ha, hb, rfl⟩

lemma mem_allOutcomes_nil {r : Bool} : r ∈ allOutcomes ([] : List (BindingValue heap)) [] ↔ r = true := by
  constructor
  · rintro ⟨xs, ys, hxs, hys, hr⟩
    rw [List.forall₂_nil_left_iff] at hxs hys
    subst hxs hys
    exact hr.1 List.Forall₂.nil
  · rintro rfl
    exact ⟨[], [], List.Forall₂.nil, List.Forall₂.nil, iff_of_true List.Forall₂.nil rfl⟩

/-- The first items and the rest are filled apart. -/
lemma mem_allOutcomes_cons {v w : BindingValue heap} {xs ys : List (BindingValue heap)} {r : Bool} :
    r ∈ allOutcomes (v :: xs) (w :: ys) ↔ ∃ p ∈ outcomes v w, ∃ q ∈ allOutcomes xs ys, r = (p && q) := by
  constructor
  · rintro ⟨xs', ys', hxs, hys, hr⟩
    obtain ⟨v', xs', hv, hxs', rfl⟩ := List.forall₂_cons_left_iff.1 hxs
    obtain ⟨w', ys', hw, hys', rfl⟩ := List.forall₂_cons_left_iff.1 hys
    classical
    refine ⟨v'.eq w', ⟨v', w', hv, hw, rfl⟩, decide (List.Forall₂ (fun v w => v.eq w = true) xs' ys'),
      ⟨xs', ys', hxs', hys', decide_eq_true_iff.symm⟩, ?_⟩
    rw [Bool.eq_iff_iff, ← hr, List.forall₂_cons, Bool.and_eq_true, decide_eq_true_iff]
  · rintro ⟨p, ⟨v', w', hv, hw, hp⟩, q, ⟨xs', ys', hxs, hys, hq⟩, rfl⟩
    refine ⟨v' :: xs', w' :: ys', List.Forall₂.cons hv hxs, List.Forall₂.cons hw hys, ?_⟩
    rw [List.forall₂_cons, Bool.and_eq_true, hp, hq]

/-- **The loop over the items** knows after each what the items so far leave open. -/
lemma settle_settles {xs ys : List (BindingValue heap)} (hlength : xs.length = ys.length)
    (h : ∀ v ∈ xs, ∀ w, Settles (v.identityEq w) (outcomes v w)) (unknown : Bool) :
    (settle unknown (List.zipWith identityEq xs ys) = some false → ∀ r ∈ allOutcomes xs ys, r = false)
    ∧ (settle unknown (List.zipWith identityEq xs ys) = some true →
      unknown = false ∧ ∀ r ∈ allOutcomes xs ys, r = true)
    ∧ (settle unknown (List.zipWith identityEq xs ys) = none →
      true ∈ allOutcomes xs ys ∧ (unknown = true ∨ false ∈ allOutcomes xs ys)) := by
  induction xs generalizing ys unknown with
  | nil =>
      obtain rfl := List.length_eq_zero_iff.1 hlength.symm
      cases unknown
      · refine ⟨fun hs => ?_, fun _ => ⟨rfl, fun r => mem_allOutcomes_nil.1⟩, fun hs => ?_⟩
        · cases hs
        · cases hs
      · refine ⟨fun hs => ?_, fun hs => ?_, fun _ => ⟨mem_allOutcomes_nil.2 rfl, Or.inl rfl⟩⟩
        · cases hs
        · cases hs
  | cons v xs ih =>
      cases ys with
      | nil => cases hlength
      | cons w ys =>
          have hhead := h v List.mem_cons_self w
          have htail := @ih ys (Nat.succ_injective hlength) fun v hv => h v (List.mem_cons_of_mem _ hv)
          rw [List.zipWith_cons_cons]
          cases hanswer : v.identityEq w with
          | none =>
              have hstep : ∀ rest, settle unknown (none :: rest) = settle true rest := fun rest => rfl
              rw [hstep]
              obtain ⟨htrue, hfalse⟩ := hhead.unknown hanswer
              obtain ⟨h1, h2, h3⟩ := htail true
              refine ⟨fun hs r hr => ?_, fun hs => absurd (h2 hs).1 (by decide), fun hs => ?_⟩
              · obtain ⟨p, -, q, hq, rfl⟩ := mem_allOutcomes_cons.1 hr
                rw [h1 hs q hq, Bool.and_false]
              · have hrest := (h3 hs).1
                exact ⟨mem_allOutcomes_cons.2 ⟨true, htrue, true, hrest, rfl⟩,
                  Or.inr (mem_allOutcomes_cons.2 ⟨false, hfalse, true, hrest, rfl⟩)⟩
          | some answer =>
              have hall := hhead.certain answer hanswer
              cases answer with
              | false =>
                  refine ⟨fun _ r hr => ?_, fun hs => ?_, fun hs => ?_⟩
                  · obtain ⟨p, hp, q, -, rfl⟩ := mem_allOutcomes_cons.1 hr
                    rw [hall p hp, Bool.false_and]
                  · cases hs
                  · cases hs
              | true =>
                  have hstep : ∀ rest, settle unknown (some true :: rest) = settle unknown rest := fun rest => rfl
                  rw [hstep]
                  obtain ⟨h1, h2, h3⟩ := htail unknown
                  have htrue : true ∈ outcomes v w := by
                    obtain ⟨p, hp⟩ := outcomes_nonempty v w
                    rwa [← hall p hp]
                  refine ⟨fun hs r hr => ?_, fun hs => ⟨(h2 hs).1, fun r hr => ?_⟩, fun hs => ?_⟩
                  · obtain ⟨p, -, q, hq, rfl⟩ := mem_allOutcomes_cons.1 hr
                    rw [h1 hs q hq, Bool.and_false]
                  · obtain ⟨p, hp, q, hq, rfl⟩ := mem_allOutcomes_cons.1 hr
                    rw [hall p hp, (h2 hs).2 q hq]
                    rfl
                  · obtain ⟨hrest, hopen⟩ := h3 hs
                    refine ⟨mem_allOutcomes_cons.2 ⟨true, htrue, true, hrest, rfl⟩, hopen.imp_right fun hfalse => ?_⟩
                    exact mem_allOutcomes_cons.2 ⟨true, htrue, false, hfalse, rfl⟩

/-- Lists are equal where their items are. -/
lemma mem_outcomes_list {xs ys : List (BindingValue heap)} {r : Bool} :
    r ∈ outcomes (list xs) (list ys) ↔ r ∈ allOutcomes xs ys := by
  constructor
  · rintro ⟨a', b', ha, hb, hr⟩
    obtain ⟨xs', rfl, hxs⟩ := fills_list.1 ha
    obtain ⟨ys', rfl, hys⟩ := fills_list.1 hb
    refine ⟨xs', ys', hxs, hys, ?_⟩
    rw [← eq_list_iff, hr]
  · rintro ⟨xs', ys', hxs, hys, hr⟩
    refine ⟨list xs', list ys', fills_list.2 ⟨xs', rfl, hxs⟩, fills_list.2 ⟨ys', rfl, hys⟩, ?_⟩
    rw [Bool.eq_iff_iff, eq_list_iff, hr]

lemma identityEq_list (xs ys : List (BindingValue heap)) : (list xs).identityEq (list ys)
    = if xs.length ≠ ys.length then some false else settle false (List.zipWith identityEq xs ys) := by
  have hattach : List.zipWith (fun (x : {x // x ∈ xs}) y => identityEq x.1 y) xs.attach ys
      = List.zipWith identityEq xs ys := by
    have := @List.zipWith_map_left _ _ _ _ xs.attach ys Subtype.val identityEq
    rw [List.attach_map_subtype_val] at this
    exact this.symm
  rw [identityEq.eq_def]
  simp only [hattach]

/-- Values that are no nulls, and not both lists, are compared as they are. -/
lemma settles_eq (ha : a.rank ≠ 0) (hb : b.rank ≠ 0) (h : a.Plain ∨ b.Plain) :
    Settles (some (a.eq b)) (outcomes a b) := by
  refine ⟨?_, fun hr => by cases hr⟩
  rintro r hr r' ⟨a', b', hfa, hfb, rfl⟩
  obtain rfl := Option.some.inj hr
  by_cases hrank : a.rank = b.rank
  · -- of the same rank, both are plain
    have hplain : a.Plain ∧ b.Plain := by
      rcases h with h | h
      · exact ⟨h, hb, hrank ▸ h.2⟩
      · exact ⟨⟨ha, hrank ▸ h.2⟩, h⟩
    rw [(fills_plain hplain.1).1 hfa, (fills_plain hplain.2).1 hfb]
  · rw [eq_of_rank_ne hrank, eq_of_rank_ne]
    rw [hfa.rank_eq ha, hfb.rank_eq hb]
    exact hrank

lemma identityEq_of_plain (ha : a.rank ≠ 0) (hb : b.rank ≠ 0) (h : a.Plain ∨ b.Plain) :
    a.identityEq b = some (a.eq b) := by
  rw [identityEq.eq_def]
  split
  · exact absurd rfl ha
  · exact absurd rfl hb
  · rcases h with h | h
    · exact absurd rfl h.2
    · exact absurd rfl h.2
  · rfl

/-- **The answer to a comparison with nulls** is that of all fillings. -/
lemma identityEq_settles (a b : BindingValue heap) : Settles (a.identityEq b) (outcomes a b) := by
  induction a using items_induction generalizing b with
  | _ a ih =>
      by_cases ha : a.rank = 0
      · obtain rfl : a = null := by
          rcases kinds a with h | ⟨xs, rfl⟩ | h
          · exact h
          · cases ha
          · exact absurd ha h.1
        rw [identityEq]
        exact ⟨fun r hr => (by cases hr), fun _ => outcomes_null b⟩
      by_cases hb : b.rank = 0
      · obtain rfl : b = null := by
          rcases kinds b with h | ⟨ys, rfl⟩ | h
          · exact h
          · cases hb
          · exact absurd hb h.1
        have hnone : a.identityEq null = none := by
          rw [identityEq.eq_def]
          cases a <;> rfl
        rw [hnone, outcomes_comm]
        exact ⟨fun r hr => (by cases hr), fun _ => outcomes_null a⟩
      rcases kinds a with rfl | ⟨xs, rfl⟩ | hplain
      · exact absurd rfl ha
      · rcases kinds b with rfl | ⟨ys, rfl⟩ | hplain
        · exact absurd rfl hb
        · rw [identityEq_list]
          split_ifs with hlength
          · -- no fillings of lists of two lengths are equal
            refine ⟨fun r hr r' hr' => ?_, fun hr => by cases hr⟩
            obtain rfl := Option.some.inj hr
            obtain ⟨xs', ys', hxs, hys, hiff⟩ := mem_outcomes_list.1 hr'
            rw [Bool.eq_false_iff]
            intro htrue
            exact hlength (hxs.length_eq.trans ((hiff.2 htrue).length_eq.trans hys.length_eq.symm))
          · obtain ⟨h1, h2, h3⟩ := @settle_settles heap xs ys (not_not.1 hlength) (ih xs rfl) false
            refine ⟨fun r hr r' hr' => ?_, fun hr => ?_⟩
            · rw [mem_outcomes_list] at hr'
              cases r with
              | false => exact h1 hr r' hr'
              | true => exact (h2 hr).2 r' hr'
            · rw [mem_outcomes_list, mem_outcomes_list]
              exact ⟨(h3 hr).1, (h3 hr).2.resolve_left Bool.false_ne_true⟩
        · rw [identityEq_of_plain ha hb (Or.inr hplain)]
          exact settles_eq ha hb (Or.inr hplain)
      · rw [identityEq_of_plain ha hb (Or.inl hplain)]
        exact settles_eq ha hb (Or.inl hplain)

/-- A comparison is unknown where fillings are equal and others are not. -/
lemma identityEq_none_iff (a b : BindingValue heap) :
    a.identityEq b = none ↔ true ∈ outcomes a b ∧ false ∈ outcomes a b := by
  have hsettles := identityEq_settles a b
  refine ⟨hsettles.unknown, ?_⟩
  rintro ⟨htrue, hfalse⟩
  cases hanswer : a.identityEq b with
  | none => rfl
  | some r =>
      have hboth := (hsettles.certain r hanswer _ htrue).trans (hsettles.certain r hanswer _ hfalse).symm
      cases hboth

lemma identityEq_some_iff (a b : BindingValue heap) (r : Bool) :
    a.identityEq b = some r ↔ ∀ r' ∈ outcomes a b, r' = r := by
  have hsettles := identityEq_settles a b
  refine ⟨hsettles.certain r, fun hall => ?_⟩
  cases hanswer : a.identityEq b with
  | none =>
      obtain ⟨htrue, hfalse⟩ := hsettles.unknown hanswer
      exact absurd ((hall _ htrue).trans (hall _ hfalse).symm) (by decide)
  | some r' =>
      obtain ⟨p, hp⟩ := outcomes_nonempty a b
      rw [← hall p hp, ← hsettles.certain r' hanswer p hp]

/-- **Comparison, grouping and hashing agree.**  The order is total, equality is where it finds no
difference, what is equal feeds a hasher the same bytes, and a comparison is unknown exactly where it depends
on what the nulls stand for: without nulls it is equality.  Paths alone are equal where their order finds no
difference, whichever prefixes they share. -/
theorem comparison_agrees (a b c : BindingValue heap) :
    a.cmp a = .eq
    ∧ a.cmp b = (b.cmp a).swap
    ∧ ((a.cmp b).isLE → (b.cmp a).isLE → a.cmp b = .eq)
    ∧ ((a.cmp b).isLE → (b.cmp c).isLE → (a.cmp c).isLE)
    ∧ ((a.cmp b).isLE ∨ (b.cmp a).isLE)
    ∧ (a.eq b = true ↔ a.cmp b = .eq)
    ∧ (a.eq b = true → a.feed = b.feed)
    ∧ (a.identityEq b = none ↔ (∃ a' b', a.Fills a' ∧ b.Fills b' ∧ a'.eq b' = true)
      ∧ ∃ a' b', a.Fills a' ∧ b.Fills b' ∧ a'.eq b' = false)
    ∧ (∀ r, a.identityEq b = some r ↔ ∀ a' b', a.Fills a' → b.Fills b' → a'.eq b' = r)
    ∧ (a.NullFree → b.NullFree → a.identityEq b = some (a.eq b))
    ∧ ∀ p q : PathRef heap, (p.eq q = true ↔ p.cmp q = .eq) ∧ (p.eq q = true → p.feed = q.feed) := by
  refine ⟨?_, ?_, ?_, ?_, ?_, ?_, ?_, identityEq_none_iff a b, ?_, ?_, ?_⟩
  · rw [cmp_eq]
    exact Std.ReflCmp.compare_self
  · rw [cmp_eq, cmp_eq]
    exact Std.OrientedCmp.eq_swap
  · rw [cmp_eq, cmp_eq]
    exact Std.OrientedCmp.isLE_antisymm
  · rw [cmp_eq, cmp_eq, cmp_eq]
    exact Std.TransCmp.isLE_trans
  · have hswap : a.key.cmp b.key = (b.key.cmp a.key).swap := Std.OrientedCmp.eq_swap
    rw [cmp_eq, cmp_eq, hswap]
    cases b.key.cmp a.key
    · exact Or.inr rfl
    · exact Or.inl rfl
    · exact Or.inl rfl
  · rw [eq, beq_iff_eq]
  · exact fun h => feed_eq (eq_iff_key.1 h)
  · intro r
    rw [identityEq_some_iff]
    constructor
    · intro h a' b' ha hb
      exact h _ ⟨a', b', ha, hb, rfl⟩
    · rintro h r' ⟨a', b', ha, hb, rfl⟩
      exact h a' b' ha hb
  · intro ha hb
    rw [identityEq_some_iff]
    rintro r ⟨a', b', hfa, hfb, rfl⟩
    rw [ha.fills_iff.1 hfa, hb.fills_iff.1 hfb]
  · intro p q
    refine ⟨PathRef.eq_iff p q, fun h => PathRef.feed_eq ?_⟩
    rw [PathRef.eq_iff, PathRef.cmp_eq] at h
    exact Std.LawfulEqCmp.compare_eq_iff_eq.1 h

end BindingValue

end Engine.Grouping
