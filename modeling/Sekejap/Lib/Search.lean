import Mathlib.Tactic

/-!
# Searches

**Forests.**  A search of a forest is given by the list of children of a node.  `Preorder` relates a
list of roots to the nodes met by going through the trees one after another, a node before its
children.  Branches are finite where a measure falls (`acc_of_measure`).  The list holds what can be reached from the roots (`mem_preorder`), and where children
are told apart by a path that grows with every generation no node is met twice (`preorder_nodup`).

**Machines.**  A machine takes turns: a turn goes on, or gives a result and goes on, or ends.
`Gives` relates a state to one it comes to and the results given on the way; `drain` takes turns until
the end.  A machine that comes to its end has been drained (`drain_of_gives`).
-/

namespace Search

/-! ## Forests -/

section Forest

variable {C T : Type*} {children : C → List C} {c d : C} {cs ds l m : List C}

/-- The nodes of the trees, in the order met. -/
inductive Preorder (children : C → List C) : List C → List C → Prop
  | nil : Preorder children [] []
  | cons {c : C} {cs l m : List C} : Preorder children (children c) l → Preorder children cs m →
      Preorder children (c :: cs) (c :: (l ++ m))

/-- One generation down. -/
def Child (children : C → List C) (d c : C) : Prop := d ∈ children c

lemma Preorder.append (h : Preorder children cs l) (h' : Preorder children ds m) :
    Preorder children (cs ++ ds) (l ++ m) := by
  induction h with
  | nil => exact h'
  | cons hc _ _ ih =>
      rw [List.cons_append, List.cons_append, List.append_assoc]
      exact Preorder.cons hc ih

/-- **A measure that falls with every generation leaves no infinite branch.** -/
lemma acc_of_measure {β : Type*} [LT β] [WellFoundedLT β] (P : C → Prop) (measure : C → β)
    (h : ∀ c, P c → ∀ d ∈ children c, P d ∧ measure d < measure c) (hc : P c) :
    Acc (Child children) c := by
  induction hm : measure c using WellFoundedLT.induction generalizing c with
  | ind b ih =>
      subst hm
      refine Acc.intro c fun d hd => ?_
      obtain ⟨hp, hlt⟩ := h c hc d hd
      exact ih (measure d) hlt hp rfl

/-- **What the search meets is what can be reached.** -/
lemma mem_preorder (h : Preorder children cs l) :
    d ∈ l ↔ ∃ c ∈ cs, Relation.ReflTransGen (fun c d => d ∈ children c) c d := by
  induction h with
  | nil => simp
  | @cons c cs l m _ _ ihdown ihnext =>
      simp only [List.mem_cons, List.mem_append, ihdown, ihnext, exists_eq_or_imp]
      rw [← or_assoc]
      refine or_congr ?_ Iff.rfl
      rw [Relation.ReflTransGen.cases_head_iff]
      exact or_congr eq_comm Iff.rfl

/-- The paths of the nodes below a node extend its own. -/
lemma prefix_of_reached {path : C → List T}
    (hpath : ∀ c, ∀ d ∈ children c, ∃ t, path d = path c ++ [t])
    (h : Relation.ReflTransGen (fun c d => d ∈ children c) c d) : path c <+: path d := by
  induction h with
  | refl => exact List.prefix_refl _
  | @tail d e _ hd ih =>
      obtain ⟨t, ht⟩ := hpath d e hd
      rw [ht]
      exact ih.trans (List.prefix_append _ _)

/-- **No path is met twice.** -/
lemma preorder_nodup {path : C → List T} {n : ℕ} (h : Preorder children cs l)
    (hpath : ∀ c, ∀ d ∈ children c, ∃ t, path d = path c ++ [t])
    (hchildren : ∀ c, ((children c).map path).Nodup)
    (hlen : ∀ c ∈ cs, (path c).length = n) (hroots : (cs.map path).Nodup) :
    (l.map path).Nodup := by
  induction h generalizing n with
  | nil => simp
  | @cons c cs l m hdown hnext ihdown ihnext =>
      rw [List.map_cons, List.nodup_cons] at hroots
      have hbelow : ∀ d ∈ children c, (path d).length = (path c).length + 1 := by
        intro d hd
        obtain ⟨t, ht⟩ := hpath c d hd
        simp [ht]
      have hfrom : ∀ d ∈ c :: l, path c <+: path d := by
        rintro d (_ | ⟨_, hd⟩)
        · exact List.prefix_refl _
        · obtain ⟨e, he, hreach⟩ := (mem_preorder hdown).1 hd
          exact prefix_of_reached hpath (.head he hreach)
      have hup : path c ∉ l.map path := by
        rintro hmem
        obtain ⟨d, hd, heq⟩ := List.mem_map.1 hmem
        obtain ⟨e, he, hreach⟩ := (mem_preorder hdown).1 hd
        have hle := (prefix_of_reached hpath hreach).length_le
        rw [hbelow e he, heq] at hle
        omega
      -- a path met in two trees would extend the paths of both roots, which have one length
      have hother : ∀ d ∈ c :: l, path d ∉ m.map path := by
        rintro d hd hmem
        obtain ⟨e, he, heq⟩ := List.mem_map.1 hmem
        obtain ⟨r, hr, hreach⟩ := (mem_preorder hnext).1 he
        have h1 := hfrom d hd
        have h2 := prefix_of_reached hpath hreach
        rw [heq] at h2
        have hsame : path c = path r := by
          rcases List.prefix_or_prefix_of_prefix h1 h2 with h3 | h3
          · exact h3.eq_of_length (by rw [hlen c (by simp), hlen r (by simp [hr])])
          · exact (h3.eq_of_length (by rw [hlen c (by simp), hlen r (by simp [hr])])).symm
        exact hroots.1 (hsame ▸ List.mem_map_of_mem hr)
      rw [List.map_cons, List.map_append, ← List.cons_append, List.nodup_append]
      refine ⟨List.nodup_cons.2 ⟨hup, ihdown (n := (path c).length + 1) hbelow (hchildren c)⟩,
        ihnext (fun r hr => hlen r (by simp [hr])) hroots.2, ?_⟩
      rintro p hp q hq rfl
      rw [← List.map_cons, List.mem_map] at hp
      obtain ⟨d, hd, rfl⟩ := hp
      exact hother d hd hq

end Forest

/-! ## Machines -/

/-- What a turn comes to. -/
inductive Turn (S O : Type*) where
  | going (s : S)
  | gives (o : O) (s : S)
  | ends

section Machine

variable {S O E : Type*} {turn : S → Except E (Turn S O)} {s s' s'' : S} {o : O} {os os' : List O}

/-- A state comes to another, giving results on the way. -/
inductive Gives (turn : S → Except E (Turn S O)) : S → List O → S → Prop
  | refl (s : S) : Gives turn s [] s
  | going {s s' s'' : S} {os : List O} : turn s = .ok (.going s') → Gives turn s' os s'' →
      Gives turn s os s''
  | gives {s s' s'' : S} {o : O} {os : List O} : turn s = .ok (.gives o s') → Gives turn s' os s'' →
      Gives turn s (o :: os) s''

lemma Gives.trans (h : Gives turn s os s') (h' : Gives turn s' os' s'') :
    Gives turn s (os ++ os') s'' := by
  induction h with
  | refl => exact h'
  | going ht _ ih => exact .going ht (ih h')
  | gives ht _ ih => exact .gives ht (ih h')

/-- A state is brought to another by one turn. -/
lemma Gives.once (h : turn s = .ok (.going s')) : Gives turn s [] s' := .going h (.refl s')

/-- Turns until the end: the results, and the error if one stopped the machine. -/
def drain (turn : S → Except E (Turn S O)) : ℕ → S → Option (List O × Option E)
  | 0, _ => none
  | n + 1, s =>
      match turn s with
      | .error e => some ([], some e)
      | .ok .ends => some ([], none)
      | .ok (.going s) => drain turn n s
      | .ok (.gives o s) => (drain turn n s).map fun r => (o :: r.1, r.2)

/-- **A machine that comes to its end has been drained.** -/
lemma drain_of_gives {r : List O × Option E} {n : ℕ} (h : Gives turn s os s')
    (hr : drain turn n s' = some r) : ∃ n, drain turn n s = some (os ++ r.1, r.2) := by
  induction h with
  | refl => exact ⟨n, by simpa using hr⟩
  | going ht _ ih =>
      obtain ⟨n, hn⟩ := ih hr
      exact ⟨n + 1, by simpa [drain, ht] using hn⟩
  | gives ht _ ih =>
      obtain ⟨n, hn⟩ := ih hr
      exact ⟨n + 1, by simp [drain, ht, hn]⟩

end Machine

/-! ## Results once -/

section Fresh

variable {O : Type*} [DecidableEq O] {once : Bool} {seen os os' : List O} {o : O}

/-- The results that have not been given, where each is to be given once. -/
def fresh (once : Bool) : List O → List O → List O
  | _, [] => []
  | seen, o :: os =>
      if once = true ∧ o ∈ seen then fresh once seen os else o :: fresh once (o :: seen) os

/-- What has been given after some results. -/
def given (once : Bool) (seen os : List O) : List O :=
  if once then (fresh once seen os).reverse ++ seen else seen

@[simp] lemma fresh_false (seen os : List O) : fresh false seen os = os := by
  induction os generalizing seen with
  | nil => rfl
  | cons o os ih => simp [fresh, ih]

lemma fresh_append (once : Bool) (seen os os' : List O) :
    fresh once seen (os ++ os') = fresh once seen os ++ fresh once (given once seen os) os' := by
  cases once with
  | false => simp
  | true =>
      induction os generalizing seen with
      | nil => simp [fresh, given]
      | cons o os ih =>
          simp only [given, if_true] at ih ⊢
          rw [List.cons_append, fresh, fresh]
          split_ifs
          · exact ih seen
          · rw [ih, List.cons_append, List.reverse_cons, List.append_assoc, List.singleton_append]

lemma given_append (once : Bool) (seen os os' : List O) :
    given once seen (os ++ os') = given once (given once seen os) os' := by
  cases once with
  | false => simp [given]
  | true =>
      have := fresh_append true seen os os'
      simp only [given, if_true] at this ⊢
      rw [this, List.reverse_append, List.append_assoc]

lemma mem_fresh : o ∈ fresh true seen os ↔ o ∈ os ∧ o ∉ seen := by
  induction os generalizing seen with
  | nil => simp [fresh]
  | cons p os ih =>
      rw [fresh]
      split_ifs with h
      · rw [ih, List.mem_cons]
        constructor
        · rintro ⟨ho, hn⟩
          exact ⟨Or.inr ho, hn⟩
        · rintro ⟨rfl | ho, hn⟩
          · exact absurd h.2 hn
          · exact ⟨ho, hn⟩
      · simp only [true_and] at h
        rw [List.mem_cons, List.mem_cons, ih, List.mem_cons, not_or]
        by_cases heq : o = p
        · subst heq
          simp [h]
        · simp [heq]

/-- **A result given once is given once.** -/
lemma fresh_nodup (seen os : List O) : (fresh true seen os).Nodup := by
  induction os generalizing seen with
  | nil => simp [fresh]
  | cons o os ih =>
      rw [fresh]
      split_ifs
      · exact ih seen
      · refine List.nodup_cons.2 ⟨fun h => ?_, ih _⟩
        exact (mem_fresh.1 h).2 List.mem_cons_self

end Fresh

end Search
