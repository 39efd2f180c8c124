import Mathlib.Data.List.Pairwise
import Mathlib.Data.List.Perm.Subperm
import Clausal.Distinct

/-!
# Clausal.Proofs.Distinct — what a list without repetition keeps

* `firsts R xs`: the elements of `xs` that stand in the relation `R` to no earlier one, in their order.
* `rel_of_mem_firsts`: in a list in order they come before the others that they stand for.
* `exists_mem_firsts`: where `R` is an equivalence, each element of `xs` has one of them to stand for it;
  `exists_mem_firsts_iff`, `forall_mem_firsts_iff` say what follows for a property that `R` respects.
* `Distinct.union_eq_append`, `Distinct.ofList_eq_firsts`: where the equality test decides a transitive relation, the
  set operations keep just these elements.
* `Distinct.erase_eq_filter`: from such a list all elements equal to the one named are taken away.
* `Distinct.sameMembers_eq_true`: the test on two such lists asks whether they stand for the same elements.
-/

namespace Clausal

variable {α β : Type} {R S : α → α → Prop} {xs ys : List α} {x y : α}

/-! ## First elements -/

section Firsts

open Classical in
/-- `xs` without the elements to which an earlier one stands in the relation `R`. -/
noncomputable def firsts (R : α → α → Prop) : List α → List α
  | [] => []
  | x :: xs => x :: (firsts R xs).filter fun y => ¬ R x y

theorem mem_of_mem_firsts (h : y ∈ firsts R xs) : y ∈ xs := by
  induction xs with
  | nil => exact h
  | cons x xs ih =>
    rcases List.mem_cons.mp h with rfl | h
    · exact List.mem_cons_self
    · exact List.mem_cons_of_mem x (ih (List.mem_filter.mp h).1)

theorem firsts_sublist (R : α → α → Prop) (xs : List α) : (firsts R xs).Sublist xs := by
  induction xs with
  | nil => exact .slnil
  | cons x xs ih => exact (List.filter_sublist.trans ih).cons_cons x

theorem firsts_map (R : β → β → Prop) (f : α → β) (xs : List α) :
    firsts R (xs.map f) = (firsts (fun a b => R (f a) (f b)) xs).map f := by
  induction xs with
  | nil => rfl
  | cons x xs ih => rw [List.map_cons, firsts, ih, List.filter_map, firsts, List.map_cons]; rfl

theorem firsts_congr (h : ∀ a ∈ xs, ∀ b ∈ xs, (R a b ↔ S a b)) : firsts R xs = firsts S xs := by
  induction xs with
  | nil => rfl
  | cons x xs ih =>
    have hrest : firsts R xs = firsts S xs :=
      ih fun a ha b hb => h a (List.mem_cons_of_mem x ha) b (List.mem_cons_of_mem x hb)
    rw [firsts, firsts, hrest]
    congr 1
    refine List.filter_congr fun y hy => ?_
    have hxy := h x List.mem_cons_self y (List.mem_cons_of_mem x (mem_of_mem_firsts hy))
    exact decide_eq_decide.mpr (not_congr hxy)

theorem pairwise_firsts (R : α → α → Prop) (xs : List α) : (firsts R xs).Pairwise fun a b => ¬ R a b := by
  induction xs with
  | nil => exact .nil
  | cons x xs ih =>
    refine .cons (fun y hy => ?_) (ih.filter _)
    simpa using (List.mem_filter.mp hy).2

/-- In a list in order, an element that is kept comes before all others that it stands for. -/
theorem rel_of_mem_firsts (hsymm : ∀ a b, R a b → R b a) (hxs : xs.Pairwise S) (hx : x ∈ firsts R xs) (hy : y ∈ xs)
    (hxy : R x y) : x = y ∨ S x y := by
  induction hxs with
  | nil => cases hy
  | @cons z xs hz hxs ih =>
    rcases List.mem_cons.mp hx with rfl | hx
    · rcases List.mem_cons.mp hy with rfl | hy
      · exact .inl rfl
      · exact .inr (hz y hy)
    · obtain ⟨hx, hzx⟩ := List.mem_filter.mp hx
      rcases List.mem_cons.mp hy with rfl | hy
      · exact absurd (hsymm x y hxy) (by simpa using hzx)
      · exact ih hx hy

/-- An element that is left out has an earlier one to stand for it. -/
theorem exists_mem_firsts (hR : Equivalence R) (h : x ∈ xs) : ∃ y ∈ firsts R xs, R y x := by
  induction xs with
  | nil => cases h
  | cons z xs ih =>
    rcases List.mem_cons.mp h with rfl | h
    · exact ⟨x, List.mem_cons_self, hR.refl x⟩
    · obtain ⟨y, hy, hyx⟩ := ih h
      by_cases hzy : R z y
      · exact ⟨z, List.mem_cons_self, hR.trans hzy hyx⟩
      · exact ⟨y, List.mem_cons_of_mem z (List.mem_filter.mpr ⟨hy, by simpa using hzy⟩), hyx⟩

theorem exists_mem_firsts_iff (hR : Equivalence R) {p : α → Prop} (hp : ∀ a ∈ xs, ∀ b ∈ xs, R a b → (p a ↔ p b)) :
    (∃ x ∈ firsts R xs, p x) ↔ ∃ x ∈ xs, p x := by
  constructor
  · rintro ⟨x, hx, hpx⟩
    exact ⟨x, mem_of_mem_firsts hx, hpx⟩
  · rintro ⟨x, hx, hpx⟩
    obtain ⟨y, hy, hyx⟩ := exists_mem_firsts hR hx
    exact ⟨y, hy, (hp y (mem_of_mem_firsts hy) x hx hyx).mpr hpx⟩

theorem forall_mem_firsts_iff (hR : Equivalence R) {p : α → Prop} (hp : ∀ a ∈ xs, ∀ b ∈ xs, R a b → (p a ↔ p b)) :
    (∀ x ∈ firsts R xs, p x) ↔ ∀ x ∈ xs, p x := by
  constructor
  · intro hall x hx
    obtain ⟨y, hy, hyx⟩ := exists_mem_firsts hR hx
    exact (hp y (mem_of_mem_firsts hy) x hx hyx).mp (hall y hy)
  · exact fun hall x hx => hall x (mem_of_mem_firsts hx)

/-- A test that `R` respects does not ask which one stands for the others. -/
theorem firsts_filter {p : α → Bool} (hp : ∀ a b, R a b → p a = p b) :
    firsts R (xs.filter p) = (firsts R xs).filter p := by
  induction xs with
  | nil => rfl
  | cons x xs ih =>
    cases hx : p x with
    | true =>
      rw [List.filter_cons_of_pos hx, firsts, ih, firsts, List.filter_cons_of_pos hx, List.filter_filter,
        List.filter_filter]
      exact congrArg _ (List.filter_congr fun y _ => Bool.and_comm _ _)
    | false =>
      have hx' : ¬ p x = true := by simp [hx]
      rw [List.filter_cons_of_neg hx', ih, firsts, List.filter_cons_of_neg hx', List.filter_filter]
      refine List.filter_congr fun y _ => ?_
      cases hy : p y with
      | false => rfl
      | true =>
        have hxy : ¬ R x y := fun hR => by simp [hp x y hR, hy] at hx
        simp [hxy]

theorem firsts_of_pairwise (h : xs.Pairwise fun a b => ¬ R a b) : firsts R xs = xs := by
  induction h with
  | nil => rfl
  | cons hx _ ih =>
    rw [firsts, ih, List.filter_eq_self.mpr]
    intro y hy
    simpa using hx y hy

end Firsts

/-! ## Sets up to a test -/

namespace Distinct

variable {eq : α → α → Bool} {P : α → Prop}

/-- The test decides the relation, which is transitive, on the elements that satisfy `P`. -/
structure Decides (eq : α → α → Bool) (R : α → α → Prop) (P : α → Prop) : Prop where
  iff : ∀ {a b}, P a → P b → (eq a b = true ↔ R a b)
  trans : ∀ {a b c}, R a b → R b c → R a c

theorem mem_eq_true (h : Decides eq R P) (hxs : ∀ x ∈ xs, P x) (hy : P y) : mem eq xs y = true ↔ ∃ x ∈ xs, R x y := by
  rw [mem, List.any_eq_true]
  exact exists_congr fun x => and_congr_right fun hx => h.iff (hxs x hx) hy

open Classical in
/-- A union keeps the first list and, of the second one, what no earlier element stands for. -/
theorem union_eq_append (h : Decides eq R P) (hxs : ∀ x ∈ xs, P x) (hys : ∀ y ∈ ys, P y) :
    union eq xs ys = xs ++ (firsts R ys).filter fun y => ∀ x ∈ xs, ¬ R x y := by
  induction ys generalizing xs with
  | nil => exact (List.append_nil xs).symm
  | cons y ys ih =>
    obtain ⟨hy, hys⟩ := List.forall_mem_cons.mp hys
    have hmem := mem_eq_true h hxs hy
    have hstep : union eq xs (y :: ys) = union eq (insert eq xs y) ys := rfl
    rw [hstep, insert, firsts, List.filter_cons, List.filter_filter]
    by_cases hold : ∃ x ∈ xs, R x y
    · -- what `y` stands for, the earlier element stands for too
      rw [if_pos (hmem.mpr hold), ih hxs hys, if_neg (by simpa using hold)]
      congr 1
      refine List.filter_congr fun z _ => ?_
      obtain ⟨x, hx, hxy⟩ := hold
      rw [Bool.eq_iff_iff, Bool.and_eq_true, decide_eq_true_eq, decide_eq_true_eq]
      exact ⟨fun hnone => ⟨hnone, fun hyz => hnone x hx (h.trans hxy hyz)⟩, And.left⟩
    · have hall : ∀ x ∈ xs ++ [y], P x :=
        List.forall_mem_append.mpr ⟨hxs, List.forall_mem_singleton.mpr hy⟩
      rw [if_neg (mt hmem.mp hold), ih hall hys, if_pos (by simpa using hold), List.append_assoc,
        List.singleton_append]
      congr 2
      refine List.filter_congr fun z _ => ?_
      rw [Bool.eq_iff_iff, Bool.and_eq_true, decide_eq_true_eq, decide_eq_true_eq, decide_eq_true_eq,
        List.forall_mem_append, List.forall_mem_singleton]

/-- A union repeats nothing if its first list does not. -/
theorem pairwise_union (h : Decides eq R P) (hxs : ∀ x ∈ xs, P x) (hys : ∀ y ∈ ys, P y)
    (hpair : xs.Pairwise fun a b => ¬ R a b) : (union eq xs ys).Pairwise fun a b => ¬ R a b := by
  rw [union_eq_append h hxs hys, List.pairwise_append]
  refine ⟨hpair, (pairwise_firsts R ys).filter _, fun x hx y hy => ?_⟩
  have hnone : ∀ x ∈ xs, ¬ R x y := by simpa using (List.mem_filter.mp hy).2
  exact hnone x hx

theorem ofList_eq_firsts (h : Decides eq R P) (hys : ∀ y ∈ ys, P y) : ofList eq ys = firsts R ys := by
  have hnil : ∀ x ∈ ([] : List α), P x := fun x hx => (nomatch hx)
  rw [ofList, union_eq_append h hnil hys, List.nil_append]
  exact List.filter_eq_self.mpr fun y _ => by simp

theorem ofList_append (eq : α → α → Bool) (xs ys : List α) : ofList eq (xs ++ ys) = union eq (ofList eq xs) ys :=
  List.foldl_append

/-- A union does not ask for the repetitions of its second list. -/
theorem union_ofList (h : Decides eq R P) (hxs : ∀ x ∈ xs, P x) (hys : ∀ y ∈ ys, P y) :
    union eq (ofList eq xs) (ofList eq ys) = ofList eq (xs ++ ys) := by
  have hfirsts : ∀ zs : List α, (∀ z ∈ zs, P z) → ∀ z ∈ firsts R zs, P z :=
    fun zs hzs z hz => hzs z (mem_of_mem_firsts hz)
  rw [ofList_append, ofList_eq_firsts h hxs, ofList_eq_firsts h hys,
    union_eq_append h (hfirsts xs hxs) (hfirsts ys hys), firsts_of_pairwise (pairwise_firsts R ys),
    union_eq_append h (hfirsts xs hxs) hys]

/-- A list that repeats nothing is added as it is. -/
theorem ofList_of_pairwise (h : Decides eq R P) (hys : ∀ y ∈ ys, P y) (hpair : ys.Pairwise fun a b => ¬ R a b) :
    ofList eq ys = ys := by
  rw [ofList_eq_firsts h hys, firsts_of_pairwise hpair]

/-- From a list that repeats nothing, all elements that `y` stands for are taken away with the first one. -/
theorem erase_eq_filter (h : Decides eq R P) (hR : Equivalence R) (hxs : ∀ x ∈ xs, P x) (hy : P y)
    (hpair : xs.Pairwise fun a b => ¬ R a b) : erase eq xs y = xs.filter fun x => !eq x y := by
  induction xs with
  | nil => rfl
  | cons x xs ih =>
    obtain ⟨hx, hxs⟩ := List.forall_mem_cons.mp hxs
    obtain ⟨hfirst, hpair⟩ := List.pairwise_cons.mp hpair
    cases hxy : eq x y with
    | true =>
      -- an element equal to `y` is equal to `x`, so it cannot come later
      have hrest : ∀ z ∈ xs, eq z y = false := by
        intro z hz
        rw [Bool.eq_false_iff]
        intro hzy
        exact hfirst z hz (hR.trans ((h.iff hx hy).mp hxy) (hR.symm ((h.iff (hxs z hz) hy).mp hzy)))
      rw [erase, List.eraseP_cons, hxy, cond_true, List.filter_cons_of_neg (by simp [hxy]), List.filter_eq_self.mpr]
      exact fun z hz => by simp [hrest z hz]
    | false =>
      rw [erase, List.eraseP_cons, hxy, cond_false, List.filter_cons_of_pos (by simp [hxy])]
      exact congrArg _ (ih hxs hpair)

/-- Two lists that repeat nothing pass the test just if each stands for the elements that the other one stands for. -/
theorem sameMembers_eq_true (h : Decides eq R P) (hR : Equivalence R) (hxs : ∀ x ∈ xs, P x) (hys : ∀ y ∈ ys, P y)
    (hxpair : xs.Pairwise fun a b => ¬ R a b) (hypair : ys.Pairwise fun a b => ¬ R a b) :
    sameMembers eq xs ys = true ↔ ∀ z, (∃ x ∈ xs, R x z) ↔ ∃ y ∈ ys, R y z := by
  -- as lists of classes they have no repetition, and the test asks for a permutation
  let s : Setoid α := ⟨R, hR⟩
  let toClass : α → Quotient s := Quotient.mk s
  have hnodup : ∀ zs : List α, (zs.Pairwise fun a b => ¬ R a b) → (zs.map toClass).Nodup := by
    intro zs hzs
    exact hzs.map toClass fun a b hab heq => hab (Quotient.exact heq)
  have hclass : ∀ (zs : List α) (z : α), toClass z ∈ zs.map toClass ↔ ∃ x ∈ zs, R x z := by
    intro zs z
    rw [List.mem_map]
    exact exists_congr fun x => and_congr_right fun _ => ⟨Quotient.exact, fun hxz => Quotient.sound hxz⟩
  have hmem : ∀ x ∈ xs, (mem eq ys x = true ↔ ∃ y ∈ ys, R y x) := fun x hx => mem_eq_true h hys (hxs x hx)
  rw [sameMembers, Bool.and_eq_true, beq_iff_eq, List.all_eq_true]
  constructor
  · rintro ⟨hlength, hall⟩ z
    have hsub : xs.map toClass ⊆ ys.map toClass := by
      intro q hq
      obtain ⟨x, hx, rfl⟩ := List.mem_map.mp hq
      exact (hclass ys x).mpr ((hmem x hx).mp (hall x hx))
    have hperm := (List.subperm_of_subset (hnodup xs hxpair) hsub).perm_of_length_le (by simp [hlength])
    rw [← hclass, ← hclass, hperm.mem_iff]
  · intro hsame
    have hperm : (xs.map toClass).Perm (ys.map toClass) := by
      refine (List.perm_ext_iff_of_nodup (hnodup xs hxpair) (hnodup ys hypair)).mpr fun q => ?_
      obtain ⟨z, rfl⟩ := Quotient.exists_rep q
      rw [hclass, hclass, hsame]
    have hlength : xs.length = ys.length := by simpa using hperm.length_eq
    exact ⟨hlength, fun x hx => (hmem x hx).mpr ((hsame x).mp ⟨x, hx, hR.refl x⟩)⟩

end Distinct

end Clausal
