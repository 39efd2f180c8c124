import Clausal.Proofs.ClauseForm.Product

/-!
# Clausal.Proofs.ClauseForm.Recognition — formulas that pass for conjunctions of clauses

The test for conjunctions of clauses and the reading of the clauses are two walks through the formula.

* `clauseFormulas_of_isCnf`: in a formula that passes the test, both come to the same disjunctions.
* `clauses_of_isCnf`: so the clauses can be read off, one for each disjunction, less the repetitions.
* `isTrue_disjunction`: where no disjunction inside another one is negated, the clause says what the disjunction says.
* `Term.KeepsSigns`: no variable is lost because it passes for its negation.
* `recognized_clauses_true_iff`: then the clauses are true just where the formula is.
-/

universe u

namespace Clausal

namespace Term

variable {t d m : Term}

/-! ## Two walks -/

section Walks

theorem isTrue_iff_conjuncts {D : Type u} {V : Valuation D} (t : Term) (v : String → D) :
    t.IsTrue V v ↔ ∀ d ∈ t.conjuncts, d.IsTrue V v := by
  fun_induction conjuncts t with
  | case1 l r ihl ihr => rw [IsTrue, polar_false, Connective.Holds, ihl, ihr, List.forall_mem_append]
  | case2 t => rw [List.forall_mem_singleton]

theorem leaves_eq_flatMap (t : Term) : t.leaves = t.conjuncts.flatMap leaves := by
  fun_induction conjuncts t with
  | case1 l r ihl ihr => rw [leaves, ihl, ihr, List.flatMap_append]
  | case2 t => exact (List.flatMap_singleton leaves t).symm

/-- In a formula that passes the test no conjunction is negated, so the clauses are read off at its conjuncts. -/
theorem clauseFormulas_of_isCnf (h : t.isCnf = true) : t.clauseFormulas = t.conjuncts := by
  rw [isCnf] at h
  fun_induction conjuncts t with
  | case1 l r ihl ihr =>
    rw [List.all_append, Bool.and_eq_true] at h
    rw [clauseFormulas, ihl h.1, ihr h.2]
  | case2 t => exact clauseFormulas_disjunction (by simpa using h)

theorem isDisjunction_of_mem_conjuncts (h : t.isCnf = true) (hd : d ∈ t.conjuncts) : d.isDisjunction = true :=
  List.all_eq_true.mp h d hd

theorem isAtomic_of_mem_leaves (h : d.isDisjunction = true) (hm : m ∈ d.leaves) : m.isAtomic = true := by
  fun_induction isDisjunction d with
  | case1 n l r ihl ihr =>
    rw [Bool.and_eq_true] at h
    rcases List.mem_append.mp hm with hm | hm
    · exact ihl h.1 hm
    · exact ihr h.2 hm
  | case2 d hor =>
    cases d with
    | lit n a | var n x | rel n a ts | fn n a t =>
      obtain rfl := List.mem_singleton.mp hm
      rfl
    | _ => cases h

/-- The clause of a disjunction, with the repetitions among its members. -/
def listed (d : Term) : Clause where
  negated := d.clauseSign
  members := d.leaves

/-- The clauses of a formula that passes the test: those of its disjunctions, less the repetitions in them and of
them. -/
theorem clauses_of_isCnf (h : t.isCnf = true) :
    t.clauses = .ok ⟨firsts Clause.Alike ((t.conjuncts.map listed).map Clause.unrepeated)⟩ := by
  have hclause : ∀ d ∈ t.conjuncts, d.clause = .ok d.listed.unrepeated := by
    intro d hd
    rw [clause_disjunction (isDisjunction_of_mem_conjuncts h hd),
      Distinct.ofList_eq_firsts decides_same_term fun _ _ => trivial]
    rfl
  have hpairs : ∀ c ∈ (t.conjuncts.map listed).map Clause.unrepeated,
      c.members.Pairwise fun a b => ¬ a.same b = true := by
    simp only [List.forall_mem_map]
    exact fun d _ => pairwise_firsts _ d.leaves
  rw [clauses, clauseFormulas_of_isCnf h, mapM_ok hclause, ← Distinct.ofList_eq_firsts Clause.decides_alike hpairs,
    List.map_map]
  rfl

end Walks

/-! ## Truth -/

section Truth

variable {D : Type u} {V : Valuation D} {v : String → D}

theorem isTrue_iff_leaves (h : d.isDisjunction = true) (hnnf : d.isNnf = true) (v : String → D) :
    d.IsTrue V v ↔ ∃ m ∈ d.leaves, m.IsTrue V v := by
  fun_induction isDisjunction d with
  | case1 n l r ihl ihr =>
    rw [Bool.and_eq_true] at h
    obtain ⟨rfl, -, hl, hr⟩ := isNnf_conn.mp hnnf
    rw [IsTrue, polar_false, Connective.Holds, ihl h.1 hl, ihr h.2 hr, leaves]
    simp only [List.mem_append, or_and_right, exists_or]
  | case2 d hor =>
    cases d with
    | lit n a | var n x | rel n a ts | fn n a t => simp [leaves]
    | _ => cases h

/-- A disjunction without negated ones inside says what its clause says, and may be negated as a whole. -/
theorem isTrue_disjunction (h : d.isDisjunction = true) (hinner : d.positive.isNnf = true) (v : String → D) :
    d.listed.IsTrue V v ↔ d.IsTrue V v := by
  cases d with
  | conn n c l r =>
    cases c with
    | or =>
      have hpositive := isTrue_iff_leaves (V := V) (d := .or l r) h hinner v
      exact polar_congr n hpositive.symm
    | _ => cases h
  | lit n a | var n x | rel n a ts | fn n a t => exact (isTrue_iff_leaves h rfl v).symm
  | quant n q x t | freeClause n ts => cases h

/-- Wherever two disjunctions are alike, or a disjunction and itself, no variable stands in one of them negated and in
the other not.  A variable and its negation pass for the same member, and disjunctions with the same members for the
same clause, of which only the first one is kept. -/
def KeepsSigns (t : Term) : Prop :=
  ∀ d ∈ t.conjuncts, ∀ e ∈ t.conjuncts, d.listed.Alike e.listed →
    ∀ x, .var true x ∈ d.leaves → .var false x ∉ e.leaves

/-- The members of like disjunctions that pass for the same are true together. -/
theorem KeepsSigns.isTrue_iff {e a b : Term} (hsigns : t.KeepsSigns) (h : t.isCnf = true)
    (hread : ∀ a ∈ t.leaves, ∀ b ∈ t.leaves, a.positive.same b.positive = true →
      (V a.positive v ↔ V b.positive v))
    (hd : d ∈ t.conjuncts) (he : e ∈ t.conjuncts) (halike : d.listed.Alike e.listed)
    (ha : a ∈ d.leaves) (hb : b ∈ e.leaves) (hsame : a.same b = true) : a.IsTrue V v ↔ b.IsTrue V v := by
  have hmem : ∀ d ∈ t.conjuncts, ∀ m ∈ d.leaves, m ∈ t.leaves := by
    intro d hd m hm
    rw [leaves_eq_flatMap]
    exact List.mem_flatMap.mpr ⟨d, hd, hm⟩
  have hsign : a.isNegated = b.isNegated := by
    refine isNegated_eq_of_same hsame ?_ ?_
    · rintro x rfl rfl
      exact hsigns d hd e he halike x ha hb
    · rintro x rfl rfl
      exact hsigns e he d hd (Clause.alike_equivalence.symm halike) x hb ha
  have hatom := isAtomic_of_mem_leaves (isDisjunction_of_mem_conjuncts h hd) ha
  have hatom' := isAtomic_of_mem_leaves (isDisjunction_of_mem_conjuncts h he) hb
  exact isTrue_congr_of_isAtomic hatom hatom' hsign
    (hread a (hmem d hd a ha) b (hmem e he b hb) (same_positive hsame hsign))

/-- A formula that passes the test has clauses.  If no disjunction inside another one is negated and no variable passes
for its negation, they are true just where the formula is.  Atoms that are the same have to be read alike, unless a
variable is nowhere negated in an argument and they are one tree. -/
theorem recognized_clauses_true_iff (h : t.isCnf = true) :
    ∃ kb, t.clauses = .ok kb ∧
      ((∀ d ∈ t.conjuncts, d.positive.isNnf = true) → t.KeepsSigns →
        ∀ (D : Type u) (V : Valuation D) (v : String → D),
          (∀ m ∈ t.leaves, m.positive.isUnsigned = true) ∨ (∀ a b : Term, a.same b = true → (V a v ↔ V b v)) →
          (kb.IsTrue V v ↔ t.IsTrue V v)) := by
  refine ⟨_, clauses_of_isCnf h, fun hinner hsigns D V v hatoms => ?_⟩
  have hread : ∀ a ∈ t.leaves, ∀ b ∈ t.leaves, a.positive.same b.positive = true →
      (V a.positive v ↔ V b.positive v) := by
    intro a ha b hb hsame
    rcases hatoms with hunsigned | hV
    · rw [eq_of_same (hunsigned a ha) (hunsigned b hb) hsame]
    · exact hV _ _ hsame
  have hcoherent : ∀ c ∈ t.conjuncts.map listed, ∀ c' ∈ t.conjuncts.map listed, c.Alike c' →
      ∀ a ∈ c.members, ∀ b ∈ c'.members, a.same b = true → (a.IsTrue V v ↔ b.IsTrue V v) := by
    simp only [List.forall_mem_map]
    intro d hd e he halike a ha b hb hsame
    exact hsigns.isTrue_iff h hread hd he halike ha hb hsame
  calc (∀ c ∈ firsts Clause.Alike ((t.conjuncts.map listed).map Clause.unrepeated), c.IsTrue V v)
    _ ↔ ∀ c ∈ t.conjuncts.map listed, c.IsTrue V v := Clause.isTrue_unrepeated hcoherent
    _ ↔ ∀ d ∈ t.conjuncts, d.listed.IsTrue V v := List.forall_mem_map
    _ ↔ ∀ d ∈ t.conjuncts, d.IsTrue V v :=
        forall₂_congr fun d hd => isTrue_disjunction (isDisjunction_of_mem_conjuncts h hd) (hinner d hd) v
    _ ↔ t.IsTrue V v := (isTrue_iff_conjuncts t v).symm

/-- `(a ∨ X) ∧ (¬X ∨ b) ∧ ¬(b ∨ p(X)) ∧ (X ∨ a)`: a variable with both signs, a negated disjunction, and a disjunction
that comes twice. -/
def mixed : Term :=
  .and (.or (.const "a") (.var false "X")) (.and (.or (.var true "X") (.const "b"))
    (.and (.conn true .or (.const "b") (.rel false "p" [.var false "X"])) (.or (.var false "X") (.const "a"))))

theorem mixed_keepsSigns : mixed.KeepsSigns := by
  intro d hd e he halike x hx hx'
  have hconj : mixed.conjuncts = [.or (.const "a") (.var false "X"), .or (.var true "X") (.const "b"),
      .conn true .or (.const "b") (.rel false "p" [.var false "X"]), .or (.var false "X") (.const "a")] := rfl
  -- the only disjunction with a negated variable has no member `a`, and those with an un-negated one have
  have ha := halike.2 (.const "a")
  rw [hconj] at hd he
  simp only [List.mem_cons, List.not_mem_nil, or_false] at hd he
  rcases hd with rfl | rfl | rfl | rfl
  · simp [leaves] at hx
  · rcases he with rfl | rfl | rfl | rfl
    · simp [listed, leaves, same] at ha
    · simp [leaves] at hx'
    · simp [leaves] at hx'
    · simp [listed, leaves, same] at ha
  · simp [leaves] at hx
  · simp [leaves] at hx

theorem mixed_clauses_true_iff :
    mixed.isCnf = true ∧ (∀ d ∈ mixed.conjuncts, d.positive.isNnf = true) ∧ mixed.KeepsSigns ∧
      (∀ m ∈ mixed.leaves, m.positive.isUnsigned = true) ∧
      ∃ kb, mixed.clauses = .ok kb ∧
        kb.clauses = [⟨false, [.const "a", .var false "X"]⟩, ⟨false, [.var true "X", .const "b"]⟩,
          ⟨true, [.const "b", .rel false "p" [.var false "X"]]⟩] ∧
        ∀ (V : Valuation Bool) (v : String → Bool), kb.IsTrue V v ↔ mixed.IsTrue V v := by
  have hinner : ∀ d ∈ mixed.conjuncts, d.positive.isNnf = true := by decide
  have hunsigned : ∀ m ∈ mixed.leaves, m.positive.isUnsigned = true := by decide
  obtain ⟨kb, hkb, htruth⟩ := recognized_clauses_true_iff (t := mixed) (by decide)
  refine ⟨by decide, hinner, mixed_keepsSigns, hunsigned, kb, hkb, ?_, fun V v =>
    htruth hinner mixed_keepsSigns Bool V v (.inl hunsigned)⟩
  obtain rfl := Except.ok.inj hkb
  rfl

/-- The formula passes the test, and its clauses say something else in a reading that reads alike what is the same. -/
def Misread (t : Term) : Prop :=
  t.isCnf = true ∧ ∃ kb, t.clauses = .ok kb ∧ ∃ (V : Valuation Unit) (v : String → Unit),
    (∀ a b : Term, a.same b = true → (V a v ↔ V b v)) ∧ ¬ (kb.IsTrue V v ↔ t.IsTrue V v)

/-- A variable and its negation pass for one member of a clause, and their clauses for one clause; the sign of a
disjunction inside another one is lost. -/
theorem signs_misread :
    Misread (.or (.var false "X") (.var true "X")) ∧ Misread (.and (.var false "X") (.var true "X")) ∧
      Misread (.or (.const "a") (.conn true .or (.const "b") (.const "c"))) := by
  refine ⟨⟨rfl, ⟨[⟨false, [.var false "X"]⟩]⟩, rfl, fun _ _ => False, fun _ => (), fun _ _ _ => Iff.rfl, ?_⟩,
    ⟨rfl, ⟨[⟨false, [.var false "X"]⟩]⟩, rfl, fun _ _ => True, fun _ => (), fun _ _ _ => Iff.rfl, ?_⟩,
    ⟨rfl, ⟨[⟨false, [.const "a", .const "b", .const "c"]⟩]⟩, rfl, fun _ _ => False, fun _ => (),
      fun _ _ _ => Iff.rfl, ?_⟩⟩ <;>
    simp [KnowledgeBase.IsTrue, Clause.IsTrue, IsTrue, Connective.Holds, isNegated]

end Truth

end Term

end Clausal
