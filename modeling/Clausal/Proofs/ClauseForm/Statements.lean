import Clausal.Proofs.ClauseForm.Product

/-!
# Clausal.Proofs.ClauseForm.Statements — a formula and its statements

A formula can be simplified to one formula without free clauses, or taken apart into statements; then each statement has
its clauses, or the formula has them as a whole.

* `isFreeClauseFree_flatten`: no free clause is left, also where the denial of one goes through the normal form again.
* `simplify_eq_none_iff`, `simplify_eq_some_iff`, `simplify_eq_error_iff`: the outcomes of simplification.
* `Term.SimplifiedFaithfully`: what the outcomes should say of the formula; `simplify_faithful_iff` says that they do so
  of every formula but one, the denial of the empty free clause.
* `simplify_eq_conjunction`: of every other formula, the simplified form is the conjunction of the statements.
* `gather_statementClauses`: the clauses of the statements, gathered in order, are the clauses of their conjunction.
* `statementwise_eq_whole`: so the clauses are the same either way, and so is the error.
-/

universe u

namespace Clausal

namespace Term

variable {t u f : Term}

/-! ## Free clauses out -/

section Flatten

@[simp] theorem isFreeClauseFree_negate (t : Term) : t.negate.isFreeClauseFree = t.isFreeClauseFree := by
  cases t <;> rfl

theorem isFreeClauseFree_conn {n : Bool} {c : Connective} {l r : Term} :
    (Term.conn n c l r).isFreeClauseFree = true ↔ l.isFreeClauseFree = true ∧ r.isFreeClauseFree = true := by
  simp [isFreeClauseFree]

/-- The normal form makes no free clause where there was none. -/
theorem isFreeClauseFree_nnf (h : t.isFreeClauseFree = true) (flip : Bool) : (t.nnf flip).isFreeClauseFree = true := by
  induction t using induct generalizing flip with
  | lit n a | var n x | rel n a ts ih | fn n a t ih => cases flip <;> rfl
  | quant n q x t ih =>
    rw [nnf]
    split <;> exact ih h _
  | conn n c l r ihl ihr =>
    obtain ⟨hl, hr⟩ := isFreeClauseFree_conn.mp h
    cases c <;> rw [nnf] <;> split <;> simp [isFreeClauseFree, ihl hl, ihr hr]
  | freeClause n ts ih => cases h

theorem isFreeClauseFree_flatten (h : t.flatten = .ok u) : u.isFreeClauseFree = true := by
  induction t using induct generalizing u with
  | lit n a | var n x | rel n a ts ih | fn n a t ih =>
    cases h
    rfl
  | quant n q x t ih =>
    obtain ⟨u, hu, h⟩ := bind_eq_ok.mp h
    cases h
    show u.isFreeClauseFree = true
    exact ih hu
  | conn n c l r ihl ihr =>
    obtain ⟨l', hl, h⟩ := bind_eq_ok.mp h
    obtain ⟨r', hr, h⟩ := bind_eq_ok.mp h
    cases h
    exact isFreeClauseFree_conn.mpr ⟨ihl hl, ihr hr⟩
  | freeClause n ts ih =>
    obtain ⟨us, hus, h⟩ := bind_eq_ok.mp h
    rw [flattenAll_eq_mapM] at hus
    have hall : ∀ u ∈ us, u.isFreeClauseFree = true := forall_of_mapM hus fun t ht u hu => ih t ht hu
    cases us with
    | nil => cases h
    | cons u us =>
      have hjoin : (joinRight .and u us).isFreeClauseFree = true :=
        joinRight_of_forall (P := fun u => u.isFreeClauseFree = true)
          (fun _ _ hl hr => isFreeClauseFree_conn.mpr ⟨hl, hr⟩) hall
      cases h
      cases n with
      | false => exact hjoin
      | true =>
        rw [if_pos rfl, toNnf_eq]
        exact isFreeClauseFree_nnf (by rwa [isFreeClauseFree_negate]) false

end Flatten

/-! ## Outcomes -/

section Outcomes

/-- A formula other than an empty free clause is simplified by taking its free clauses out. -/
theorem simplify_of_ne (h : ∀ n, t ≠ .freeClause n []) : t.simplify = some <$> t.flatten := by
  rw [simplify.eq_def]
  split
  · next n => exact absurd rfl (h n)
  · rfl

theorem simplify_eq_none_iff : t.simplify = .ok none ↔ ∃ n, t = .freeClause n [] := by
  constructor
  · intro h
    by_contra hne
    rw [simplify_of_ne (not_exists.mp hne)] at h
    cases hflat : t.flatten <;> rw [hflat] at h <;> cases h
  · rintro ⟨n, rfl⟩
    rfl

theorem simplify_eq_some_iff : t.simplify = .ok (some f) ↔ t.flatten = .ok f := by
  by_cases hnil : ∃ n, t = .freeClause n []
  · obtain ⟨n, rfl⟩ := hnil
    constructor <;> nofun
  · rw [simplify_of_ne (not_exists.mp hnil)]
    cases hflat : t.flatten with
    | error e => constructor <;> nofun
    | ok u => exact ⟨fun h => congrArg Except.ok (Option.some.inj (Except.ok.inj h)), fun h => by cases h; rfl⟩

theorem simplify_eq_error_iff {e : FormationError} :
    t.simplify = .error e ↔ e = .emptyFreeClause ∧ t.hasEmptyFreeClause = true ∧ ∀ n, t ≠ .freeClause n [] := by
  by_cases hnil : ∃ n, t = .freeClause n []
  · obtain ⟨n, rfl⟩ := hnil
    exact ⟨nofun, fun h => absurd rfl (h.2.2 n)⟩
  · have hne := not_exists.mp hnil
    obtain ⟨hbad, hgood⟩ := flatten_outcome t
    rw [simplify_of_ne hne]
    cases hempty : t.hasEmptyFreeClause with
    | true =>
      rw [hbad hempty]
      exact ⟨fun h => ⟨(Except.error.inj h).symm, rfl, hne⟩, fun h => by rw [h.1]; rfl⟩
    | false =>
      obtain ⟨u, hu⟩ := hgood hempty
      rw [hu]
      exact ⟨nofun, fun h => nomatch h.2.1⟩

/-- What the simplified form should say: a formula without free clauses says what the formula says, none is only there
for what is true everywhere, and an error has an empty free clause inside the formula for its cause. -/
structure SimplifiedFaithfully (t : Term) : Prop where
  formula : ∀ f, t.simplify = .ok (some f) →
    f.isFreeClauseFree = true ∧ ∀ (D : Type u) (V : Valuation D) (v : String → D), f.IsTrue V v ↔ t.IsTrue V v
  nothing : t.simplify = .ok none → ∀ (D : Type u) (V : Valuation D) (v : String → D), t.IsTrue V v
  failure : ∀ e, t.simplify = .error e →
    e = .emptyFreeClause ∧ t.hasEmptyFreeClause = true ∧ ∀ n, t ≠ .freeClause n []

/-- Simplification says what the formula says, except that it drops the denial of the empty free clause, which is false
everywhere, as if it were the empty free clause itself. -/
theorem simplify_faithful_iff (t : Term) : SimplifiedFaithfully.{u} t ↔ t ≠ .freeClause true [] := by
  constructor
  · rintro h rfl
    exact h.nothing rfl PUnit (fun _ _ => True) (fun _ => ⟨⟩) trivial
  · intro hne
    refine ⟨fun f hf => ?_, fun hnone D V v => ?_, fun e he => simplify_eq_error_iff.mp he⟩
    · have hflat := simplify_eq_some_iff.mp hf
      exact ⟨isFreeClauseFree_flatten hflat, fun D V v => isTrue_flatten hflat v⟩
    · obtain ⟨n, rfl⟩ := simplify_eq_none_iff.mp hnone
      cases n with
      | false => exact trivial
      | true => exact absurd rfl hne

/-- The denial of the empty free clause is false, and simplification finds nothing in it. -/
theorem simplify_drops_denial :
    (Term.freeClause true []).simplify = .ok none ∧
      ∀ (V : Valuation Bool) (v : String → Bool), ¬ (Term.freeClause true []).IsTrue V v :=
  ⟨rfl, fun _ _ h => h trivial⟩

end Outcomes

/-! ## Statement by statement -/

section Statements

/-- The conjunction of a list of formulas, if there are any. -/
def conjunction? : List Term → Option Term
  | [] => none
  | t :: ts => some (joinRight .and t ts)

/-- The simplified form is the conjunction of the statements. -/
theorem simplify_eq_conjunction (h : t ≠ .freeClause true []) : t.simplify = conjunction? <$> t.statements := by
  by_cases hnil : ∃ n, t = .freeClause n []
  · obtain ⟨n, rfl⟩ := hnil
    cases n with
    | false => rfl
    | true => exact absurd rfl h
  · rw [simplify_of_ne (not_exists.mp hnil), statements.eq_def]
    split
    · next ts =>
      -- the members have been flattened, and there are some
      cases ts with
      | nil => exact absurd ⟨false, rfl⟩ hnil
      | cons t ts =>
        rw [flatten, flattenAll]
        cases t.flatten with
        | error e => rfl
        | ok u => cases flattenAll ts <;> rfl
    · cases t.flatten <;> rfl

/-- The clauses of a formula as a whole: those of its simplified form, if there is one. -/
def wholeClauses (t : Term) : Except FormationError KnowledgeBase := do
  match ← t.simplify with
  | some f => f.statementClauses
  | none => return .empty

theorem clauseFormulas_conjoin {ts : List Term} (hne : ts ≠ []) (default : Term) :
    (conjoin default ts).clauseFormulas = ts.flatMap clauseFormulas := by
  cases ts with
  | nil => exact absurd rfl hne
  | cons t ts => exact joinRight_eq_flatMap (fun _ _ => by rw [clauseFormulas]) t ts

/-- A conjunction is distributed conjunct by conjunct. -/
theorem clauseFormulas_distribute_joinRight (t : Term) (ts : List Term) :
    (joinRight .and t ts).distribute.clauseFormulas = (t :: ts).flatMap fun u => u.distribute.clauseFormulas := by
  have hparts : ∀ u : Term, u.distribute.clauseFormulas = (distributedParts u).flatMap clauseFormulas :=
    fun u => clauseFormulas_conjoin (distributedParts_ne_nil u) u
  rw [hparts, joinRight_eq_flatMap (f := distributedParts) (fun _ _ => by rw [distributedParts]), List.flatMap_assoc]
  simp only [hparts]

/-- The clauses of the statements, gathered in order after the clauses `cs`, are those that the statements have
together. -/
theorem gather_statementClauses (us : List Term) (cs : List Clause) :
    List.foldl KnowledgeBase.union (.ofList cs) <$> us.mapM statementClauses =
      (fun ds => KnowledgeBase.ofList (cs ++ ds)) <$>
        (us.flatMap fun u => u.distribute.clauseFormulas).mapM clause := by
  induction us generalizing cs with
  | nil => simp
  | cons u us ih =>
    rw [List.mapM_cons, List.flatMap_cons, List.mapM_append, statementClauses, clauses]
    cases u.distribute.clauseFormulas.mapM clause with
    | error e => rfl
    | ok ds =>
      calc _
        _ = List.foldl KnowledgeBase.union ((KnowledgeBase.ofList cs).union (.ofList ds)) <$>
              us.mapM statementClauses := by cases us.mapM statementClauses <;> rfl
        _ = (fun es => KnowledgeBase.ofList (cs ++ ds ++ es)) <$>
              (us.flatMap fun u => u.distribute.clauseFormulas).mapM clause := by
            rw [KnowledgeBase.union_ofList, ih]
        _ = _ := by
            simp only [List.append_assoc]
            cases (us.flatMap fun u => u.distribute.clauseFormulas).mapM clause <;> rfl

/-- The clauses of a formula gathered from its statements are those of the formula as a whole, in the same order, and
there is the same error where there are none.  This is so for every normal form; of all formulas only the denial of the
empty free clause is an exception. -/
theorem statementwise_eq_whole (t : Term) :
    (t.isNnf = true → t.matrixClauses = t.wholeClauses) ∧
      (t.matrixClauses = t.wholeClauses ↔ t ≠ .freeClause true []) := by
  have hwhole : t ≠ .freeClause true [] → t.matrixClauses = t.wholeClauses := by
    intro hne
    rw [matrixClauses, wholeClauses, simplify_eq_conjunction hne]
    cases t.statements with
    | error e => rfl
    | ok us =>
      have hgather := gather_statementClauses us []
      cases us with
      | nil => rfl
      | cons u us =>
        rw [← clauseFormulas_distribute_joinRight] at hgather
        exact hgather
  refine ⟨fun hnnf => hwhole ?_, ?_, hwhole⟩
  · rintro rfl
    cases hnnf
  · rintro h rfl
    cases h

/-- `[a ∨ (b ∧ c); [b ∨ a; [c ∨ a; c]]]`: the clauses of its second member but the last one are those of its first. -/
def overlapping : Term :=
  .freeClause false [.or (.const "a") (.and (.const "b") (.const "c")),
    .freeClause false [.or (.const "b") (.const "a"), .freeClause false [.or (.const "c") (.const "a"), .const "c"]]]

theorem overlapping_statementwise :
    overlapping.isNnf = true ∧ overlapping.isQuantifierFree = true ∧
      overlapping.matrixClauses = overlapping.wholeClauses ∧
      overlapping.wholeClauses = .ok ⟨[⟨false, [.const "a", .const "b"]⟩, ⟨false, [.const "a", .const "c"]⟩,
        ⟨false, [.const "c"]⟩]⟩ :=
  ⟨rfl, rfl, (statementwise_eq_whole overlapping).1 rfl, rfl⟩

end Statements

end Term

end Clausal
