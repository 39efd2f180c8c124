import Clausal.Proofs.ClauseForm.Outline

/-!
# Clausal.Proofs.ClauseForm.Outcome — when a formula has a clause form

Each pass makes the shape that the next one needs, so the only thing that can go wrong is a free clause without members
inside a formula.

* `Term.flatten_outcome`: the pass that takes free clauses out fails exactly if one of them is empty.
* `Term.AndOr`, `Term.Distributed`: what is left then, and what distribution makes of it.
* `exists_clause`: a disjunction of atomic terms is read off as a clause.
* `exists_matrixClauses`: without an empty free clause, a quantifier-free normal form has clauses, and they are proper.
* `statements_eq_error`: with one inside, it has none.
* `clauseForm_outcome`: the outcome for a well-formed formula.
-/

namespace Clausal

/-! ## Lists of computations -/

section Failure

variable {ε α β : Type} {f : α → Except ε β} {xs : List α}

theorem exists_mapM {q : β → Prop} (h : ∀ x ∈ xs, ∃ y, f x = .ok y ∧ q y) :
    ∃ ys, xs.mapM f = .ok ys ∧ ∀ y ∈ ys, q y := by
  induction xs with
  | nil => exact ⟨[], rfl, List.forall_mem_nil _⟩
  | cons x xs ih =>
    obtain ⟨⟨y, hy, hq⟩, hxs⟩ := List.forall_mem_cons.mp h
    obtain ⟨ys, hys, hall⟩ := ih hxs
    refine ⟨y :: ys, ?_, List.forall_mem_cons.mpr ⟨hq, hall⟩⟩
    rw [List.mapM_cons, hy, hys]
    rfl

/-- Where there is one error only, it does not matter which element has it. -/
theorem mapM_eq_error {e : ε} (h : ∀ x ∈ xs, f x = .error e ∨ ∃ y, f x = .ok y) (hbad : ∃ x ∈ xs, f x = .error e) :
    xs.mapM f = .error e := by
  induction xs with
  | nil => simp at hbad
  | cons x xs ih =>
    obtain ⟨hx, hxs⟩ := List.forall_mem_cons.mp h
    rw [List.mapM_cons]
    rcases hx with hx | ⟨y, hy⟩
    · rw [hx]
      rfl
    · have hrest : ∃ x ∈ xs, f x = .error e := by
        obtain ⟨z, hz, herror⟩ := hbad
        rcases List.mem_cons.mp hz with rfl | hz
        · rw [hy] at herror
          cases herror
        · exact ⟨z, hz, herror⟩
      rw [hy, ih hxs hrest]
      rfl

end Failure

namespace Term

/-! ## Free clauses out -/

section Flatten

/-- A list of formulas each of which fails exactly if an empty free clause stands in it. -/
theorem flattenAll_outcome {ts : List Term}
    (h : ∀ t ∈ ts, (t.hasEmptyFreeClause = true → t.flatten = .error .emptyFreeClause) ∧
      (t.hasEmptyFreeClause = false → ∃ u, t.flatten = .ok u)) :
    (ts.any hasEmptyFreeClause = true → flattenAll ts = .error .emptyFreeClause) ∧
      (ts.any hasEmptyFreeClause = false → ∃ us, flattenAll ts = .ok us ∧ (us = [] → ts = [])) := by
  rw [flattenAll_eq_mapM]
  constructor
  · intro hany
    obtain ⟨t, ht, hempty⟩ := List.any_eq_true.mp hany
    refine mapM_eq_error (fun t ht => ?_) ⟨t, ht, (h t ht).1 hempty⟩
    cases hempty : t.hasEmptyFreeClause with
    | true => exact .inl ((h t ht).1 hempty)
    | false => exact .inr ((h t ht).2 hempty)
  · intro hnone
    rw [List.any_eq_false] at hnone
    obtain ⟨us, hus, -⟩ := exists_mapM (q := fun _ => True) fun t ht => by
      obtain ⟨u, hu⟩ := (h t ht).2 (Bool.eq_false_iff.mpr (hnone t ht))
      exact ⟨u, hu, trivial⟩
    refine ⟨us, hus, ?_⟩
    rintro rfl
    rw [List.eq_nil_iff_forall_not_mem]
    intro t ht
    obtain ⟨u, hu, -⟩ := (mapM_eq_ok hus).1 t ht
    cases hu

/-- Taking free clauses out fails exactly if one of them is empty. -/
theorem flatten_outcome (t : Term) :
    (t.hasEmptyFreeClause = true → t.flatten = .error .emptyFreeClause) ∧
      (t.hasEmptyFreeClause = false → ∃ u, t.flatten = .ok u) := by
  induction t using induct with
  | lit n a | var n x | rel n a ts ih | fn n a t ih =>
    refine ⟨fun h => ?_, fun _ => ⟨_, rfl⟩⟩
    cases h
  | quant n q x t ih =>
    constructor
    · intro h
      rw [flatten, ih.1 h]
      rfl
    · intro h
      obtain ⟨u, hu⟩ := ih.2 h
      exact ⟨.quant n q x u, by rw [flatten, hu]; rfl⟩
  | conn n c l r ihl ihr =>
    rw [hasEmptyFreeClause]
    cases hl : l.hasEmptyFreeClause with
    | true =>
      constructor
      · intro _
        rw [flatten, ihl.1 hl]
        rfl
      · intro h
        cases h
    | false =>
      obtain ⟨l', hl'⟩ := ihl.2 hl
      constructor
      · intro h
        rw [flatten, hl', ihr.1 h]
        rfl
      · intro h
        obtain ⟨r', hr'⟩ := ihr.2 h
        exact ⟨.conn n c l' r', by rw [flatten, hl', hr']; rfl⟩
  | freeClause n ts ih =>
    obtain ⟨hbad, hgood⟩ := flattenAll_outcome ih
    rw [hasEmptyFreeClause, anyEmptyFreeClause_eq_any, flatten]
    constructor
    · intro h
      by_cases hany : ts.any hasEmptyFreeClause = true
      · rw [hbad hany]
        rfl
      · -- then it is the clause itself that is empty
        obtain rfl : ts = [] := by simpa [hany] using h
        rfl
    · intro h
      rw [Bool.or_eq_false_iff] at h
      obtain ⟨us, hus, hne⟩ := hgood h.2
      cases us with
      | nil =>
        rw [hne rfl] at h
        cases h.1
      | cons u us => exact ⟨_, by rw [hus]; rfl⟩

/-- Built from atomic terms by `∧` and `∨`. -/
inductive AndOr : Term → Prop where
  | atom {t : Term} : t.isAtomic = true → AndOr t
  | and {l r : Term} : AndOr l → AndOr r → AndOr (.conn false .and l r)
  | or {l r : Term} : AndOr l → AndOr r → AndOr (.conn false .or l r)

theorem AndOr.joinRight {t : Term} {ts : List Term} (h : ∀ u ∈ t :: ts, AndOr u) : AndOr (joinRight .and t ts) :=
  joinRight_of_forall (P := AndOr) (fun _ _ => .and) h

/-- A quantifier-free normal form without its free clauses is built by `∧` and `∨`. -/
theorem andOr_flatten {t u : Term} (ht : t.isNnf = true) (hfree : t.isQuantifierFree = true)
    (h : t.flatten = .ok u) : AndOr u := by
  induction t using induct generalizing u with
  | lit n a | var n x | rel n a ts ih | fn n a t ih =>
    cases h
    exact .atom rfl
  | quant n q x t ih => cases hfree
  | conn n c l r ihl ihr =>
    obtain ⟨l', hl, h⟩ := bind_eq_ok.mp h
    obtain ⟨r', hr, h⟩ := bind_eq_ok.mp h
    cases h
    obtain ⟨rfl, hc, htl, htr⟩ := isNnf_conn.mp ht
    rw [isQuantifierFree, Bool.and_eq_true] at hfree
    rcases hc with rfl | rfl
    · exact .and (ihl htl hfree.1 hl) (ihr htr hfree.2 hr)
    · exact .or (ihl htl hfree.1 hl) (ihr htr hfree.2 hr)
  | freeClause n ts ih =>
    obtain ⟨us, hus, h⟩ := bind_eq_ok.mp h
    obtain ⟨rfl, hmembers⟩ := isNnf_freeClause.mp ht
    rw [isQuantifierFree, areQuantifierFree_eq_true] at hfree
    rw [flattenAll_eq_mapM] at hus
    have hall : ∀ u ∈ us, AndOr u :=
      forall_of_mapM hus fun t hmem u heq => ih t hmem (hmembers t hmem) (hfree t hmem) heq
    cases us with
    | nil => cases h
    | cons u us =>
      cases h
      exact .joinRight hall

end Flatten

/-! ## Distribution -/

section Distribute

variable {l r t : Term}

/-- A conjunction of disjunctions of atomic terms, none of them negated as a whole. -/
inductive Distributed : Term → Prop where
  | clause {t : Term} : t.isDisjunction = true → t.isNnf = true → Distributed t
  | and {l r : Term} : Distributed l → Distributed r → Distributed (.conn false .and l r)

theorem disjoinOver_disjunction (l : Term) (hr : r.isDisjunction = true) : disjoinOver l r = .conn false .or l r := by
  cases r with
  | conn n c a b =>
    cases c with
    | and => cases hr
    | _ => rfl
  | _ => rfl

theorem disjoin_disjunction (r : Term) (hl : l.isDisjunction = true) : disjoin l r = disjoinOver l r := by
  cases l with
  | conn n c a b =>
    cases c with
    | and => cases hl
    | _ => rfl
  | _ => rfl

theorem Distributed.disjoinOver (hl : l.isDisjunction = true) (hnnf : l.isNnf = true) (hr : Distributed r) :
    Distributed (disjoinOver l r) := by
  induction hr with
  | @clause r hr hr' =>
    rw [disjoinOver_disjunction l hr]
    refine .clause ?_ (isNnf_conn.mpr ⟨rfl, .inr rfl, hnnf, hr'⟩)
    rw [isDisjunction, hl, hr, Bool.and_self]
  | and _ _ ihb ihc => exact .and ihb ihc

theorem Distributed.disjoin (hl : Distributed l) (hr : Distributed r) : Distributed (disjoin l r) := by
  induction hl with
  | clause hl hl' =>
    rw [disjoin_disjunction r hl]
    exact hr.disjoinOver hl hl'
  | and _ _ iha ihb => exact .and iha ihb

theorem Distributed.conjoin {ts : List Term} (hne : ts ≠ []) (default : Term) (h : ∀ t ∈ ts, Distributed t) :
    Distributed (conjoin default ts) := by
  cases ts with
  | nil => exact absurd rfl hne
  | cons t ts => exact joinRight_of_forall (P := Distributed) (fun _ _ => .and) h

theorem distributedParts_of_isAtomic (ht : t.isAtomic = true) : distributedParts t = [t] := by
  cases t with
  | lit n a | var n x | rel n a ts | fn n a t => rfl
  | _ => cases ht

theorem isDisjunction_of_isAtomic (ht : t.isAtomic = true) : t.isDisjunction = true ∧ t.isNnf = true := by
  cases t with
  | lit n a | var n x | rel n a ts | fn n a t => exact ⟨rfl, rfl⟩
  | _ => cases ht

theorem AndOr.distributedParts (h : AndOr t) :
    distributedParts t ≠ [] ∧ ∀ p ∈ distributedParts t, Distributed p := by
  induction h with
  | atom ht =>
    obtain ⟨hdisjunction, hnnf⟩ := isDisjunction_of_isAtomic ht
    rw [distributedParts_of_isAtomic ht]
    exact ⟨List.cons_ne_nil _ _, List.forall_mem_singleton.mpr (.clause hdisjunction hnnf)⟩
  | and _ _ ihl ihr =>
    rw [Term.distributedParts]
    exact ⟨List.append_ne_nil_of_left_ne_nil ihl.1 _, List.forall_mem_append.mpr ⟨ihl.2, ihr.2⟩⟩
  | or _ _ ihl ihr =>
    rw [Term.distributedParts]
    refine ⟨List.cons_ne_nil _ _, List.forall_mem_singleton.mpr (Distributed.disjoin ?_ ?_)⟩
    · exact .conjoin ihl.1 _ ihl.2
    · exact .conjoin ihr.1 _ ihr.2

/-- Distribution makes a conjunction of disjunctions. -/
theorem AndOr.distribute (h : AndOr t) : Distributed t.distribute :=
  .conjoin h.distributedParts.1 t h.distributedParts.2

end Distribute

end Term

/-! ## Clauses -/

section Clauses

/-- A clause of at least one atomic term, not negated as a whole. -/
structure Clause.IsProper (c : Clause) : Prop where
  positive : c.negated = false
  inhabited : c.members ≠ []
  atomic : ∀ t ∈ c.members, t.isAtomic = true

/-- All clauses are proper. -/
def KnowledgeBase.IsProper (kb : KnowledgeBase) : Prop :=
  ∀ c ∈ kb.clauses, c.IsProper

theorem KnowledgeBase.IsProper.union {kb o : KnowledgeBase} (h : kb.IsProper) (ho : o.IsProper) :
    (kb.union o).IsProper :=
  fun c hc => (Distinct.mem_of_mem_union hc).elim (h c) (ho c)

theorem KnowledgeBase.isProper_empty : KnowledgeBase.empty.IsProper :=
  fun _ hc => (nomatch hc)

theorem KnowledgeBase.isProper_foldl_union {kb : KnowledgeBase} {kbs : List KnowledgeBase} (h : kb.IsProper)
    (hkbs : ∀ k ∈ kbs, k.IsProper) : (kbs.foldl KnowledgeBase.union kb).IsProper := by
  induction kbs generalizing kb with
  | nil => exact h
  | cons k kbs ih =>
    obtain ⟨hk, hrest⟩ := List.forall_mem_cons.mp hkbs
    exact ih (h.union hk) hrest

namespace Term

variable {t : Term}

/-- A disjunction of atomic terms is read off as a clause, with the sign of the disjunction. -/
theorem exists_clause (h : t.isDisjunction = true) :
    ∃ c, t.clause = .ok c ∧ c.members ≠ [] ∧ (∀ u ∈ c.members, u.isAtomic = true) ∧
      (t.isNnf = true → c.negated = false) := by
  induction t using induct with
  | lit n a | var n x | rel n a ts ih | fn n a t ih =>
    exact ⟨_, rfl, List.cons_ne_nil _ _, List.forall_mem_singleton.mpr rfl, fun _ => rfl⟩
  | quant n q x t ih | freeClause n ts ih => cases h
  | conn n c l r ihl ihr =>
    cases c with
    | or =>
      rw [isDisjunction, Bool.and_eq_true] at h
      obtain ⟨cl, hcl, hne, hleft, -⟩ := ihl h.1
      obtain ⟨cr, hcr, -, hright, -⟩ := ihr h.2
      refine ⟨{ cl.union cr with negated := n }, by rw [clause, hcl, hcr]; rfl, ?_, ?_, ?_⟩
      · obtain ⟨u, hu⟩ := List.exists_mem_of_ne_nil _ hne
        exact List.ne_nil_of_mem (Distinct.mem_union_of_mem_left hu)
      · exact fun u hu => (Distinct.mem_of_mem_union hu).elim (hleft u) (hright u)
      · exact fun hnnf => (isNnf_conn.mp hnnf).1
    | _ => cases h

theorem clauseFormulas_disjunction (h : t.isDisjunction = true) : clauseFormulas t = [t] := by
  cases t with
  | conn n c l r =>
    cases c with
    | or => rfl
    | _ => cases h
  | freeClause n ts => cases h
  | _ => rfl

theorem Distributed.clauseFormulas (h : Distributed t) :
    ∀ u ∈ clauseFormulas t, u.isDisjunction = true ∧ u.isNnf = true := by
  induction h with
  | clause ht hnnf =>
    rw [clauseFormulas_disjunction ht]
    exact List.forall_mem_singleton.mpr ⟨ht, hnnf⟩
  | and _ _ ihl ihr => exact List.forall_mem_append.mpr ⟨ihl, ihr⟩

theorem Distributed.exists_clauses (h : Distributed t) : ∃ kb, t.clauses = .ok kb ∧ kb.IsProper := by
  have hclauses : ∀ u ∈ t.clauseFormulas, ∃ c, u.clause = .ok c ∧ c.IsProper := by
    intro u hu
    obtain ⟨hdisjunction, hnnf⟩ := h.clauseFormulas u hu
    obtain ⟨c, hc, hne, hatomic, hsign⟩ := exists_clause hdisjunction
    exact ⟨c, hc, hsign hnnf, hne, hatomic⟩
  obtain ⟨cs, hcs, hproper⟩ := exists_mapM hclauses
  refine ⟨.ofList cs, by rw [clauses, hcs]; rfl, fun c hc => ?_⟩
  exact KnowledgeBase.isProper_empty.union (o := ⟨cs⟩) hproper c hc

theorem exists_statements {t : Term} (hempty : t.hasEmptyFreeClause = false) (ht : t.isNnf = true)
    (hfree : t.isQuantifierFree = true) : ∃ us, t.statements = .ok us ∧ ∀ u ∈ us, AndOr u := by
  have hflatten : ∀ t : Term, t.hasEmptyFreeClause = false → t.isNnf = true → t.isQuantifierFree = true →
      ∃ u, t.flatten = .ok u ∧ AndOr u := by
    intro t hempty ht hfree
    obtain ⟨u, hu⟩ := (flatten_outcome t).2 hempty
    exact ⟨u, hu, andOr_flatten ht hfree hu⟩
  rw [statements.eq_def]
  split
  · next ts =>
    rw [hasEmptyFreeClause, anyEmptyFreeClause_eq_any, Bool.or_eq_false_iff, List.any_eq_false] at hempty
    rw [isQuantifierFree, areQuantifierFree_eq_true] at hfree
    rw [flattenAll_eq_mapM]
    exact exists_mapM fun t hmem =>
      hflatten t (Bool.eq_false_iff.mpr (hempty.2 t hmem)) ((isNnf_freeClause.mp ht).2 t hmem) (hfree t hmem)
  · obtain ⟨u, hu, handor⟩ := hflatten t hempty ht hfree
    exact ⟨[u], by rw [hu]; rfl, List.forall_mem_singleton.mpr handor⟩

/-- A formula other than an empty free clause fails to be taken apart into statements if there is one inside it. -/
theorem statements_eq_error {t : Term} (hempty : t.hasEmptyFreeClause = true) (hne : t ≠ .freeClause false []) :
    t.statements = .error .emptyFreeClause := by
  rw [statements.eq_def]
  split
  · next ts =>
    have hany : ts.any hasEmptyFreeClause = true := by
      cases ts with
      | nil => exact absurd rfl hne
      | cons t ts => simpa [hasEmptyFreeClause] using hempty
    exact (flattenAll_outcome fun t _ => flatten_outcome t).1 hany
  · rw [(flatten_outcome t).1 hempty]
    rfl

/-- The clauses of a quantifier-free normal form. -/
theorem exists_matrixClauses {t : Term} (hempty : t.hasEmptyFreeClause = false) (ht : t.isNnf = true)
    (hfree : t.isQuantifierFree = true) : ∃ kb, t.matrixClauses = .ok kb ∧ kb.IsProper := by
  obtain ⟨us, hus, handor⟩ := exists_statements hempty ht hfree
  obtain ⟨kbs, hkbs, hproper⟩ := exists_mapM fun u hu => (handor u hu).distribute.exists_clauses
  refine ⟨kbs.foldl KnowledgeBase.union .empty, ?_,
    KnowledgeBase.isProper_foldl_union KnowledgeBase.isProper_empty hproper⟩
  rw [matrixClauses, hus]
  change (do return (← us.mapM statementClauses).foldl KnowledgeBase.union .empty) = _
  rw [show us.mapM statementClauses = .ok kbs from hkbs]
  rfl

end Term

end Clauses

/-! ## Well-formed formulas -/

/-- A well-formed formula has no clause form exactly if a free clause without members stands in it, unless it is the
un-negated free clause without members and says nothing.  Otherwise its clauses are disjunctions of at least one atomic
term.  The loop that computes normal forms never lacks a result and ends with just one. -/
theorem clauseForm_outcome (names : Names) (t : Term) (ht : t.WellFormed) :
    (t.hasEmptyFreeClause = true ∧ t ≠ .freeClause false [] →
        (names.clauseForm t).1 = .error .emptyFreeClause) ∧
      (¬ (t.hasEmptyFreeClause = true ∧ t ≠ .freeClause false []) →
        ∃ kb, (names.clauseForm t).1 = .ok kb ∧ ∀ c ∈ kb.clauses,
          c.negated = false ∧ c.members ≠ [] ∧ ∀ m ∈ c.members, m.isAtomic = true) ∧
      ∀ u : Term, Term.NnfTask.run u.nnfCost [.visit u] [] = some [u.toNnf] := by
  have hempty := names.hasEmptyFreeClause_matrix t
  refine ⟨?_, ?_, fun u => by rw [Term.run_nnfCost, Term.toNnf_eq]⟩
  · rintro ⟨hvacant, hne⟩
    have hmatrix : (names.matrix t).1 ≠ .freeClause false [] := mt (names.matrix_eq_nil_iff ht false).mp hne
    rw [Names.clauseForm, Term.matrixClauses, Term.statements_eq_error (hempty.trans hvacant) hmatrix]
    rfl
  · intro hgood
    obtain ⟨kb, hkb, hproper⟩ : ∃ kb, (names.clauseForm t).1 = .ok kb ∧ kb.IsProper := by
      by_cases hnil : t = .freeClause false []
      · refine ⟨.empty, ?_, KnowledgeBase.isProper_empty⟩
        rw [Names.clauseForm, (names.matrix_eq_nil_iff ht false).mpr hnil]
        rfl
      · have hnone : t.hasEmptyFreeClause = false := by simpa [hnil] using hgood
        exact Term.exists_matrixClauses (hempty.trans hnone) (names.isNnf_matrix hnone) (names.outline_matrix t).1
    exact ⟨kb, hkb, fun c hc => ⟨(hproper c hc).positive, (hproper c hc).inhabited, (hproper c hc).atomic⟩⟩

/-- An empty free clause below a negated quantifier is an error; a negated free clause with members below a quantifier
is a disjunction of their negations. -/
theorem clauseForm_outcome_negated :
    (Term.quant true .forall "X" (.conn false .or (.rel false "p" [.var false "X"]) (.freeClause true []))).clauseForm =
        .error .emptyFreeClause ∧
      ∃ kb, (Term.quant false .forall "X"
          (.freeClause true [.rel false "p" [.var false "X"], .lit false "a"])).clauseForm = .ok kb ∧
        ∀ c ∈ kb.clauses, c.negated = false ∧ c.members ≠ [] ∧ ∀ m ∈ c.members, m.isAtomic = true := by
  constructor
  · exact (clauseForm_outcome _ _ (Term.check_eq_ok_iff.mp rfl)).1 ⟨rfl, nofun⟩
  · refine (clauseForm_outcome _ _ (Term.check_eq_ok_iff.mp rfl)).2.1 ?_
    rintro ⟨hempty, -⟩
    cases hempty

end Clausal
