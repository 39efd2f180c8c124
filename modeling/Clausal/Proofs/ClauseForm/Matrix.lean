import Clausal.ClauseForm
import Clausal.Proofs.ClauseForm.Skolem

/-!
# Clausal.Proofs.ClauseForm.Matrix — the clauses of a quantifier-free formula

From a matrix on, every pass keeps the truth of the formula under each assignment.

* `isTrue_flatten`, `holds_flatten`: a formula without its free clauses says the same.
* `Combined`: built from atomic formulas by `∧` and `∨`, as a matrix without free clauses is.
* `holds_distribute`: so does distribution, of such a formula.
* `Clause.holds_union`, `KnowledgeBase.holds_union`: the members of a clause and the clauses of a knowledge base are
  sets up to a test, which does not tell apart what says the same.
* `matrixClauses_spec`: the clauses of a matrix hold together exactly if the matrix holds.
-/

universe u

namespace Clausal

variable {D : Type u} {I : Interpretation D}

/-! ## Computations that may fail -/

section Failure

variable {ε α β : Type}

theorem bind_eq_ok {x : Except ε α} {f : α → Except ε β} {b : β} :
    x >>= f = .ok b ↔ ∃ a, x = .ok a ∧ f a = .ok b := by
  cases x with
  | error e =>
    constructor
    · intro h
      cases h
    · rintro ⟨a, ha, -⟩
      cases ha
  | ok a =>
    constructor
    · exact fun h => ⟨a, rfl, h⟩
    · rintro ⟨_, ha, h⟩
      cases ha
      exact h

theorem mapM_ok {f : α → Except ε β} {g : α → β} {xs : List α} (h : ∀ x ∈ xs, f x = .ok (g x)) :
    xs.mapM f = .ok (xs.map g) := by
  induction xs with
  | nil => rfl
  | cons x xs ih =>
    obtain ⟨hx, hxs⟩ := List.forall_mem_cons.mp h
    rw [List.mapM_cons, hx, ih hxs]
    rfl

/-- The results are those of the elements. -/
theorem mapM_eq_ok {f : α → Except ε β} {xs : List α} {ys : List β} (h : xs.mapM f = .ok ys) :
    (∀ x ∈ xs, ∃ y ∈ ys, f x = .ok y) ∧ ∀ y ∈ ys, ∃ x ∈ xs, f x = .ok y := by
  induction xs generalizing ys with
  | nil =>
    rw [List.mapM_nil] at h
    cases h
    exact ⟨fun x hx => (nomatch hx), fun y hy => (nomatch hy)⟩
  | cons x xs ih =>
    rw [List.mapM_cons] at h
    obtain ⟨y, hy, h⟩ := bind_eq_ok.mp h
    obtain ⟨ys', hys, h⟩ := bind_eq_ok.mp h
    cases h
    obtain ⟨hfrom, hto⟩ := ih hys
    constructor
    · refine List.forall_mem_cons.mpr ⟨⟨y, List.mem_cons_self, hy⟩, fun x hx => ?_⟩
      obtain ⟨z, hz, heq⟩ := hfrom x hx
      exact ⟨z, List.mem_cons_of_mem y hz, heq⟩
    · refine List.forall_mem_cons.mpr ⟨⟨x, List.mem_cons_self, hy⟩, fun z hz => ?_⟩
      obtain ⟨x', hx, heq⟩ := hto z hz
      exact ⟨x', List.mem_cons_of_mem x hx, heq⟩

theorem forall_of_mapM {f : α → Except ε β} {xs : List α} {ys : List β} {q : β → Prop} (h : xs.mapM f = .ok ys)
    (hf : ∀ x ∈ xs, ∀ y, f x = .ok y → q y) : ∀ y ∈ ys, q y := by
  intro y hy
  obtain ⟨x, hx, heq⟩ := (mapM_eq_ok h).2 y hy
  exact hf x hx y heq

/-- What is kept element by element is kept of all of them. -/
theorem forall_iff_of_mapM {f : α → Except ε β} {xs : List α} {ys : List β} {p : α → Prop} {q : β → Prop}
    (h : xs.mapM f = .ok ys) (hf : ∀ x ∈ xs, ∀ y, f x = .ok y → (q y ↔ p x)) : (∀ y ∈ ys, q y) ↔ ∀ x ∈ xs, p x := by
  constructor
  · intro hall x hx
    obtain ⟨y, hy, heq⟩ := (mapM_eq_ok h).1 x hx
    exact (hf x hx y heq).mp (hall y hy)
  · exact fun hall => forall_of_mapM h fun x hx y heq => (hf x hx y heq).mpr (hall x hx)

end Failure

namespace Term

/-! ## Free clauses -/

section Flatten

variable {t u : Term}

theorem flattenAll_eq_mapM (ts : List Term) : flattenAll ts = ts.mapM flatten := by
  induction ts with
  | nil => rfl
  | cons t ts ih => rw [flattenAll, ih, List.mapM_cons]

/-- A formula without its free clauses says the same, whatever its atomic terms mean. -/
theorem isTrue_flatten {V : Valuation D} (h : t.flatten = .ok u) (v : String → D) : u.IsTrue V v ↔ t.IsTrue V v := by
  induction t using induct generalizing u v with
  | lit n a | var n x | rel n a ts ih | fn n a t ih =>
    cases h
    exact Iff.rfl
  | quant n q x t ih =>
    obtain ⟨u, hu, h⟩ := bind_eq_ok.mp h
    cases h
    exact polar_congr n (quantHolds_congr q fun d => ih hu _)
  | conn n c l r ihl ihr =>
    obtain ⟨l', hl, h⟩ := bind_eq_ok.mp h
    obtain ⟨r', hr, h⟩ := bind_eq_ok.mp h
    cases h
    simp only [IsTrue, ihl hl v, ihr hr v]
  | freeClause n ts ih =>
    obtain ⟨us, hus, h⟩ := bind_eq_ok.mp h
    have hall : (∀ u ∈ us, u.IsTrue V v) ↔ ∀ t ∈ ts, t.IsTrue V v :=
      forall_iff_of_mapM (flattenAll_eq_mapM ts ▸ hus) fun t ht u hu => ih t ht hu v
    cases us with
    | nil => cases h
    | cons u us =>
      cases h
      rw [IsTrue, areTrue_iff, ← hall, ← isTrue_joinRight_and]
      cases n with
      | false => exact Iff.rfl
      | true =>
        rw [if_pos rfl, toNnf_eq, isTrue_nnf, isTrue_negate]
        exact Iff.rfl

theorem holds_flatten (h : t.flatten = .ok u) (v : String → D) : u.Holds I v ↔ t.Holds I v := by
  rw [holds_iff_isTrue, holds_iff_isTrue, isTrue_flatten h]

end Flatten

/-! ## Combinations of atomic formulas -/

section Combined

/-- Built from atomic formulas by `∧` and `∨`. -/
inductive Combined : Term → Prop where
  | literal {t : Term} : t.isLiteral = true → Combined t
  | and {l r : Term} : Combined l → Combined r → Combined (.conn false .and l r)
  | or {l r : Term} : Combined l → Combined r → Combined (.conn false .or l r)

theorem Combined.joinRight {t : Term} {ts : List Term} (h : ∀ u ∈ t :: ts, Combined u) :
    Combined (joinRight .and t ts) :=
  joinRight_of_forall (P := Combined) (fun _ _ => .and) h

/-- A matrix without its free clauses is a combination of atomic formulas. -/
theorem combined_flatten {t u : Term} (ht : t.isMatrix = true) (h : t.flatten = .ok u) : Combined u := by
  induction t using induct generalizing u with
  | lit n a | rel n a ts ih | fn n a t ih =>
    cases h
    exact .literal ht
  | var n x | quant n q x t ih => cases ht
  | conn n c l r ihl ihr =>
    obtain ⟨l', hl, h⟩ := bind_eq_ok.mp h
    obtain ⟨r', hr, h⟩ := bind_eq_ok.mp h
    cases h
    obtain ⟨rfl, hc, htl, htr⟩ := isMatrix_conn.mp ht
    rcases hc with rfl | rfl
    · exact .and (ihl htl hl) (ihr htr hr)
    · exact .or (ihl htl hl) (ihr htr hr)
  | freeClause n ts ih =>
    obtain ⟨us, hus, h⟩ := bind_eq_ok.mp h
    rw [isMatrix, Bool.and_eq_true, areMatrices_eq_true] at ht
    rw [flattenAll_eq_mapM] at hus
    have hall : ∀ u ∈ us, Combined u := forall_of_mapM hus fun t hmem u heq => ih t hmem (ht.2 t hmem) heq
    cases us with
    | nil => cases h
    | cons u us =>
      -- the clause has a member, so it is not negated
      obtain ⟨t, hmem, -⟩ := (mapM_eq_ok hus).2 u List.mem_cons_self
      have hne : ts.isEmpty = false := List.isEmpty_eq_false_iff_exists_mem.mpr ⟨t, hmem⟩
      obtain rfl : n = false := by simpa [hne] using ht.1
      cases h
      exact .joinRight hall

end Combined

/-! ## Distribution -/

section Distribute

variable {l r t : Term}

theorem disjoinOver_literal (l : Term) (ht : t.isLiteral = true) : disjoinOver l t = .conn false .or l t := by
  cases t with
  | lit n a | rel n a ts | fn n a t => rfl
  | _ => cases ht

theorem disjoin_literal (r : Term) (ht : t.isLiteral = true) : disjoin t r = disjoinOver t r := by
  cases t with
  | lit n a | rel n a ts | fn n a t => rfl
  | _ => cases ht

theorem holds_disjoinOver (hr : Combined r) (v : String → D) :
    (disjoinOver l r).Holds I v ↔ l.Holds I v ∨ r.Holds I v := by
  induction hr with
  | literal ht =>
    rw [disjoinOver_literal l ht]
    exact Iff.rfl
  | and _ _ ihb ihc => exact (and_congr ihb ihc).trans or_and_left.symm
  | or => exact Iff.rfl

theorem holds_disjoin (hl : Combined l) (hr : Combined r) (v : String → D) :
    (disjoin l r).Holds I v ↔ l.Holds I v ∨ r.Holds I v := by
  induction hl with
  | literal ht =>
    rw [disjoin_literal r ht]
    exact holds_disjoinOver hr v
  | and _ _ iha ihb => exact (and_congr iha ihb).trans and_or_right.symm
  | or => exact holds_disjoinOver hr v

theorem Combined.disjoinOver (hl : Combined l) (hr : Combined r) : Combined (disjoinOver l r) := by
  induction hr with
  | literal ht =>
    rw [disjoinOver_literal l ht]
    exact .or hl (.literal ht)
  | and _ _ ihb ihc => exact .and ihb ihc
  | or hb hc => exact .or hl (.or hb hc)

theorem Combined.disjoin (hl : Combined l) (hr : Combined r) : Combined (disjoin l r) := by
  induction hl with
  | literal ht =>
    rw [disjoin_literal r ht]
    exact Combined.disjoinOver (.literal ht) hr
  | and _ _ iha ihb => exact .and iha ihb
  | or ha hb => exact Combined.disjoinOver (.or ha hb) hr

theorem holds_conjoin {ts : List Term} (hne : ts ≠ []) (default : Term) (v : String → D) :
    (conjoin default ts).Holds I v ↔ ∀ t ∈ ts, t.Holds I v := by
  cases ts with
  | nil => exact absurd rfl hne
  | cons t ts => exact holds_joinRight_and t ts v

theorem Combined.conjoin {ts : List Term} (hne : ts ≠ []) (default : Term) (h : ∀ t ∈ ts, Combined t) :
    Combined (conjoin default ts) := by
  cases ts with
  | nil => exact absurd rfl hne
  | cons t ts => exact .joinRight h

theorem distributedParts_literal (ht : t.isLiteral = true) : distributedParts t = [t] := by
  cases t with
  | lit n a | rel n a ts | fn n a t => rfl
  | _ => cases ht

theorem distributedParts_ne_nil (t : Term) : distributedParts t ≠ [] := by
  induction t using induct with
  | lit n a | var n x | rel n a ts ih | fn n a t ih | quant n q x t ih | freeClause n ts ih =>
    exact List.cons_ne_nil _ _
  | conn n c l r ihl ihr =>
    cases c with
    | and =>
      cases n with
      | false => exact List.append_ne_nil_of_left_ne_nil ihl _
      | true => exact List.cons_ne_nil _ _
    | or | implies | iff => cases n <;> exact List.cons_ne_nil _ _

theorem Combined.distributedParts (h : Combined t) : ∀ p ∈ distributedParts t, Combined p := by
  induction h with
  | literal ht =>
    rw [distributedParts_literal ht]
    exact List.forall_mem_singleton.mpr (.literal ht)
  | and _ _ ihl ihr => exact List.forall_mem_append.mpr ⟨ihl, ihr⟩
  | or hl hr ihl ihr =>
    refine List.forall_mem_singleton.mpr (Combined.disjoin ?_ ?_)
    · exact .conjoin (distributedParts_ne_nil _) _ ihl
    · exact .conjoin (distributedParts_ne_nil _) _ ihr

theorem Combined.distribute (h : Combined t) : Combined t.distribute :=
  .conjoin (distributedParts_ne_nil t) t h.distributedParts

theorem holds_distributedParts (h : Combined t) (v : String → D) :
    (∀ p ∈ distributedParts t, p.Holds I v) ↔ t.Holds I v := by
  induction h with
  | literal ht => rw [distributedParts_literal ht, List.forall_mem_singleton]
  | and _ _ ihl ihr => exact List.forall_mem_append.trans (and_congr ihl ihr)
  | @or l r hl hr ihl ihr =>
    have hleft := distributedParts_ne_nil l
    have hright := distributedParts_ne_nil r
    rw [Term.distributedParts, List.forall_mem_singleton,
      holds_disjoin (.conjoin hleft _ hl.distributedParts) (.conjoin hright _ hr.distributedParts),
      holds_conjoin hleft, holds_conjoin hright]
    exact or_congr ihl ihr

/-- Distribution keeps the truth of a formula. -/
theorem holds_distribute (h : Combined t) (v : String → D) : t.distribute.Holds I v ↔ t.Holds I v :=
  (holds_conjoin (distributedParts_ne_nil t) t v).trans (holds_distributedParts h v)

end Distribute

end Term

/-! ## Sets of clauses -/

section Sets

/-- A clause of atomic formulas, not negated as a whole. -/
structure Clause.IsPlain (c : Clause) : Prop where
  positive : c.negated = false
  literals : ∀ t ∈ c.members, t.isLiteral = true

variable {c d : Clause} {v : String → D}

theorem Clause.IsPlain.holds_iff (h : c.IsPlain) : c.Holds I v ↔ ∃ t ∈ c.members, t.Holds I v := by
  rw [Clause.Holds, h.positive]
  exact Iff.rfl

theorem Clause.IsPlain.union (hc : c.IsPlain) (hd : d.IsPlain) : (c.union d).IsPlain where
  positive := hc.positive
  literals t ht := (Distinct.mem_of_mem_union ht).elim (hc.literals t) (hd.literals t)

theorem eq_of_same_of_isLiteral {t u : Term} (ht : t.isLiteral = true) (hu : u.isLiteral = true)
    (h : t.same u = true) : t = u :=
  Term.eq_of_same (Term.firstOrder_of_isLiteral ht).2 (Term.firstOrder_of_isLiteral hu).2 h

theorem Clause.mem_union (hc : c.IsPlain) (hd : d.IsPlain) {t : Term} :
    t ∈ (c.union d).members ↔ t ∈ c.members ∨ t ∈ d.members := by
  constructor
  · exact Distinct.mem_of_mem_union
  · rintro (ht | ht)
    · exact Distinct.mem_union_of_mem_left ht
    · -- a member that passes for a literal is that literal
      obtain ⟨u, hu, rfl | hsame⟩ := Distinct.exists_mem_union Term.same c.members ht
      · exact hu
      · exact eq_of_same_of_isLiteral ((hc.union hd).literals u hu) (hd.literals t ht) hsame ▸ hu

theorem Clause.holds_union (hc : c.IsPlain) (hd : d.IsPlain) :
    (c.union d).Holds I v ↔ c.Holds I v ∨ d.Holds I v := by
  rw [(hc.union hd).holds_iff, hc.holds_iff, hd.holds_iff]
  simp only [mem_union hc hd, or_and_right, exists_or]

/-- Clauses with the same members say the same. -/
theorem Clause.holds_of_same (hc : c.IsPlain) (hd : d.IsPlain) (h : c.same d = true) (hholds : c.Holds I v) :
    d.Holds I v := by
  rw [Clause.same, Bool.and_eq_true, Distinct.sameMembers, Bool.and_eq_true, List.all_eq_true] at h
  obtain ⟨t, ht, htrue⟩ := hc.holds_iff.mp hholds
  obtain ⟨u, hu, hsame⟩ := List.any_eq_true.mp (h.2.2 t ht)
  obtain rfl := eq_of_same_of_isLiteral (hd.literals u hu) (hc.literals t ht) hsame
  exact hd.holds_iff.mpr ⟨u, hu, htrue⟩

/-- All clauses are plain. -/
def KnowledgeBase.IsPlain (kb : KnowledgeBase) : Prop :=
  ∀ c ∈ kb.clauses, c.IsPlain

variable {kb o : KnowledgeBase}

theorem KnowledgeBase.IsPlain.union (h : kb.IsPlain) (ho : o.IsPlain) : (kb.union o).IsPlain :=
  fun c hc => (Distinct.mem_of_mem_union hc).elim (h c) (ho c)

theorem KnowledgeBase.holds_union (h : kb.IsPlain) (ho : o.IsPlain) :
    (kb.union o).Holds I v ↔ kb.Holds I v ∧ o.Holds I v := by
  constructor
  · refine fun hall => ⟨fun c hc => hall c (Distinct.mem_union_of_mem_left hc), fun d hd => ?_⟩
    -- a clause was left out only for one that says the same
    obtain ⟨c, hc, rfl | hsame⟩ := Distinct.exists_mem_union Clause.same kb.clauses hd
    · exact hall c hc
    · exact Clause.holds_of_same (h.union ho c hc) (ho d hd) hsame (hall c hc)
  · rintro ⟨hkb, hother⟩ c hc
    exact (Distinct.mem_of_mem_union hc).elim (hkb c) (hother c)

theorem KnowledgeBase.isPlain_empty : KnowledgeBase.empty.IsPlain :=
  fun _ hc => (nomatch hc)

theorem KnowledgeBase.holds_empty : KnowledgeBase.empty.Holds I v :=
  fun _ hc => (nomatch hc)

theorem KnowledgeBase.isPlain_ofList {cs : List Clause} (h : ∀ c ∈ cs, c.IsPlain) :
    (KnowledgeBase.ofList cs).IsPlain :=
  isPlain_empty.union (o := ⟨cs⟩) h

theorem KnowledgeBase.holds_ofList {cs : List Clause} (h : ∀ c ∈ cs, c.IsPlain) :
    (KnowledgeBase.ofList cs).Holds I v ↔ ∀ c ∈ cs, c.Holds I v :=
  (holds_union isPlain_empty (o := ⟨cs⟩) h).trans (and_iff_right holds_empty)

theorem KnowledgeBase.isPlain_foldl_union {kbs : List KnowledgeBase} (h : kb.IsPlain) (hkbs : ∀ k ∈ kbs, k.IsPlain) :
    (kbs.foldl union kb).IsPlain := by
  induction kbs generalizing kb with
  | nil => exact h
  | cons k kbs ih =>
    obtain ⟨hk, hrest⟩ := List.forall_mem_cons.mp hkbs
    exact ih (h.union hk) hrest

theorem KnowledgeBase.holds_foldl_union {kbs : List KnowledgeBase} (h : kb.IsPlain) (hkbs : ∀ k ∈ kbs, k.IsPlain) :
    (kbs.foldl union kb).Holds I v ↔ kb.Holds I v ∧ ∀ k ∈ kbs, k.Holds I v := by
  induction kbs generalizing kb with
  | nil => simp
  | cons k kbs ih =>
    obtain ⟨hk, hrest⟩ := List.forall_mem_cons.mp hkbs
    rw [List.foldl_cons, ih (h.union hk) hrest, holds_union h hk, List.forall_mem_cons, and_assoc]

end Sets

/-! ## Reading off the clauses -/

namespace Term

section Clauses

variable {t : Term} {c : Clause} {kb : KnowledgeBase}

theorem clause_literal (ht : t.isLiteral = true) : t.clause = .ok ⟨false, [t]⟩ := by
  cases t with
  | lit n a | rel n a ts | fn n a t => rfl
  | _ => cases ht

theorem isPlain_clause (h : Combined t) (hc : t.clause = .ok c) : c.IsPlain := by
  induction h generalizing c with
  | literal ht =>
    rw [clause_literal ht] at hc
    cases hc
    exact ⟨rfl, List.forall_mem_singleton.mpr ht⟩
  | and => cases hc
  | or _ _ ihl ihr =>
    obtain ⟨cl, hcl, hc⟩ := bind_eq_ok.mp hc
    obtain ⟨cr, hcr, hc⟩ := bind_eq_ok.mp hc
    cases hc
    exact ⟨rfl, ((ihl hcl).union (ihr hcr)).literals⟩

theorem holds_clause (h : Combined t) (hc : t.clause = .ok c) (v : String → D) : c.Holds I v ↔ t.Holds I v := by
  induction h generalizing c with
  | literal ht =>
    rw [clause_literal ht] at hc
    cases hc
    simp [Clause.Holds]
  | and => cases hc
  | or hl hr ihl ihr =>
    obtain ⟨cl, hcl, hc⟩ := bind_eq_ok.mp hc
    obtain ⟨cr, hcr, hc⟩ := bind_eq_ok.mp hc
    cases hc
    have hplainl := isPlain_clause hl hcl
    have hplainr := isPlain_clause hr hcr
    have hunion : (cl.union cr).Holds I v ↔ _ := Clause.holds_union hplainl hplainr
    rw [(hplainl.union hplainr).holds_iff] at hunion
    exact hunion.trans (or_congr (ihl hcl) (ihr hcr))

theorem clauseFormulas_literal (ht : t.isLiteral = true) : clauseFormulas t = [t] := by
  cases t with
  | lit n a | rel n a ts | fn n a t => rfl
  | _ => cases ht

theorem Combined.clauseFormulas (h : Combined t) : ∀ u ∈ clauseFormulas t, Combined u := by
  induction h with
  | literal ht =>
    rw [clauseFormulas_literal ht]
    exact List.forall_mem_singleton.mpr (.literal ht)
  | and _ _ ihl ihr => exact List.forall_mem_append.mpr ⟨ihl, ihr⟩
  | or hl hr _ _ => exact List.forall_mem_singleton.mpr (.or hl hr)

theorem holds_clauseFormulas (h : Combined t) (v : String → D) :
    (∀ u ∈ clauseFormulas t, u.Holds I v) ↔ t.Holds I v := by
  induction h with
  | literal ht => rw [clauseFormulas_literal ht, List.forall_mem_singleton]
  | and _ _ ihl ihr => exact List.forall_mem_append.trans (and_congr ihl ihr)
  | or => exact List.forall_mem_singleton

/-- The clauses of a combination hold together exactly if it holds. -/
theorem clauses_spec (h : Combined t) (hkb : t.clauses = .ok kb) : kb.IsPlain ∧ ∀ v, kb.Holds I v ↔ t.Holds I v := by
  obtain ⟨cs, hcs, hkb⟩ := bind_eq_ok.mp hkb
  cases hkb
  have hplain : ∀ c ∈ cs, c.IsPlain := forall_of_mapM hcs fun u hu c hc => isPlain_clause (h.clauseFormulas u hu) hc
  refine ⟨(KnowledgeBase.isPlain_ofList hplain), fun v => ?_⟩
  rw [KnowledgeBase.holds_ofList hplain, ← holds_clauseFormulas h v]
  exact forall_iff_of_mapM hcs fun u hu c hc => holds_clause (h.clauseFormulas u hu) hc v

/-- The statements of a matrix hold together exactly if it holds. -/
theorem statements_spec {us : List Term} (ht : t.isMatrix = true) (h : t.statements = .ok us) :
    (∀ u ∈ us, Combined u) ∧ ∀ v, (∀ u ∈ us, u.Holds I v) ↔ t.Holds I v := by
  rw [statements.eq_def] at h
  split at h
  · next ts =>
    rw [flattenAll_eq_mapM] at h
    rw [isMatrix, Bool.and_eq_true, areMatrices_eq_true] at ht
    refine ⟨forall_of_mapM h fun t hmem u hu => combined_flatten (ht.2 t hmem) hu, fun v => ?_⟩
    rw [Holds, polar_false, holdAll_iff]
    exact forall_iff_of_mapM h fun t _ u hu => holds_flatten hu v
  · obtain ⟨u, hu, h⟩ := bind_eq_ok.mp h
    cases h
    refine ⟨List.forall_mem_singleton.mpr (combined_flatten ht hu), fun v => ?_⟩
    rw [List.forall_mem_singleton, holds_flatten hu]

/-- The clauses of a matrix hold together exactly if it holds. -/
theorem matrixClauses_spec (ht : t.isMatrix = true) (h : t.matrixClauses = .ok kb) :
    kb.IsPlain ∧ ∀ v, kb.Holds I v ↔ t.Holds I v := by
  obtain ⟨us, hus, h⟩ := bind_eq_ok.mp h
  obtain ⟨kbs, hkbs, h⟩ := bind_eq_ok.mp h
  cases h
  obtain ⟨hcombined, hholds⟩ := statements_spec (I := I) ht hus
  have hspec : ∀ u ∈ us, ∀ k, u.statementClauses = .ok k → k.IsPlain ∧ ∀ v, k.Holds I v ↔ u.Holds I v := by
    intro u hu k hk
    obtain ⟨hplain, hiff⟩ := clauses_spec (I := I) (hcombined u hu).distribute hk
    exact ⟨hplain, fun v => (hiff v).trans (holds_distribute (hcombined u hu) v)⟩
  have hplain : ∀ k ∈ kbs, k.IsPlain := forall_of_mapM hkbs fun u hu k hk => (hspec u hu k hk).1
  refine ⟨KnowledgeBase.isPlain_foldl_union KnowledgeBase.isPlain_empty hplain, fun v => ?_⟩
  rw [KnowledgeBase.holds_foldl_union KnowledgeBase.isPlain_empty hplain, ← hholds v,
    forall_iff_of_mapM hkbs fun u hu k hk => (hspec u hu k hk).2 v]
  exact and_iff_right KnowledgeBase.holds_empty

end Clauses

end Term

end Clausal
