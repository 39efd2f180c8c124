import Clausal.Forward
import Clausal.Proofs.ClauseForm.Recognition
import Clausal.Search.Answer

/-!
# Clausal.Proofs.Horn.Meaning — what clauses say as rules

A clause has a sign of its own; it is read as a rule by the signs of its members alone.

* `Obtained sign c`: the ways to come by a clause, with the sign that each of them gives it.
* `HornClause.IsTrue`: what the searches take a rule to say, that its head is true if its premises are.
* `HornClause.isTrue_clause_iff`: the clause says the same, or the opposite if it is negated.
* `HornBase.Faithful`: all rules say what their clauses say.  `faithful_insertClause_iff` and
  `faithful_ofKnowledgeBase_iff` tell when that is so, and `faithful_of_hornForm` that it is so of all formulas.
* `rules_faithful_iff`: the main statement.
-/

universe u

namespace Clausal

/-! ## Ways to come by a clause -/

section Obtained

/-- `c` is the outcome of operations on clauses, and `sign` is the sign that they give it: a list of members has none,
negation flips it, taking members away and adding those of another clause keep it, and the clause of a disjunction has
the sign of the disjunction. -/
inductive Obtained : Bool → Clause → Prop where
  | ofList {ts : List Term} {c : Clause} : Clause.ofList ts = .ok c → Obtained false c
  | unit {t : Term} {c : Clause} : Clause.unit t = .ok c → Obtained false c
  | negate {sign : Bool} {c : Clause} : Obtained sign c → Obtained (!sign) c.negate
  | without {sign : Bool} {c : Clause} (t : Term) : Obtained sign c → Obtained sign (c.without t)
  | union {sign sign' : Bool} {c d : Clause} : Obtained sign c → Obtained sign' d → Obtained sign (c.union d)
  | disjunction {d : Term} {c : Clause} : d.clause = .ok c → Obtained d.clauseSign c

variable {sign : Bool} {c : Clause} {ts : List Term} {t d : Term}

theorem Clause.ofList_eq_ok (h : Clause.ofList ts = .ok c) : c = ⟨false, Distinct.ofList Term.same ts⟩ := by
  unfold Clause.ofList at h
  split at h
  · cases h
  · cases h
    rfl

/-- Only disjunctions of atomic terms have a clause. -/
theorem Term.isDisjunction_of_clause (h : d.clause = .ok c) : d.isDisjunction = true := by
  fun_induction Term.clause d generalizing c with
  | case1 n l r ihl ihr =>
    obtain ⟨cl, hl, h⟩ := bind_eq_ok.mp h
    obtain ⟨cr, hr, -⟩ := bind_eq_ok.mp h
    rw [Term.isDisjunction, ihl hl, ihr hr]
    rfl
  | case2 t hor hatom => exact (Term.isDisjunction_of_isAtomic hatom).1
  | case3 t hor hatom => cases h

theorem Term.clause_eq_ok (h : d.clause = .ok c) : c = ⟨d.clauseSign, Distinct.ofList Term.same d.leaves⟩ := by
  rw [Term.clause_disjunction (Term.isDisjunction_of_clause h)] at h
  exact (Except.ok.inj h).symm

theorem Obtained.negated_eq (h : Obtained sign c) : c.negated = sign := by
  induction h with
  | ofList hc => rw [Clause.ofList_eq_ok hc]
  | unit hc => rw [Clause.ofList_eq_ok hc]
  | negate _ ih => rw [Clause.negate, ih]
  | without t _ ih => exact ih
  | union _ _ ih _ => exact ih
  | disjunction hc => rw [Term.clause_eq_ok hc]

/-- No member is there twice. -/
theorem Obtained.pairwise (h : Obtained sign c) : c.members.Pairwise fun a b => ¬ a.same b = true := by
  have hnew : ∀ ts : List Term, (Distinct.ofList Term.same ts).Pairwise fun a b => ¬ a.same b = true := fun ts =>
    Distinct.pairwise_union Term.decides_same_term (fun _ _ => trivial) (fun _ _ => trivial) .nil
  induction h with
  | ofList hc =>
    rw [Clause.ofList_eq_ok hc]
    exact hnew _
  | unit hc =>
    rw [Clause.ofList_eq_ok hc]
    exact hnew _
  | negate _ ih => exact ih
  | without t _ ih => exact ih.sublist List.eraseP_sublist
  | union _ _ ih _ => exact Distinct.pairwise_union Term.decides_same_term (fun _ _ => trivial) (fun _ _ => trivial) ih
  | disjunction hc =>
    rw [Term.clause_eq_ok hc]
    exact hnew _

/-- The clauses of a formula have the signs of its disjunctions. -/
theorem exists_obtained_of_clauses {kb : KnowledgeBase} (h : t.clauses = .ok kb) (hc : c ∈ kb.clauses) :
    ∃ d ∈ t.clauseFormulas, Obtained d.clauseSign c := by
  obtain ⟨cs, hcs, hkb⟩ := bind_eq_ok.mp h
  cases hkb
  have hmem : c ∈ cs := (Distinct.mem_of_mem_union hc).elim (fun h => nomatch h) id
  obtain ⟨d, hd, hdc⟩ := (mapM_eq_ok hcs).2 c hmem
  exact ⟨d, hd, .disjunction hdc⟩

end Obtained

/-! ## One rule -/

section Rules

variable {D : Type u} {V : Valuation D} {v : String → D}

namespace HornClause

variable {h : HornClause} {t : Term}

/-- What a rule says to the searches: the head is true if all premises are. -/
def IsTrue (V : Valuation D) (h : HornClause) (v : String → D) : Prop :=
  (∀ p ∈ h.premises, p.IsTrue V v) → h.head.IsTrue V v

/-- The rule says what its clause says, however the atoms are read. -/
def Faithful (h : HornClause) : Prop :=
  ∀ (D : Type u) (V : Valuation D) (v : String → D), h.IsTrue V v ↔ h.clause.IsTrue V v

theorem mem_members (h : HornClause) : t ∈ h.clause.members ↔ t = h.head ∨ t ∈ h.body := by
  have hpos : t ∈ h.clause.positives ↔ t = h.head := by rw [h.positives_eq, List.mem_singleton]
  rw [← hpos, Clause.positives, body, Clause.negatives, List.mem_filter, List.mem_filter]
  cases t.isNegated <;> simp

theorem isNegated_of_mem_body {b : Term} (hb : b ∈ h.body) : b.isNegated = true :=
  (List.mem_filter.mp hb).2

/-- A premise is the opposite of the member that it comes from. -/
theorem isTrue_premise {b : Term} (hb : b ∈ h.body) (V : Valuation D) (v : String → D) :
    b.positive.IsTrue V v ↔ ¬ b.IsTrue V v := by
  have hneg : b.negate = b.positive := by rw [Term.negate, isNegated_of_mem_body hb]; rfl
  rw [← hneg]
  exact Term.isTrue_negate b v

/-- The rule says that one of the members of the clause is true. -/
theorem isTrue_iff_members (h : HornClause) (V : Valuation D) (v : String → D) :
    h.IsTrue V v ↔ ∃ t ∈ h.clause.members, t.IsTrue V v := by
  rw [IsTrue, premises, List.forall_mem_map]
  constructor
  · intro hrule
    by_cases hbody : ∃ b ∈ h.body, b.IsTrue V v
    · obtain ⟨b, hb, htrue⟩ := hbody
      exact ⟨b, h.mem_members.mpr (.inr hb), htrue⟩
    · have hprem : ∀ b ∈ h.body, b.positive.IsTrue V v := by
        intro b hb
        exact (isTrue_premise hb V v).mpr fun htrue => hbody ⟨b, hb, htrue⟩
      exact ⟨h.head, h.mem_members.mpr (.inl rfl), hrule hprem⟩
  · rintro ⟨t, ht, htrue⟩ hprem
    rcases h.mem_members.mp ht with rfl | hb
    · exact htrue
    · exact absurd htrue ((isTrue_premise hb V v).mp (hprem t hb))

/-- The clause says what the rule says, or the opposite if it is negated. -/
theorem isTrue_clause_iff (h : HornClause) (V : Valuation D) (v : String → D) :
    h.clause.IsTrue V v ↔ polar h.clause.negated (h.IsTrue V v) :=
  polar_congr _ (h.isTrue_iff_members V v).symm

theorem faithful_iff (h : HornClause) : Faithful.{u} h ↔ h.clause.negated = false := by
  constructor
  · intro hfaithful
    cases hsign : h.clause.negated with
    | false => rfl
    | true =>
      -- any reading will do: the clause is the opposite of the rule in all of them
      have hopposite := h.isTrue_clause_iff (D := PUnit) (fun _ _ => True) fun _ => PUnit.unit
      rw [← hfaithful, hsign, polar_true] at hopposite
      exact absurd hopposite (by tauto)
  · intro hsign D V v
    rw [isTrue_clause_iff, hsign, polar_false]

theorem clause_of_ofClause {c : Clause} (hc : ofClause c = .ok h) : h.clause = c := by
  unfold ofClause at hc
  split at hc
  · cases hc
    rfl
  · cases hc

end HornClause

end Rules

/-! ## Knowledge bases -/

section Bases

variable {hb hb' : HornBase} {kb : KnowledgeBase} {c : Clause}

/-- All rules say what their clauses say. -/
def HornBase.Faithful (hb : HornBase) : Prop :=
  ∀ h ∈ hb.clauses, HornClause.Faithful.{u} h

theorem HornBase.faithful_iff : HornBase.Faithful.{u} hb ↔ ∀ h ∈ hb.clauses, h.clause.negated = false :=
  forall₂_congr fun h _ => h.faithful_iff

/-- Equal clauses have the same sign, so nothing is lost where the clause is there already. -/
theorem faithful_insertClause_iff (h : hb.insertClause c = .ok hb') :
    HornBase.Faithful.{u} hb' ↔ HornBase.Faithful.{u} hb ∧ c.negated = false := by
  obtain ⟨r, hr, hhb'⟩ := bind_eq_ok.mp h
  cases hhb'
  rw [HornBase.faithful_iff, HornBase.faithful_iff, ← HornClause.clause_of_ofClause hr, HornBase.insert]
  dsimp only
  unfold Distinct.insert
  split
  · next hmem =>
    obtain ⟨r', hr', hsame⟩ := List.any_eq_true.mp hmem
    have hsign : r'.clause.negated = r.clause.negated := by
      rw [HornClause.same, Clause.same, Bool.and_eq_true, beq_iff_eq] at hsame
      exact hsame.1
    exact ⟨fun hall => ⟨hall, hsign ▸ hall r' hr'⟩, And.left⟩
  · rw [List.forall_mem_append, List.forall_mem_singleton]

theorem faithful_foldlM_iff {cs : List Clause} (h : cs.foldlM HornBase.insertClause hb = .ok hb') :
    HornBase.Faithful.{u} hb' ↔ HornBase.Faithful.{u} hb ∧ ∀ c ∈ cs, c.negated = false := by
  induction cs generalizing hb with
  | nil =>
    cases h
    exact ⟨fun hfaithful => ⟨hfaithful, fun c hc => nomatch hc⟩, And.left⟩
  | cons c cs ih =>
    rw [List.foldlM_cons] at h
    obtain ⟨hb₁, hinsert, hrest⟩ := bind_eq_ok.mp h
    rw [ih hrest, faithful_insertClause_iff hinsert, List.forall_mem_cons, and_assoc]

theorem faithful_ofKnowledgeBase_iff (h : HornBase.ofKnowledgeBase kb = .ok hb) :
    HornBase.Faithful.{u} hb ↔ ∀ c ∈ kb.clauses, c.negated = false := by
  rw [faithful_foldlM_iff h]
  exact and_iff_right fun h hh => nomatch hh

/-- No clause of a clause form is negated. -/
theorem negated_of_clauseForm {t : Term} (h : t.clauseForm = .ok kb) : ∀ c ∈ kb.clauses, c.negated = false := by
  let names := Names.avoiding t
  have hempty := names.hasEmptyFreeClause_matrix t
  have hmatrix : (names.matrix t).1.matrixClauses = .ok kb := h
  by_cases hnil : (names.matrix t).1 = .freeClause false []
  · rw [hnil] at hmatrix
    cases hmatrix
    exact fun c hc => nomatch hc
  · cases hnone : t.hasEmptyFreeClause with
    | true =>
      rw [Term.matrixClauses, Term.statements_eq_error (hempty.trans hnone) hnil] at hmatrix
      cases hmatrix
    | false =>
      obtain ⟨kb', hkb', hproper⟩ :=
        Term.exists_matrixClauses (hempty.trans hnone) (names.isNnf_matrix hnone) (names.outline_matrix t).1
      rw [hmatrix] at hkb'
      cases hkb'
      exact fun c hc => (hproper c hc).positive

/-- The rules made of a formula say what its clauses say. -/
theorem faithful_of_hornForm {t : Term} (h : t.hornForm = .ok hb) : HornBase.Faithful.{u} hb := by
  obtain ⟨kb, hkb, hhorn⟩ := bind_eq_ok.mp h
  exact (faithful_ofKnowledgeBase_iff hhorn).mpr (negated_of_clauseForm hkb)

/-- **Rules and their clauses.**  A clause that operations give the sign `sign` says what its rule says, or the opposite
if that sign is a negation; so the rule says what the clause says exactly if it has none.  The clauses of a formula have
the signs of its disjunctions.  A knowledge base that takes up a clause stays faithful exactly if that is not negated,
and one that is made of clauses is faithful exactly if none of them is negated.  What is made of a formula always is. -/
theorem rules_faithful_iff (sign : Bool) (c : Clause) (hc : Obtained sign c) (t : Term) (kb : KnowledgeBase)
    (hb : HornBase) :
    (∀ h, HornClause.ofClause c = .ok h →
      h.clause = c ∧ (HornClause.Faithful.{u} h ↔ sign = false) ∧
        ∀ (D : Type u) (V : Valuation D) (v : String → D), c.IsTrue V v ↔ polar sign (h.IsTrue V v)) ∧
    (t.clauses = .ok kb → ∀ d ∈ kb.clauses, ∃ f ∈ t.clauseFormulas, Obtained f.clauseSign d) ∧
    (∀ hb', hb.insertClause c = .ok hb' → (HornBase.Faithful.{u} hb' ↔ HornBase.Faithful.{u} hb ∧ sign = false)) ∧
    (HornBase.ofKnowledgeBase kb = .ok hb → (HornBase.Faithful.{u} hb ↔ ∀ d ∈ kb.clauses, d.negated = false)) ∧
    (t.hornForm = .ok hb → HornBase.Faithful.{u} hb) := by
  refine ⟨fun h hh => ?_, fun hkb d hd => exists_obtained_of_clauses hkb hd, fun hb' h => ?_,
    faithful_ofKnowledgeBase_iff, faithful_of_hornForm⟩
  · have hclause : h.clause = c := HornClause.clause_of_ofClause hh
    have hsign : h.clause.negated = sign := by rw [hclause, hc.negated_eq]
    refine ⟨hclause, by rw [h.faithful_iff, hsign], fun D V v => ?_⟩
    rw [← hclause, h.isTrue_clause_iff, hsign]
  · rw [faithful_insertClause_iff h, hc.negated_eq]

/-- `p ∨ ¬q` and its negation: the one says that `p` follows from `q`, and so does the rule that is made of either.  So
a knowledge base of the one is faithful, and not any more when it has taken up the other. -/
theorem rules_faithful_implication :
    let members : List Term := [.const "p", .lit true "q"]
    let rule (sign : Bool) : HornClause := ⟨⟨sign, members⟩, .const "p", rfl⟩
    (Obtained false ⟨false, members⟩ ∧ HornClause.ofClause ⟨false, members⟩ = .ok (rule false) ∧
      HornClause.Faithful.{u} (rule false)) ∧
    (Obtained true ⟨true, members⟩ ∧ HornClause.ofClause ⟨true, members⟩ = .ok (rule true) ∧
      ¬ HornClause.Faithful.{u} (rule true)) ∧
    ∃ hb hb', HornBase.ofKnowledgeBase ⟨[⟨false, members⟩]⟩ = .ok hb ∧ HornBase.Faithful.{u} hb ∧
      hb.insertClause ⟨true, members⟩ = .ok hb' ∧ ¬ HornBase.Faithful.{u} hb' := by
  intro members rule
  have hlist : Clause.ofList members = .ok ⟨false, members⟩ := rfl
  have hplain : Obtained false ⟨false, members⟩ := .ofList hlist
  have hnegated : Obtained true ⟨true, members⟩ := hplain.negate
  obtain ⟨hb, hhb⟩ : ∃ hb, HornBase.ofKnowledgeBase ⟨[⟨false, members⟩]⟩ = .ok hb := ⟨_, rfl⟩
  have hok : HornClause.ofClause ⟨true, members⟩ = .ok (rule true) := rfl
  have hadd : hb.insertClause ⟨true, members⟩ = .ok (hb.insert (rule true)) := by
    rw [HornBase.insertClause, hok]
    rfl
  obtain ⟨hrule, -, -, hall, -⟩ :=
    rules_faithful_iff.{u} false ⟨false, members⟩ hplain (.const "p") ⟨[⟨false, members⟩]⟩ hb
  obtain ⟨hrule', -, hinsert, -, -⟩ := rules_faithful_iff.{u} true ⟨true, members⟩ hnegated (.const "p") ⟨[]⟩ hb
  refine ⟨⟨hplain, rfl, (hrule _ rfl).2.1.mpr rfl⟩, ⟨hnegated, hok, fun hfaithful => ?_⟩,
    hb, _, hhb, (hall hhb).mpr (List.forall_mem_singleton.mpr rfl), hadd, fun hfaithful => ?_⟩
  · cases (hrule' _ hok).2.1.mp hfaithful
  · cases ((hinsert _ hadd).mp hfaithful).2

/-- The negation of the clause `p` is taken up as the fact `p`, and `p` is derived and proved from it. -/
theorem negated_clause_proves_member :
    ∃ c h hb, Clause.unit (.const "p") = .ok c ∧ HornClause.ofClause c.negate = .ok h ∧
      (∃ (V : Valuation Unit) (v : String → Unit), c.negate.IsTrue V v ∧ ¬ h.IsTrue V v) ∧
      HornBase.empty.insertClause c.negate = .ok hb ∧ hb.entails (.const "p") = true ∧
      solve hb .standard (.const "p") 3 = some (.ok (some (.const "p"))) := by
  refine ⟨⟨false, [.const "p"]⟩, ⟨⟨true, [.const "p"]⟩, .const "p", rfl⟩, _, rfl, rfl, ?_, rfl, rfl, rfl⟩
  refine ⟨fun _ _ => False, fun _ => (), ?_, ?_⟩
  · simp [Clause.IsTrue, Clause.negate, Term.IsTrue, Term.isNegated]
  · simp [HornClause.IsTrue, HornClause.premises, HornClause.body, Clause.negatives, Term.IsTrue, Term.isNegated]

end Bases

end Clausal
