import Clausal.Proofs.Source.Variants

/-!
# Clausal.Proofs.Source.Loading — a program loads as one Horn clause per statement

* `Term.disjuncts`, `Disjunction.statementClauses`: a disjunction is its own distributed form and has one clause, that of
  its members.
* `Variant.clause`: the clause of a variant, with the goals that repeat an earlier one left out.
* `clauseForm_program`: the clauses of a program are those of variants of its rules, less the ones that have the members
  of an earlier one.
* `ofKnowledgeBase_eq`: clauses with one positive member each, none with the members of another one, are kept as they are.
* `parsed_program_loads`: a text that is read as a program loads, and what its statements come to.
-/

namespace Clausal

open Source

/-! ## The clause of a disjunction -/

namespace Term

variable {t l r d : Term}

/-- The operands of a tree of disjunctions, left to right. -/
def disjuncts : Term → List Term
  | .conn _ .or l r => disjuncts l ++ disjuncts r
  | t => [t]

theorem disjuncts_literal (ht : t.isLiteral = true) : disjuncts t = [t] := by
  cases t with
  | lit n a | rel n a ts | fn n a t => rfl
  | _ => cases ht

theorem Disjunction.disjuncts (h : Disjunction d) : ∀ t ∈ d.disjuncts, t.isLiteral = true := by
  induction h with
  | literal ht =>
    rw [disjuncts_literal ht]
    exact List.forall_mem_singleton.mpr ht
  | or _ _ ihl ihr => exact List.forall_mem_append.mpr ⟨ihl, ihr⟩

theorem Disjunction.disjuncts_relabel (h : Disjunction d) (ρ : String → String) :
    (d.relabel ρ).disjuncts = d.disjuncts.map (Term.relabel ρ) := by
  induction h with
  | @literal t ht =>
    have hrelabel : (t.relabel ρ).isLiteral = true := by rwa [isLiteral_relabel]
    rw [disjuncts_literal ht, disjuncts_literal hrelabel, List.map_singleton]
  | or _ _ ihl ihr => rw [relabel_conn, Term.disjuncts, ihl, ihr, Term.disjuncts, List.map_append]

theorem Disjunction.disjoin (hl : Disjunction l) (hr : Disjunction r) : Term.disjoin l r = .conn false .or l r := by
  have hover : Term.disjoin l r = disjoinOver l r := by
    cases hl with
    | literal ht => exact disjoin_literal r ht
    | or _ _ => rfl
  rw [hover]
  cases hr with
  | literal ht => exact disjoinOver_literal l ht
  | or _ _ => rfl

theorem Disjunction.distributedParts (h : Disjunction d) : distributedParts d = [d] := by
  induction h with
  | literal ht => exact distributedParts_literal ht
  | or hl hr ihl ihr => rw [Term.distributedParts, ihl, ihr, conjoin, conjoin, Term.joinRight, Term.joinRight,
      hl.disjoin hr]

theorem Disjunction.flatten (h : Disjunction d) : d.flatten = .ok d := by
  induction h with
  | @literal t ht =>
    cases t with
    | lit n a | rel n a ts | fn n a t => rfl
    | _ => cases ht
  | or _ _ ihl ihr =>
    rw [Term.flatten, ihl, ihr]
    rfl

/-- On atomic formulas the test is equality. -/
theorem decides_same : Distinct.Decides Term.same (· = ·) fun t => t.isLiteral = true where
  iff ha hb := ⟨eq_of_same_of_isLiteral ha hb, fun h => h ▸ same_refl _⟩
  trans := Eq.trans

theorem Disjunction.clause (h : Disjunction d) : d.clause = .ok ⟨false, Distinct.ofList Term.same d.disjuncts⟩ := by
  induction h with
  | literal ht =>
    rw [clause_literal ht, disjuncts_literal ht]
    rfl
  | or hl hr ihl ihr =>
    rw [Term.clause, ihl, ihr, Term.disjuncts, ← Distinct.union_ofList decides_same hl.disjuncts hr.disjuncts]
    rfl

/-- A disjunction has one clause. -/
theorem Disjunction.statementClauses (h : Disjunction d) :
    d.statementClauses = .ok ⟨[⟨false, Distinct.ofList Term.same d.disjuncts⟩]⟩ := by
  have hformulas : clauseFormulas d = [d] := by
    cases h with
    | literal ht => exact clauseFormulas_literal ht
    | or _ _ => rfl
  rw [Term.statementClauses, distribute, h.distributedParts, conjoin, Term.joinRight, clauses, hformulas,
    List.mapM_cons, List.mapM_nil, h.clause]
  rfl

end Term

theorem foldl_union_singletons (kb : KnowledgeBase) (cs : List Clause) :
    (cs.map fun c => (⟨[c]⟩ : KnowledgeBase)).foldl KnowledgeBase.union kb =
      ⟨Distinct.union Clause.same kb.clauses cs⟩ := by
  induction cs generalizing kb with
  | nil => rfl
  | cons c cs ih =>
    rw [List.map_cons, List.foldl_cons, ih]
    rfl

/-- The clauses of a list of disjunctions. -/
theorem matrixClauses_disjunctions {ds : List Term} (h : ∀ d ∈ ds, Term.Disjunction d) :
    (Term.freeClause false ds).matrixClauses =
      .ok (.ofList (ds.map fun d => ⟨false, Distinct.ofList Term.same d.disjuncts⟩)) := by
  have hflat : (Term.freeClause false ds).statements = .ok ds := by
    rw [Term.statements, Term.flattenAll_eq_mapM, mapM_ok fun d hd => (h d hd).flatten, List.map_id']
  rw [Term.matrixClauses, hflat]
  simp only [bind, Except.bind]
  rw [mapM_ok fun d hd => (h d hd).statementClauses]
  have hlist : (ds.map fun d => (⟨[⟨false, Distinct.ofList Term.same d.disjuncts⟩]⟩ : KnowledgeBase)) =
      (ds.map fun d => (⟨false, Distinct.ofList Term.same d.disjuncts⟩ : Clause)).map fun c => ⟨[c]⟩ := by
    rw [List.map_map]
    rfl
  rw [hlist]
  exact congrArg Except.ok (foldl_union_singletons .empty _)

/-! ## The clause of a variant -/

section Variants

/-- The negated goals, each once, and the head. -/
noncomputable def Source.Rule.members (rule : Rule) : List Term :=
  (firsts (· = ·) rule.goals).map Term.negate ++ [rule.head]

/-- The clause of a variant. -/
noncomputable def Variant.clause (v : Variant) : Clause :=
  ⟨false, v.rule.members.map (Term.relabel v.rename)⟩

/-- The head of a variant. -/
def Variant.head (v : Variant) : Term :=
  v.rule.head.relabel v.rename

variable {v w : Variant} {rule : Rule}

theorem disjuncts_joinRight {t : Term} {ts : List Term} (h : ∀ u ∈ t :: ts, u.isLiteral = true) :
    (Term.joinRight .or t ts).disjuncts = t :: ts := by
  induction ts generalizing t with
  | nil => exact Term.disjuncts_literal (h t List.mem_cons_self)
  | cons u us ih =>
    obtain ⟨ht, hus⟩ := List.forall_mem_cons.mp h
    rw [Term.joinRight, Term.disjuncts, Term.disjuncts_literal ht, ih hus]
    rfl

theorem disjuncts_disjunction (h : rule.Plain) : rule.disjunction.disjuncts = rule.literals := by
  obtain ⟨hhead, hgoals⟩ := List.forall_mem_cons.mp h
  unfold Rule.disjunction Rule.literals
  cases hrule : rule.goals with
  | nil => exact Term.disjuncts_literal hhead.1
  | cons g gs =>
    rw [hrule] at hgoals
    have hnegated : ∀ u ∈ (g :: gs).map Term.negate, u.isLiteral = true :=
      List.forall_mem_map.mpr fun t ht => by rw [Rule.isLiteral_negate, (hgoals t ht).1]
    rw [Term.disjuncts, disjuncts_joinRight hnegated, Term.disjuncts_literal hhead.1, List.map_cons]

theorem firsts_append_singleton {α : Type} {R : α → α → Prop} {xs : List α} {y : α} (h : ∀ x ∈ xs, ¬ R x y) :
    firsts R (xs ++ [y]) = firsts R xs ++ [y] := by
  induction xs with
  | nil => rfl
  | cons x xs ih =>
    obtain ⟨hx, hxs⟩ := List.forall_mem_cons.mp h
    rw [List.cons_append, firsts, ih hxs, List.filter_append, List.filter_cons_of_pos (by simpa using hx),
      List.filter_nil, firsts, List.cons_append]

/-- A goal that is repeated and a head that is none of the negated goals. -/
theorem firsts_literals (h : rule.Plain) : firsts (· = ·) rule.literals = rule.members := by
  obtain ⟨hhead, -⟩ := List.forall_mem_cons.mp h
  have hgoals : ∀ t ∈ rule.goals.map Term.negate, t ≠ rule.head := by
    refine List.forall_mem_map.mpr fun t ht heq => ?_
    have hneg := congrArg Term.isNegated heq
    rw [Term.isNegated_negate, Rule.isNegated_of_isArgument (h t (List.mem_cons_of_mem _ ht)).2,
      Rule.isNegated_of_isArgument hhead.2] at hneg
    cases hneg
  rw [Rule.literals, firsts_append_singleton hgoals, firsts_map, Rule.members]
  congr 2
  refine firsts_congr fun a _ b _ => ⟨fun hab => ?_, fun hab => by rw [hab]⟩
  rw [← Term.negate_negate a, hab, Term.negate_negate]

theorem mentions_of_mem_literals {t : Term} (ht : t ∈ rule.literals) {x : String} (hx : t.mentions x = true) :
    rule.Mentions x := by
  rcases List.mem_append.mp ht with ht | ht
  · obtain ⟨g, hg, rfl⟩ := List.mem_map.mp ht
    exact ⟨g, List.mem_cons_of_mem _ hg, by rwa [Term.mentions_negate] at hx⟩
  · exact ⟨rule.head, List.mem_cons_self, List.mem_singleton.mp ht ▸ hx⟩

theorem isLiteral_of_mem_literals (h : rule.Plain) : ∀ t ∈ rule.literals, t.isLiteral = true := by
  refine List.forall_mem_append.mpr ⟨List.forall_mem_map.mpr fun g hg => ?_, List.forall_mem_singleton.mpr ?_⟩
  · rw [Rule.isLiteral_negate, (h g (List.mem_cons_of_mem _ hg)).1]
  · exact (h _ List.mem_cons_self).1

/-- The clause of a variant as the passes make it. -/
theorem ofList_disjuncts (h : v.rule.Plain) (hproper : v.Proper) :
    Distinct.ofList Term.same v.disjunction.disjuncts = v.clause.members := by
  have hrelabel : v.disjunction.disjuncts = v.rule.literals.map (Term.relabel v.rename) := by
    rw [Variant.disjunction, (Rule.disjunction_isDisjunction h).disjuncts_relabel, disjuncts_disjunction h]
  have hliteral : ∀ t ∈ v.rule.literals.map (Term.relabel v.rename), t.isLiteral = true :=
    List.forall_mem_map.mpr fun t ht => by rw [Term.isLiteral_relabel, isLiteral_of_mem_literals h t ht]
  rw [hrelabel, Distinct.ofList_eq_firsts Term.decides_same hliteral, firsts_map, Variant.clause, ← firsts_literals h]
  congr 1
  refine firsts_congr fun a ha b hb => ⟨fun hab => ?_, fun hab => by rw [hab]⟩
  exact Term.relabel_inj hproper (fun x hx => mentions_of_mem_literals ha hx)
    (fun x hx => mentions_of_mem_literals hb hx) hab

/-- The same set of members. -/
def Variant.SameMembers (v w : Variant) : Prop :=
  ∀ t, t ∈ v.clause.members ↔ t ∈ w.clause.members

theorem nodup_members (h : v.rule.Plain) (hproper : v.Proper) : v.clause.members.Nodup := by
  have hliteral : ∀ t ∈ v.disjunction.disjuncts, t.isLiteral = true :=
    ((Rule.disjunction_isDisjunction h).relabel v.rename).disjuncts
  rw [← ofList_disjuncts h hproper, Distinct.ofList_eq_firsts Term.decides_same hliteral]
  exact pairwise_firsts _ _

theorem isPlain_clause_variant (h : v.rule.Plain) (hproper : v.Proper) : v.clause.IsPlain where
  positive := rfl
  literals t ht := by
    have hliteral : ∀ t ∈ v.disjunction.disjuncts, t.isLiteral = true :=
      ((Rule.disjunction_isDisjunction h).relabel v.rename).disjuncts
    rw [← ofList_disjuncts h hproper, Distinct.ofList_eq_firsts Term.decides_same hliteral] at ht
    exact hliteral t (mem_of_mem_firsts ht)

/-- Without repetitions, clauses are the same if they have the same members. -/
theorem decides_clause_same :
    Distinct.Decides Clause.same (fun c d => ∀ t, t ∈ c.members ↔ t ∈ d.members) fun c =>
      c.IsPlain ∧ c.members.Nodup where
  iff := by
    rintro c d ⟨hc, hcnodup⟩ ⟨hd, hdnodup⟩
    have hmembers :=
      Distinct.sameMembers_eq_true Term.decides_same eq_equivalence hc.literals hd.literals hcnodup hdnodup
    rw [Clause.same, hc.positive, hd.positive, Bool.and_eq_true, hmembers]
    simp only [exists_eq_right, BEq.rfl, true_and]
  trans hab hbc t := (hab t).trans (hbc t)

/-- The clause form of a program: the clauses of variants of its rules, less those with the members of an earlier one. -/
theorem clauseForm_program {rules : List Rule} (h : ∀ r ∈ rules, r.Plain) :
    ∃ variants : List Variant, variants.map (·.rule) = rules ∧ (∀ v ∈ variants, v.Proper) ∧
      variants.Pairwise Variant.Apart ∧
      (programFormula rules).clauseForm = .ok ⟨(firsts Variant.SameMembers variants).map Variant.clause⟩ := by
  obtain ⟨variants, hrules, hproper, hapart, hmatrix⟩ := matrix_program h
  have hplain : ∀ v ∈ variants, v.rule.Plain := fun v hv => h v.rule (hrules ▸ List.mem_map_of_mem hv)
  have hdisjunctions : ∀ d ∈ variants.map (·.disjunction), Term.Disjunction d :=
    List.forall_mem_map.mpr fun v hv => (Rule.disjunction_isDisjunction (hplain v hv)).relabel v.rename
  have hclauses : (variants.map (·.disjunction)).map (fun d => (⟨false, Distinct.ofList Term.same d.disjuncts⟩ : Clause))
      = variants.map Variant.clause := by
    rw [List.map_map]
    exact List.map_congr_left fun v hv => congrArg (Clause.mk false) (ofList_disjuncts (hplain v hv) (hproper v hv))
  have hvalid : ∀ c ∈ variants.map Variant.clause, c.IsPlain ∧ c.members.Nodup :=
    List.forall_mem_map.mpr fun v hv =>
      ⟨isPlain_clause_variant (hplain v hv) (hproper v hv), nodup_members (hplain v hv) (hproper v hv)⟩
  refine ⟨variants, hrules, hproper, hapart, ?_⟩
  rw [Term.clauseForm, Names.clauseForm, hmatrix, matrixClauses_disjunctions hdisjunctions, hclauses,
    KnowledgeBase.ofList, Distinct.ofList_eq_firsts decides_clause_same hvalid, firsts_map]
  rfl

end Variants

/-! ## Horn clauses -/

section Horn

variable {v : Variant}

theorem isNegated_relabel (ρ : String → String) (t : Term) : (t.relabel ρ).isNegated = t.isNegated := by
  cases t with
  | var n x => rw [Term.relabel_var]; rfl
  | rel n a ts => rw [Term.relabel_rel]; rfl
  | freeClause n ts => rw [Term.relabel_freeClause]; rfl
  | lit n a | fn n a t | quant n q x t | conn n c l r => rfl

theorem positives_clause (h : v.rule.Plain) : v.clause.positives = [v.head] := by
  have hgoals : ∀ t ∈ ((firsts (· = ·) v.rule.goals).map Term.negate).map (Term.relabel v.rename),
      ¬ (!t.isNegated) = true := by
    refine List.forall_mem_map.mpr (List.forall_mem_map.mpr fun g hg => ?_)
    have hplain := h g (List.mem_cons_of_mem _ (mem_of_mem_firsts hg))
    rw [isNegated_relabel, Term.isNegated_negate, Rule.isNegated_of_isArgument hplain.2]
    decide
  have hhead : v.head.isNegated = false := by
    rw [Variant.head, isNegated_relabel, Rule.isNegated_of_isArgument (h _ List.mem_cons_self).2]
  rw [Clause.positives, Variant.clause, Rule.members, List.map_append, List.filter_append,
    List.filter_eq_nil_iff.mpr hgoals, List.nil_append]
  exact List.filter_eq_self.mpr (List.forall_mem_singleton.mpr (by rw [← Variant.head, hhead]; rfl))

theorem ofClause_eq {c : Clause} {head : Term} (h : c.positives = [head]) :
    ∃ hc : HornClause, HornClause.ofClause c = .ok hc ∧ hc.clause = c ∧ hc.head = head := by
  unfold HornClause.ofClause
  split
  · next found hfound =>
    rw [h] at hfound
    cases hfound
    exact ⟨_, rfl, rfl, rfl⟩
  · next hne => exact absurd h (hne head)

/-- Clauses with one positive member each are taken up one after the other. -/
theorem foldlM_insertClause {variants : List Variant} (h : ∀ v ∈ variants, v.rule.Plain) :
    ∃ hs : List HornClause, hs.map (·.clause) = variants.map Variant.clause ∧ hs.map (·.head) = variants.map Variant.head ∧
      ∀ kb : HornBase, (variants.map Variant.clause).foldlM HornBase.insertClause kb =
        .ok ⟨Distinct.union HornClause.same kb.clauses hs⟩ := by
  induction variants with
  | nil => exact ⟨[], rfl, rfl, fun kb => rfl⟩
  | cons v variants ih =>
    obtain ⟨hv, hrest⟩ := List.forall_mem_cons.mp h
    obtain ⟨hs, hclauses, hheads, hfold⟩ := ih hrest
    obtain ⟨hc, hok, hclause, hhead⟩ := ofClause_eq (positives_clause hv)
    refine ⟨hc :: hs, ?_, ?_, fun kb => ?_⟩
    · rw [List.map_cons, List.map_cons, hclauses, hclause]
    · rw [List.map_cons, List.map_cons, hheads, hhead]
    · rw [List.map_cons, List.foldlM_cons, HornBase.insertClause, hok]
      exact hfold (kb.insert hc)

theorem decides_horn_same :
    Distinct.Decides HornClause.same (fun a b => ∀ t, t ∈ a.clause.members ↔ t ∈ b.clause.members) fun c =>
      c.clause.IsPlain ∧ c.clause.members.Nodup where
  iff ha hb := decides_clause_same.iff ha hb
  trans hab hbc t := (hab t).trans (hbc t)

/-- Clauses with one positive member each, none with the members of another, are kept as they are. -/
theorem ofKnowledgeBase_eq {variants : List Variant} (h : ∀ v ∈ variants, v.rule.Plain ∧ v.Proper)
    (hpair : variants.Pairwise fun v w => ¬ v.SameMembers w) :
    ∃ kb, HornBase.ofKnowledgeBase ⟨variants.map Variant.clause⟩ = .ok kb ∧
      kb.clauses.map (·.clause) = variants.map Variant.clause ∧ kb.clauses.map (·.head) = variants.map Variant.head := by
  obtain ⟨hs, hclauses, hheads, hfold⟩ := foldlM_insertClause fun v hv => (h v hv).1
  have hvalid : ∀ c ∈ hs, c.clause.IsPlain ∧ c.clause.members.Nodup := by
    intro c hc
    have hmem : c.clause ∈ variants.map Variant.clause := hclauses ▸ List.mem_map_of_mem hc
    obtain ⟨v, hv, heq⟩ := List.mem_map.mp hmem
    rw [← heq]
    exact ⟨isPlain_clause_variant (h v hv).1 (h v hv).2, nodup_members (h v hv).1 (h v hv).2⟩
  have hdistinct : hs.Pairwise fun a b => ¬ ∀ t, t ∈ a.clause.members ↔ t ∈ b.clause.members := by
    have hmapped : (variants.map Variant.clause).Pairwise fun c d => ¬ ∀ t, t ∈ c.members ↔ t ∈ d.members :=
      List.pairwise_map.mpr hpair
    rw [← hclauses] at hmapped
    exact List.pairwise_map.mp hmapped
  refine ⟨⟨hs⟩, ?_, hclauses, hheads⟩
  have hself : Distinct.union HornClause.same [] hs = hs := Distinct.ofList_of_pairwise decides_horn_same hvalid hdistinct
  have hresult := hfold .empty
  rw [HornBase.empty, hself] at hresult
  exact hresult

end Horn

/-! ## Programs -/

section Programs

theorem Source.SpellsGoals.plain {s r : List Char} {ts : List Term} (h : SpellsGoals s ts r) :
    ∀ t ∈ ts, t.isLiteral = true ∧ t.isArgument = true := by
  induction h with
  | last ht _ => exact List.forall_mem_singleton.mpr ht.isArgument
  | more ht _ _ ih => exact List.forall_mem_cons.mpr ⟨ht.isArgument, ih⟩

theorem Source.Written.plain {s : List Char} {rules : List Rule} (h : Written s rules) : ∀ r ∈ rules, r.Plain := by
  induction h with
  | done _ => exact fun r hr => (nomatch hr)
  | fact hhead _ _ ih =>
    exact List.forall_mem_cons.mpr ⟨List.forall_mem_singleton.mpr hhead.isArgument, ih⟩
  | rule hhead _ hgoals _ ih =>
    exact List.forall_mem_cons.mpr ⟨List.forall_mem_cons.mpr ⟨hhead.isArgument, hgoals.plain⟩, ih⟩

/-- A text that is read as a program is written as one list of rules, and the program loads: for each rule, in order, the
clause of its negated goals and its head, under a renaming of its own, unless an earlier one has the same members. -/
theorem parsed_program_loads {text : String} {p : Program} (h : Program.parse text = .ok p) :
    ∃ rules, Written text.toList rules ∧ (∀ rules', Written text.toList rules' → rules' = rules) ∧
      ∃ kb, p.theory.hornBase = .ok kb ∧
        ∃ variants : List Variant, variants.map (·.rule) = rules ∧ (∀ v ∈ variants, v.Proper) ∧
          variants.Pairwise Variant.Apart ∧
          kb.clauses.map (·.clause) = (firsts Variant.SameMembers variants).map Variant.clause ∧
          kb.clauses.map (·.head) = (firsts Variant.SameMembers variants).map Variant.head := by
  obtain ⟨rules, hwritten, hstatements⟩ := written_of_parse h
  refine ⟨rules, hwritten, fun rules' h' => h'.unique hwritten, ?_⟩
  obtain ⟨variants, hrules, hproper, hapart, hform⟩ := clauseForm_program hwritten.plain
  have hvalid : ∀ v ∈ firsts Variant.SameMembers variants, v.rule.Plain ∧ v.Proper := by
    intro v hv
    have hmem := mem_of_mem_firsts hv
    exact ⟨hwritten.plain v.rule (hrules ▸ List.mem_map_of_mem hmem), hproper v hmem⟩
  obtain ⟨kb, hkb, hclauses, hheads⟩ := ofKnowledgeBase_eq hvalid (pairwise_firsts _ variants)
  refine ⟨kb, ?_, variants, hrules, hproper, hapart, hclauses, hheads⟩
  have hhorn : p.theory.hornBase = (programFormula rules).hornForm := by
    rw [Program.theory, hstatements]
    rfl
  rw [hhorn, Term.hornForm, hform]
  exact hkb

/-- Two rules that share a variable, one of them with a goal twice, and a fact stated twice. -/
def sharing : String :=
  "p(X) :- q(X), r(Y), q(X).  p(X) :- r(X).  q(a).  q(a)."

def sharingProgram : Program where
  statements :=
    [.quant false .forall "X" (.quant false .forall "Y" (.implies
      (.and (.rel false "q" [.var false "X"]) (.and (.rel false "r" [.var false "Y"]) (.rel false "q" [.var false "X"])))
      (.rel false "p" [.var false "X"]))),
     .quant false .forall "X" (.implies (.rel false "r" [.var false "X"]) (.rel false "p" [.var false "X"])),
     .rel false "q" [.lit false "a"],
     .rel false "q" [.lit false "a"]]

/-- The text is read as a program of the given statements, in which no variable is negated. -/
def reads (text : String) (statements : List Term) : Bool :=
  match Program.parse text with
  | .ok p => Term.sameAll p.statements statements && Term.areUnsigned p.statements && Term.areUnsigned statements
  | .error _ => false

theorem parse_of_reads {text : String} {statements : List Term} (h : reads text statements = true) :
    Program.parse text = .ok ⟨statements⟩ := by
  unfold reads at h
  split at h
  · next p hp =>
    obtain ⟨⟨hsame, hp'⟩, hstatements⟩ := by simpa only [Bool.and_eq_true, Term.areUnsigned_eq_true] using h
    have heq := Term.eq_of_sameAll (fun t _ u => Term.eq_of_same) hp' hstatements hsame
    rw [hp, ← heq]
  · cases h

theorem parse_sharing : Program.parse sharing = .ok sharingProgram :=
  parse_of_reads (by decide +kernel)

theorem sharing_loads :
    Program.parse sharing = .ok sharingProgram ∧
      ∃ rules, Written sharing.toList rules ∧ (∀ rules', Written sharing.toList rules' → rules' = rules) ∧
        ∃ kb, sharingProgram.theory.hornBase = .ok kb ∧
          ∃ variants : List Variant, variants.map (·.rule) = rules ∧ (∀ v ∈ variants, v.Proper) ∧
            variants.Pairwise Variant.Apart ∧
            kb.clauses.map (·.clause) = (firsts Variant.SameMembers variants).map Variant.clause ∧
            kb.clauses.map (·.head) = (firsts Variant.SameMembers variants).map Variant.head :=
  ⟨parse_sharing, parsed_program_loads parse_sharing⟩

end Programs

end Clausal
