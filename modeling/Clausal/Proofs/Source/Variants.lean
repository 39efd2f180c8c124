import Clausal.Proofs.Source.Grammar
import Clausal.Proofs.Term.Relabel

/-!
# Clausal.Proofs.Source.Variants — the rules of a program with variables of their own

On the way to the clause form a rule becomes the disjunction of its negated goals and its head, below `∀` over its
variables.  Taking the binders apart renames these variables, and no quantifier is left in the end.

* `Term.universal xs t`: `t` below `∀` over `xs`; `Term.Disjunction`: atomic formulas joined by `∨`.
* `nnf_close`: the normal form of a rule's formula.
* `Variant`: a rule with a renaming; `Variant.Proper`: one that keeps the variables of the rule apart.
* `matrix_program`: the quantifier-free form of a program is that of variants of its rules which have no variable in
  common.
-/

namespace Clausal

open Source

namespace Term

variable {t l r d : Term} {x : String} {xs ys scope : List String} {names : Names} {enclosing : Option String}

/-! ## Universally quantified disjunctions -/

section Universal

/-- `t` below `∀` over the variables `xs`, the first one outermost. -/
def universal (xs : List String) (t : Term) : Term :=
  xs.foldr (fun x body => .quant false .forall x body) t

theorem universal_cons (x : String) (xs : List String) (t : Term) :
    universal (x :: xs) t = .quant false .forall x (universal xs t) :=
  rfl

/-- Atomic formulas joined by `∨`. -/
inductive Disjunction : Term → Prop where
  | literal {t : Term} : t.isLiteral = true → Disjunction t
  | or {l r : Term} : Disjunction l → Disjunction r → Disjunction (.conn false .or l r)

theorem Disjunction.relabel (h : Disjunction d) (ρ : String → String) : Disjunction (d.relabel ρ) := by
  induction h with
  | literal ht => exact .literal (by rwa [isLiteral_relabel])
  | or _ _ ihl ihr => exact .or ihl ihr

theorem Disjunction.joinRight {ts : List Term} (h : ∀ u ∈ t :: ts, u.isLiteral = true) :
    Disjunction (joinRight .or t ts) := by
  induction ts generalizing t with
  | nil => exact .literal (h t List.mem_cons_self)
  | cons u us ih =>
    obtain ⟨ht, hus⟩ := List.forall_mem_cons.mp h
    exact .or (.literal ht) (ih hus)

theorem Disjunction.binderOccurrences (h : Disjunction d) : d.binderOccurrences = [] := by
  induction h with
  | literal ht => exact binderOccurrences_of_isFirstOrder (firstOrder_of_isLiteral ht).1
  | or _ _ ihl ihr => rw [Term.binderOccurrences, ihl, ihr, List.append_nil]

theorem Disjunction.isSettled (h : Disjunction d) : d.isSettled = true := by
  induction h with
  | @literal t ht =>
    cases t with
    | lit n a | rel n a ts | fn n a t => exact ht
    | _ => cases ht
  | or _ _ ihl ihr => exact isSettled_conn.mpr ⟨rfl, .inr rfl, ihl, ihr⟩

theorem binderOccurrences_universal (xs : List String) (t : Term) :
    (universal xs t).binderOccurrences = xs ++ t.binderOccurrences := by
  induction xs with
  | nil => rfl
  | cons x xs ih => exact congrArg (x :: ·) ih

theorem isSettled_universal (h : d.isSettled = true) : (universal xs d).isSettled = true := by
  induction xs with
  | nil => exact h
  | cons x xs ih => exact isSettled_quant.mpr ⟨rfl, ih⟩

theorem nnf_universal (xs : List String) (t : Term) : (universal xs t).nnf false = universal xs (t.nnf false) := by
  induction xs with
  | nil => rfl
  | cons x xs ih => exact congrArg (Term.quant false .forall x) ih

theorem mem_variableNames_universal :
    x ∈ (universal xs t).variableNames ↔ x ∈ xs ∨ x ∈ t.variableNames := by
  induction xs with
  | nil => simp [universal]
  | cons y xs ih =>
    rw [universal_cons, variableNames, List.mem_cons, ih, List.mem_cons, or_assoc]

end Universal

/-! ## Binders apart -/

section Apart

theorem apartIn_literal (ht : t.isLiteral = true) : apartIn scope names t = (t, names) := by
  cases t with
  | lit n a | rel n a ts | fn n a t => rw [apartIn] <;> simp
  | _ => cases ht

theorem binders_of_no_binders (h : t.binderOccurrences = []) : t.binders = [] := by
  rw [binders, h]
  rfl

theorem apartIn_disjunction (h : Disjunction d) : apartIn scope names d = (d, names) := by
  induction h generalizing names with
  | literal ht => exact apartIn_literal ht
  | or hl hr ihl ihr =>
    have hshared : ∀ ys : List String, sharedNames [] ys = [] := fun ys => rfl
    rw [apartIn, binders_of_no_binders hl.binderOccurrences, hshared, Names.freshenBoth, ihl, ihr]

/-- Binders that are apart stay as they are. -/
theorem apartIn_universal (hd : Disjunction d) (hxs : xs.Nodup) (hscope : ∀ x ∈ xs, x ∉ scope) :
    apartIn scope names (universal xs d) = (universal xs d, names) := by
  induction xs generalizing scope with
  | nil => exact apartIn_disjunction hd
  | cons x xs ih =>
    obtain ⟨hx, hxs⟩ := List.nodup_cons.mp hxs
    obtain ⟨hxscope, hscope⟩ := List.forall_mem_cons.mp hscope
    have hleave : names.leaveScope scope (scope.length + 1) x (universal xs d) = ((x, universal xs d), names) := by
      rw [Names.leaveScope, if_neg (by simpa using hxscope)]
    have hbody : ∀ y ∈ xs, y ∉ x :: scope := by
      intro y hy hmem
      rcases List.mem_cons.mp hmem with rfl | hmem
      · exact hx hy
      · exact hscope y hy hmem
    rw [universal_cons, apartIn, hleave, ih hxs hbody]

theorem renameAll_universal (hd : d.binderOccurrences = []) (x y : String) :
    (universal xs d).renameAll x y = universal (xs.map (rename x y)) (d.relabel (rename x y)) := by
  induction xs with
  | nil => exact renameAll_eq_relabel hd
  | cons z xs ih => exact congrArg (Term.quant false .forall (rename x y z)) ih

theorem renameBound_universal_of_notMem (hd : d.binderOccurrences = []) (hx : x ∉ xs) (y : String) :
    (universal xs d).renameBound x y = universal xs d := by
  induction xs with
  | nil => exact renameBound_of_no_binders hd
  | cons z xs ih =>
    obtain ⟨hxz, hx⟩ := not_or.mp (mt List.mem_cons.mpr hx)
    rw [universal_cons, renameBound, if_neg (by simpa using hxz), ih hx]

theorem renameBound_universal_of_mem (hd : d.binderOccurrences = []) (hx : x ∈ xs) (y : String) :
    (universal xs d).renameBound x y = universal (xs.map (rename x y)) (d.relabel (rename x y)) := by
  induction xs with
  | nil => cases hx
  | cons z xs ih =>
    rw [universal_cons, renameBound]
    by_cases hxz : x = z
    · subst hxz
      rw [if_pos (beq_self_eq_true x), renameAll_universal hd, List.map_cons, rename_self]
      rfl
    · rw [if_neg (by simpa using hxz), ih ((List.mem_cons.mp hx).resolve_left hxz), List.map_cons, rename_of_ne hxz]
      rfl

/-- A new name for a variable of a disjunction that has all its variables bound. -/
theorem renameBound_universal (hd : d.binderOccurrences = []) (hvars : ∀ z, d.mentions z = true → z ∈ xs)
    (x y : String) :
    (universal xs d).renameBound x y = universal (xs.map (rename x y)) (d.relabel (rename x y)) := by
  by_cases hx : x ∈ xs
  · exact renameBound_universal_of_mem hd hx y
  · have hnames : xs.map (rename x y) = xs := by
      refine (List.map_congr_left fun z hz => ?_).trans (List.map_id xs)
      exact rename_of_ne (ne_of_mem_of_not_mem hz hx).symm y
    have hbody : d.relabel (rename x y) = d.relabel id :=
      relabel_congr fun z hz => rename_of_ne (ne_of_mem_of_not_mem (hvars z hz) hx).symm y
    rw [renameBound_universal_of_notMem hd hx, hnames, hbody, relabel_id]

end Apart

end Term

/-! ## Renamed variables -/

section Renames

variable {names names' names'' : Names} {xs ys zs : List String} {ρ σ : String → String} {d : Term}

/-- The renaming `ρ` keeps the variables `xs` apart and gives those in `ys` a name that was not issued before. -/
structure Renames (names names' : Names) (xs ys : List String) (ρ : String → String) : Prop where
  later : names.Later names'
  inj : Set.InjOn ρ {x | x ∈ xs}
  issued : ∀ x ∈ xs, names'.Issued (ρ x)
  fresh : ∀ x ∈ xs, ρ x = x ∧ x ∉ ys ∨ ¬ names.Issued (ρ x)

theorem Renames.refl (hxs : ∀ x ∈ xs, names.Issued x) : Renames names names xs [] id where
  later := .refl names
  inj := Set.injOn_id _
  issued := hxs
  fresh _ _ := .inl ⟨rfl, List.not_mem_nil⟩

theorem Renames.trans (h : Renames names names' xs ys ρ) (h' : Renames names' names'' (xs.map ρ) zs σ) :
    Renames names names'' xs (ys ++ zs) (σ ∘ ρ) where
  later := h.later.trans h'.later
  inj x hx y hy heq := h.inj hx hy (h'.inj (List.mem_map_of_mem hx) (List.mem_map_of_mem hy) heq)
  issued x hx := h'.issued (ρ x) (List.mem_map_of_mem hx)
  fresh x hx := by
    rcases h'.fresh (ρ x) (List.mem_map_of_mem hx) with ⟨hsame, hz⟩ | hnew
    · rcases h.fresh x hx with ⟨hself, hy⟩ | hnew
      · refine .inl ⟨hsame.trans hself, fun hmem => ?_⟩
        rw [hself] at hz
        exact (List.mem_append.mp hmem).elim hy hz
      · rw [Function.comp_apply, hsame]
        exact .inr hnew
    · exact .inr fun hi => hnew (hi.later h.later)

/-- One fresh name. -/
theorem renames_fresh (hxs : ∀ x ∈ xs, names.Issued x) (y : String) :
    Renames names names.freshVariable.2 xs [y] (Term.rename y names.freshVariable.1) := by
  have hnew := names.not_issued_freshVariable
  have hne : ∀ x ∈ xs, x ≠ names.freshVariable.1 := fun x hx heq => hnew (heq ▸ hxs x hx)
  refine ⟨names.later_freshVariable, fun x hx z hz heq => ?_, fun x hx => ?_, fun x hx => ?_⟩
  · by_cases hxy : y = x
    · by_cases hzy : y = z
      · exact hxy.symm.trans hzy
      · rw [← hxy, Term.rename_self, Term.rename_of_ne hzy] at heq
        exact absurd heq.symm (hne z hz)
    · by_cases hzy : y = z
      · rw [← hzy, Term.rename_self, Term.rename_of_ne hxy] at heq
        exact absurd heq (hne x hx)
      · rwa [Term.rename_of_ne hxy, Term.rename_of_ne hzy] at heq
  · by_cases hxy : y = x
    · rw [← hxy, Term.rename_self]
      exact names.issued_freshVariable
    · rw [Term.rename_of_ne hxy]
      exact (hxs x hx).later names.later_freshVariable
  · by_cases hxy : y = x
    · rw [← hxy, Term.rename_self]
      exact .inr hnew
    · rw [Term.rename_of_ne hxy]
      exact .inl ⟨rfl, fun hmem => hxy (List.mem_singleton.mp hmem).symm⟩

/-- Fresh names for some of the variables of a disjunction. -/
theorem freshen_universal (hd : Term.Disjunction d) (hvars : ∀ x, d.mentions x = true → x ∈ xs)
    (hxs : ∀ x ∈ xs, names.Issued x) (ys : List String) :
    ∃ ρ, (names.freshen ys (.universal xs d)).1 = .universal (xs.map ρ) (d.relabel ρ) ∧
      Renames names (names.freshen ys (.universal xs d)).2 xs ys ρ := by
  induction ys generalizing names xs d with
  | nil =>
    refine ⟨id, ?_, .refl hxs⟩
    rw [List.map_id, Term.relabel_id]
    rfl
  | cons y ys ih =>
    have hstep := renames_fresh hxs y
    have hvars' : ∀ x, (d.relabel (Term.rename y names.freshVariable.1)).mentions x = true →
        x ∈ xs.map (Term.rename y names.freshVariable.1) := by
      intro x hx
      obtain ⟨z, hz, rfl⟩ := Term.mentions_relabel.mp hx
      exact List.mem_map_of_mem (hvars z hz)
    obtain ⟨σ, hσ, hrest⟩ := ih (hd.relabel _) hvars' fun x hx => by
      obtain ⟨z, hz, rfl⟩ := List.mem_map.mp hx
      exact hstep.issued z hz
    refine ⟨σ ∘ Term.rename y names.freshVariable.1, ?_, ?_⟩
    · rw [Names.freshen, Term.renameBound_universal hd.binderOccurrences hvars, hσ, List.map_map,
        Term.relabel_relabel]
    · rw [Names.freshen, Term.renameBound_universal hd.binderOccurrences hvars]
      exact hstep.trans hrest

end Renames

/-! ## Rules -/

namespace Source.Rule

/-- The variable `x` occurs in the rule. -/
def Mentions (rule : Rule) (x : String) : Prop :=
  ∃ t ∈ rule.head :: rule.goals, t.mentions x = true

/-- Head and goals are atomic formulas without negation signs. -/
def Plain (rule : Rule) : Prop :=
  ∀ t ∈ rule.head :: rule.goals, t.isLiteral = true ∧ t.isArgument = true

/-- The negated goals and the head. -/
def literals (rule : Rule) : List Term :=
  rule.goals.map Term.negate ++ [rule.head]

/-- The disjunction of the negated goals and the head. -/
def disjunction (rule : Rule) : Term :=
  match rule.goals with
  | [] => rule.head
  | g :: gs => .or (Term.joinRight .or g.negate (gs.map Term.negate)) rule.head

variable {rule : Rule} {x : String}

theorem isNegated_of_isArgument {t : Term} (ht : t.isArgument = true) : t.isNegated = false := by
  cases t with
  | lit n a | var n a => simpa [Term.isArgument, Term.isNegated] using ht
  | rel n a ts => exact (by simpa [Term.isArgument] using ht : n = false ∧ _).1
  | fn n a t => exact (by simpa [Term.isArgument] using ht : n = false ∧ _).1
  | quant n q x t | conn n c l r | freeClause n ts => cases ht

theorem nnf_literal {t : Term} (ht : t.isLiteral = true) (flip : Bool) : t.nnf flip = Term.signed flip t := by
  cases t with
  | lit n a | rel n a ts | fn n a t => cases flip <;> rfl
  | _ => cases ht

theorem nnf_joinRight_and (t : Term) (ts : List Term) :
    (Term.joinRight .and t ts).nnf true = Term.joinRight .or (t.nnf true) (ts.map (Term.nnf true)) := by
  induction ts generalizing t with
  | nil => rfl
  | cons u us ih =>
    rw [Term.joinRight, Term.nnf, List.map_cons, Term.joinRight, ih]
    rfl

theorem nnf_formula (h : rule.Plain) : rule.formula.nnf false = rule.disjunction := by
  obtain ⟨hhead, hgoals⟩ := List.forall_mem_cons.mp h
  unfold formula disjunction Source.rule
  cases hrule : rule.goals with
  | nil => exact nnf_literal hhead.1 false
  | cons g gs =>
    rw [hrule] at hgoals
    obtain ⟨hg, hgs⟩ := List.forall_mem_cons.mp hgoals
    have hmap : gs.map (Term.nnf true) = gs.map Term.negate :=
      List.map_congr_left fun t ht => nnf_literal (hgs t ht).1 true
    have himplies : (Term.implies (Term.joinRight .and g gs) rule.head).nnf false =
        .or ((Term.joinRight .and g gs).nnf true) (rule.head.nnf false) := rfl
    rw [himplies, nnf_joinRight_and, hmap, nnf_literal hg.1, nnf_literal hhead.1]
    rfl

theorem isLiteral_negate {t : Term} : t.negate.isLiteral = t.isLiteral := by
  cases t <;> rfl

theorem disjunction_isDisjunction (h : rule.Plain) : Term.Disjunction rule.disjunction := by
  obtain ⟨hhead, hgoals⟩ := List.forall_mem_cons.mp h
  unfold disjunction
  cases hrule : rule.goals with
  | nil => exact .literal hhead.1
  | cons g gs =>
    rw [hrule] at hgoals
    refine .or (.joinRight ?_) (.literal hhead.1)
    rw [← List.map_cons, List.forall_mem_map]
    exact fun t ht => by rw [isLiteral_negate, (hgoals t ht).1]

theorem mentions_joinRight (op : Connective) (t : Term) (ts : List Term) (x : String) :
    (Term.joinRight op t ts).mentions x = Term.mentionsAny x (t :: ts) := by
  induction ts generalizing t with
  | nil => simp [Term.joinRight, Term.mentionsAny]
  | cons u us ih =>
    rw [Term.joinRight, Term.mentions, ih]
    rfl

theorem mentions_disjunction : rule.disjunction.mentions x = true ↔ rule.Mentions x := by
  unfold disjunction Mentions
  cases rule.goals with
  | nil => simp
  | cons g gs =>
    have hgoals : (∃ t ∈ (g :: gs).map Term.negate, t.mentions x = true) ↔ ∃ t ∈ g :: gs, t.mentions x = true := by
      simp only [List.mem_map, exists_exists_and_eq_and, Term.mentions_negate]
    rw [Term.mentions, Bool.or_eq_true, mentions_joinRight, ← List.map_cons, Term.mentionsAny_eq_true, hgoals, or_comm]
    exact (List.exists_mem_cons_iff (fun t => t.mentions x = true) rule.head (g :: gs)).symm

/-- The free variables of the formula are those of the rule. -/
theorem mem_freeVars_formula (h : rule.Plain) : x ∈ rule.formula.freeVars ↔ rule.Mentions x := by
  have hfree : ∀ t ∈ rule.head :: rule.goals, (t.occursFree x = true ↔ t.mentions x = true) := by
    intro t ht
    have hfirst := (Term.firstOrder_of_isLiteral (h t ht).1).1
    exact ⟨Term.mentions_of_occursFree, fun hx => Term.mem_freeVars.mp (Term.mem_freeVars_of_isFirstOrder hfirst hx)⟩
  have hall : rule.formula.occursFree x = true ↔ ∃ t ∈ rule.head :: rule.goals, t.occursFree x = true := by
    unfold formula Source.rule
    cases rule.goals with
    | nil => simp
    | cons g gs =>
      rw [Term.occursFree, Bool.or_eq_true, Term.occursFree_joinRight, Term.occursFreeAny_eq_true, or_comm]
      exact (List.exists_mem_cons_iff (fun t => t.occursFree x = true) rule.head (g :: gs)).symm
  rw [Term.mem_freeVars, hall]
  exact exists_congr fun t => and_congr_right fun ht => hfree t ht

end Source.Rule

/-! ## Variants -/

section Variants

/-- A rule with a renaming of its variables. -/
structure Variant where
  rule : Rule
  rename : String → String

namespace Variant

/-- The statement of a variant in normal form. -/
def statement (v : Variant) : Term :=
  .universal (v.rule.formula.freeVars.map v.rename) (v.rule.disjunction.relabel v.rename)

/-- The variables of the rule stay apart. -/
def Proper (v : Variant) : Prop :=
  Set.InjOn v.rename {x | v.rule.Mentions x}

/-- No variable in common. -/
def Apart (v w : Variant) : Prop :=
  ∀ x y, v.rule.Mentions x → w.rule.Mentions y → v.rename x ≠ w.rename y

end Variant

/-- The statement of a rule in normal form. -/
def Source.Rule.statement (rule : Rule) : Term :=
  .universal rule.formula.freeVars rule.disjunction

theorem nnf_close {rule : Rule} (h : rule.Plain) : rule.formula.close.nnf false = rule.statement := by
  rw [Source.Rule.statement, ← Rule.nnf_formula h]
  exact Term.nnf_universal _ _

theorem mem_binders_statement {v : Variant} (h : v.rule.Plain) {x : String} :
    x ∈ v.statement.binders ↔ ∃ y, v.rule.Mentions y ∧ v.rename y = x := by
  have hd := (Rule.disjunction_isDisjunction h).relabel v.rename
  rw [Term.binders, Distinct.mem_ofList, Variant.statement, Term.binderOccurrences_universal,
    hd.binderOccurrences, List.append_nil, List.mem_map]
  exact exists_congr fun y => and_congr_left fun _ => Rule.mem_freeVars_formula h

theorem apartIn_statement {v : Variant} (h : v.rule.Plain) (hproper : v.Proper) (names : Names) :
    Term.apartIn [] names v.statement = (v.statement, names) := by
  have hinj : Set.InjOn v.rename {x | x ∈ v.rule.formula.freeVars} :=
    hproper.mono fun x hx => (Rule.mem_freeVars_formula h).mp hx
  have hnodup := (Term.nodup_freeVars v.rule.formula).map_on hinj
  exact Term.apartIn_universal ((Rule.disjunction_isDisjunction h).relabel _) hnodup fun x _ => List.not_mem_nil

/-- A rule gives way to the names that were seen before it. -/
theorem freshen_statement {rule : Rule} {names : Names} {seen : List String} (h : rule.Plain)
    (hissued : ∀ x, rule.Mentions x → names.Issued x) (hseen : ∀ x ∈ seen, names.Issued x) :
    ∃ v : Variant, v.rule = rule ∧ v.Proper ∧
      (names.freshen (Term.sharedNames rule.statement.binders seen) rule.statement).1 = v.statement ∧
      names.Later (names.freshen (Term.sharedNames rule.statement.binders seen) rule.statement).2 ∧
      ∀ x, rule.Mentions x → v.rename x ∉ seen ∧
        (names.freshen (Term.sharedNames rule.statement.binders seen) rule.statement).2.Issued (v.rename x) := by
  have hmem : ∀ x, x ∈ rule.formula.freeVars ↔ rule.Mentions x := fun x => Rule.mem_freeVars_formula h
  have hd := Rule.disjunction_isDisjunction h
  have hvars : ∀ x, rule.disjunction.mentions x = true → x ∈ rule.formula.freeVars :=
    fun x hx => (hmem x).mpr (Rule.mentions_disjunction.mp hx)
  obtain ⟨ρ, hown, hrenames⟩ := freshen_universal hd hvars (fun x hx => hissued x ((hmem x).mp hx))
    (Term.sharedNames rule.statement.binders seen)
  refine ⟨⟨rule, ρ⟩, rfl, hrenames.inj.mono fun x hx => (hmem x).mpr hx, hown, hrenames.later, fun x hx => ?_⟩
  refine ⟨fun hold => ?_, hrenames.issued x ((hmem x).mpr hx)⟩
  rcases hrenames.fresh x ((hmem x).mpr hx) with ⟨hself, hnot⟩ | hnew
  · -- a variable that kept its name was not seen before
    have hbinder : x ∈ rule.statement.binders := by
      rw [Term.binders, Distinct.mem_ofList, Rule.statement, Term.binderOccurrences_universal,
        hd.binderOccurrences, List.append_nil]
      exact (hmem x).mpr hx
    have hold : ρ x ∈ seen := hold
    rw [hself] at hold
    exact hnot (by simpa [Term.sharedNames, hold] using hbinder)
  · exact hnew (hseen _ hold)

/-- The statements of a program with their binders apart are those of variants without a variable in common. -/
theorem apartAll_statements {rules : List Rule} {names : Names} {seen : List String} (hplain : ∀ r ∈ rules, r.Plain)
    (hissued : ∀ r ∈ rules, ∀ x, r.Mentions x → names.Issued x) (hseen : ∀ x ∈ seen, names.Issued x) :
    ∃ variants : List Variant, variants.map (·.rule) = rules ∧
      (Term.apartAll [] seen names (rules.map (·.statement))).1 = variants.map (·.statement) ∧
      (∀ v ∈ variants, v.Proper ∧ ∀ x, v.rule.Mentions x → v.rename x ∉ seen) ∧
      variants.Pairwise Variant.Apart := by
  induction rules generalizing names seen with
  | nil =>
    refine ⟨[], rfl, ?_, fun v hv => (nomatch hv), .nil⟩
    rw [List.map_nil, Term.apartAll]
    rfl
  | cons rule rules ih =>
    obtain ⟨hrule, hothers⟩ := List.forall_mem_cons.mp hplain
    obtain ⟨hvars, hlist⟩ := List.forall_mem_cons.mp hissued
    obtain ⟨v, rfl, hproper, hown, hlater, hfresh⟩ := freshen_statement hrule hvars hseen
    have hnext : ∀ x, x ∈ Distinct.union (· == ·) seen v.statement.binders ↔
        x ∈ seen ∨ ∃ y, v.rule.Mentions y ∧ v.rename y = x := by
      intro x
      rw [Distinct.mem_union, mem_binders_statement hrule]
    obtain ⟨variants, hrules, hstatements, hrest, hapart⟩ := ih hothers
      (fun r hr x hx => (hlist r hr x hx).later hlater) fun x hx => by
        rcases (hnext x).mp hx with hx | ⟨y, hy, rfl⟩
        · exact (hseen x hx).later hlater
        · exact (hfresh y hy).2
    refine ⟨v :: variants, by rw [List.map_cons, hrules], ?_, ?_, ?_⟩
    · rw [List.map_cons, Term.apartAll, hown, apartIn_statement hrule hproper, List.map_cons]
      exact congrArg (_ :: ·) hstatements
    · refine List.forall_mem_cons.mpr ⟨⟨hproper, fun x hx => (hfresh x hx).1⟩, fun w hw => ⟨(hrest w hw).1, ?_⟩⟩
      exact fun x hx hold => (hrest w hw).2 x hx ((hnext _).mpr (.inl hold))
    · refine .cons (fun w hw x y hx hy heq => ?_) hapart
      exact (hrest w hw).2 y hy ((hnext _).mpr (.inr ⟨x, hx, heq⟩))

theorem skolemizeIn_disjunction {d : Term} (hd : Term.Disjunction d) (enclosing : Option String) (names : Names) :
    d.skolemizeIn [] enclosing names = (d, names) := by
  induction hd generalizing names with
  | @literal t ht =>
    cases t with
    | lit n a | rel n a ts | fn n a t => rfl
    | _ => cases ht
  | or _ _ ihl ihr => rw [Term.skolemizeIn_conn, ihl, ihr]

theorem skolemizeIn_universal {d : Term} (hd : Term.Disjunction d) (xs : List String) (enclosing : Option String)
    (names : Names) : (Term.universal xs d).skolemizeIn [] enclosing names = (d, names) := by
  induction xs generalizing enclosing with
  | nil => exact skolemizeIn_disjunction hd enclosing names
  | cons x xs ih => exact ih (some x)

/-- The quantifier-free form of a variant. -/
def Variant.disjunction (v : Variant) : Term :=
  v.rule.disjunction.relabel v.rename

theorem skolemizeAll_statements {variants : List Variant} (h : ∀ v ∈ variants, v.rule.Plain) (names : Names) :
    (Term.skolemizeAll [] none names (variants.map (·.statement))).1 = variants.map (·.disjunction) := by
  induction variants generalizing names with
  | nil => rfl
  | cons v variants ih =>
    obtain ⟨hv, hrest⟩ := List.forall_mem_cons.mp h
    have hd := (Rule.disjunction_isDisjunction hv).relabel v.rename
    rw [List.map_cons, Term.skolemizeAll_cons, Variant.statement, skolemizeIn_universal hd]
    exact congrArg (_ :: ·) (ih hrest names)

theorem isSettled_statements {variants : List Variant} (h : ∀ v ∈ variants, v.rule.Plain) :
    (Term.freeClause false (variants.map (·.statement))).isSettled = true := by
  refine Term.isSettled_freeClause.mpr ⟨.inl rfl, List.forall_mem_map.mpr fun v hv => ?_⟩
  exact Term.isSettled_universal ((Rule.disjunction_isDisjunction (h v hv)).relabel v.rename).isSettled

/-- The theory of a program as one formula. -/
def programFormula (rules : List Rule) : Term :=
  .freeClause false (rules.map fun rule => rule.formula.close)

theorem nnf_programFormula {rules : List Rule} (h : ∀ r ∈ rules, r.Plain) :
    (programFormula rules).eliminate.toNnf = .freeClause false (rules.map (·.statement)) := by
  have hmap : (rules.map fun rule => rule.formula.close).map (Term.nnf false) = rules.map (·.statement) := by
    rw [List.map_map]
    exact List.map_congr_left fun r hr => nnf_close (h r hr)
  rw [Term.toNnf_eq, Term.nnf_eliminate, programFormula, ← hmap]
  cases rules with
  | nil => rfl
  | cons r rules => rw [List.map_cons, Term.nnf, if_neg (by decide), Term.nnfAll_eq_map, List.map_cons]

theorem issued_of_mentions {rules : List Rule} {rule : Rule} {x : String} (h : ∀ r ∈ rules, r.Plain)
    (hrule : rule ∈ rules) (hx : rule.Mentions x) : (Names.avoiding (programFormula rules)).Issued x := by
  refine Names.issued_avoiding ?_
  rw [programFormula, Term.variableNames, Term.mem_variableNamesAll]
  refine ⟨_, List.mem_map_of_mem hrule, Term.mem_variableNames_universal.mpr (.inl ?_)⟩
  exact (Rule.mem_freeVars_formula (h rule hrule)).mpr hx

/-- The quantifier-free form of a program is made of variants of its rules that have no variable in common. -/
theorem matrix_program {rules : List Rule} (h : ∀ r ∈ rules, r.Plain) :
    ∃ variants : List Variant, variants.map (·.rule) = rules ∧ (∀ v ∈ variants, v.Proper) ∧
      variants.Pairwise Variant.Apart ∧
      ((Names.avoiding (programFormula rules)).matrix (programFormula rules)).1 =
        .freeClause false (variants.map (·.disjunction)) := by
  have hseen : ∀ x ∈ ([] : List String), (Names.avoiding (programFormula rules)).Issued x := fun x hx => (nomatch hx)
  obtain ⟨variants, hrules, hstatements, hproper, hapart⟩ :=
    apartAll_statements h (fun r hr x hx => issued_of_mentions h hr hx) hseen
  have hplain : ∀ v ∈ variants, v.rule.Plain := by
    intro v hv
    exact h v.rule (hrules ▸ List.mem_map_of_mem hv)
  refine ⟨variants, hrules, fun v hv => (hproper v hv).1, hapart, ?_⟩
  rw [Names.matrix, Term.apart, nnf_programFormula h, Term.apartIn, hstatements, Term.skolemize,
    Term.settleQuantifiers_of_isSettled (isSettled_statements hplain), Term.skolemizeIn_freeClause,
    skolemizeAll_statements hplain]

end Variants

end Clausal
