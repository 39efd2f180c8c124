import Mathlib.Data.List.Nodup
import Clausal.Proofs.ClauseForm.Entailment
import Clausal.Proofs.ClauseForm.Symbols

/-!
# Clausal.Proofs.ClauseForm.Fresh — which Skolem symbols are new

The Skolem symbols are numbered without a look at the formula, so a formula that has such a symbol itself may share it
with one of its existential variables.

* `Term.isUpright`: no quantifier is negated; the normal form is such (`isUpright_nnf`), and nothing is left to settle.
* `Term.recorded`: Skolem terms that are written down when they are handed out; `skolemizeBy_recorded` says what the
  pass does with them.  `Term.skolemTerms t` are those on the way to the clause form of `t`.
* `symbolsAll_skolemTerms`: the terms have the symbols `skolem_0, skolem_1, …`, one for each `∃` of the normal form.
* `skolem_symbols_new_iff`: no symbol is handed out twice, and they are new just if the formula has none of them.
-/

namespace Clausal

namespace Term

/-! ## Upright formulas -/

section Upright

mutual

/-- No quantifier of the formula is negated; arguments do not count. -/
def isUpright : Term → Bool
  | .quant n _ _ t => !n && isUpright t
  | .conn _ _ l r => isUpright l && isUpright r
  | .freeClause _ ts => areUpright ts
  | _ => true

/-- All formulas are upright. -/
def areUpright : List Term → Bool
  | [] => true
  | t :: ts => isUpright t && areUpright ts

end

@[simp] theorem areUpright_eq_true {ts : List Term} : areUpright ts = true ↔ ∀ t ∈ ts, t.isUpright = true := by
  induction ts with
  | nil => simp [areUpright]
  | cons t ts ih => simp [areUpright, ih]

theorem isUpright_joinRight (op : Connective) {t : Term} {ts : List Term} (h : ∀ u ∈ t :: ts, u.isUpright = true) :
    (joinRight op t ts).isUpright = true :=
  joinRight_of_forall (P := fun u => u.isUpright = true) (fun _ _ hl hr => by rw [isUpright, hl, hr]; rfl) h

/-- The normal form negates no quantifier. -/
theorem isUpright_nnf (t : Term) (flip : Bool) : (t.nnf flip).isUpright = true := by
  induction t using induct generalizing flip with
  | lit n a | var n x | rel n a ts ih | fn n a t ih => cases flip <;> rfl
  | quant n q x t ih =>
    rw [nnf]
    split <;> exact ih _
  | conn n c l r ihl ihr => cases c <;> rw [nnf] <;> split <;> simp only [isUpright, ihl, ihr, Bool.and_self]
  | freeClause n ts ih =>
    cases ts with
    | nil => rfl
    | cons t ts =>
      have hall : ∀ flip, ∀ u ∈ (t :: ts).map (nnf flip), u.isUpright = true :=
        fun flip => List.forall_mem_map.mpr fun u hu => ih u hu flip
      rw [nnf]
      split
      · rw [isUpright, areUpright_eq_true, List.forall_mem_singleton, nnfAll_eq_map]
        exact isUpright_joinRight .or (hall true)
      · rw [isUpright, areUpright_eq_true, nnfAll_eq_map]
        exact hall false

theorem isUpright_skeleton (t : Term) : t.skeleton.isUpright = t.isUpright := by
  induction t using induct with
  | lit n a | var n x | rel n a ts ih | fn n a t ih => rfl
  | quant n q x t ih => rw [skeleton, isUpright, isUpright, ih]
  | conn n c l r ihl ihr => rw [skeleton, isUpright, isUpright, ihl, ihr]
  | freeClause n ts ih =>
    rw [Bool.eq_iff_iff, skeleton, isUpright, isUpright, skeletons_eq_map, areUpright_eq_true, areUpright_eq_true,
      List.forall_mem_map]
    exact forall₂_congr fun t ht => by rw [ih t ht]

theorem settleQuantifiers_of_isUpright {t : Term} (ht : t.isUpright = true) : t.settleQuantifiers = t := by
  induction t using induct with
  | lit n a | var n x | rel n a ts ih | fn n a t ih => rfl
  | quant n q x t ih =>
    rw [isUpright, Bool.and_eq_true, Bool.not_eq_true'] at ht
    rw [settleQuantifiers, ht.1, if_neg Bool.false_ne_true, ih ht.2]
  | conn n c l r ihl ihr =>
    rw [isUpright, Bool.and_eq_true] at ht
    rw [settleQuantifiers, ihl ht.1, ihr ht.2]
  | freeClause n ts ih =>
    rw [isUpright, areUpright_eq_true] at ht
    rw [settleQuantifiers, settleQuantifiersAll_eq_map, List.map_congr_left fun t h => ih t h (ht t h), List.map_id']

/-- After the normal form and the renaming, nothing is left to settle. -/
theorem settleQuantifiers_apart (names : Names) (t : Term) :
    (t.eliminate.toNnf.apart names).1.settleQuantifiers = (t.eliminate.toNnf.apart names).1 := by
  refine settleQuantifiers_of_isUpright ?_
  rw [← isUpright_skeleton, apart, skeleton_apartIn, isUpright_skeleton, toNnf_eq]
  exact isUpright_nnf _ false

end Upright

/-! ## The Skolem terms that are handed out -/

section Log

variable {env : List (String × Term)} {enclosing : Option String} {names : Names} {a : String} {t : Term}

/-- The symbols that a part of the pass has to ask for: `count` of them, from where the series stands. -/
def skolemSymbols (names : Names) (count : Nat) : List String :=
  (List.range' names.nextSkolem count).map skolemSymbol

theorem skolemSymbols_add {names' : Names} {m : Nat} (h : names'.nextSkolem = names.nextSkolem + m) (n : Nat) :
    skolemSymbols names m ++ skolemSymbols names' n = skolemSymbols names (m + n) := by
  rw [skolemSymbols, skolemSymbols, skolemSymbols, h, ← List.map_append, List.range'_append_1]

theorem symbols_skolemTerm (names : Names) (enclosing : Option String) :
    (names.skolemTerm enclosing).1.symbols = [skolemSymbol names.nextSkolem] := by
  cases enclosing <;> rfl

/-- The term that is handed out has the next symbol of the series. -/
theorem skolemSymbols_succ (names : Names) (enclosing : Option String) (n : Nat) :
    (names.skolemTerm enclosing).1.symbols ++ skolemSymbols (names.skolemTerm enclosing).2 n =
      skolemSymbols names (n + 1) := by
  have hstep : (names.skolemTerm enclosing).2.nextSkolem = names.nextSkolem + 1 := rfl
  rw [symbols_skolemTerm, Nat.add_comm n 1, ← skolemSymbols_add hstep]
  rfl

/-- The next Skolem term, which is also written down. -/
def recorded (state : Names × List Term) (enclosing : Option String) : Term × (Names × List Term) :=
  let skolem := state.1.skolemTerm enclosing
  (skolem.1, skolem.2, state.2 ++ [skolem.1])

theorem symbolsAll_append (ts us : List Term) : symbolsAll (ts ++ us) = symbolsAll ts ++ symbolsAll us := by
  induction ts with
  | nil => rfl
  | cons t ts ih => rw [List.cons_append, symbolsAll, symbolsAll, ih, List.append_assoc]

/-- Writing the Skolem terms down makes no difference to the pass, and every `∃` takes the next symbol of the series. -/
theorem skolemizeBy_recorded (env : List (String × Term)) (enclosing : Option String) (names : Names)
    (log : List Term) (t : Term) :
    ∃ handed, skolemizeBy recorded env enclosing (names, log) t =
        ((skolemizeIn env enclosing names t).1, (skolemizeIn env enclosing names t).2, log ++ handed) ∧
      symbolsAll handed = skolemSymbols names t.existsCount := by
  induction t using induct generalizing env enclosing names log with
  | lit n a | var n x | rel n a ts ih | fn n a t ih =>
    refine ⟨[], ?_, rfl⟩
    rw [List.append_nil]
    rfl
  | quant n q x t ih =>
    cases q with
    | «exists» =>
      obtain ⟨handed, hpass, hsymbols⟩ := ih (unshadowed x env ++ [(x, (names.skolemTerm enclosing).1)]) enclosing
        (names.skolemTerm enclosing).2 (log ++ [(names.skolemTerm enclosing).1])
      refine ⟨(names.skolemTerm enclosing).1 :: handed, ?_, ?_⟩
      · rw [List.append_cons]
        exact hpass
      · rw [symbolsAll, hsymbols, skolemSymbols_succ, existsCount]
    | «forall» => exact ih _ (some x) names log
  | conn n c l r ihl ihr =>
    obtain ⟨left, hleft, hl⟩ := ihl env enclosing names log
    obtain ⟨right, hright, hr⟩ := ihr env enclosing (skolemizeIn env enclosing names l).2 (log ++ left)
    refine ⟨left ++ right, ?_, ?_⟩
    · rw [skolemizeBy, hleft, hright, skolemizeIn_conn, List.append_assoc]
    · rw [symbolsAll_append, hl, hr, skolemSymbols_add (nextSkolem_skolemizeIn ..), existsCount]
  | freeClause n ts ih =>
    obtain ⟨handed, hpass, hsymbols⟩ : ∃ handed, skolemizeAllBy recorded env enclosing (names, log) ts =
        ((skolemizeAll env enclosing names ts).1, (skolemizeAll env enclosing names ts).2, log ++ handed) ∧
        symbolsAll handed = skolemSymbols names (existsCountAll ts) := by
      induction ts generalizing names log with
      | nil => exact ⟨[], by rw [List.append_nil]; rfl, rfl⟩
      | cons t ts ihs =>
        obtain ⟨iht, ihts⟩ := List.forall_mem_cons.mp ih
        obtain ⟨first, hfirst, ht⟩ := iht env enclosing names log
        obtain ⟨rest, hrest, hts⟩ := ihs ihts (skolemizeIn env enclosing names t).2 (log ++ first)
        refine ⟨first ++ rest, ?_, ?_⟩
        · rw [skolemizeAllBy, hfirst, hrest, skolemizeAll_cons, List.append_assoc]
        · rw [symbolsAll_append, ht, hts, skolemSymbols_add (nextSkolem_skolemizeIn ..), existsCountAll]
    exact ⟨handed, by rw [skolemizeBy, hpass, skolemizeIn_freeClause], hsymbols⟩

theorem mem_symbols_replaceInTurn (h : a ∈ (replaceInTurn env t).symbols) :
    a ∈ t.symbols ∨ ∃ e ∈ env, a ∈ e.2.symbols := by
  induction env generalizing t with
  | nil => exact .inl h
  | cons e env ih =>
    rcases ih h with h | ⟨e', he', h⟩
    · rcases mem_symbols_substituteFree h with h | h
      · exact .inl h
      · exact .inr ⟨e, List.mem_cons_self, h⟩
    · exact .inr ⟨e', List.mem_cons_of_mem e he', h⟩

/-- The symbols of the result are those of the formula, of the replacements and of the Skolem terms. -/
theorem mem_symbols_skolemizeIn (h : a ∈ (skolemizeIn env enclosing names t).1.symbols) :
    a ∈ t.symbols ∨ (∃ e ∈ env, a ∈ e.2.symbols) ∨ a ∈ skolemSymbols names t.existsCount := by
  induction t using induct generalizing env enclosing names with
  | lit n b | var n x | rel n b ts ih | fn n b t ih => exact (mem_symbols_replaceInTurn h).imp_right .inl
  | quant n q x t ih =>
    cases q with
    | «exists» =>
      rw [skolemizeIn_exists] at h
      rw [existsCount, ← skolemSymbols_succ names enclosing, List.mem_append]
      rcases ih h with h | ⟨e, he, h⟩ | h
      · exact .inl h
      · rcases List.mem_append.mp he with he | he
        · exact .inr (.inl ⟨e, mem_of_mem_unshadowed he, h⟩)
        · obtain rfl := List.mem_singleton.mp he
          exact .inr (.inr (.inl h))
      · exact .inr (.inr (.inr h))
    | «forall» =>
      rcases ih h with h | ⟨e, he, h⟩ | h
      · exact .inl h
      · exact .inr (.inl ⟨e, mem_of_mem_unshadowed he, h⟩)
      · exact .inr (.inr h)
  | conn n c l r ihl ihr =>
    rw [skolemizeIn_conn, symbols, List.mem_append] at h
    rw [symbols, existsCount, ← skolemSymbols_add (nextSkolem_skolemizeIn env enclosing names l), List.mem_append,
      List.mem_append]
    rcases h with h | h
    · exact (ihl h).imp .inl (Or.imp_right .inl)
    · exact (ihr h).imp .inr (Or.imp_right .inr)
  | freeClause n ts ih =>
    rw [skolemizeIn_freeClause, symbols] at h
    rw [symbols, existsCount]
    induction ts generalizing names with
    | nil => cases h
    | cons t ts ihs =>
      obtain ⟨iht, ihts⟩ := List.forall_mem_cons.mp ih
      rw [skolemizeAll_cons, symbolsAll, List.mem_append] at h
      rw [symbolsAll, existsCountAll, ← skolemSymbols_add (nextSkolem_skolemizeIn env enclosing names t),
        List.mem_append, List.mem_append]
      rcases h with h | h
      · exact (iht h).imp .inl (Or.imp_right .inl)
      · exact (ihs ihts h).imp .inr (Or.imp_right .inr)

end Log

end Term

/-! ## The clause form -/

section ClauseForm

namespace Names

theorem nextSkolem_freshen (names : Names) (xs : List String) (t : Term) :
    (names.freshen xs t).2.nextSkolem = names.nextSkolem := by
  induction xs generalizing names t with
  | nil => rfl
  | cons x xs ih => rw [freshen, ih]; rfl

theorem nextSkolem_freshenBoth (names : Names) (xs : List String) (l r : Term) :
    (names.freshenBoth xs l r).2.nextSkolem = names.nextSkolem := by
  induction xs generalizing names l r with
  | nil => rfl
  | cons x xs ih => rw [freshenBoth, ih]; rfl

theorem nextSkolem_leaveScope (names : Names) (scope : List String) (tries : Nat) (x : String) (t : Term) :
    (names.leaveScope scope tries x t).2.nextSkolem = names.nextSkolem := by
  induction tries generalizing names x t with
  | zero => rfl
  | succ tries ih =>
    rw [leaveScope]
    split
    · rw [ih]; rfl
    · rfl

end Names

namespace Term

/-- Renaming asks for no Skolem terms. -/
theorem nextSkolem_apartIn (scope : List String) (names : Names) (t : Term) :
    (apartIn scope names t).2.nextSkolem = names.nextSkolem := by
  refine apartIn.induct (fun scope names t => (apartIn scope names t).2.nextSkolem = names.nextSkolem)
    (fun scope seen names ts => (apartAll scope seen names ts).2.nextSkolem = names.nextSkolem) ?_ ?_ ?_ ?_ ?_ ?_
    scope names t
  · intro scope names n c l r both left ihl right ihr
    rw [apartIn]
    exact ihr.trans (ihl.trans (Names.nextSkolem_freshenBoth ..))
  · intro scope names n q x t bound ih
    rw [apartIn]
    exact ih.trans (Names.nextSkolem_leaveScope ..)
  · intro scope names n ts ih
    rw [apartIn]
    exact ih
  · intro scope names t hconn hquant hfree
    have hself : apartIn scope names t = (t, names) := by rw [apartIn] <;> assumption
    rw [hself]
  · intro scope seen names
    rw [apartAll]
  · intro scope seen names t ts own first ih rest ihts
    rw [apartAll]
    exact ihts.trans (ih.trans (Names.nextSkolem_freshen ..))

/-- The Skolem terms that are handed out on the way to the clause form, in turn. -/
def skolemTerms (t : Term) : List Term :=
  let apart := t.eliminate.toNnf.apart (Names.avoiding t)
  (skolemizeBy recorded [] none (apart.2, []) apart.1.settleQuantifiers).2.2

theorem existsCount_skeleton (t : Term) : t.skeleton.existsCount = t.existsCount := by
  induction t using induct with
  | lit n a | var n x | rel n a ts ih | fn n a t ih => rfl
  | quant n q x t ih => cases q <;> simp only [skeleton, existsCount, ih]
  | conn n c l r ihl ihr => simp only [skeleton, existsCount, ihl, ihr]
  | freeClause n ts ih =>
    rw [skeleton, existsCount, existsCount]
    induction ts with
    | nil => rfl
    | cons t ts ihs =>
      obtain ⟨iht, ihts⟩ := List.forall_mem_cons.mp ih
      rw [skeletons, existsCountAll, existsCountAll, iht, ihs ihts]

theorem existsCount_apart (names : Names) (t : Term) : (t.apart names).1.existsCount = t.existsCount := by
  rw [← existsCount_skeleton, apart, skeleton_apartIn, existsCount_skeleton]

theorem nextSkolem_apart (t : Term) : (t.eliminate.toNnf.apart (Names.avoiding t)).2.nextSkolem = 0 :=
  nextSkolem_apartIn ..

/-- On the way to the clause form the pass starts with the first symbol of the series. -/
theorem skolemSymbols_apart (t : Term) (n : Nat) :
    skolemSymbols (t.eliminate.toNnf.apart (Names.avoiding t)).2 n = (List.range n).map skolemSymbol := by
  rw [skolemSymbols, nextSkolem_apart, List.range_eq_range']

/-- The Skolem terms have the first symbols of the series, one for each `∃` of the normal form. -/
theorem symbolsAll_skolemTerms (t : Term) :
    symbolsAll t.skolemTerms = (List.range t.eliminate.toNnf.existsCount).map skolemSymbol := by
  obtain ⟨handed, hpass, hsymbols⟩ := skolemizeBy_recorded [] none (t.eliminate.toNnf.apart (Names.avoiding t)).2 []
    (t.eliminate.toNnf.apart (Names.avoiding t)).1
  rw [skolemTerms, settleQuantifiers_apart, hpass, List.nil_append, hsymbols, skolemSymbols_apart, existsCount_apart]

/-- The series of Skolem symbols has moved on once for each `∃` of the normal form. -/
theorem nextSkolem_clauseForm (t : Term) :
    ((Names.avoiding t).clauseForm t).2.nextSkolem = t.eliminate.toNnf.existsCount := by
  rw [Names.clauseForm, Names.matrix, skolemize, settleQuantifiers_apart, nextSkolem_skolemizeIn, existsCount_apart,
    nextSkolem_apart, Nat.zero_add]

theorem mem_symbols_matrix {t : Term} {a : String} (h : a ∈ ((Names.avoiding t).matrix t).1.symbols) :
    a ∈ t.symbols ∨ a ∈ symbolsAll t.skolemTerms := by
  rw [Names.matrix, skolemize] at h
  rcases mem_symbols_skolemizeIn h with h | ⟨e, he, -⟩ | h
  · rw [settleQuantifiers_apart, apart, mem_symbols_apartIn, toNnf_eq, nnf_eliminate, mem_symbols_nnf] at h
    exact .inl h
  · cases he
  · rw [settleQuantifiers_apart, existsCount_apart, skolemSymbols_apart] at h
    rw [symbolsAll_skolemTerms]
    exact .inr h

/-- The Skolem terms have the symbols of the series up to where it stands in the end, each once, and every symbol of the
quantifier-free form is one of these or one of the formula.  None is both just if the formula has none of the first
symbols of the series, as many as its normal form has existential quantifiers. -/
theorem skolem_symbols_new_iff (t : Term) :
    symbolsAll t.skolemTerms = (List.range ((Names.avoiding t).clauseForm t).2.nextSkolem).map skolemSymbol ∧
      (symbolsAll t.skolemTerms).Nodup ∧
      (∀ a ∈ ((Names.avoiding t).matrix t).1.symbols, a ∈ t.symbols ∨ a ∈ symbolsAll t.skolemTerms) ∧
      ((∀ a ∈ symbolsAll t.skolemTerms, a ∉ t.symbols) ↔
        ∀ n < t.eliminate.toNnf.existsCount, skolemSymbol n ∉ t.symbols) := by
  refine ⟨by rw [nextSkolem_clauseForm, symbolsAll_skolemTerms], ?_, fun a => mem_symbols_matrix, ?_⟩
  · rw [symbolsAll_skolemTerms]
    exact List.nodup_range.map fun n m h => skolemSymbol_inj.mp h
  · rw [symbolsAll_skolemTerms, List.forall_mem_map]
    exact forall_congr' fun n => by rw [List.mem_range]

end Term

/-- What `skolem_0` names is `p`, and something is `q`. -/
def clashing : Term :=
  .and (.rel false "p" [.lit false "skolem_0"]) (.quant false .exists "X" (.rel false "q" [.var false "X"]))

def clashingClauses : KnowledgeBase where
  clauses := [⟨false, [.rel false "p" [.lit false "skolem_0"]]⟩, ⟨false, [.rel false "q" [.lit false "skolem_0"]]⟩]

theorem clauseForm_clashing : clashing.clauseForm = .ok clashingClauses := by
  with_unfolding_all rfl

/-- Two things, of which one is `q` and the other one everything else; constants name the other one. -/
def parted : Interpretation Bool :=
  { exchange with relation := fun a ds => ds = [a == "q"] }

theorem clashing_holds (v : String → Bool) : clashing.Holds parted v := by
  refine ⟨?_, true, ?_⟩ <;> simp [Term.Holds, Interpretation.value, parted, exchange]

theorem not_holds_parted (v : String → Bool) : ¬ (Term.rel false "q" [.lit false "skolem_0"]).Holds parted v := by
  simp [Term.Holds, Interpretation.value, parted, exchange]

theorem holds_of_clashingClauses {D : Type} {I : Interpretation D} {v : String → D} (h : clashingClauses.Holds I v) :
    (Term.rel false "q" [.lit false "skolem_0"]).Holds I v := by
  simpa [Clause.Holds] using h ⟨false, [.rel false "q" [.lit false "skolem_0"]]⟩
    (List.mem_cons_of_mem _ List.mem_cons_self)

/-- A symbol of a well-formed formula is handed out for its existential variable, and of what it names the clauses say
what the formula says of something only. -/
theorem skolem_symbol_clashes :
    clashing.check = .ok () ∧ (∃ a ∈ Term.symbolsAll clashing.skolemTerms, a ∈ clashing.symbols) ∧
      clashing.Holds parted (fun _ => false) ∧
      ¬ (Term.rel false "q" [.lit false "skolem_0"]).Holds parted (fun _ => false) ∧
      clashing.clauseForm = .ok clashingClauses ∧
      ∀ (D : Type) (I : Interpretation D) (v : String → D), clashingClauses.Holds I v →
        (Term.rel false "q" [.lit false "skolem_0"]).Holds I v := by
  refine ⟨rfl, ⟨"skolem_0", ?_, by decide⟩, clashing_holds _, not_holds_parted _, clauseForm_clashing,
    fun D I v => holds_of_clashingClauses⟩
  rw [Term.symbolsAll_skolemTerms]
  decide

end ClauseForm

end Clausal
