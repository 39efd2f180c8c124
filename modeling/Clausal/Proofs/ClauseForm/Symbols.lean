import Clausal.ClauseForm.Skolem
import Clausal.Proofs.ClauseForm.Skolem

/-!
# Clausal.Proofs.ClauseForm.Symbols — the symbols of a formula and its shape

Renaming variables changes neither the symbols of a formula nor the order in which its quantifiers are nested.  Both can
be read off the formula with all its variables called the same.

* `Term.symbols`: the names of the constants, functions and relations, in formulas and in arguments.
* `Term.existsWithin depth t`: every `∃` lies in the scope of at most one `∀`, if `depth` of them are around `t`.
* `skeleton`, `skeleton_apartIn`: a formula without the names of its variables, which the pass that takes binders apart
  leaves as it is.
* `mem_symbols_nnf`: the normal form has the same symbols.
* `Term.existsCount`: the number of existential quantifiers; `nextSkolem_skolemizeIn` says that dropping them takes as
  many Skolem symbols.
* `SkolemsBelow n t`: the Skolem symbols in `t` have numbers below `n`; `skolemsBelow_skolemizeIn`.
-/

namespace Clausal

/-- The Skolem symbol with the number `n`. -/
def skolemSymbol (n : Nat) : String :=
  "skolem_" ++ toString n

theorem skolemSymbol_inj {n m : Nat} : skolemSymbol n = skolemSymbol m ↔ n = m := by
  constructor
  · intro h
    have hlist := congrArg String.toList h
    simp only [skolemSymbol, String.toList_append, List.append_cancel_left_eq] at hlist
    exact Nat.repr_inj.mp (String.toList_injective hlist)
  · rintro rfl
    rfl

namespace Term

/-! ## Symbols, nesting and skeleton -/

section Shape

mutual

/-- The names of the constants, functions and relations, from left to right, with repetitions. -/
def symbols : Term → List String
  | .lit _ a => [a]
  | .var .. => []
  | .rel _ a ts => a :: symbolsAll ts
  | .fn _ a t => a :: symbols t
  | .quant _ _ _ t => symbols t
  | .conn _ _ l r => symbols l ++ symbols r
  | .freeClause _ ts => symbolsAll ts

/-- The symbols of a list of terms. -/
def symbolsAll : List Term → List String
  | [] => []
  | t :: ts => symbols t ++ symbolsAll ts

end

mutual

/-- Every `∃` is in the scope of at most one `∀`, where `depth` of them are around the formula. -/
def existsWithin (depth : Nat) : Term → Bool
  | .quant _ .exists _ t => depth ≤ 1 && existsWithin depth t
  | .quant _ .forall _ t => existsWithin (depth + 1) t
  | .conn _ _ l r => existsWithin depth l && existsWithin depth r
  | .freeClause _ ts => existWithin depth ts
  | _ => true

/-- `existsWithin` for every formula of a list. -/
def existWithin (depth : Nat) : List Term → Bool
  | [] => true
  | t :: ts => existsWithin depth t && existWithin depth ts

end

mutual

/-- The formula with one name for all variables and binders. -/
def skeleton : Term → Term
  | .lit n a => .lit n a
  | .var n _ => .var n ""
  | .rel n a ts => .rel n a (skeletons ts)
  | .fn n a t => .fn n a (skeleton t)
  | .quant n q _ t => .quant n q "" (skeleton t)
  | .conn n c l r => .conn n c (skeleton l) (skeleton r)
  | .freeClause n ts => .freeClause n (skeletons ts)

/-- `skeleton` member by member. -/
def skeletons : List Term → List Term
  | [] => []
  | t :: ts => skeleton t :: skeletons ts

end

theorem mem_symbolsAll {a : String} {ts : List Term} : a ∈ symbolsAll ts ↔ ∃ t ∈ ts, a ∈ t.symbols := by
  induction ts with
  | nil => simp [symbolsAll]
  | cons t ts ih => simp [symbolsAll, ih]

@[simp] theorem existWithin_eq_true {depth : Nat} {ts : List Term} :
    existWithin depth ts = true ↔ ∀ t ∈ ts, t.existsWithin depth = true := by
  induction ts with
  | nil => simp [existWithin]
  | cons t ts ih => simp [existWithin, ih]

@[simp] theorem skeletons_eq_map (ts : List Term) : skeletons ts = ts.map skeleton := by
  induction ts with
  | nil => rfl
  | cons t ts ih => rw [skeletons, ih, List.map_cons]

theorem mem_symbols_skeleton {a : String} {t : Term} : a ∈ t.skeleton.symbols ↔ a ∈ t.symbols := by
  induction t using induct with
  | lit n b | var n x => exact Iff.rfl
  | rel n b ts ih =>
    simp only [skeleton, symbols, skeletons_eq_map, List.mem_cons, mem_symbolsAll, List.mem_map,
      exists_exists_and_eq_and]
    exact or_congr_right (exists_congr fun t => and_congr_right fun ht => ih t ht)
  | fn n b t ih => simp only [skeleton, symbols, List.mem_cons, ih]
  | quant n q x t ih => exact ih
  | conn n c l r ihl ihr => simp only [skeleton, symbols, List.mem_append, ihl, ihr]
  | freeClause n ts ih =>
    simp only [skeleton, symbols, skeletons_eq_map, mem_symbolsAll, List.mem_map, exists_exists_and_eq_and]
    exact exists_congr fun t => and_congr_right fun ht => ih t ht

theorem existsWithin_skeleton (depth : Nat) (t : Term) : t.skeleton.existsWithin depth = t.existsWithin depth := by
  induction t using induct generalizing depth with
  | lit n a | var n x | rel n a ts ih | fn n a t ih => rfl
  | quant n q x t ih => cases q <;> simp only [skeleton, existsWithin, ih]
  | conn n c l r ihl ihr => simp only [skeleton, existsWithin, ihl, ihr]
  | freeClause n ts ih =>
    rw [Bool.eq_iff_iff, skeleton, existsWithin, existsWithin, skeletons_eq_map, existWithin_eq_true,
      existWithin_eq_true, List.forall_mem_map]
    exact forall₂_congr fun t ht => by rw [ih t ht]

end Shape

/-! ## Renaming keeps the skeleton -/

section Skeleton

variable {names : Names} {scope : List String}

theorem skeletons_map_congr {f : Term → Term} {ts : List Term} (h : ∀ t ∈ ts, (f t).skeleton = t.skeleton) :
    skeletons (ts.map f) = skeletons ts := by
  rw [skeletons_eq_map, skeletons_eq_map, List.map_map]
  exact List.map_congr_left h

theorem skeleton_renameAll (x y : String) (t : Term) : (t.renameAll x y).skeleton = t.skeleton := by
  induction t using induct with
  | lit n a | var n z => rfl
  | rel n a ts ih | freeClause n ts ih => rw [renameAll, renameAllIn_eq_map, skeleton, skeletons_map_congr ih, skeleton]
  | fn n a t ih => rw [renameAll, skeleton, ih, skeleton]
  | quant n q z t ih => rw [renameAll, skeleton, ih, skeleton]
  | conn n c l r ihl ihr => rw [renameAll, skeleton, ihl, ihr, skeleton]

theorem skeleton_renameBound (x y : String) (t : Term) : (t.renameBound x y).skeleton = t.skeleton := by
  induction t using induct with
  | lit n a | var n z => rfl
  | rel n a ts ih | freeClause n ts ih =>
    rw [renameBound, renameBoundIn_eq_map, skeleton, skeletons_map_congr ih, skeleton]
  | fn n a t ih => rw [renameBound, skeleton, ih, skeleton]
  | quant n q z t ih =>
    rw [renameBound]
    split
    · rw [skeleton, skeleton_renameAll, skeleton]
    · rw [skeleton, ih, skeleton]
  | conn n c l r ihl ihr => rw [renameBound, skeleton, ihl, ihr, skeleton]

theorem skeleton_freshen (names : Names) (xs : List String) (t : Term) :
    (names.freshen xs t).1.skeleton = t.skeleton := by
  induction xs generalizing names t with
  | nil => rfl
  | cons x xs ih => rw [Names.freshen, ih, skeleton_renameBound]

theorem skeleton_freshenBoth (names : Names) (xs : List String) (l r : Term) :
    (names.freshenBoth xs l r).1.1.skeleton = l.skeleton ∧ (names.freshenBoth xs l r).1.2.skeleton = r.skeleton := by
  induction xs generalizing names l r with
  | nil => exact ⟨rfl, rfl⟩
  | cons x xs ih => simp only [Names.freshenBoth, ih, skeleton_renameBound, and_self]

theorem skeleton_leaveScope (names : Names) (scope : List String) (tries : Nat) (x : String) (t : Term) :
    (names.leaveScope scope tries x t).1.2.skeleton = t.skeleton := by
  induction tries generalizing names x t with
  | zero => rfl
  | succ tries ih =>
    rw [Names.leaveScope]
    split
    · rw [ih, skeleton_renameAll]
    · rfl

/-- Taking binders apart is renaming. -/
theorem skeleton_apartIn (scope : List String) (names : Names) (t : Term) :
    (apartIn scope names t).1.skeleton = t.skeleton := by
  refine apartIn.induct (fun scope names t => (apartIn scope names t).1.skeleton = t.skeleton)
    (fun scope seen names ts => skeletons (apartAll scope seen names ts).1 = skeletons ts) ?_ ?_ ?_ ?_ ?_ ?_ scope names t
  · intro scope names n c l r both left ihl right ihr
    have hboth := skeleton_freshenBoth names (sharedNames l.binders r.binders) l r
    rw [apartIn, skeleton, ihl, ihr, hboth.1, hboth.2, skeleton]
  · intro scope names n q x t bound ih
    rw [apartIn, skeleton, ih, skeleton_leaveScope, skeleton]
  · intro scope names n ts ih
    rw [apartIn, skeleton, ih, skeleton]
  · intro scope names t hconn hquant hfree
    have hself : apartIn scope names t = (t, names) := by rw [apartIn] <;> assumption
    rw [hself]
  · intro scope seen names
    rw [apartAll]
  · intro scope seen names t ts own first ih rest ihts
    rw [apartAll, skeletons, ih, ihts, skeleton_freshen, skeletons]

theorem mem_symbols_apartIn {a : String} {t : Term} : a ∈ (apartIn scope names t).1.symbols ↔ a ∈ t.symbols := by
  rw [← mem_symbols_skeleton, skeleton_apartIn, mem_symbols_skeleton]

theorem existsWithin_apartIn (depth : Nat) (t : Term) :
    (apartIn scope names t).1.existsWithin depth = t.existsWithin depth := by
  rw [← existsWithin_skeleton, skeleton_apartIn, existsWithin_skeleton]

end Skeleton

/-! ## The symbols of the normal form -/

section NormalForm

variable {a : String}

theorem symbols_joinRight (op : Connective) (t : Term) (ts : List Term) :
    (joinRight op t ts).symbols = symbolsAll (t :: ts) := by
  induction ts generalizing t with
  | nil => simp [joinRight, symbolsAll]
  | cons u us ih =>
    rw [joinRight, symbols, ih]
    rfl

/-- The normal form has the same symbols. -/
theorem mem_symbols_nnf {t : Term} {flip : Bool} : a ∈ (t.nnf flip).symbols ↔ a ∈ t.symbols := by
  induction t using induct generalizing flip with
  | lit n b | var n x | rel n b ts ih | fn n b t ih => cases flip <;> exact Iff.rfl
  | quant n q x t ih =>
    rw [nnf]
    split <;> exact ih
  | conn n c l r ihl ihr =>
    cases c <;> rw [nnf] <;> split <;> simp only [symbols, List.mem_append, ihl, ihr] <;> tauto
  | freeClause n ts ih =>
    cases ts with
    | nil => exact Iff.rfl
    | cons t ts =>
      have hall : ∀ flip, a ∈ symbolsAll ((t :: ts).map (nnf flip)) ↔ a ∈ symbolsAll (t :: ts) := by
        intro flip
        simp only [mem_symbolsAll, List.mem_map, exists_exists_and_eq_and]
        exact exists_congr fun u => and_congr_right fun hu => ih u hu
      rw [nnf]
      split
      · rw [symbols, symbolsAll, symbols_joinRight, nnfAll_eq_map, ← List.map_cons, symbolsAll, List.append_nil, hall,
          symbols]
      · rw [symbols, nnfAll_eq_map, ← List.map_cons, hall, symbols]

end NormalForm

/-! ## Skolem symbols -/

section Skolem

variable {names : Names} {env : List (String × Term)} {enclosing : Option String} {n m : Nat} {a x : String}
  {t s : Term}

/-- The Skolem symbols in `t` have numbers below `n`. -/
def SkolemsBelow (n : Nat) (t : Term) : Prop :=
  ∀ k, skolemSymbol k ∈ t.symbols → k < n

theorem SkolemsBelow.mono (h : t.SkolemsBelow n) (hle : n ≤ m) : t.SkolemsBelow m :=
  fun k hk => Nat.lt_of_lt_of_le (h k hk) hle

theorem symbols_signed (neg : Bool) (t : Term) : (signed neg t).symbols = t.symbols := by
  cases neg with
  | false => rfl
  | true => cases t <;> rfl

theorem mem_symbols_substituteFree (h : a ∈ (substituteFree x s t).symbols) : a ∈ t.symbols ∨ a ∈ s.symbols := by
  induction t using induct with
  | lit n b => exact .inl h
  | var n y =>
    rw [substituteFree] at h
    split at h
    · exact .inr (by rwa [symbols_signed] at h)
    · exact .inl h
  | rel n b ts ih =>
    rw [substituteFree, symbols, List.mem_cons, substituteFreeAll_eq_map, mem_symbolsAll] at h
    rw [symbols, List.mem_cons, mem_symbolsAll]
    rcases h with h | ⟨_, hmem, h⟩
    · exact .inl (.inl h)
    · obtain ⟨t, ht, rfl⟩ := List.mem_map.mp hmem
      exact (ih t ht h).imp_left fun h => .inr ⟨t, ht, h⟩
  | fn n b t ih =>
    rw [substituteFree, symbols, List.mem_cons] at h
    rw [symbols, List.mem_cons]
    rcases h with h | h
    · exact .inl (.inl h)
    · exact (ih h).imp_left .inr
  | quant n q y t ih =>
    rw [substituteFree, symbols] at h
    split at h
    · exact .inl h
    · exact ih h
  | conn n c l r ihl ihr =>
    rw [substituteFree, symbols, List.mem_append] at h
    rw [symbols, List.mem_append]
    rcases h with h | h
    · exact (ihl h).imp_left .inl
    · exact (ihr h).imp_left .inr
  | freeClause n ts ih =>
    rw [substituteFree, symbols, substituteFreeAll_eq_map, mem_symbolsAll] at h
    rw [symbols, mem_symbolsAll]
    obtain ⟨_, hmem, h⟩ := h
    obtain ⟨t, ht, rfl⟩ := List.mem_map.mp hmem
    exact (ih t ht h).imp_left fun h => ⟨t, ht, h⟩

theorem skolemsBelow_replaceInTurn (ht : t.SkolemsBelow n) (henv : ∀ e ∈ env, e.2.SkolemsBelow n) :
    (replaceInTurn env t).SkolemsBelow n := by
  induction env generalizing t with
  | nil => exact ht
  | cons e env ih =>
    obtain ⟨he, henv⟩ := List.forall_mem_cons.mp henv
    refine ih (fun k hk => ?_) henv
    rcases mem_symbols_substituteFree hk with hk | hk
    · exact ht k hk
    · exact he k hk

theorem skolemsBelow_skolemTerm (names : Names) (enclosing : Option String) :
    (names.skolemTerm enclosing).1.SkolemsBelow (names.nextSkolem + 1) := by
  intro k hk
  have hsymbol : skolemSymbol k = skolemSymbol names.nextSkolem := by
    cases enclosing <;> simpa [Names.skolemTerm, symbols, skolemSymbol] using hk
  rw [skolemSymbol_inj.mp hsymbol]
  exact Nat.lt_succ_self _

theorem skolemsBelow_skolem (henv : ∀ e ∈ env, e.2.SkolemsBelow names.nextSkolem) (x : String) :
    ∀ e ∈ env ++ [(x, (names.skolemTerm enclosing).1)], e.2.SkolemsBelow (names.skolemTerm enclosing).2.nextSkolem := by
  intro e he
  rcases List.mem_append.mp he with he | he
  · exact (henv e he).mono (Nat.le_succ _)
  · obtain rfl := List.mem_singleton.mp he
    exact skolemsBelow_skolemTerm names enclosing

theorem mem_of_mem_unshadowed {e : String × Term} (he : e ∈ unshadowed x env) : e ∈ env :=
  (List.mem_filter.mp he).1

mutual

/-- The number of existential quantifiers; arguments do not count. -/
def existsCount : Term → Nat
  | .quant _ .exists _ t => existsCount t + 1
  | .quant _ .forall _ t => existsCount t
  | .conn _ _ l r => existsCount l + existsCount r
  | .freeClause _ ts => existsCountAll ts
  | _ => 0

/-- The number of existential quantifiers in a list of formulas. -/
def existsCountAll : List Term → Nat
  | [] => 0
  | t :: ts => existsCount t + existsCountAll ts

end

/-- The series of Skolem symbols moves on once for each `∃`. -/
theorem nextSkolem_skolemizeIn (env : List (String × Term)) (enclosing : Option String) (names : Names) (t : Term) :
    (skolemizeIn env enclosing names t).2.nextSkolem = names.nextSkolem + t.existsCount := by
  induction t using induct generalizing env enclosing names with
  | lit n a | var n x | rel n a ts ih | fn n a t ih => rfl
  | quant n q x t ih =>
    cases q with
    | «exists» =>
      have hstep : (names.skolemTerm enclosing).2.nextSkolem = names.nextSkolem + 1 := rfl
      rw [skolemizeIn_exists, ih, hstep, existsCount, Nat.add_assoc, Nat.add_comm 1]
    | «forall» => exact ih _ (some x) names
  | conn n c l r ihl ihr => rw [skolemizeIn_conn, ihr, ihl, existsCount, Nat.add_assoc]
  | freeClause n ts ih =>
    rw [skolemizeIn_freeClause, existsCount]
    induction ts generalizing names with
    | nil => rfl
    | cons t ts ihts =>
      obtain ⟨ht, hts⟩ := List.forall_mem_cons.mp ih
      rw [skolemizeAll_cons, existsCountAll, ihts hts, ht, Nat.add_assoc]

theorem nextSkolem_le_skolemizeIn (env : List (String × Term)) (enclosing : Option String) (names : Names) (t : Term) :
    names.nextSkolem ≤ (skolemizeIn env enclosing names t).2.nextSkolem :=
  nextSkolem_skolemizeIn env enclosing names t ▸ Nat.le_add_right _ _

theorem SkolemsBelow.conn {neg : Bool} {c : Connective} {l r : Term} :
    (Term.conn neg c l r).SkolemsBelow n ↔ l.SkolemsBelow n ∧ r.SkolemsBelow n := by
  simp only [SkolemsBelow, symbols, List.mem_append, or_imp, forall_and]

theorem SkolemsBelow.freeClause {neg : Bool} {ts : List Term} :
    (Term.freeClause neg ts).SkolemsBelow n ↔ ∀ t ∈ ts, t.SkolemsBelow n := by
  simp only [SkolemsBelow, symbols, mem_symbolsAll]
  grind

/-- The Skolem symbols in the result are those handed out so far. -/
theorem skolemsBelow_skolemizeIn (ht : t.SkolemsBelow 0) (henv : ∀ e ∈ env, e.2.SkolemsBelow names.nextSkolem) :
    (skolemizeIn env enclosing names t).1.SkolemsBelow (skolemizeIn env enclosing names t).2.nextSkolem := by
  induction t using induct generalizing env enclosing names with
  | lit n a | var n x | rel n a ts ih | fn n a t ih =>
    exact skolemsBelow_replaceInTurn (ht.mono (Nat.zero_le _)) henv
  | quant n q x t ih =>
    have hrest : ∀ e ∈ unshadowed x env, e.2.SkolemsBelow names.nextSkolem :=
      fun e he => henv e (mem_of_mem_unshadowed he)
    cases q with
    | «exists» => exact ih ht (skolemsBelow_skolem hrest x)
    | «forall» => exact ih ht hrest
  | conn n c l r ihl ihr =>
    obtain ⟨hl, hr⟩ := SkolemsBelow.conn.mp ht
    have hnext := nextSkolem_le_skolemizeIn env enclosing names l
    have hlast := nextSkolem_le_skolemizeIn env enclosing (skolemizeIn env enclosing names l).2 r
    rw [skolemizeIn_conn]
    exact SkolemsBelow.conn.mpr ⟨(ihl hl henv).mono hlast, ihr hr fun e he => (henv e he).mono hnext⟩
  | freeClause n ts ih =>
    rw [skolemizeIn_freeClause, SkolemsBelow.freeClause]
    rw [SkolemsBelow.freeClause] at ht
    induction ts generalizing names with
    | nil => exact List.forall_mem_nil _
    | cons t ts ihts =>
      obtain ⟨iht, ih⟩ := List.forall_mem_cons.mp ih
      obtain ⟨ht, hts⟩ := List.forall_mem_cons.mp ht
      have hnext := nextSkolem_le_skolemizeIn env enclosing names t
      have hlast := nextSkolem_le_skolemizeIn env enclosing (skolemizeIn env enclosing names t).2 (.freeClause n ts)
      rw [skolemizeAll_cons, List.forall_mem_cons]
      exact ⟨(iht ht henv).mono hlast, ihts ih hts fun e he => (henv e he).mono hnext⟩

end Skolem

end Term

end Clausal
