import Mathlib.Tactic.Choose
import Clausal.Proofs.ClauseForm.Entailment
import Clausal.Proofs.ClauseForm.Symbols

/-!
# Clausal.Proofs.ClauseForm.Satisfiability — the clause form is satisfiable if the formula is

A Skolem term depends on the variable of one enclosing `∀`.  Where every `∃` is in the scope of at most one, that is all
a witness can depend on, and the Skolem symbols can be given a meaning that makes the clauses hold.

* `Interpretation.SameOutside S I J`: `J` differs from `I` at most in what the symbols in `S` mean as constants and
  functions.  The value of a term without such symbols, and the truth of a formula, are the same in both.
* `Determined I env scope enclosing`: the values of the names in scope depend on the enclosing variable only.
* `exists_witness`: one function of the value of the enclosing variable picks the witnesses of an `∃`.
* `satisfied_skolemizeIn`: the meaning of the Skolem symbols that the pass hands out can be chosen so that what it leaves
  holds wherever the formula does.
* `clauseForm_satisfiable`: the same for the clauses of a closed formula.
-/

universe u

namespace Clausal

variable {D : Type u}

/-! ## A new meaning for some symbols -/

namespace Interpretation

/-- `J` is `I` but for the meaning of the symbols in `S` as constants and functions. -/
structure SameOutside (S : String → Prop) (I J : Interpretation D) : Prop where
  point : J.point = I.point
  constant : ∀ a, ¬ S a → J.constant a = I.constant a
  function : ∀ a, ¬ S a → J.function a = I.function a
  compound : J.compound = I.compound
  proposition : J.proposition = I.proposition
  property : J.property = I.property
  relation : J.relation = I.relation

variable {S T : String → Prop} {I J K : Interpretation D} {t : Term} {v : String → D}

theorem SameOutside.refl (S : String → Prop) (I : Interpretation D) : SameOutside S I I :=
  ⟨rfl, fun _ _ => rfl, fun _ _ => rfl, rfl, rfl, rfl, rfl⟩

theorem SameOutside.trans (h : SameOutside S I J) (h' : SameOutside S J K) : SameOutside S I K where
  point := h'.point.trans h.point
  constant a ha := (h'.constant a ha).trans (h.constant a ha)
  function a ha := (h'.function a ha).trans (h.function a ha)
  compound := h'.compound.trans h.compound
  proposition := h'.proposition.trans h.proposition
  property := h'.property.trans h.property
  relation := h'.relation.trans h.relation

theorem SameOutside.mono (h : SameOutside S I J) (hsub : ∀ a, S a → T a) : SameOutside T I J :=
  { h with
    constant := fun a ha => h.constant a fun hs => ha (hsub a hs)
    function := fun a ha => h.function a fun hs => ha (hsub a hs) }

theorem SameOutside.value_eq (h : SameOutside S I J) (ht : ∀ a ∈ t.symbols, ¬ S a) (v : String → D) :
    J.value v t = I.value v t := by
  induction t using Term.induct with
  | lit n a => exact h.constant a (ht a List.mem_cons_self)
  | var n x => rfl
  | rel n a ts ih =>
    simp only [value, values_eq_map, h.compound]
    congr 1
    refine List.map_congr_left fun t hmem => ih t hmem fun b hb => ht b ?_
    exact List.mem_cons_of_mem a (Term.mem_symbolsAll.mpr ⟨t, hmem, hb⟩)
  | fn n a t ih =>
    have harg := ih fun b hb => ht b (List.mem_cons_of_mem a hb)
    rw [value, value, h.function a (ht a List.mem_cons_self), harg]
  | quant n q x t ih | conn n c l r ihl ihr | freeClause n ts ih => exact h.point

/-- A formula without the symbols in `S` says the same. -/
theorem SameOutside.holds_iff (h : SameOutside S I J) (ht : ∀ a ∈ t.symbols, ¬ S a) :
    t.Holds J v ↔ t.Holds I v := by
  induction t using Term.induct generalizing v with
  | lit n a => simp only [Term.Holds, h.proposition]
  | var n x => exact Iff.rfl
  | rel n a ts ih =>
    have hvals : J.values v ts = I.values v ts := by
      rw [values_eq_map, values_eq_map]
      refine List.map_congr_left fun t hmem => h.value_eq (fun b hb => ht b ?_) v
      exact List.mem_cons_of_mem a (Term.mem_symbolsAll.mpr ⟨t, hmem, hb⟩)
    simp only [Term.Holds, h.relation, hvals]
  | fn n a t ih =>
    have harg := h.value_eq (t := t) (fun b hb => ht b (List.mem_cons_of_mem a hb)) v
    simp only [Term.Holds, h.property, harg]
  | quant n q x t ih => exact polar_congr n (Term.quantHolds_congr q fun d => ih ht)
  | conn n c l r ihl ihr =>
    have hl : l.Holds J v ↔ l.Holds I v := ihl fun b hb => ht b (List.mem_append_left _ hb)
    have hr : r.Holds J v ↔ r.Holds I v := ihr fun b hb => ht b (List.mem_append_right _ hb)
    simp only [Term.Holds, hl, hr]
  | freeClause n ts ih =>
    refine polar_congr n ?_
    rw [Term.holdAll_iff, Term.holdAll_iff]
    exact forall₂_congr fun t hmem => ih t hmem fun b hb => ht b (Term.mem_symbolsAll.mpr ⟨t, hmem, hb⟩)

/-- `I` with `f` for the Skolem symbol number `n`; as a constant it is the value of `f` at `point`. -/
def withSkolem (I : Interpretation D) (n : Nat) (f : D → D) : Interpretation D :=
  { I with
    constant := Function.update I.constant (skolemSymbol n) (f I.point)
    function := Function.update I.function (skolemSymbol n) f }

/-- The Skolem symbols with numbers from `n` up to `m`. -/
def handedOut (n m : Nat) (a : String) : Prop :=
  ∃ k, n ≤ k ∧ k < m ∧ a = skolemSymbol k

theorem sameOutside_withSkolem (I : Interpretation D) (n : Nat) (f : D → D) :
    SameOutside (handedOut n (n + 1)) I (I.withSkolem n f) := by
  have hne : ∀ a, ¬ handedOut n (n + 1) a → a ≠ skolemSymbol n :=
    fun a ha heq => ha ⟨n, Nat.le_refl n, Nat.lt_succ_self n, heq⟩
  exact
    { point := rfl
      constant := fun a ha => Function.update_of_ne (hne a ha) _ _
      function := fun a ha => Function.update_of_ne (hne a ha) _ _
      compound := rfl
      proposition := rfl
      property := rfl
      relation := rfl }

/-- What a Skolem term can depend on: the value of the enclosing variable. -/
def enclosed (I : Interpretation D) (enclosing : Option String) (v : String → D) : D :=
  enclosing.elim I.point v

theorem value_skolemTerm (I : Interpretation D) (names : Names) (enclosing : Option String) (f : D → D)
    (v : String → D) :
    (I.withSkolem names.nextSkolem f).value v (names.skolemTerm enclosing).1 = f (I.enclosed enclosing v) := by
  cases enclosing with
  | none => exact Function.update_self (skolemSymbol names.nextSkolem) (f I.point) I.constant
  | some x => exact congrFun (Function.update_self (skolemSymbol names.nextSkolem) f I.function) (v x)

theorem not_handedOut {n m : Nat} (ht : t.SkolemsBelow n) : ∀ a ∈ t.symbols, ¬ handedOut n m a := by
  rintro a ha ⟨k, hk, -, rfl⟩
  exact absurd (ht k ha) (Nat.not_lt.mpr hk)

end Interpretation

namespace Term

open Interpretation

variable {I J : Interpretation D} {env : List (String × Term)} {scope : List String} {enclosing : Option String}
  {names names' names'' : Names} {depth : Nat} {x : String} {t m l r ml mr : Term}

/-! ## What the names in scope stand for -/

section Scope

/-- The values of the names in scope depend on the enclosing variable only. -/
def Determined (I : Interpretation D) (env : List (String × Term)) (scope : List String) (enclosing : Option String) :
    Prop :=
  ∀ v w, I.enclosed enclosing v = I.enclosed enclosing w → ∀ z ∈ scope, assign I env v z = assign I env w z

theorem assign_of_notMem (h : Within env scope) (hx : x ∉ scope) (v : String → D) : assign I env v x = v x := by
  have hself := assign_update (I := I) h hx v (v x)
  rw [Function.update_eq_self] at hself
  rw [hself, Function.update_self]

theorem assign_of_sameOutside {S : String → Prop} (h : SameOutside S I J)
    (henv : ∀ e ∈ env, ∀ a ∈ e.2.symbols, ¬ S a) (v : String → D) : assign J env v = assign I env v := by
  induction env with
  | nil => rfl
  | cons e env ih =>
    obtain ⟨he, henv⟩ := List.forall_mem_cons.mp henv
    rw [assign, ih henv, h.value_eq he, assign]

theorem mem_scope_of_isApart (ht : t.isSettled = true) (hapart : t.IsApart scope) {y : String}
    (hy : t.occursFree y = true) : y ∈ scope := by
  induction t using induct generalizing scope with
  | lit n a | rel n a ts ih | fn n a t ih => exact (isApart_of_isLiteral ht).mp hapart y (mentions_of_occursFree hy)
  | var n x => cases ht
  | quant n q x t ih =>
    obtain ⟨hyx, hy⟩ := occursFree_quant.mp hy
    have hmem := ih (isSettled_quant.mp ht).2 hapart.2 hy
    exact (List.mem_cons.mp hmem).resolve_left hyx
  | conn n c l r ihl ihr =>
    obtain ⟨-, -, hl, hr⟩ := isSettled_conn.mp ht
    rw [occursFree, Bool.or_eq_true] at hy
    exact hy.elim (ihl hl hapart.1) (ihr hr hapart.2.1)
  | freeClause n ts ih =>
    rw [occursFree, occursFreeAny_eq_true] at hy
    obtain ⟨t, hmem, hy⟩ := hy
    exact ih t hmem ((isSettled_freeClause.mp ht).2 t hmem) (areApart_iff.mp hapart t hmem) hy

/-- What the pass needs of a formula below `depth` universal quantifiers, for its Skolem symbols to have a meaning. -/
structure Choosable (I : Interpretation D) (env : List (String × Term)) (scope : List String)
    (enclosing : Option String) (names : Names) (depth : Nat) (t : Term) : Prop where
  settled : t.isSettled = true
  apart : t.IsApart scope
  within : Within env scope
  enclosing_mem : ∀ u, enclosing = some u → u ∈ scope
  unused : t.SkolemsBelow 0
  earlier : ∀ e ∈ env, e.2.SkolemsBelow names.nextSkolem
  shallow : t.existsWithin depth = true
  outermost : depth = 0 → enclosing = none
  determined : depth ≤ 1 → Determined I env scope enclosing

namespace Choosable

/-- The same formula when more Skolem symbols were handed out and given a meaning. -/
theorem later (h : Choosable I env scope enclosing names depth t)
    (hJ : SameOutside (handedOut names.nextSkolem names'.nextSkolem) I J)
    (hle : names.nextSkolem ≤ names'.nextSkolem) : Choosable J env scope enclosing names' depth t where
  settled := h.settled
  apart := h.apart
  within := h.within
  enclosing_mem := h.enclosing_mem
  unused := h.unused
  earlier e he := (h.earlier e he).mono hle
  shallow := h.shallow
  outermost := h.outermost
  determined hdepth v w hvw z hz := by
    have hassign := assign_of_sameOutside hJ fun e he => not_handedOut (h.earlier e he)
    rw [hassign v, hassign w]
    refine h.determined hdepth v w ?_ z hz
    simpa only [enclosed, hJ.point] using hvw

theorem left {n : Bool} {c : Connective} (h : Choosable I env scope enclosing names depth (.conn n c l r)) :
    Choosable I env scope enclosing names depth l :=
  { h with
    settled := (isSettled_conn.mp h.settled).2.2.1
    apart := h.apart.1
    unused := (SkolemsBelow.conn.mp h.unused).1
    shallow := (Bool.and_eq_true_iff.mp h.shallow).1 }

theorem right {n : Bool} {c : Connective} (h : Choosable I env scope enclosing names depth (.conn n c l r)) :
    Choosable I env scope enclosing names depth r :=
  { h with
    settled := (isSettled_conn.mp h.settled).2.2.2
    apart := h.apart.2.1
    unused := (SkolemsBelow.conn.mp h.unused).2
    shallow := (Bool.and_eq_true_iff.mp h.shallow).2 }

theorem member {n : Bool} {ts : List Term} (h : Choosable I env scope enclosing names depth (.freeClause n ts))
    (ht : t ∈ ts) : Choosable I env scope enclosing names depth t :=
  { h with
    settled := (isSettled_freeClause.mp h.settled).2 t ht
    apart := areApart_iff.mp h.apart t ht
    unused := SkolemsBelow.freeClause.mp h.unused t ht
    shallow := existWithin_eq_true.mp h.shallow t ht }

/-- Below the first `∀`, its variable is all there is in scope that can vary. -/
theorem body_forall {n : Bool} (h : Choosable I env scope enclosing names depth (.quant n .forall x t)) :
    Choosable I env (x :: scope) (some x) names (depth + 1) t where
  settled := (isSettled_quant.mp h.settled).2
  apart := h.apart.2
  within := h.within.mono (List.subset_cons_self x scope)
  enclosing_mem u hu := Option.some.inj hu ▸ List.mem_cons_self
  unused := h.unused
  earlier := h.earlier
  shallow := h.shallow
  outermost hdepth := absurd hdepth (Nat.succ_ne_zero depth)
  determined hdepth v w hvw z hz := by
    have houter : depth = 0 := by omega
    rcases List.mem_cons.mp hz with rfl | hz
    · rw [assign_of_notMem h.within h.apart.1, assign_of_notMem h.within h.apart.1]
      exact hvw
    · refine h.determined (by omega) v w ?_ z hz
      rw [h.outermost houter]
      rfl

/-- Replaced by its Skolem term, an existential variable stands for what the Skolem symbol means. -/
theorem assign_skolem {n : Bool} (h : Choosable I env scope enclosing names depth (.quant n .exists x t)) (f : D → D)
    (v : String → D) :
    assign (I.withSkolem names.nextSkolem f) (env ++ [(x, (names.skolemTerm enclosing).1)]) v =
      Function.update (assign I env v) x (f (I.enclosed enclosing v)) := by
  have hsame := sameOutside_withSkolem I names.nextSkolem f
  rw [assign_append, value_skolemTerm, assign_update h.within h.apart.1,
    assign_of_sameOutside hsame fun e he => not_handedOut (h.earlier e he)]

theorem body_exists {n : Bool} (h : Choosable I env scope enclosing names depth (.quant n .exists x t)) (f : D → D) :
    Choosable (I.withSkolem names.nextSkolem f) (env ++ [(x, (names.skolemTerm enclosing).1)]) (x :: scope) enclosing
      (names.skolemTerm enclosing).2 depth t where
  settled := (isSettled_quant.mp h.settled).2
  apart := h.apart.2
  within := h.within.skolem h.enclosing_mem
  enclosing_mem u hu := List.mem_cons_of_mem x (h.enclosing_mem u hu)
  unused := h.unused
  earlier := skolemsBelow_skolem h.earlier x
  shallow := (Bool.and_eq_true_iff.mp h.shallow).2
  outermost := h.outermost
  determined hdepth v w hvw z hz := by
    have hvw : I.enclosed enclosing v = I.enclosed enclosing w := hvw
    rw [h.assign_skolem f v, h.assign_skolem f w, hvw]
    by_cases hzx : z = x
    · subst hzx
      rw [Function.update_self, Function.update_self]
    · rw [Function.update_of_ne hzx, Function.update_of_ne hzx]
      exact h.determined hdepth v w hvw z ((List.mem_cons.mp hz).resolve_left hzx)

/-- One function of the enclosing variable's value picks the witnesses of an existential formula. -/
theorem exists_witness {n : Bool} (h : Choosable I env scope enclosing names depth (.quant n .exists x t)) :
    ∃ f : D → D, ∀ v, (∃ d, t.Holds I (Function.update (assign I env v) x d)) →
      t.Holds I (Function.update (assign I env v) x (f (I.enclosed enclosing v))) := by
  have hdepth : depth ≤ 1 := of_decide_eq_true (Bool.and_eq_true_iff.mp h.shallow).1
  have hbody := (isSettled_quant.mp h.settled).2
  -- a witness under one assignment is one under every assignment with the same value of the enclosing variable
  have hpick : ∀ e : D, ∃ d : D, ∀ v, I.enclosed enclosing v = e →
      (∃ d', t.Holds I (Function.update (assign I env v) x d')) → t.Holds I (Function.update (assign I env v) x d) := by
    intro e
    by_cases hsome : ∃ v d, I.enclosed enclosing v = e ∧ t.Holds I (Function.update (assign I env v) x d)
    · obtain ⟨w, d, hw, hd⟩ := hsome
      refine ⟨d, fun v hv _ => (holds_congr fun y hy => ?_).mp hd⟩
      by_cases hyx : y = x
      · rw [hyx, Function.update_self, Function.update_self]
      · have hmem := (List.mem_cons.mp (mem_scope_of_isApart hbody h.apart.2 hy)).resolve_left hyx
        rw [Function.update_of_ne hyx, Function.update_of_ne hyx]
        exact h.determined hdepth w v (hw.trans hv.symm) y hmem
    · exact ⟨I.point, fun v hv ⟨d, hd⟩ => absurd ⟨v, d, hv, hd⟩ hsome⟩
  choose f hf using hpick
  exact ⟨f, fun v hv => hf _ v rfl hv⟩

end Choosable

end Scope

/-! ## The pass -/

section Pass

/-- The Skolem symbols handed out between `names` and `names'` can be given a meaning for which `m` holds where `t`
does. -/
def Satisfied (I : Interpretation D) (env : List (String × Term)) (names names' : Names) (t m : Term) : Prop :=
  ∃ J, SameOutside (handedOut names.nextSkolem names'.nextSkolem) I J ∧
    ∀ v, t.Holds I (assign I env v) → m.Holds J v

theorem handedOut_mono {n n' k k' : Nat} (hn : n' ≤ n) (hk : k ≤ k') (a : String) (h : handedOut n k a) :
    handedOut n' k' a := by
  obtain ⟨i, hlo, hhi, ha⟩ := h
  exact ⟨i, by omega, by omega, ha⟩

/-- Two formulas one after the other: the meaning chosen for the second one leaves the first one as it is. -/
theorem satisfied_both (h : Choosable I env scope enclosing names depth r)
    (hle : names.nextSkolem ≤ names'.nextSkolem) (hle' : names'.nextSkolem ≤ names''.nextSkolem)
    (hml : ml.SkolemsBelow names'.nextSkolem) (hl : Satisfied I env names names' l ml)
    (hr : ∀ J : Interpretation D, Choosable J env scope enclosing names' depth r → Satisfied J env names' names'' r mr) :
    ∃ J, SameOutside (handedOut names.nextSkolem names''.nextSkolem) I J ∧
      ∀ v, (l.Holds I (assign I env v) → ml.Holds J v) ∧ (r.Holds I (assign I env v) → mr.Holds J v) := by
  obtain ⟨J, hJ, hleft⟩ := hl
  obtain ⟨K, hK, hright⟩ := hr J (h.later hJ hle)
  refine ⟨K, (hJ.mono (handedOut_mono (Nat.le_refl _) hle')).trans (hK.mono (handedOut_mono hle (Nat.le_refl _))),
    fun v => ⟨fun hv => ?_, fun hv => hright v ?_⟩⟩
  · exact (hK.holds_iff (not_handedOut hml)).mpr (hleft v hv)
  · rw [assign_of_sameOutside hJ fun e he => not_handedOut (h.earlier e he)]
    exact (hJ.holds_iff (not_handedOut (h.unused.mono (Nat.zero_le _)))).mpr hv

theorem satisfied_literal (ht : t.isLiteral = true) (h : Choosable I env scope enclosing names depth t) :
    Satisfied I env names names t (replaceInTurn env t) := by
  obtain ⟨-, -, hholds⟩ := replaceInTurn_literal (I := I) ht h.within ((isApart_of_isLiteral ht).mp h.apart)
  exact ⟨I, .refl _ I, fun v hv => (hholds v).mpr hv⟩

theorem satisfied_forall (h : Choosable I env scope enclosing names depth (.quant false .forall x t))
    (hbody : Satisfied I env names names' t m) : Satisfied I env names names' (.quant false .forall x t) m := by
  obtain ⟨J, hJ, hholds⟩ := hbody
  refine ⟨J, hJ, fun v hv => hholds v ?_⟩
  have hinst : t.Holds I (Function.update (assign I env v) x (v x)) := hv (v x)
  rwa [← assign_update h.within h.apart.1, Function.update_eq_self] at hinst

/-- The Skolem symbol of an existential quantifier picks its witnesses. -/
theorem satisfied_exists (h : Choosable I env scope enclosing names depth (.quant false .exists x t))
    (hle : (names.skolemTerm enclosing).2.nextSkolem ≤ names'.nextSkolem)
    (hbody : ∀ J : Interpretation D, Choosable J (env ++ [(x, (names.skolemTerm enclosing).1)]) (x :: scope) enclosing
        (names.skolemTerm enclosing).2 depth t →
      Satisfied J (env ++ [(x, (names.skolemTerm enclosing).1)]) (names.skolemTerm enclosing).2 names' t m) :
    Satisfied I env names names' (.quant false .exists x t) m := by
  obtain ⟨f, hf⟩ := h.exists_witness
  obtain ⟨J, hJ, hholds⟩ := hbody _ (h.body_exists f)
  have hI := sameOutside_withSkolem I names.nextSkolem f
  refine ⟨J, (hI.mono (handedOut_mono (Nat.le_refl _) hle)).trans
    (hJ.mono (handedOut_mono (Nat.le_succ _) (Nat.le_refl _))), fun v hv => hholds v ?_⟩
  have hunused : t.SkolemsBelow names.nextSkolem := SkolemsBelow.mono (t := t) h.unused (Nat.zero_le _)
  rw [h.assign_skolem f v, hI.holds_iff (not_handedOut hunused)]
  exact hf v hv

theorem satisfied_skolemizeAll {ts : List Term} {n : Bool}
    (ih : ∀ t ∈ ts, ∀ (I : Interpretation D) (names : Names), Choosable I env scope enclosing names depth t →
      Satisfied I env names (skolemizeIn env enclosing names t).2 t (skolemizeIn env enclosing names t).1)
    (h : Choosable I env scope enclosing names depth (.freeClause n ts)) :
    Satisfied I env names (skolemizeAll env enclosing names ts).2 (.freeClause false ts)
      (.freeClause false (skolemizeAll env enclosing names ts).1) := by
  induction ts generalizing I names n with
  | nil => exact ⟨I, .refl _ I, fun v hv => hv⟩
  | cons t ts ihts =>
    obtain ⟨iht, ih⟩ := List.forall_mem_cons.mp ih
    have ht := h.member List.mem_cons_self
    have hrest : Choosable I env scope enclosing names depth (.freeClause false ts) :=
      { h with
        settled := isSettled_freeClause.mpr ⟨.inl rfl, fun u hu => (h.member (List.mem_cons_of_mem t hu)).settled⟩
        apart := areApart_iff.mpr fun u hu => (h.member (List.mem_cons_of_mem t hu)).apart
        unused := SkolemsBelow.freeClause.mpr fun u hu => (h.member (List.mem_cons_of_mem t hu)).unused
        shallow := existWithin_eq_true.mpr fun u hu => (h.member (List.mem_cons_of_mem t hu)).shallow }
    have hle := nextSkolem_le_skolemizeIn env enclosing names t
    have hle' := nextSkolem_le_skolemizeIn env enclosing (skolemizeIn env enclosing names t).2 (.freeClause n ts)
    obtain ⟨J, hJ, hboth⟩ := satisfied_both hrest hle hle' (skolemsBelow_skolemizeIn ht.unused ht.earlier)
      (iht I names ht) fun J hJ => ihts ih hJ
    exact ⟨J, hJ, fun v hv => ⟨(hboth v).1 hv.1, (hboth v).2 hv.2⟩⟩

/-- The Skolem symbols that the pass hands out can be given a meaning for which its result holds where the formula
does. -/
theorem satisfied_skolemizeIn (h : Choosable I env scope enclosing names depth t) :
    Satisfied I env names (skolemizeIn env enclosing names t).2 t (skolemizeIn env enclosing names t).1 := by
  induction t using induct generalizing I env scope enclosing names depth with
  | lit n a | rel n a ts ih | fn n a t ih => exact satisfied_literal h.settled h
  | var n x => cases h.settled
  | quant n q x t ih =>
    obtain ⟨rfl, -⟩ := isSettled_quant.mp h.settled
    cases q with
    | «exists» =>
      rw [skolemizeIn_exists, unshadowed_eq h.within h.apart.1]
      exact satisfied_exists h (nextSkolem_le_skolemizeIn _ _ _ t) fun J hJ => ih hJ
    | «forall» =>
      rw [skolemizeIn_forall, unshadowed_eq h.within h.apart.1]
      exact satisfied_forall h (ih h.body_forall)
  | conn n c l r ihl ihr =>
    obtain ⟨rfl, hc, -⟩ := isSettled_conn.mp h.settled
    have hle := nextSkolem_le_skolemizeIn env enclosing names l
    have hle' := nextSkolem_le_skolemizeIn env enclosing (skolemizeIn env enclosing names l).2 r
    have hbelow : (skolemizeIn env enclosing names l).1.SkolemsBelow (skolemizeIn env enclosing names l).2.nextSkolem :=
      skolemsBelow_skolemizeIn h.left.unused h.earlier
    obtain ⟨J, hJ, hboth⟩ := satisfied_both h.right hle hle' hbelow (ihl h.left) fun J hJ => ihr hJ
    refine ⟨J, hJ, fun v hv => ?_⟩
    rcases hc with rfl | rfl
    · exact ⟨(hboth v).1 hv.1, (hboth v).2 hv.2⟩
    · exact Or.imp (hboth v).1 (hboth v).2 hv
  | freeClause n ts ih =>
    have hmembers : ∀ t ∈ ts, ∀ (I : Interpretation D) (names : Names), Choosable I env scope enclosing names depth t →
        Satisfied I env names (skolemizeIn env enclosing names t).2 t (skolemizeIn env enclosing names t).1 :=
      fun t ht I names h => ih t ht h
    cases n with
    | false => exact satisfied_skolemizeAll hmembers h
    | true =>
      -- a negated free clause in normal form is empty
      obtain rfl : ts = [] := by simpa using (isSettled_freeClause.mp h.settled).1
      exact ⟨I, .refl _ I, fun v hv => hv⟩

end Pass

end Term

/-! ## The clauses -/

section Clauses

open Interpretation

variable {t : Term}

theorem choosable_apart (I : Interpretation D) (hform : t.isFormula = true) (hclosed : t.freeVars = [])
    (hnew : ∀ n, skolemSymbol n ∉ t.symbols) (hshallow : t.eliminate.toNnf.existsWithin 0 = true) :
    Term.Choosable I [] [] none (t.eliminate.toNnf.apart (Names.avoiding t)).2 0
      (t.eliminate.toNnf.apart (Names.avoiding t)).1 := by
  have hready := ready_toNnf hform hclosed
  obtain ⟨hrecast, hapart⟩ := Term.apartIn_spec (I := I) [] (Names.avoiding t) t.eliminate.toNnf hready
  exact
    { settled := hrecast.settled.trans hready.settled
      apart := hapart
      within := fun e he => (nomatch he)
      enclosing_mem := fun u hu => (nomatch hu)
      unused := fun n hn => by
        rw [Term.apart, Term.mem_symbols_apartIn, Term.toNnf_eq, Term.nnf_eliminate, Term.mem_symbols_nnf] at hn
        exact absurd hn (hnew n)
      earlier := fun e he => (nomatch he)
      shallow := (Term.existsWithin_apartIn 0 _).trans hshallow
      outermost := fun _ => rfl
      determined := fun _ v w _ z hz => (nomatch hz) }

/-- An interpretation of a closed formula becomes one of the universal closure of every clause if the Skolem symbols are
given the right meaning, provided that every `∃` of the normal form is in the scope of at most one `∀`. -/
theorem clauseForm_satisfiable {kb : KnowledgeBase} {I : Interpretation D} {v : String → D} (hform : t.isFormula = true)
    (hclosed : t.freeVars = []) (hnew : ∀ n, skolemSymbol n ∉ t.symbols)
    (hshallow : t.eliminate.toNnf.existsWithin 0 = true) (hkb : t.clauseForm = .ok kb) (hholds : t.Holds I v) :
    ∃ J, SameOutside (fun a => ∃ n, a = skolemSymbol n) I J ∧ ∀ c ∈ kb.clauses, ∀ w, c.Holds J w := by
  have hchoosable := choosable_apart I hform hclosed hnew hshallow
  obtain ⟨J, hJ, hmatrix⟩ := Term.satisfied_skolemizeIn hchoosable
  refine ⟨J, hJ.mono fun a ⟨n, _, _, ha⟩ => ⟨n, ha⟩, fun c hc w => ?_⟩
  obtain ⟨hrecast, -⟩ := Term.apartIn_spec (I := I) [] (Names.avoiding t) t.eliminate.toNnf (ready_toNnf hform hclosed)
  -- the truth of a closed formula does not depend on the assignment
  have hw : t.Holds I w := by
    refine (Term.holds_congr fun x hx => ?_).mp hholds
    rw [← Term.mem_freeVars, hclosed] at hx
    cases hx
  have hleft := hmatrix w ((hrecast.holds w).mpr ((holds_toNnf_eliminate t w).mpr hw))
  obtain ⟨_, -, hof⟩ := exists_matrixOf J hform hclosed
  refine ((Term.matrixClauses_spec (I := J) hof.matrix hkb).2 w).mpr ?_ c hc
  rw [Names.matrix, Term.skolemize, Term.settleQuantifiers_of_isSettled hchoosable.settled]
  exact hleft

/-- Two things, of which one is `p`; functions leave them as they are. -/
def steady : Interpretation Bool :=
  { exchange with function := fun _ d => d }

theorem unlikeness_holds (v : String → Bool) : unlikeness.Holds steady v := by
  refine ⟨fun d => ⟨!d, ?_⟩, ?_, trivial⟩
  · cases d <;> simp [Connective.Holds, Term.Holds, Interpretation.value, steady, exchange]
  · exact Classical.em _

theorem skolemSymbol_notMem_unlikeness (n : Nat) : skolemSymbol n ∉ unlikeness.symbols := by
  intro hmem
  have hsymbol : skolemSymbol n = "p" := by simpa [unlikeness, Term.symbols, Term.symbolsAll] using hmem
  have hlist := congrArg String.toList hsymbol
  simp [skolemSymbol] at hlist

theorem unlikeness_satisfiable :
    unlikeness.isFormula = true ∧ unlikeness.freeVars = [] ∧ (∀ n, skolemSymbol n ∉ unlikeness.symbols) ∧
      unlikeness.eliminate.toNnf.existsWithin 0 = true ∧ unlikeness.clauseForm = .ok unlikenessClauses ∧
      unlikeness.Holds steady (fun _ => false) ∧
      ∃ J, SameOutside (fun a => ∃ n, a = skolemSymbol n) steady J ∧
        ∀ c ∈ unlikenessClauses.clauses, ∀ w, c.Holds J w :=
  ⟨rfl, rfl, skolemSymbol_notMem_unlikeness, rfl, clauseForm_unlikeness,
    unlikeness_holds _,
    clauseForm_satisfiable rfl rfl skolemSymbol_notMem_unlikeness rfl clauseForm_unlikeness
      (unlikeness_holds fun _ => false)⟩

end Clauses

end Clausal
