import Clausal.Proofs.ClauseForm.Nameless
import Clausal.Proofs.ClauseForm.Separation
import Clausal.Proofs.ClauseForm.Entailment

/-!
# Clausal.Proofs.ClauseForm.Standardization — taking binders apart is a renaming

* `Names.Supplies`: the next variable is the first one of the series that is not reserved.
* `Renews`, `RenewsBoth`, `Standardizes`, `StandardizesAll`: the pass as rules, without a bound on the names that are
  tried or on how often a quantifier is renamed.
* `standardizes_conn`, `standardizes_inScope`, `standardizes_outside`, …: what can be derived for each kind of formula.
* `standardized`: where all names are issued, the rules derive the result of the pass and nothing else, and the result
  differs from the formula in bound names only.
* `apart_renames_binders`: the same for names that reserve those of the formula, with what follows for free variables
  and binders.
-/

namespace Clausal

open Term

variable {names : Names} {scope seen xs : List String} {x : String} {t t' l r : Term} {ts : List Term} {n : Bool}
  {q : Quant} {c : Connective} {out : Term × Names}

/-! ## Fresh names -/

section Supply

/-- The first variable of the series that is not reserved, with the names after it. -/
def Names.Supplies (names : Names) (next : String × Names) : Prop :=
  ∃ k, names.nextVariable ≤ k ∧ variableName k ∉ names.reserved ∧
    (∀ m, names.nextVariable ≤ m → m < k → variableName m ∈ names.reserved) ∧
    next = (variableName k, { names with nextVariable := k + 1 })

theorem Names.mem_of_lt_skipReserved {reserved : List String} {tries k m : Nat} (hle : k ≤ m)
    (hlt : m < skipReserved reserved tries k) : variableName m ∈ reserved := by
  induction tries generalizing k with
  | zero => exact absurd (show m < k from hlt) (Nat.not_lt.mpr hle)
  | succ tries ih =>
    rw [skipReserved] at hlt
    split at hlt
    · next hk =>
      by_cases hm : k = m
      · subst hm
        exact List.contains_iff_mem.mp hk
      · exact ih (by omega) hlt
    · exact absurd hlt (Nat.not_lt.mpr hle)

/-- The search for a name ends, at the first one that is not reserved. -/
theorem Names.supplies_iff {next : String × Names} : names.Supplies next ↔ next = names.freshVariable := by
  have hfresh := skipReserved_notMem names.reserved names.nextVariable
  have hle := le_skipReserved names.reserved names.reserved.length names.nextVariable
  constructor
  · rintro ⟨k, hk, hnew, hskipped, rfl⟩
    have hfirst : k = skipReserved names.reserved names.reserved.length names.nextVariable := by
      rcases Nat.lt_trichotomy k (skipReserved names.reserved names.reserved.length names.nextVariable) with h | h | h
      · exact absurd (mem_of_lt_skipReserved hk h) hnew
      · exact h
      · exact absurd (hskipped _ hle h) hfresh
    rw [hfirst]
    rfl
  · rintro rfl
    exact ⟨_, hle, hfresh, fun m => mem_of_lt_skipReserved, rfl⟩

end Supply

/-! ## The pass as rules -/

section Rules

/-- Each binder of the list takes a fresh name in `t`. -/
inductive Renews : Names → List String → Term → Term × Names → Prop where
  | nil {names : Names} {t : Term} : Renews names [] t (t, names)
  | cons {names names₁ : Names} {x y : String} {xs : List String} {t : Term} {out : Term × Names} :
      names.Supplies (y, names₁) → Renews names₁ xs (t.renameBound x y) out → Renews names (x :: xs) t out

/-- Each binder of the list takes a fresh name in `l` and then another one in `r`. -/
inductive RenewsBoth : Names → List String → Term → Term → (Term × Term) × Names → Prop where
  | nil {names : Names} {l r : Term} : RenewsBoth names [] l r ((l, r), names)
  | cons {names names₁ names₂ : Names} {x y z : String} {xs : List String} {l r : Term} {out : (Term × Term) × Names} :
      names.Supplies (y, names₁) → names₁.Supplies (z, names₂) →
      RenewsBoth names₂ xs (l.renameBound x y) (r.renameBound x z) out → RenewsBoth names (x :: xs) l r out

mutual

/-- What the pass makes of a formula inside `scope`, with the names after it. -/
inductive Standardizes : List String → Names → Term → Term × Names → Prop where
  | atom {scope : List String} {names : Names} {t : Term} : t.isAtomic = true → Standardizes scope names t (t, names)
  /-- A name that both sides bind is renamed on both of them. -/
  | conn {scope : List String} {names names₁ names₂ names₃ : Names} {n : Bool} {c : Connective}
      {l r l₁ r₁ l₂ r₂ : Term} :
      RenewsBoth names (sharedNames l.binders r.binders) l r ((l₁, r₁), names₁) →
      Standardizes scope names₁ l₁ (l₂, names₂) → Standardizes scope names₂ r₁ (r₂, names₃) →
      Standardizes scope names (.conn n c l r) (.conn n c l₂ r₂, names₃)
  /-- A quantifier in the scope of its own name is renamed and then visited again. -/
  | again {scope : List String} {names names₁ : Names} {n : Bool} {q : Quant} {x y : String} {t : Term}
      {out : Term × Names} :
      x ∈ scope → names.Supplies (y, names₁) → Standardizes scope names₁ ((quant n q x t).renameBound x y) out →
      Standardizes scope names (.quant n q x t) out
  | quant {scope : List String} {names names' : Names} {n : Bool} {q : Quant} {x : String} {t t' : Term} :
      x ∉ scope → Standardizes (x :: scope) names t (t', names') →
      Standardizes scope names (.quant n q x t) (.quant n q x t', names')
  | freeClause {scope : List String} {names names' : Names} {n : Bool} {ts ts' : List Term} :
      StandardizesAll scope [] names ts (ts', names') →
      Standardizes scope names (.freeClause n ts) (.freeClause n ts', names')

/-- What the pass makes of the members of a free clause, where the members before them bind the names `seen`. -/
inductive StandardizesAll : List String → List String → Names → List Term → List Term × Names → Prop where
  | nil {scope seen : List String} {names : Names} : StandardizesAll scope seen names [] ([], names)
  /-- A name that an earlier member binds is renamed. -/
  | cons {scope seen : List String} {names names₁ names₂ names₃ : Names} {t t₁ t₂ : Term} {ts ts' : List Term} :
      Renews names (sharedNames t.binders seen) t (t₁, names₁) → Standardizes scope names₁ t₁ (t₂, names₂) →
      StandardizesAll scope (Distinct.union (· == ·) seen t₁.binders) names₂ ts (ts', names₃) →
      StandardizesAll scope seen names (t :: ts) (t₂ :: ts', names₃)

end

theorem renews_iff : Renews names xs t out ↔ out = names.freshen xs t := by
  induction xs generalizing names t with
  | nil =>
    constructor
    · rintro ⟨⟩
      rfl
    · rintro rfl
      exact .nil
  | cons x xs ih =>
    rw [Names.freshen, ← ih]
    constructor
    · rintro (_ | ⟨hy, h⟩)
      rw [← Names.supplies_iff.mp hy]
      exact h
    · exact .cons (Names.supplies_iff.mpr rfl)

theorem renewsBoth_iff {both : (Term × Term) × Names} :
    RenewsBoth names xs l r both ↔ both = names.freshenBoth xs l r := by
  induction xs generalizing names l r with
  | nil =>
    constructor
    · rintro ⟨⟩
      rfl
    · rintro rfl
      exact .nil
  | cons x xs ih =>
    rw [Names.freshenBoth, ← ih]
    constructor
    · rintro (_ | ⟨hy, hz, h⟩)
      rw [← Names.supplies_iff.mp hy, ← Names.supplies_iff.mp hz]
      exact h
    · exact .cons (Names.supplies_iff.mpr rfl) (Names.supplies_iff.mpr rfl)

theorem standardizes_atom (ht : t.isAtomic = true) : Standardizes scope names t out ↔ out = (t, names) := by
  constructor
  · rintro (_ | _ | _ | _ | _)
    · rfl
    all_goals cases ht
  · rintro rfl
    exact .atom ht

theorem standardizes_conn {both : (Term × Term) × Names}
    (hboth : names.freshenBoth (sharedNames l.binders r.binders) l r = both) :
    Standardizes scope names (.conn n c l r) out ↔
      ∃ left, Standardizes scope both.2 both.1.1 left ∧
        ∃ right, Standardizes scope left.2 both.1.2 right ∧ out = (.conn n c left.1 right.1, right.2) := by
  constructor
  · rintro (h | ⟨hrenews, hl, hr⟩ | _ | _ | _)
    · cases h
    · obtain rfl := (renewsBoth_iff.mp hrenews).trans hboth
      exact ⟨_, hl, _, hr, rfl⟩
  · rintro ⟨left, hl, right, hr, rfl⟩
    exact .conn (renewsBoth_iff.mpr hboth.symm) hl hr

theorem standardizes_inScope (hx : x ∈ scope) :
    Standardizes scope names (.quant n q x t) out ↔
      Standardizes scope names.freshVariable.2 ((quant n q x t).renameBound x names.freshVariable.1) out := by
  constructor
  · rintro (h | _ | ⟨_, hy, h⟩ | ⟨hout, _⟩ | _)
    · cases h
    · rw [← Names.supplies_iff.mp hy]
      exact h
    · exact absurd hx hout
  · exact .again hx (Names.supplies_iff.mpr rfl)

theorem standardizes_outside (hx : x ∉ scope) :
    Standardizes scope names (.quant n q x t) out ↔
      ∃ body, Standardizes (x :: scope) names t body ∧ out = (.quant n q x body.1, body.2) := by
  constructor
  · rintro (h | _ | ⟨hin, _, _⟩ | ⟨_, h⟩ | _)
    · cases h
    · exact absurd hin hx
    · exact ⟨_, h, rfl⟩
  · rintro ⟨body, h, rfl⟩
    exact .quant hx h

theorem standardizes_freeClause :
    Standardizes scope names (.freeClause n ts) out ↔
      ∃ members, StandardizesAll scope [] names ts members ∧ out = (.freeClause n members.1, members.2) := by
  constructor
  · rintro (h | _ | _ | _ | h)
    · cases h
    · exact ⟨_, h, rfl⟩
  · rintro ⟨members, h, rfl⟩
    exact .freeClause h

theorem standardizesAll_cons {own : Term × Names} {members : List Term × Names}
    (hown : names.freshen (sharedNames t.binders seen) t = own) :
    StandardizesAll scope seen names (t :: ts) members ↔
      ∃ first, Standardizes scope own.2 own.1 first ∧
        ∃ rest, StandardizesAll scope (Distinct.union (· == ·) seen own.1.binders) first.2 ts rest ∧
          members = (first.1 :: rest.1, rest.2) := by
  constructor
  · rintro (_ | ⟨hrenews, hfirst, hrest⟩)
    obtain rfl := (renews_iff.mp hrenews).trans hown
    exact ⟨_, hfirst, _, hrest, rfl⟩
  · rintro ⟨first, hfirst, rest, hrest, rfl⟩
    exact .cons (renews_iff.mpr hown.symm) hfirst hrest

end Rules

/-! ## The pass -/

section Pass

theorem Refreshed.alphaEquiv (h : Refreshed names xs t t') : t'.AlphaEquiv t := by
  induction h with
  | nil t => exact .refl t
  | cons _ hy _ ih => exact ih.trans (alphaEquiv_renameBound hy _)

theorem later_apartIn (h : AllIssued names t) (hscope : ∀ z ∈ scope, names.Issued z) :
    names.Later (apartIn scope names t).2 :=
  (separable (I := exchange) scope names t h hscope).recast.later

/-- If the names in the formula and in scope are issued, the rules derive what the pass gives and nothing else, and only
bound names differ in it. -/
def Standardized (scope : List String) (names : Names) (t : Term) : Prop :=
  AllIssued names t → (∀ z ∈ scope, names.Issued z) →
    (∀ out, Standardizes scope names t out ↔ out = apartIn scope names t) ∧ (apartIn scope names t).1.AlphaEquiv t

/-- The same for the members of a free clause. -/
def StandardizedAll (scope seen : List String) (names : Names) (ts : List Term) : Prop :=
  (∀ t ∈ ts, AllIssued names t) → (∀ z ∈ scope, names.Issued z) →
    (∀ out, StandardizesAll scope seen names ts out ↔ out = apartAll scope seen names ts) ∧
      List.Forall₂ AlphaEquiv (apartAll scope seen names ts).1 ts

theorem standardized_conn {both : (Term × Term) × Names} {left : Term × Names}
    (hboth : names.freshenBoth (sharedNames l.binders r.binders) l r = both)
    (hleft : apartIn scope both.2 both.1.1 = left) (ihl : Standardized scope both.2 both.1.1)
    (ihr : Standardized scope left.2 both.1.2) : Standardized scope names (.conn n c l r) := by
  intro h hscope
  have hli : AllIssued names l := fun z hz => h z (List.mem_append_left _ hz)
  have hri : AllIssued names r := fun z hz => h z (List.mem_append_right _ hz)
  have hrecast := recast_freshenBoth (I := exchange) hli hri (sharedNames l.binders r.binders) <| by
    intro z hzl hzr
    simp [sharedNames, binders, hzl, hzr]
  have hfresh := refreshed_freshenBoth hli hri (.refl names) (sharedNames l.binders r.binders)
  rw [hboth] at hrecast hfresh
  obtain ⟨hl, hr, -⟩ := hrecast
  have hscopel : ∀ z ∈ scope, both.2.Issued z := fun z hz => (hscope z hz).later hl.later
  have hlater := later_apartIn hl.issued hscopel
  obtain ⟨hderl, halphal⟩ := ihl hl.issued hscopel
  rw [hleft] at hlater hderl halphal
  obtain ⟨hderr, halphar⟩ := ihr (fun z hz => (hr.issued z hz).later hlater) fun z hz => (hscopel z hz).later hlater
  rw [apartIn]
  simp only [hboth, hleft]
  refine ⟨fun out => ?_, (halphal.trans hfresh.1.alphaEquiv).conn (halphar.trans hfresh.2.alphaEquiv) n c⟩
  simp only [standardizes_conn hboth, hderl, exists_eq_left, hderr]

theorem standardized_quant {x' : String} {names' : Names}
    (heq : names.leaveScope scope (scope.length + 1) x t = ((x', t'), names'))
    (ih : Standardized (x' :: scope) names' t') : Standardized scope names (.quant n q x t) := by
  intro h hscope
  obtain ⟨hnew, hbound⟩ := recast_leaveScope (I := exchange) h hscope heq
  obtain ⟨hder, halpha⟩ := ih (fun z hz => hbound.issued z (List.mem_cons_of_mem _ hz)) <| by
    intro z hz
    rcases List.mem_cons.mp hz with rfl | hz
    · exact hbound.issued _ List.mem_cons_self
    · exact (hscope z hz).later hbound.later
  have hquant : ∀ out, Standardizes scope names' (.quant n q x' t') out ↔
      out = (.quant n q x' (apartIn (x' :: scope) names' t').1, (apartIn (x' :: scope) names' t').2) := by
    intro out
    simp only [standardizes_outside hnew, hder, exists_eq_left]
  rw [apartIn]
  simp only [heq]
  rw [leaveScope_eq hscope] at heq
  split at heq
  · next hx =>
    -- one renaming leaves the scope, and the second visit goes on to the body
    cases heq
    refine ⟨fun out => ?_, (halpha.quant n q _).trans ?_⟩
    · rw [standardizes_inScope (List.contains_iff_mem.mp hx), renameBound_quant_self]
      exact hquant out
    · rw [← renameBound_quant_self]
      exact alphaEquiv_renameBound (not_mem_of_allIssued h) x
  · cases heq
    exact ⟨hquant, halpha.quant n q x⟩

theorem standardized_atom (hconn : ∀ n c l r, t = .conn n c l r → False)
    (hquant : ∀ n q x u, t = .quant n q x u → False) (hfree : ∀ n ts, t = .freeClause n ts → False) :
    Standardized scope names t := by
  intro _ _
  have hself : apartIn scope names t = (t, names) := by rw [apartIn] <;> assumption
  have hatomic : t.isAtomic = true := by
    cases t with
    | conn n c l r => exact absurd rfl (hconn n c l r)
    | quant n q x u => exact absurd rfl (hquant n q x u)
    | freeClause n ts => exact absurd rfl (hfree n ts)
    | _ => rfl
  rw [hself]
  exact ⟨fun out => standardizes_atom hatomic, .refl t⟩

theorem standardized_freeClause (ih : StandardizedAll scope [] names ts) :
    Standardized scope names (.freeClause n ts) := by
  intro h hscope
  obtain ⟨hder, halpha⟩ :=
    ih (fun t ht z hz => h z (by rw [variableNames, mem_variableNamesAll]; exact ⟨t, ht, hz⟩)) hscope
  rw [apartIn]
  refine ⟨fun out => ?_, .freeClause halpha n⟩
  simp only [standardizes_freeClause, hder, exists_eq_left]

theorem standardizedAll_nil (seen : List String) : StandardizedAll scope seen names [] := by
  intro _ _
  rw [apartAll]
  refine ⟨fun out => ⟨?_, ?_⟩, .nil⟩
  · rintro ⟨⟩
    rfl
  · rintro rfl
    exact .nil

theorem standardizedAll_cons {own first : Term × Names}
    (hown : names.freshen (sharedNames t.binders seen) t = own) (hfirst : apartIn scope own.2 own.1 = first)
    (ih : Standardized scope own.2 own.1)
    (ihts : StandardizedAll scope (Distinct.union (· == ·) seen own.1.binders) first.2 ts) :
    StandardizedAll scope seen names (t :: ts) := by
  intro h hscope
  obtain ⟨ht, hts⟩ := List.forall_mem_cons.mp h
  have hrecast : Recast exchange names t _ _ := recast_freshen ht (sharedNames t.binders seen)
  have hfresh := refreshed_freshen ht (.refl names) (sharedNames t.binders seen)
  rw [hown] at hrecast hfresh
  have hscope' : ∀ z ∈ scope, own.2.Issued z := fun z hz => (hscope z hz).later hrecast.later
  have hlater := later_apartIn hrecast.issued hscope'
  obtain ⟨hder, halpha⟩ := ih hrecast.issued hscope'
  rw [hfirst] at hlater hder halpha
  obtain ⟨hders, halphas⟩ := ihts (fun u hu z hz => (hts u hu z hz).later (hrecast.later.trans hlater))
    fun z hz => (hscope' z hz).later hlater
  rw [apartAll]
  simp only [hown, hfirst]
  refine ⟨fun out => ?_, .cons (halpha.trans hfresh.alphaEquiv) halphas⟩
  simp only [standardizesAll_cons hown, hder, exists_eq_left, hders]

/-- The pass ends for every formula whose names are issued, and renames binders only. -/
theorem standardized (scope : List String) (names : Names) (t : Term) : Standardized scope names t := by
  refine apartIn.induct Standardized StandardizedAll ?_ ?_ ?_ ?_ ?_ ?_ scope names t
  · intro scope names n c l r _ _ ihl _ ihr
    exact standardized_conn rfl rfl ihl ihr
  · intro scope names n q x t _ ih
    exact standardized_quant rfl ih
  · intro scope names n ts ih
    exact standardized_freeClause ih
  · intro scope names t hconn hquant hfree
    exact standardized_atom hconn hquant hfree
  · intro scope seen names
    exact standardizedAll_nil seen
  · intro scope seen names t ts _ _ ih _ ihts
    exact standardizedAll_cons rfl rfl ih ihts

/-- Where the names of the formula are reserved, the rules of the pass end with one result.  It differs from the formula
in bound names only, has its free variables, and no two of its quantifiers outside of arguments bind the same name. -/
theorem apart_renames_binders (names : Names) (t : Term) (h : ∀ x ∈ t.variableNames, x ∈ names.reserved) :
    (∀ out, Standardizes [] names t out ↔ out = t.apart names) ∧
      (t.apart names).1.AlphaEquiv t ∧
      (t.apart names).1.freeVars = t.freeVars ∧
      (t.apart names).1.formulaBinders.Nodup := by
  have hissued : AllIssued names t := fun x hx => .inl (h x hx)
  have hscope : ∀ z ∈ ([] : List String), names.Issued z := List.forall_mem_nil _
  obtain ⟨hder, halpha⟩ := standardized [] names t hissued hscope
  exact ⟨hder, halpha, halpha.freeVars_eq, (separable (I := exchange) [] names t hissued hscope).nodup⟩

/-- `[∀X (p(x1, X) ∧ (∀X q(X) ∨ ∃X q(X))); ∃X (q(X) ∧ ¬∀X q(X))]`: one name for all binders, and a free variable with a
name of the series. -/
def entangled : Term :=
  .freeClause false
    [.quant false .forall "X" (.and (.rel false "p" [.var false "x1", .var false "X"])
      (.or (.quant false .forall "X" (.rel false "q" [.var false "X"]))
        (.quant false .exists "X" (.rel false "q" [.var false "X"])))),
     .quant false .exists "X" (.and (.rel false "q" [.var false "X"])
      (.quant true .forall "X" (.rel false "q" [.var false "X"])))]

def disentangled : Term :=
  .freeClause false
    [.quant false .forall "X" (.and (.rel false "p" [.var false "x1", .var false "X"])
      (.or (.quant false .forall "x0" (.rel false "q" [.var false "x0"]))
        (.quant false .exists "x2" (.rel false "q" [.var false "x2"])))),
     .quant false .exists "x3" (.and (.rel false "q" [.var false "x3"])
      (.quant true .forall "x4" (.rel false "q" [.var false "x4"])))]

theorem apart_entangled :
    (∀ x ∈ entangled.variableNames, x ∈ (Names.avoiding entangled).reserved) ∧
      Standardizes [] (Names.avoiding entangled) entangled
        (disentangled, { Names.avoiding entangled with nextVariable := 5 }) ∧
      disentangled.AlphaEquiv entangled ∧ disentangled.freeVars = entangled.freeVars ∧
      disentangled.formulaBinders = ["X", "x0", "x2", "x3", "x4"] := by
  have hreserved : ∀ x ∈ entangled.variableNames, x ∈ (Names.avoiding entangled).reserved := by decide
  have hresult : entangled.apart (Names.avoiding entangled) =
      (disentangled, { Names.avoiding entangled with nextVariable := 5 }) := by
    with_unfolding_all rfl
  have hapart := apart_renames_binders (Names.avoiding entangled) entangled hreserved
  rw [hresult] at hapart
  exact ⟨hreserved, (hapart.1 _).mpr rfl, hapart.2.1, hapart.2.2.1, rfl⟩

end Pass

end Clausal
