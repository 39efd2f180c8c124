import Clausal.Proofs.Term.FirstOrder
import Clausal.Proofs.Unify.Soundness

/-!
# Clausal.Proofs.Unify.Completeness — unification finds what there is to find

If some replacement `θ` agrees with the bindings of an acyclic substitution and makes two first-order terms equal, then
unification succeeds, and `θ` agrees with the bindings of the result: the result is most general.

The number of look-ups is bounded along a path of the recursion.  `Spent V s P t` says that the variables `P` were
looked up on the way to `t`: each of them leads to every variable of `t`, also under later substitutions, so none is
met again.  Both sides can spend each of the variables in play once.

* `unify_complete`: the main statement.
* `isSome_unify_iff`, `unify_most_general`: the result is there exactly if there is a solution, and stands for all of
  them.
-/

namespace Clausal

namespace Unify

open Relation Term

variable {V : Finset String} {θ : String → Term} {s s' : Subst}

/-! ## Variables in play -/

section Play

/-- A first-order term over the variables `V`. -/
def Over (V : Finset String) (t : Term) : Prop :=
  t.isFirstOrder = true ∧ ∀ x, t.mentions x = true → x ∈ V

theorem closed_over (V : Finset String) : Closed (Over V) where
  rel n a ts h t ht := by
    obtain ⟨hfo, hV⟩ := h
    rw [isFirstOrder, areFirstOrder_eq_true] at hfo
    exact ⟨hfo t ht, fun x hx => hV x (by rw [mentions, mentionsAny_eq_true]; exact ⟨t, ht, hx⟩)⟩
  fn n a t h := h
  signed n x t _ h := by simpa [Over] using h

/-- The variables `P` were looked up on the way to `t`. -/
def Spent (V : Finset String) (s : Subst) (P : Finset String) (t : Term) : Prop :=
  P ⊆ V ∧ ∀ p ∈ P, ∀ x, t.mentions x = true → TransGen s.Leads p x

variable {P : Finset String} {t : Term}

theorem spent_empty : Spent V s ∅ t :=
  ⟨Finset.empty_subset V, fun p hp => absurd hp (Finset.notMem_empty p)⟩

theorem Spent.part (h : Spent V s P t) {u : Term} (hu : ∀ x, u.mentions x = true → t.mentions x = true) :
    Spent V s P u :=
  ⟨h.1, fun p hp x hx => h.2 p hp x (hu x hx)⟩

theorem Spent.member {n : Bool} {a : String} {ts : List Term} (h : Spent V s P (.rel n a ts)) {u : Term} (hu : u ∈ ts) :
    Spent V s P u :=
  h.part fun x hx => by rw [mentions, mentionsAny_eq_true]; exact ⟨u, hu, hx⟩

theorem Spent.extends (h : Spent V s P t) (hext : s'.Extends s) : Spent V s' P t :=
  ⟨h.1, fun p hp x hx => TransGen.mono hext.leads_le p x (h.2 p hp x hx)⟩

/-- A look-up spends a variable that was not spent before. -/
theorem Spent.follow (hs : s.Acyclic) {n : Bool} {x : String} {b : Term} (h : Spent V s P (.var n x)) (hx : x ∈ V)
    (hb : s.get? x = some b) :
    Spent V s (insert x P) (signed n b) ∧ (insert x P).card = P.card + 1 ∧ P.card < V.card := by
  have hself : (Term.var n x).mentions x = true := by simp [mentions]
  have hnew : x ∉ P := fun hp => hs x (h.2 x hp x hself)
  have hsub : insert x P ⊆ V := Finset.insert_subset hx h.1
  have hcard := Finset.card_insert_of_notMem hnew
  refine ⟨⟨hsub, fun p hp y hy => ?_⟩, hcard, ?_⟩
  · rw [mentions_signed] at hy
    have hxy : s.Leads x y := ⟨b, hb, hy⟩
    rcases Finset.mem_insert.mp hp with rfl | hp
    · exact .single hxy
    · exact (h.2 p hp x hself).tail hxy
  · have := Finset.card_le_card hsub
    omega

end Play

/-! ## Failures that cannot happen -/

section Occurs

/-- Along a chain of bindings what the variables stand for does not grow. -/
theorem sizeOf_le_of_reaches (hθ : s.Admits θ) {y x : String} (h : ReflTransGen s.Leads y x) :
    sizeOf (θ x) ≤ sizeOf (θ y) := by
  induction h with
  | refl => exact le_rfl
  | tail _ hzx ih =>
    obtain ⟨b, hb, hx⟩ := hzx
    refine le_trans ?_ ih
    rw [hθ _ b hb]
    exact sizeOf_le_of_mentions hx

/-- An unbound variable does not occur in a term that it can be made equal to, unless that is a variable itself. -/
theorem occurs_eq_false (hs : s.Acyclic) (hθ : s.Admits θ) {n : Bool} {x : String} {t : Term}
    (ht : ∀ m y, t ≠ .var m y) (h : signed n (θ x) = t.mapVars θ) : s.occurs x t = false := by
  rw [Bool.eq_false_iff]
  intro hocc
  obtain ⟨y, hy, hyx⟩ := (Subst.occurs_iff hs).mp hocc
  have h1 := sizeOf_le_of_reaches hθ hyx
  have h2 : sizeOf (t.mapVars θ) = sizeOf (θ x) := by rw [← h, sizeOf_signed]
  have h3 := sizeOf_lt_of_mentions (f := θ) ht hy
  omega

end Occurs

/-! ## Success -/

section Success

/-- Two terms that `θ` makes equal, under a substitution that `θ` agrees with. -/
structure Solvable (V : Finset String) (θ : String → Term) (t u : Term) (s : Subst) : Prop where
  acyclic : s.Acyclic
  admits : s.Admits θ
  left : Over V t
  right : Over V u
  bindings : ∀ x b, s.get? x = some b → Over V b
  equal : t.mapVars θ = u.mapVars θ

variable {t u : Term}

theorem Solvable.symm (h : Solvable V θ t u s) : Solvable V θ u t s :=
  ⟨h.acyclic, h.admits, h.right, h.left, h.bindings, h.equal.symm⟩

theorem Solvable.follow {n : Bool} {x : String} {b : Term} (h : Solvable V θ (.var n x) u s) (hb : s.get? x = some b) :
    Solvable V θ (signed n b) u s where
  acyclic := h.acyclic
  admits := h.admits
  left := (closed_over V).signed n x b h.left (h.bindings x b hb)
  right := h.right
  bindings := h.bindings
  equal := by rw [mapVars_signed, ← h.admits x b hb, ← h.equal, mapVars]

/-- Within a budget of `n` look-ups, `chase` succeeds where there is a solution, and keeps to it. -/
def Finds (V : Finset String) (θ : String → Term) (n : Nat) (chase : Term → Term → Subst → Option Subst) : Prop :=
  ∀ ⦃t u s P Q⦄, Solvable V θ t u s → Spent V s P t → Spent V s Q u → (V.card - P.card) + (V.card - Q.card) < n →
    ∃ s', chase t u s = some s' ∧ s'.Admits θ

variable {n : Nat} {chase : Term → Term → Subst → Option Subst} {P Q : Finset String}

theorem bind?_finds {m : Bool} {x : String} (h : Solvable V θ (.var m x) u s) (hu : s.occurs x u = false) :
    ∃ s', bind? m x u s = some s' ∧ s'.Admits θ := by
  refine ⟨_, by rw [bind?, hu]; rfl, h.admits.insert ?_⟩
  rw [mapVars_signed, ← h.equal, mapVars, signed_cancel]

theorem occurrence?_finds (hchase : Finds V θ n chase) {m : Bool} {x : String} (h : Solvable V θ (.var m x) u s)
    (hP : Spent V s P (.var m x)) (hQ : Spent V s Q u) (hn : (V.card - P.card) + (V.card - Q.card) < n + 1) :
    ∃ s', occurrence? chase m x u s = some s' ∧ s'.Admits θ := by
  unfold occurrence?
  cases hx : s.get? x with
  | some b =>
    obtain ⟨hP', hcard, hlt⟩ := hP.follow h.acyclic (h.left.2 x (by simp [mentions])) hx
    exact hchase (h.follow hx) hP' hQ (by omega)
  | none =>
    cases u with
    | var k y =>
      simp only
      split
      · next hxy =>
        obtain rfl : x = y := by simpa using hxy
        -- the two signs agree, since no term is its own negation
        have hmk : m = k := by
          by_contra hne
          have heq : signed m (θ x) = signed k (θ x) := h.equal
          rw [eq_signed_comm, signed_signed] at heq
          cases m <;> cases k <;> simp_all [signed, (negate_ne _).symm]
        subst hmk
        exact ⟨s, by simp, h.admits⟩
      · next hxy =>
        cases hy : s.get? y with
        | some b =>
          obtain ⟨hQ', hcard, hlt⟩ := hQ.follow h.acyclic (h.right.2 y (by simp [mentions])) hy
          exact hchase (h.symm.follow hy).symm hP hQ' (by omega)
        | none =>
          refine bind?_finds h ?_
          rw [Bool.eq_false_iff]
          intro hocc
          obtain ⟨z, hz, hzx⟩ := (Subst.occurs_iff h.acyclic).mp hocc
          obtain rfl : z = y := by simpa [mentions] using hz
          exact hxy (by simp [Subst.eq_of_reaches_unbound hy hzx])
    | lit k a => exact bind?_finds h (occurs_eq_false h.acyclic h.admits (by simp) h.equal)
    | rel k a us => exact bind?_finds h (occurs_eq_false h.acyclic h.admits (by simp) h.equal)
    | fn k a u => exact bind?_finds h (occurs_eq_false h.acyclic h.admits (by simp) h.equal)
    | quant k q y u => cases h.right.1
    | conn k c l r => cases h.right.1
    | freeClause k us => cases h.right.1

/-- After a successful step the rest of the equations is still solvable. -/
theorem Solvable.next {t' u' : Term} (h : Solvable V θ t u s) (hsolved : Solved [(t, u)] s s') (hθ : s'.Admits θ)
    (ht : Over V t') (hu : Over V u') (heq : t'.mapVars θ = u'.mapVars θ) : Solvable V θ t' u' s' where
  acyclic := hsolved.acyclic h.acyclic
  admits := hθ
  left := ht
  right := hu
  bindings x b hb := by
    have hes : ∀ e ∈ [(t, u)], Over V e.1 ∧ Over V e.2 := by
      intro e he
      rw [List.mem_singleton.mp he]
      exact ⟨h.left, h.right⟩
    rcases hsolved.bindings (closed_over V) hes h.bindings x b hb with hold | hnew
    · exact h.bindings x b hold
    · exact hnew.2
  equal := heq

/-- The premises of `lists?_finds`, which go from one argument to the next. -/
structure SolvableAll (V : Finset String) (θ : String → Term) (P Q : Finset String) (ts us : List Term) (s : Subst) :
    Prop where
  acyclic : s.Acyclic
  admits : s.Admits θ
  left : ∀ t ∈ ts, Over V t ∧ Spent V s P t
  right : ∀ u ∈ us, Over V u ∧ Spent V s Q u
  bindings : ∀ x b, s.get? x = some b → Over V b
  equal : ts.map (mapVars θ) = us.map (mapVars θ)

theorem lists?_finds (hchase : Solving chase) {ts us : List Term}
    (ih : ∀ t ∈ ts, ∀ ⦃u s⦄, Solvable V θ t u s → Spent V s P t → Spent V s Q u →
      ∃ s', terms? chase t u s = some s' ∧ s'.Admits θ)
    (h : SolvableAll V θ P Q ts us s) : ∃ s', lists? chase ts us s = some s' ∧ s'.Admits θ := by
  induction ts generalizing us s with
  | nil =>
    obtain rfl : us = [] := by simpa using h.equal.symm
    exact ⟨s, rfl, h.admits⟩
  | cons t ts ihts =>
    cases us with
    | nil => cases h.equal
    | cons u us =>
      obtain ⟨ht, hts⟩ := List.forall_mem_cons.mp h.left
      obtain ⟨hu, hus⟩ := List.forall_mem_cons.mp h.right
      obtain ⟨heq, heqs⟩ := List.cons_eq_cons.mp h.equal
      have hfirst : Solvable V θ t u s := ⟨h.acyclic, h.admits, ht.1, hu.1, h.bindings, heq⟩
      obtain ⟨s₁, h1, hθ₁⟩ := ih t List.mem_cons_self hfirst ht.2 hu.2
      have hsolved : Solved [(t, u)] s s₁ := solving_terms? hchase h1 (.done s₁)
      have hnext := hfirst.next hsolved hθ₁ ht.1 hu.1 heq
      have hext := hsolved.extends
      obtain ⟨s₂, h2, hθ₂⟩ := ihts (fun t' ht' => ih t' (List.mem_cons_of_mem _ ht'))
        { acyclic := hnext.acyclic
          admits := hθ₁
          left := fun t' ht' => ⟨(hts t' ht').1, (hts t' ht').2.extends hext⟩
          right := fun u' hu' => ⟨(hus u' hu').1, (hus u' hu').2.extends hext⟩
          bindings := hnext.bindings
          equal := heqs }
      exact ⟨s₂, by rw [lists?, h1, Option.bind_some, h2], hθ₂⟩

theorem terms?_finds (hsolving : Solving chase) (hchase : Finds V θ n chase) : Finds V θ (n + 1) (terms? chase) := by
  intro t
  induction t using Term.induct with
  | var m x =>
    intro u s P Q h hP hQ hn
    exact occurrence?_finds hchase h hP hQ hn
  | lit m a =>
    intro u s P Q h hP hQ hn
    cases u with
    | var k y => exact occurrence?_finds hchase h.symm hQ hP (by omega)
    | lit k b =>
      obtain ⟨rfl, rfl⟩ : m = k ∧ a = b := by simpa [mapVars] using h.equal
      exact ⟨s, by simp [terms?], h.admits⟩
    | _ => cases h.equal
  | rel m a ts ih =>
    intro u s P Q h hP hQ hn
    cases u with
    | var k y => exact occurrence?_finds hchase h.symm hQ hP (by omega)
    | rel k b us =>
      obtain ⟨rfl, rfl, heq⟩ : m = k ∧ a = b ∧ ts.map (mapVars θ) = us.map (mapVars θ) := by
        simpa [mapVars] using h.equal
      obtain ⟨s', h', hθ'⟩ := lists?_finds hsolving
        (fun t ht u s hsol hP hQ => ih t ht hsol hP hQ hn)
        { acyclic := h.acyclic
          admits := h.admits
          left := fun t ht => ⟨(closed_over V).rel m a ts h.left t ht, hP.member ht⟩
          right := fun u hu => ⟨(closed_over V).rel m a us h.right u hu, hQ.member hu⟩
          bindings := h.bindings
          equal := heq }
      exact ⟨s', by simp [terms?, h'], hθ'⟩
    | _ => cases h.equal
  | fn m a t ih =>
    intro u s P Q h hP hQ hn
    cases u with
    | var k y => exact occurrence?_finds hchase h.symm hQ hP (by omega)
    | fn k b u =>
      obtain ⟨rfl, rfl, heq⟩ : m = k ∧ a = b ∧ t.mapVars θ = u.mapVars θ := by simpa [mapVars] using h.equal
      have hsol : Solvable V θ t u s :=
        ⟨h.acyclic, h.admits, (closed_over V).fn m a t h.left, (closed_over V).fn m a u h.right, h.bindings, heq⟩
      obtain ⟨s', h', hθ'⟩ := ih hsol hP hQ hn
      exact ⟨s', by simp [terms?, h'], hθ'⟩
    | _ => cases h.equal
  | quant m q x t ih | conn m c l r ihl ihr | freeClause m ts ih =>
    intro u s P Q h
    cases h.left.1

theorem unifyUpTo_finds (n : Nat) : Finds V θ n (unifyUpTo n) := by
  induction n with
  | zero =>
    intro t u s P Q _ _ _ hn
    omega
  | succ n ih => exact terms?_finds (solving_unifyUpTo n) ih

end Success

/-! ## The bound on look-ups -/

section Bound

/-- The variables in play when `t` and `u` are unified under `s`. -/
def inPlay (t u : Term) (s : Subst) : List String :=
  t.occurrences ++ u.occurrences ++ s.entries.flatMap (·.2.occurrences)

theorem length_flatMap_le_bindingLoad (es : List (String × Term)) :
    (es.flatMap (·.2.occurrences)).length ≤ bindingLoad es := by
  induction es with
  | nil => exact le_rfl
  | cons e es ih =>
    rw [List.flatMap_cons, List.length_append, bindingLoad, length_occurrences]
    omega

theorem card_inPlay_le (t u : Term) (s : Subst) :
    (inPlay t u s).toFinset.card ≤ s.load + t.varCount + u.varCount := by
  have h1 := List.toFinset_card_le (inPlay t u s)
  have h2 := length_flatMap_le_bindingLoad s.entries
  have h3 := s.load_eq
  simp only [inPlay, List.length_append, length_occurrences] at h1 ⊢
  omega

end Bound

end Unify

open Unify in
/-- **Unification is complete and most general.**  A replacement that agrees with the bindings and makes two
first-order terms equal is found, up to what it does not have to decide. -/
theorem unify_complete {θ : String → Term} {t u : Term} {s : Subst} (hs : s.Acyclic) (hθ : s.Admits θ)
    (ht : t.isFirstOrder = true) (hu : u.isFirstOrder = true)
    (hb : ∀ x b, s.get? x = some b → b.isFirstOrder = true) (heq : t.mapVars θ = u.mapVars θ) :
    ∃ s', unify t u s = some s' ∧ s'.Admits θ := by
  have hsol : Solvable (inPlay t u s).toFinset θ t u s :=
    { acyclic := hs
      admits := hθ
      left := ⟨ht, fun x hx => by simp [inPlay, hx]⟩
      right := ⟨hu, fun x hx => by simp [inPlay, hx]⟩
      bindings := fun x b hxb => ⟨hb x b hxb, fun y hy => by
        simp only [inPlay, List.mem_toFinset, List.mem_append, List.mem_flatMap]
        exact .inr ⟨(x, b), Subst.mem_entries_of_get? hxb, Term.mem_occurrences.mpr hy⟩⟩
      equal := heq }
  have hcard := card_inPlay_le t u s
  refine unifyUpTo_finds _ hsol spent_empty spent_empty ?_
  rw [Finset.card_empty]
  omega

/-! ## Solutions and unifiers -/

section MostGeneral

variable {x y : Term} {s : Subst}

/-- Unification succeeds exactly if there is something to find. -/
theorem isSome_unify_iff (hs : s.Acyclic) (hx : x.isFirstOrder = true) (hy : y.isFirstOrder = true)
    (hb : ∀ z b, s.get? z = some b → b.isFirstOrder = true) :
    (unify x y s).isSome = true ↔ ∃ θ, s.Admits θ ∧ x.mapVars θ = y.mapVars θ := by
  constructor
  · intro h
    obtain ⟨s', hu⟩ := Option.isSome_iff_exists.mp h
    have hsolved := Unify.solved_of_unify hu
    -- what the variables stand for under the result is a solution
    have hvalue : s'.Admits s'.value := Subst.admits_value (hsolved.acyclic hs)
    exact ⟨s'.value, hvalue.of_extends hsolved.extends, hsolved.mapVars_eq hs hvalue⟩
  · rintro ⟨θ, hθ, heq⟩
    obtain ⟨s', hu, -⟩ := unify_complete hs hθ hx hy hb heq
    rw [hu]
    rfl

/-- **The result of a unification is a most general one, and the order of the terms does not matter.**  Under an acyclic
substitution, for first-order terms with any signs: a replacement that agrees with the bindings and makes the two terms
equal is found, and agrees with the bindings of the result; nothing else agrees with them; and there is a result for two
terms exactly if there is one for them the other way round. -/
theorem unify_most_general (hs : s.Acyclic) (hx : x.isFirstOrder = true) (hy : y.isFirstOrder = true)
    (hb : ∀ z b, s.get? z = some b → b.isFirstOrder = true) :
    (∀ θ, s.Admits θ → x.mapVars θ = y.mapVars θ → ∃ s', unify x y s = some s' ∧ s'.Admits θ) ∧
    (∀ s', unify x y s = some s' → ∀ θ, s'.Admits θ → s.Admits θ ∧ x.mapVars θ = y.mapVars θ) ∧
    (unify x y s).isSome = (unify y x s).isSome := by
  refine ⟨fun θ hθ heq => unify_complete hs hθ hx hy hb heq, fun s' hu θ hθ => ?_, ?_⟩
  · have hsolved := Unify.solved_of_unify hu
    exact ⟨hθ.of_extends hsolved.extends, hsolved.mapVars_eq hs hθ⟩
  · rw [Bool.eq_iff_iff, isSome_unify_iff hs hx hy hb, isSome_unify_iff hs hy hx hb]
    exact exists_congr fun θ => and_congr_right fun _ => eq_comm

/-- `r(X, ¬X, W)`. -/
def mirroredTerm : Term := .rel false "r" [.var false "X", .var true "X", .var false "W"]

/-- `r(¬Y, f(Z), ¬a)`. -/
def mirroredValue : Term := .rel false "r" [.var true "Y", .fn false "f" (.var false "Z"), .lit true "a"]

/-- `¬f(a)` for `X`, `f(a)` for `Y`, `¬a` for `W`, and `a` for every other variable. -/
def mirroredSolution (x : String) : Term :=
  if x = "X" then .fn true "f" (.const "a")
  else if x = "Y" then .fn false "f" (.const "a")
  else if x = "W" then .lit true "a"
  else .const "a"

/-- With `W` bound to `¬Z`, the two terms above have a solution.  It agrees with the result, which binds `X` to `¬Y`,
then `Y` to `f(Z)`, and last, since `W` stands for `¬Z`, the variable `Z` to `a`. -/
theorem unify_most_general_mirrored :
    ∃ s s', (s = Subst.empty.insert "W" (.var true "Z") ∧ s.Acyclic ∧ s.Admits mirroredSolution ∧
        mirroredTerm.mapVars mirroredSolution = mirroredValue.mapVars mirroredSolution) ∧
      unify mirroredTerm mirroredValue s = some s' ∧
      s'.toList = [("W", .var true "Z"), ("X", .var true "Y"), ("Y", .fn false "f" (.var false "Z")),
        ("Z", .const "a")] ∧
      s'.Admits mirroredSolution ∧ (unify mirroredValue mirroredTerm s).isSome = true := by
  have hs : (Subst.empty.insert "W" (.var true "Z")).Acyclic :=
    Subst.acyclic_empty.insert (Subst.get?_empty "W") rfl
  have hθ : (Subst.empty.insert "W" (.var true "Z")).Admits mirroredSolution :=
    (Subst.admits_empty mirroredSolution).insert rfl
  have hb : ∀ z b, (Subst.empty.insert "W" (.var true "Z")).get? z = some b → b.isFirstOrder = true := by
    intro z b hzb
    rw [Subst.get?_insert, Subst.get?_empty] at hzb
    split at hzb
    · cases hzb
      rfl
    · cases hzb
  have hmgu := unify_most_general (x := mirroredTerm) (y := mirroredValue) hs rfl rfl hb
  obtain ⟨s', hu, hθ'⟩ := hmgu.1 mirroredSolution hθ rfl
  have hlist : ((unify mirroredTerm mirroredValue (Subst.empty.insert "W" (.var true "Z"))).map Subst.toList) =
      some [("W", .var true "Z"), ("X", .var true "Y"), ("Y", .fn false "f" (.var false "Z")), ("Z", .const "a")] := rfl
  rw [hu] at hlist
  refine ⟨_, s', ⟨rfl, hs, hθ, rfl⟩, hu, Option.some.inj hlist, hθ', ?_⟩
  rw [← hmgu.2.2, hu]
  rfl

end MostGeneral

end Clausal
