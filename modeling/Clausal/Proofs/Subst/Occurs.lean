import Clausal.Proofs.Subst.Resolved

/-!
# Clausal.Proofs.Subst.Occurs — the occurs check foresees what `apply` puts in

The occurs check and `apply` follow the bindings of an acyclic substitution in two separate recursions.  Of a variable
without binding they tell the same: it is met by the one just if it is left by the other.

* `Subst.Looks s x t r`: looking for `x` in `t` comes to the answer `r`.  Its rules are the steps of the occurs check,
  with no bound on their number, so a derivation is a search that ends.
* `looks_iff`: on an acyclic substitution the search ends, with the answer that `occurs` gives.
* `occurs_iff_mentions_apply`: that answer says whether the variable is in the result of `apply`.
* `apply_apply_of_extends`: bindings that were followed once need not be followed again under more bindings.
* `occurs_check_exact`: the main statement.
-/

namespace Clausal.Subst

open Relation

variable {s s' : Subst} {t u : Term} {x y : String} {r : Bool}

/-! ## Searches that end -/

section Looks

/-- Looking for `x` in a term comes to an answer.  Parts are looked at from the left, up to the first that has it. -/
inductive Looks (s : Subst) (x : String) : Term → Bool → Prop where
  | here {n : Bool} : Looks s x (.var n x) true
  | unbound {n : Bool} {y : String} : x ≠ y → s.get? y = none → Looks s x (.var n y) false
  | bound {n : Bool} {y : String} {b : Term} {r : Bool} :
    x ≠ y → s.get? y = some b → Looks s x b r → Looks s x (.var n y) r
  | part {t u : Term} {before after : List Term} :
    (∀ n y, t ≠ .var n y) → t.children = before ++ u :: after → (∀ w ∈ before, Looks s x w false) →
    Looks s x u true → Looks s x t true
  | nowhere {t : Term} : (∀ n y, t ≠ .var n y) → (∀ u ∈ t.children, Looks s x u false) → Looks s x t false

theorem occurs_var (hs : s.Acyclic) {n : Bool} :
    s.occurs x (.var n y) = true ↔ x = y ∨ ∃ b, s.get? y = some b ∧ s.occurs x b = true := by
  have hvar : s.occurs x (.var n y) = true ↔ ReflTransGen s.Leads y x := by
    rw [occurs_iff hs]
    simp [Term.mentions]
  rw [hvar, ReflTransGen.cases_head_iff]
  refine or_congr eq_comm ⟨?_, ?_⟩
  · rintro ⟨z, ⟨b, hb, hz⟩, hzx⟩
    exact ⟨b, hb, (occurs_iff hs).mpr ⟨z, hz, hzx⟩⟩
  · rintro ⟨b, hb, hocc⟩
    obtain ⟨z, hz, hzx⟩ := (occurs_iff hs).mp hocc
    exact ⟨z, ⟨b, hb, hz⟩, hzx⟩

theorem mentions_iff_children (ht : ∀ n y, t ≠ .var n y) :
    t.mentions x = true ↔ ∃ u ∈ t.children, u.mentions x = true := by
  cases t with
  | var n y => exact absurd rfl (ht n y)
  | lit n a => simp [Term.mentions, Term.children]
  | rel n a ts | freeClause n ts => simp [Term.mentions, Term.children]
  | fn n a t | quant n q y t => simp [Term.mentions, Term.children]
  | conn n c l r => simp [Term.mentions, Term.children]

theorem occurs_iff_children (hs : s.Acyclic) (ht : ∀ n y, t ≠ .var n y) :
    s.occurs x t = true ↔ ∃ u ∈ t.children, s.occurs x u = true := by
  simp only [occurs_iff hs, mentions_iff_children ht]
  constructor
  · rintro ⟨y, ⟨u, hu, hy⟩, hyx⟩
    exact ⟨u, hu, y, hy, hyx⟩
  · rintro ⟨u, hu, y, hy, hyx⟩
    exact ⟨y, ⟨u, hu, hy⟩, hyx⟩

/-- A search that ends comes to the answer of the occurs check. -/
theorem Looks.eq_occurs (hs : s.Acyclic) (h : s.Looks x t r) : r = s.occurs x t := by
  induction h with
  | here => exact ((occurs_var hs).mpr (.inl rfl)).symm
  | unbound hxy hy =>
    symm
    rw [Bool.eq_false_iff, ne_eq, occurs_var hs]
    simp [hxy, hy]
  | bound hxy hb _ ih =>
    rw [ih, Bool.eq_iff_iff, occurs_var hs]
    simp [hxy, hb]
  | part ht hparts _ _ _ ihu =>
    symm
    rw [occurs_iff_children hs ht, hparts]
    exact ⟨_, by simp, ihu.symm⟩
  | nowhere ht _ ih =>
    symm
    rw [Bool.eq_false_iff, ne_eq, occurs_iff_children hs ht]
    rintro ⟨u, hu, hocc⟩
    rw [← ih u hu] at hocc
    cases hocc

/-- On an acyclic substitution every search ends. -/
theorem looks_occurs (hs : s.Acyclic) (x : String) (t : Term) : s.Looks x t (s.occurs x t) := by
  -- along the calls: from a term to its parts, and from a variable to its binding
  induction acc_calls hs t with
  | intro t _ ih =>
    by_cases hvar : ∃ n y, t = .var n y
    · obtain ⟨n, y, rfl⟩ := hvar
      by_cases hxy : x = y
      · subst hxy
        rw [(occurs_var hs).mpr (.inl rfl)]
        exact .here
      · cases hb : s.get? y with
        | none =>
          rw [← (Looks.unbound hxy hb).eq_occurs hs]
          exact .unbound hxy hb
        | some b =>
          have hlooks : s.Looks x (.var n y) (s.occurs x b) := .bound hxy hb (ih b (.binding hb))
          rwa [hlooks.eq_occurs hs] at hlooks
    · have ht : ∀ n y, t ≠ .var n y := fun n y heq => hvar ⟨n, y, heq⟩
      have hpart : ∀ u ∈ t.children, s.Looks x u (s.occurs x u) := fun u hu => ih u (.part hu)
      cases hfind : t.children.find? (s.occurs x) with
      | some u =>
        obtain ⟨hu, before, after, hparts, hbefore⟩ := List.find?_eq_some_iff_append.mp hfind
        have hlooks : s.Looks x t true := by
          refine .part ht hparts (fun w hw => ?_) (hu ▸ hpart u (by simp [hparts]))
          have hnot : s.occurs x w = false := by simpa using hbefore w hw
          exact hnot ▸ hpart w (by simp [hparts, hw])
        rwa [hlooks.eq_occurs hs] at hlooks
      | none =>
        have hnone : ∀ u ∈ t.children, s.occurs x u = false := by simpa using List.find?_eq_none.mp hfind
        have hlooks : s.Looks x t false := .nowhere ht fun u hu => hnone u hu ▸ hpart u hu
        rwa [hlooks.eq_occurs hs] at hlooks

theorem looks_iff (hs : s.Acyclic) : s.Looks x t r ↔ r = s.occurs x t := by
  constructor
  · exact Looks.eq_occurs hs
  · rintro rfl
    exact looks_occurs hs x t

end Looks

/-! ## What is left after `apply` -/

section Foresight

/-- A variable without binding is in what `y` stands for just if `y` leads to it. -/
theorem mentions_value_iff (hs : s.Acyclic) (hx : s.get? x = none) :
    (s.value y).mentions x = true ↔ ReflTransGen s.Leads y x := by
  constructor
  · intro h
    induction hn : s.rank y using Nat.strong_induction_on generalizing y with
    | _ n ih =>
      cases hb : s.get? y with
      | none =>
        rw [value_of_unbound hb] at h
        obtain rfl : x = y := by simpa [Term.mentions] using h
        exact .refl
      | some b =>
        rw [value_of_get? hs hb, apply_eq_mapVars, Term.mentions_mapVars] at h
        obtain ⟨z, hz, hxz⟩ := h
        have hyz : s.Leads y z := ⟨b, hb, hz⟩
        exact .head hyz (ih (s.rank z) (hn ▸ rank_lt_of_leads hs hyz) hxz rfl)
  · intro h
    induction h using ReflTransGen.head_induction_on with
    | refl =>
      rw [value_of_unbound hx]
      simp [Term.mentions]
    | head hyz _ ih =>
      obtain ⟨b, hb, hz⟩ := hyz
      rw [value_of_get? hs hb, apply_eq_mapVars, Term.mentions_mapVars]
      exact ⟨_, hz, ih⟩

/-- The occurs check tells whether a variable without binding is left by `apply`. -/
theorem occurs_iff_mentions_apply (hs : s.Acyclic) (hx : s.get? x = none) :
    s.occurs x t = true ↔ (s.apply t).mentions x = true := by
  rw [occurs_iff hs, apply_eq_mapVars, Term.mentions_mapVars]
  exact exists_congr fun y => and_congr_right fun _ => (mentions_value_iff hs hx).symm

/-- Bindings that were followed need not be followed again when there are more of them. -/
theorem apply_apply_of_extends (hs : s.Acyclic) (hs' : s'.Acyclic) (hext : s'.Extends s) (t : Term) :
    s'.apply (s.apply t) = s'.apply t :=
  ((admits_value hs').of_extends hext).mapVars_apply hs t

/-- **The occurs check sees exactly what `apply` would produce.**  Under an acyclic substitution the search for a
variable comes to an end, with one answer.  If the variable has no binding, the answer says whether it is in the result
of `apply`, and where it is not, binding it to the term, with either sign, closes no cycle.  Under an acyclic extension
it makes no difference whether the bindings of the substitution were followed before. -/
theorem occurs_check_exact (s : Subst) (hs : s.Acyclic) :
    (∀ x t r, s.Looks x t r ↔ r = s.occurs x t) ∧
    (∀ x, s.get? x = none → ∀ t,
      (s.occurs x t = true ↔ (s.apply t).mentions x = true) ∧
      (s.occurs x t = false → ∀ n, (s.insert x (.signed n t)).Acyclic)) ∧
    ∀ s' : Subst, s'.Acyclic → s'.Extends s → ∀ t, s'.apply (s.apply t) = s'.apply t := by
  refine ⟨fun x t r => looks_iff hs, fun x hx t => ⟨occurs_iff_mentions_apply hs hx, fun hocc n => ?_⟩,
    fun s' hs' hext t => apply_apply_of_extends hs hs' hext t⟩
  exact hs.insert hx (by rwa [occurs_signed])

/-- `{X ↦ f(¬Y), Y ↦ Z}`. -/
def chained : Subst :=
  (empty.insert "X" (.fn false "f" (.var true "Y"))).insert "Y" (.var false "Z")

theorem acyclic_chained : chained.Acyclic :=
  (acyclic_empty.insert (get?_empty "X") rfl).insert rfl rfl

/-- Under `{X ↦ f(¬Y), Y ↦ Z}` the term `p(X)` stands for `p(f(¬Z))`: `Z` is seen in it, and `W` is not, so `W` can be
bound to it; and `Z` can be bound afterwards. -/
theorem occurs_check_chained :
    chained.Acyclic ∧ chained.get? "Z" = none ∧ chained.get? "W" = none ∧
      chained.Looks "Z" (.rel false "p" [.var false "X"]) true ∧
      (chained.apply (.rel false "p" [.var false "X"])).mentions "Z" = true ∧
      chained.Looks "W" (.rel false "p" [.var false "X"]) false ∧
      (chained.insert "W" (.rel true "p" [.var false "X"])).Acyclic ∧
      (chained.insert "Z" (.const "a")).Acyclic ∧ (chained.insert "Z" (.const "a")).Extends chained ∧
      (chained.insert "Z" (.const "a")).apply (.rel false "p" [.fn false "f" (.var true "Z")]) =
        (chained.insert "Z" (.const "a")).apply (.rel false "p" [.var false "X"]) := by
  obtain ⟨hlooks, hunbound, hextend⟩ := occurs_check_exact chained acyclic_chained
  have hZ : chained.get? "Z" = none := rfl
  have hW : chained.get? "W" = none := rfl
  have hbind := (hunbound "Z" hZ (.const "a")).2 rfl false
  have hext := extends_insert hZ (.const "a")
  refine ⟨acyclic_chained, hZ, hW, (hlooks _ _ _).mpr rfl, (hunbound "Z" hZ _).1.mp rfl, (hlooks _ _ _).mpr rfl,
    (hunbound "W" hW (.rel false "p" [.var false "X"])).2 rfl true, hbind, hext, ?_⟩
  exact hextend _ hbind hext (.rel false "p" [.var false "X"])

end Foresight

end Clausal.Subst
