import Clausal.Proofs.Subst.Acyclic
import Clausal.Unify

/-!
# Clausal.Proofs.Unify.Soundness — what a successful unification did

`Unify.Solved es s s'` says that the equations `es`, worked off from the left, take the substitution `s` to `s'`.  Its
rules are the successful branches of the algorithm, so that a fact about all unifications is one induction over them.

* `solved_of_unify`: a unification that succeeds solves its equation.
* `Solved.extends`, `Solved.acyclic`, `Solved.apply_eq`: solving keeps the bindings, closes no cycle, and makes the
  two sides of every equation equal, signs included.
* `Solved.bindings`: a property that passes to parts and to signed bindings passes to every new binding.
-/

namespace Clausal.Unify

open Term

/-- The equations are solved one after the other, from the substitution on the left to the one on the right. -/
inductive Solved : List (Term × Term) → Subst → Subst → Prop where
  | done (s : Subst) : Solved [] s s
  | lit {n : Bool} {a : String} {es : List (Term × Term)} {s s' : Subst} :
    Solved es s s' → Solved ((.lit n a, .lit n a) :: es) s s'
  | rel {n : Bool} {a : String} {ts us : List Term} {es : List (Term × Term)} {s s' : Subst} :
    ts.length = us.length → Solved (ts.zip us ++ es) s s' → Solved ((.rel n a ts, .rel n a us) :: es) s s'
  | fn {n : Bool} {a : String} {t u : Term} {es : List (Term × Term)} {s s' : Subst} :
    Solved ((t, u) :: es) s s' → Solved ((.fn n a t, .fn n a u) :: es) s s'
  /-- An unbound variable equals itself. -/
  | same {n : Bool} {x : String} {es : List (Term × Term)} {s s' : Subst} :
    s.get? x = none → Solved es s s' → Solved ((.var n x, .var n x) :: es) s s'
  /-- An unbound variable is bound. -/
  | bind {n : Bool} {x : String} {t : Term} {es : List (Term × Term)} {s s' : Subst} :
    s.get? x = none → s.occurs x t = false → Solved es (s.insert x (signed n t)) s' → Solved ((.var n x, t) :: es) s s'
  /-- A bound variable is replaced by its binding. -/
  | follow {n : Bool} {x : String} {b t : Term} {es : List (Term × Term)} {s s' : Subst} :
    s.get? x = some b → Solved ((signed n b, t) :: es) s s' → Solved ((.var n x, t) :: es) s s'
  | swap {t u : Term} {es : List (Term × Term)} {s s' : Subst} :
    Solved ((u, t) :: es) s s' → Solved ((t, u) :: es) s s'

variable {es : List (Term × Term)} {s s' : Subst}

/-! ## The algorithm solves its equation -/

section Algorithm

/-- Where `chase` succeeds, it solves its equation. -/
def Solving (chase : Term → Term → Subst → Option Subst) : Prop :=
  ∀ {t u s s₁ es s₂}, chase t u s = some s₁ → Solved es s₁ s₂ → Solved ((t, u) :: es) s s₂

variable {chase : Term → Term → Subst → Option Subst}

theorem solved_of_bind? {n : Bool} {x : String} {t : Term} {s₁ s₂ : Subst} (hx : s.get? x = none)
    (h : bind? n x t s = some s₁) (hes : Solved es s₁ s₂) : Solved ((.var n x, t) :: es) s s₂ := by
  unfold bind? at h
  split at h
  · cases h
  · next hocc =>
    cases h
    exact .bind hx (by simpa using hocc) hes

theorem solved_of_occurrence? (hchase : Solving chase) {n : Bool} {x : String} {t : Term} {s₁ s₂ : Subst}
    (h : occurrence? chase n x t s = some s₁) (hes : Solved es s₁ s₂) : Solved ((.var n x, t) :: es) s s₂ := by
  unfold occurrence? at h
  cases hx : s.get? x with
  | some b =>
    rw [hx] at h
    exact .follow hx (hchase h hes)
  | none =>
    rw [hx] at h
    cases t with
    | var m y =>
      simp only at h
      split at h
      · next hxy =>
        obtain rfl : x = y := by simpa using hxy
        split at h
        · next hnm =>
          obtain rfl : n = m := by simpa using hnm
          cases h
          exact .same hx hes
        · cases h
      · cases hy : s.get? y with
        | some b =>
          rw [hy] at h
          exact .swap (.follow hy (.swap (hchase h hes)))
        | none =>
          rw [hy] at h
          exact solved_of_bind? hx h hes
    | _ => exact solved_of_bind? hx h hes

theorem solved_of_lists? {ts us : List Term}
    (ih : ∀ t ∈ ts, ∀ {u s s₁ es s₂}, terms? chase t u s = some s₁ → Solved es s₁ s₂ → Solved ((t, u) :: es) s s₂)
    {s₁ s₂ : Subst} (h : lists? chase ts us s = some s₁) (hes : Solved es s₁ s₂) :
    ts.length = us.length ∧ Solved (ts.zip us ++ es) s s₂ := by
  induction ts generalizing us s with
  | nil =>
    cases us with
    | nil =>
      cases h
      exact ⟨rfl, hes⟩
    | cons u us => cases h
  | cons t ts ihts =>
    cases us with
    | nil => cases h
    | cons u us =>
      rw [lists?, Option.bind_eq_some_iff] at h
      obtain ⟨s₀, h0, h1⟩ := h
      obtain ⟨hlen, hrest⟩ := ihts (fun t' ht' => ih t' (List.mem_cons_of_mem _ ht')) h1
      exact ⟨by simp [hlen], ih t List.mem_cons_self h0 hrest⟩

theorem solving_terms? (hchase : Solving chase) : Solving (terms? chase) := by
  intro t
  induction t using Term.induct with
  | var n x =>
    intro u s s₁ es s₂ h hes
    exact solved_of_occurrence? hchase h hes
  | lit n a =>
    intro u s s₁ es s₂ h hes
    cases u with
    | var m y => exact .swap (solved_of_occurrence? hchase h hes)
    | lit m b =>
      simp only [terms?] at h
      split at h
      · next hnm =>
        obtain ⟨rfl, rfl⟩ : n = m ∧ a = b := by simpa using hnm
        cases h
        exact .lit hes
      · cases h
    | _ => cases h
  | rel n a ts ih =>
    intro u s s₁ es s₂ h hes
    cases u with
    | var m y => exact .swap (solved_of_occurrence? hchase h hes)
    | rel m b us =>
      simp only [terms?] at h
      split at h
      · next hnm =>
        obtain ⟨rfl, rfl⟩ : n = m ∧ a = b := by simpa using hnm
        obtain ⟨hlen, hsolved⟩ := solved_of_lists? ih h hes
        exact .rel hlen hsolved
      · cases h
    | _ => cases h
  | fn n a t ih =>
    intro u s s₁ es s₂ h hes
    cases u with
    | var m y => exact .swap (solved_of_occurrence? hchase h hes)
    | fn m b u =>
      simp only [terms?] at h
      split at h
      · next hnm =>
        obtain ⟨rfl, rfl⟩ : n = m ∧ a = b := by simpa using hnm
        exact .fn (ih h hes)
      · cases h
    | _ => cases h
  | quant n q x t ih | conn n c l r ihl ihr | freeClause n ts ih =>
    intro u s s₁ es s₂ h hes
    cases u with
    | var m y => exact .swap (solved_of_occurrence? hchase h hes)
    | _ => cases h

theorem solving_unifyUpTo (n : Nat) : Solving (unifyUpTo n) := by
  induction n with
  | zero =>
    intro t u s s₁ es s₂ h
    cases h
  | succ n ih => exact solving_terms? ih

/-- A unification that succeeds solves its equation. -/
theorem solved_of_unify {t u : Term} (h : unify t u s = some s') : Solved [(t, u)] s s' :=
  solving_unifyUpTo _ h (.done s')

end Algorithm

/-! ## What solving does -/

section Solved

/-- Bindings are only added. -/
theorem Solved.extends (h : Solved es s s') : s'.Extends s := by
  induction h with
  | done => exact .refl _
  | bind hx _ _ ih => exact ih.trans (Subst.extends_insert hx _)
  | lit _ ih | rel _ _ ih | fn _ ih | same _ _ ih | follow _ _ ih | swap _ ih => exact ih

theorem Solved.acyclic (h : Solved es s s') (hs : s.Acyclic) : s'.Acyclic := by
  induction h with
  | done => exact hs
  | bind hx hocc _ ih => exact ih (hs.insert hx (by rwa [Subst.occurs_signed]))
  | lit _ ih | rel _ _ ih | fn _ ih | same _ _ ih | follow _ _ ih | swap _ ih => exact ih hs

theorem map_eq_map_of_zip {f : Term → Term} {ts us : List Term} (hlen : ts.length = us.length)
    (h : ∀ e ∈ ts.zip us, f e.1 = f e.2) : ts.map f = us.map f := by
  induction ts generalizing us with
  | nil =>
    cases us with
    | nil => rfl
    | cons u us => cases hlen
  | cons t ts ih =>
    cases us with
    | nil => cases hlen
    | cons u us =>
      obtain ⟨hhead, hrest⟩ := List.forall_mem_cons.mp h
      rw [List.map_cons, List.map_cons, hhead, ih (by simpa using hlen) hrest]

/-- The two sides of every equation become equal. -/
theorem Solved.apply_eq (h : Solved es s s') (hs : s.Acyclic) : ∀ e ∈ es, s'.apply e.1 = s'.apply e.2 := by
  have hs' := h.acyclic hs
  induction h with
  | done s =>
    intro e he
    cases he
  | lit _ ih => exact List.forall_mem_cons.mpr ⟨rfl, ih hs hs'⟩
  | @rel n a ts us _ _ s' hlen _ ih =>
    have hall := ih hs hs'
    refine List.forall_mem_cons.mpr ⟨?_, fun e he => hall e (List.mem_append_right _ he)⟩
    have hmap := map_eq_map_of_zip hlen fun e he => hall e (List.mem_append_left _ he)
    rw [Subst.apply_rel, Subst.apply_rel, hmap]
  | fn _ ih =>
    obtain ⟨hhead, hrest⟩ := List.forall_mem_cons.mp (ih hs hs')
    exact List.forall_mem_cons.mpr ⟨by rw [Subst.apply_fn, Subst.apply_fn, hhead], hrest⟩
  | same _ _ ih => exact List.forall_mem_cons.mpr ⟨rfl, ih hs hs'⟩
  | @bind n x t _ s s' hx hocc hrest ih =>
    have hget : s'.get? x = some (signed n t) :=
      hrest.extends x _ (by rw [Subst.get?_insert, if_pos rfl])
    refine List.forall_mem_cons.mpr ⟨?_, ih (hs.insert hx (by rwa [Subst.occurs_signed])) hs'⟩
    rw [Subst.apply_var_of_get? hs' hget, signed_cancel]
  | @follow n x b t _ s s' hx hrest ih =>
    obtain ⟨hhead, hrest'⟩ := List.forall_mem_cons.mp (ih hs hs')
    refine List.forall_mem_cons.mpr ⟨?_, hrest'⟩
    rw [Subst.apply_var_of_get? hs' (hrest.extends x b hx)]
    exact hhead
  | swap _ ih =>
    obtain ⟨hhead, hrest⟩ := List.forall_mem_cons.mp (ih hs hs')
    exact List.forall_mem_cons.mpr ⟨hhead.symm, hrest⟩

/-- A replacement that agrees with the result makes the two sides of an equation equal. -/
theorem Solved.mapVars_eq {t u : Term} {θ : String → Term} (h : Solved [(t, u)] s s') (hs : s.Acyclic)
    (hθ : s'.Admits θ) : t.mapVars θ = u.mapVars θ := by
  have hs' := h.acyclic hs
  calc t.mapVars θ = (s'.apply t).mapVars θ := (hθ.mapVars_apply hs' t).symm
    _ = (s'.apply u).mapVars θ := by rw [h.apply_eq hs _ List.mem_cons_self]
    _ = u.mapVars θ := hθ.mapVars_apply hs' u

/-- What unification makes of terms with `P` has `P` again: parts, and bindings with the sign of an occurrence. -/
structure Closed (P : Term → Prop) : Prop where
  rel : ∀ n a ts, P (.rel n a ts) → ∀ t ∈ ts, P t
  fn : ∀ n a t, P (.fn n a t) → P t
  signed : ∀ n x t, P (.var n x) → P t → P (signed n t)

/-- Every new binding gives a variable with `P` a term with `P`. -/
theorem Solved.bindings {P : Term → Prop} (hP : Closed P) (h : Solved es s s') (hes : ∀ e ∈ es, P e.1 ∧ P e.2)
    (hs : ∀ x b, s.get? x = some b → P b) :
    ∀ x b, s'.get? x = some b → s.get? x = some b ∨ (∃ n, P (.var n x)) ∧ P b := by
  induction h with
  | done s => exact fun x b hb => .inl hb
  | lit _ ih | same _ _ ih => exact ih (List.forall_mem_cons.mp hes).2 hs
  | rel _ _ ih =>
    obtain ⟨⟨ht, hu⟩, hes⟩ := List.forall_mem_cons.mp hes
    refine ih (fun e he => ?_) hs
    rcases List.mem_append.mp he with he | he
    · obtain ⟨h1, h2⟩ := List.of_mem_zip (a := e.1) (b := e.2) he
      exact ⟨hP.rel _ _ _ ht _ h1, hP.rel _ _ _ hu _ h2⟩
    · exact hes e he
  | fn _ ih =>
    obtain ⟨⟨ht, hu⟩, hes⟩ := List.forall_mem_cons.mp hes
    exact ih (List.forall_mem_cons.mpr ⟨⟨hP.fn _ _ _ ht, hP.fn _ _ _ hu⟩, hes⟩) hs
  | @bind n x t _ s s' hx _ _ ih =>
    obtain ⟨⟨hv, ht⟩, hes⟩ := List.forall_mem_cons.mp hes
    have hnew := hP.signed n x t hv ht
    intro y b hb
    have hins : ∀ y b, (s.insert x (signed n t)).get? y = some b → s.get? y = some b ∨ x = y ∧ signed n t = b := by
      intro y b hb
      rw [Subst.get?_insert] at hb
      split at hb
      · next heq => exact .inr ⟨heq, by simpa using hb⟩
      · exact .inl hb
    rcases ih hes (fun y b hb => (hins y b hb).elim (hs y b) fun h => h.2 ▸ hnew) y b hb with h | h
    · rcases hins y b h with h | ⟨rfl, rfl⟩
      · exact .inl h
      · exact .inr ⟨⟨n, hv⟩, hnew⟩
    · exact .inr h
  | @follow n x b t _ s s' hx _ ih =>
    obtain ⟨⟨hv, ht⟩, hes⟩ := List.forall_mem_cons.mp hes
    exact ih (List.forall_mem_cons.mpr ⟨⟨hP.signed n x b hv (hs x b hx), ht⟩, hes⟩) hs
  | swap _ ih =>
    obtain ⟨⟨ht, hu⟩, hes⟩ := List.forall_mem_cons.mp hes
    exact ih (List.forall_mem_cons.mpr ⟨⟨hu, ht⟩, hes⟩) hs

end Solved

end Clausal.Unify
