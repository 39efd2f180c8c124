import Clausal.Proofs.Subst.Resolved
import Clausal.Proofs.Unify.Completeness

/-!
# Clausal.Proofs.Unify.Evaluation — unification comes to an end, and what it leaves

`Unify.Evaluates es s r` says that working off the equations `es` from the left, starting with the substitution `s`,
comes to the result `r` after finitely many steps; the result `none` is failure.  Its rules are all that a step can do,
with no bound on the number of look-ups, so a derivation is a run that ends.

* `evaluates_unify`: from an acyclic substitution unification ends, with the result that `unify` gives; the bound on
  look-ups is never reached.  `Evaluates.unique` says that there is no other result.
* `Solved.appends`: the bindings stay in their places, and new ones come after them.
* `Reached s`: some sequence of unifications of terms or of lists leads from no bindings to `s`.
* `unification_sound`: the main statement.
-/

namespace Clausal

namespace Unify

open Term

/-! ## Runs of the algorithm -/

section Evaluates

/-- Two terms that are no variables differ at the root: in kind, sign, symbol or number of arguments. -/
def clashes : Term → Term → Bool
  | .var .., _ => false
  | _, .var .. => false
  | .lit n a, .lit m b => !(n == m && a == b)
  | .rel n a ts, .rel m b us => !(n == m && a == b && ts.length == us.length)
  | .fn n a _, .fn m b _ => !(n == m && a == b)
  | _, _ => true

/-- `x` has no binding, and `t` is not a variable that is `x` or has one. -/
def Bindable (s : Subst) (x : String) (t : Term) : Prop :=
  s.get? x = none ∧ ∀ m y, t = .var m y → x ≠ y ∧ s.get? y = none

/-- The equations are worked off from the left, with the result on the right. -/
inductive Evaluates : List (Term × Term) → Subst → Option Subst → Prop where
  | done (s : Subst) : Evaluates [] s (some s)
  | lit {n : Bool} {a : String} {es : List (Term × Term)} {s : Subst} {r : Option Subst} :
    Evaluates es s r → Evaluates ((.lit n a, .lit n a) :: es) s r
  | rel {n : Bool} {a : String} {ts us : List Term} {es : List (Term × Term)} {s : Subst} {r : Option Subst} :
    ts.length = us.length → Evaluates (ts.zip us ++ es) s r → Evaluates ((.rel n a ts, .rel n a us) :: es) s r
  | fn {n : Bool} {a : String} {t u : Term} {es : List (Term × Term)} {s : Subst} {r : Option Subst} :
    Evaluates ((t, u) :: es) s r → Evaluates ((.fn n a t, .fn n a u) :: es) s r
  | clash {t u : Term} {es : List (Term × Term)} {s : Subst} :
    clashes t u = true → Evaluates ((t, u) :: es) s none
  /-- A variable that has no binding equals itself. -/
  | same {n : Bool} {x : String} {es : List (Term × Term)} {s : Subst} {r : Option Subst} :
    s.get? x = none → Evaluates es s r → Evaluates ((.var n x, .var n x) :: es) s r
  /-- It does not equal its negation. -/
  | opposite {n m : Bool} {x : String} {es : List (Term × Term)} {s : Subst} :
    s.get? x = none → n ≠ m → Evaluates ((.var n x, .var m x) :: es) s none
  /-- It is bound, if the occurs check, which comes to an end, does not find it. -/
  | bind {n : Bool} {x : String} {t : Term} {es : List (Term × Term)} {s : Subst} {r : Option Subst} :
    Bindable s x t → Acc s.Calls t → s.occurs x t = false → Evaluates es (s.insert x (signed n t)) r →
    Evaluates ((.var n x, t) :: es) s r
  | circular {n : Bool} {x : String} {t : Term} {es : List (Term × Term)} {s : Subst} :
    Bindable s x t → Acc s.Calls t → s.occurs x t = true → Evaluates ((.var n x, t) :: es) s none
  /-- A bound variable on the left is replaced by its binding. -/
  | follow {n : Bool} {x : String} {b t : Term} {es : List (Term × Term)} {s : Subst} {r : Option Subst} :
    s.get? x = some b → Evaluates ((signed n b, t) :: es) s r → Evaluates ((.var n x, t) :: es) s r
  /-- One on the right is, if the left side is another variable without binding. -/
  | followRight {n m : Bool} {x y : String} {b : Term} {es : List (Term × Term)} {s : Subst} {r : Option Subst} :
    s.get? x = none → x ≠ y → s.get? y = some b → Evaluates ((.var n x, signed m b) :: es) s r →
    Evaluates ((.var n x, .var m y) :: es) s r
  /-- A variable on the right alone changes sides. -/
  | turn {n : Bool} {x : String} {t : Term} {es : List (Term × Term)} {s : Subst} {r : Option Subst} :
    (∀ m y, t ≠ .var m y) → Evaluates ((.var n x, t) :: es) s r → Evaluates ((t, .var n x) :: es) s r

variable {es : List (Term × Term)} {s : Subst} {r r' : Option Subst}

/-- A run has one result. -/
theorem Evaluates.unique (h : Evaluates es s r) (h' : Evaluates es s r') : r = r' := by
  induction h generalizing r' with
  | done s =>
    cases h'
    rfl
  | lit _ ih =>
    cases h' with
    | lit h' => exact ih h'
    | clash hc => simp [clashes] at hc
  | rel hlen _ ih =>
    cases h' with
    | rel _ h' => exact ih h'
    | clash hc => simp [clashes, hlen] at hc
  | fn _ ih =>
    cases h' with
    | fn h' => exact ih h'
    | clash hc => simp [clashes] at hc
  | clash hc =>
    cases h' with
    | clash => rfl
    | _ => simp_all [clashes]
  | same hx _ ih =>
    cases h' with
    | same _ h' => exact ih h'
    | _ => simp_all [clashes, Bindable]
  | opposite hx hnm =>
    cases h' with
    | opposite _ _ => rfl
    | _ => simp_all [clashes, Bindable]
  | bind hb _ hocc _ ih =>
    cases h' with
    | bind _ _ _ h' => exact ih h'
    | _ => simp_all [clashes, Bindable]
  | circular hb _ hocc =>
    cases h' with
    | circular _ _ _ => rfl
    | _ => simp_all [clashes, Bindable]
  | follow hx _ ih =>
    cases h' with
    | follow hx' h' =>
      obtain rfl := Option.some.inj (hx.symm.trans hx')
      exact ih h'
    | _ => simp_all [clashes, Bindable]
  | followRight hx hxy hy _ ih =>
    cases h' with
    | followRight _ _ hy' h' =>
      obtain rfl := Option.some.inj (hy.symm.trans hy')
      exact ih h'
    | _ => simp_all [clashes, Bindable]
  | turn ht _ ih =>
    cases h' with
    | turn _ h' => exact ih h'
    | _ => simp_all [clashes]

end Evaluates

/-! ## The algorithm comes to an end -/

section Ends

variable {V : Finset String} {s s' : Subst} {t u : Term} {n : Nat} {es : List (Term × Term)} {r : Option Subst}
  {chase : Term → Term → Subst → Option Subst} {P Q : Finset String}

/-- All variables of `t` are in `V`. -/
def Among (V : Finset String) (t : Term) : Prop :=
  ∀ x, t.mentions x = true → x ∈ V

theorem closed_among (V : Finset String) : Closed (Among V) where
  rel n a ts h t ht x hx := h x (by rw [mentions, mentionsAny_eq_true]; exact ⟨t, ht, hx⟩)
  fn n a t h := h
  signed n x t _ h y hy := h y (by rwa [mentions_signed] at hy)

/-- An acyclic substitution over the variables `V`. -/
structure Tame (V : Finset String) (s : Subst) : Prop where
  acyclic : s.Acyclic
  bindings : ∀ x b, s.get? x = some b → Among V b

/-- Solving an equation over the variables in play keeps a substitution tame. -/
theorem Tame.solved (h : Tame V s) (ht : Among V t) (hu : Among V u) (hsolved : Solved [(t, u)] s s') : Tame V s' where
  acyclic := hsolved.acyclic h.acyclic
  bindings := by
    intro x b hb
    have hes : ∀ e ∈ [(t, u)], Among V e.1 ∧ Among V e.2 := List.forall_mem_singleton.mpr ⟨ht, hu⟩
    rcases hsolved.bindings (closed_among V) hes h.bindings x b hb with hold | hnew
    · exact h.bindings x b hold
    · exact hnew.2

/-- The run goes on with `es` after a step with the given outcome, and comes to `r`. -/
def Continues : Option Subst → List (Term × Term) → Option Subst → Prop
  | none, _, r => r = none
  | some s, es, r => Evaluates es s r

/-- Within a budget of `n` look-ups, `chase` does what a run does to its equation. -/
def Ends (V : Finset String) (n : Nat) (chase : Term → Term → Subst → Option Subst) : Prop :=
  ∀ ⦃t u s P Q⦄, Tame V s → Among V t → Among V u → Spent V s P t → Spent V s Q u →
    (V.card - P.card) + (V.card - Q.card) < n →
    ∀ ⦃es r⦄, Continues (chase t u s) es r → Evaluates ((t, u) :: es) s r

theorem evaluates_bind? {m : Bool} {x : String} (hs : s.Acyclic) (hb : Bindable s x t)
    (h : Continues (bind? m x t s) es r) : Evaluates ((.var m x, t) :: es) s r := by
  have hacc := Subst.acc_calls hs t
  unfold bind? at h
  cases hocc : s.occurs x t with
  | true =>
    rw [hocc] at h
    obtain rfl : r = none := h
    exact .circular hb hacc hocc
  | false =>
    rw [hocc] at h
    exact .bind hb hacc hocc h

theorem evaluates_occurrence? (hchase : Ends V n chase) {m : Bool} {x : String} (hs : Tame V s)
    (hx : Among V (.var m x)) (hu : Among V u) (hP : Spent V s P (.var m x)) (hQ : Spent V s Q u)
    (hn : (V.card - P.card) + (V.card - Q.card) < n + 1) (h : Continues (occurrence? chase m x u s) es r) :
    Evaluates ((.var m x, u) :: es) s r := by
  have hxV : x ∈ V := hx x (by simp [mentions])
  unfold occurrence? at h
  cases hget : s.get? x with
  | some b =>
    rw [hget] at h
    obtain ⟨hP', hcard, hlt⟩ := hP.follow hs.acyclic hxV hget
    have hb : Among V (signed m b) := (closed_among V).signed m x b hx (hs.bindings x b hget)
    exact .follow hget (hchase hs hb hu hP' hQ (by omega) h)
  | none =>
    rw [hget] at h
    cases u with
    | var k y =>
      simp only at h
      by_cases hxy : x = y
      · subst hxy
        by_cases hmk : m = k
        · subst hmk
          simp only [beq_self_eq_true, if_true] at h
          exact .same hget h
        · obtain rfl : r = none := by simpa [hmk, Continues] using h
          exact .opposite hget hmk
      · rw [if_neg (by simpa using hxy)] at h
        cases hy : s.get? y with
        | some b =>
          rw [hy] at h
          have hyV : y ∈ V := hu y (by simp [mentions])
          obtain ⟨hQ', hcard, hlt⟩ := hQ.follow hs.acyclic hyV hy
          have hb : Among V (signed k b) := (closed_among V).signed k y b hu (hs.bindings y b hy)
          exact .followRight hget hxy hy (hchase hs hx hb hP hQ' (by omega) h)
        | none =>
          rw [hy] at h
          refine evaluates_bind? hs.acyclic ⟨hget, ?_⟩ h
          rintro _ _ ⟨⟩
          exact ⟨hxy, hy⟩
    | _ => exact evaluates_bind? hs.acyclic ⟨hget, by simp⟩ h

theorem lists?_of_length_ne {ts us : List Term} (hlen : ts.length ≠ us.length) (s : Subst) :
    lists? chase ts us s = none := by
  induction ts generalizing us s with
  | nil =>
    cases us with
    | nil => exact absurd rfl hlen
    | cons u us => rfl
  | cons t ts ih =>
    cases us with
    | nil => rfl
    | cons u us =>
      have hlen' : ts.length ≠ us.length := by simpa using hlen
      rw [lists?, Option.bind_eq_none_iff]
      exact fun s' _ => ih hlen' s'

theorem evaluates_lists? (hchase : Solving chase) {ts us : List Term} (hlen : ts.length = us.length)
    (ih : ∀ t ∈ ts, ∀ ⦃u s⦄, Tame V s → Among V t → Among V u → Spent V s P t → Spent V s Q u →
      ∀ ⦃es r⦄, Continues (terms? chase t u s) es r → Evaluates ((t, u) :: es) s r)
    (hs : Tame V s) (hts : ∀ t ∈ ts, Among V t ∧ Spent V s P t) (hus : ∀ u ∈ us, Among V u ∧ Spent V s Q u)
    (h : Continues (lists? chase ts us s) es r) : Evaluates (ts.zip us ++ es) s r := by
  induction ts generalizing us s with
  | nil =>
    obtain rfl : us = [] := List.length_eq_zero_iff.mp hlen.symm
    exact h
  | cons t ts ihts =>
    cases us with
    | nil => cases hlen
    | cons u us =>
      obtain ⟨⟨htV, htP⟩, hts⟩ := List.forall_mem_cons.mp hts
      obtain ⟨⟨huV, huQ⟩, hus⟩ := List.forall_mem_cons.mp hus
      refine ih t List.mem_cons_self hs htV huV htP huQ ?_
      rw [lists?] at h
      cases hfirst : terms? chase t u s with
      | none =>
        rw [hfirst] at h
        exact h
      | some s₁ =>
        rw [hfirst] at h
        -- what was spent before the first arguments is spent after them
        have hsolved : Solved [(t, u)] s s₁ := solving_terms? hchase hfirst (.done s₁)
        have hs₁ := hs.solved htV huV hsolved
        exact ihts (by simpa using hlen) (fun t' ht' => ih t' (List.mem_cons_of_mem t ht')) hs₁
          (fun t' ht' => ⟨(hts t' ht').1, (hts t' ht').2.extends hsolved.extends⟩)
          (fun u' hu' => ⟨(hus u' hu').1, (hus u' hu').2.extends hsolved.extends⟩) h

/-- Two roots agree and the run goes on, or they do not and it has failed. -/
theorem Continues.of_ite {c : Bool} {o : Option Subst} (h : Continues (if c then o else none) es r) :
    (c = true ∧ Continues o es r) ∨ (c = false ∧ r = none) := by
  cases c with
  | true => exact .inl ⟨rfl, h⟩
  | false => exact .inr ⟨rfl, h⟩

theorem ends_terms? (hsolving : Solving chase) (hchase : Ends V n chase) : Ends V (n + 1) (terms? chase) := by
  intro t
  induction t using Term.induct with
  | var m x =>
    intro u s P Q hs ht hu hP hQ hn es r h
    exact evaluates_occurrence? hchase hs ht hu hP hQ hn h
  | lit m a =>
    intro u s P Q hs ht hu hP hQ hn es r h
    cases u with
    | var k y => exact .turn (by simp) (evaluates_occurrence? hchase hs hu ht hQ hP (by omega) h)
    | lit k b =>
      rw [terms?] at h
      rcases h.of_ite with ⟨hroot, hnext⟩ | ⟨hroot, rfl⟩
      · obtain ⟨rfl, rfl⟩ : m = k ∧ a = b := by simpa using hroot
        exact .lit hnext
      · exact .clash (by simp only [clashes, hroot, Bool.not_false])
    | _ =>
      obtain rfl : r = none := h
      exact .clash rfl
  | rel m a ts ih =>
    intro u s P Q hs ht hu hP hQ hn es r h
    cases u with
    | var k y => exact .turn (by simp) (evaluates_occurrence? hchase hs hu ht hQ hP (by omega) h)
    | rel k b us =>
      rw [terms?] at h
      rcases h.of_ite with ⟨hroot, hnext⟩ | ⟨hroot, rfl⟩
      · obtain ⟨rfl, rfl⟩ : m = k ∧ a = b := by simpa using hroot
        by_cases hlen : ts.length = us.length
        · refine .rel hlen (evaluates_lists? hsolving hlen (fun t ht u s hs h1 h2 h3 h4 => ih t ht hs h1 h2 h3 h4 hn)
            hs (fun t hmem => ⟨?_, hP.member hmem⟩) (fun u hmem => ⟨?_, hQ.member hmem⟩) hnext)
          · exact (closed_among V).rel m a ts ht t hmem
          · exact (closed_among V).rel m a us hu u hmem
        · rw [lists?_of_length_ne hlen] at hnext
          obtain rfl : r = none := hnext
          exact .clash (by simpa [clashes] using hlen)
      · exact .clash (by simp only [clashes, hroot, Bool.false_and, Bool.not_false])
    | _ =>
      obtain rfl : r = none := h
      exact .clash rfl
  | fn m a t ih =>
    intro u s P Q hs ht hu hP hQ hn es r h
    cases u with
    | var k y => exact .turn (by simp) (evaluates_occurrence? hchase hs hu ht hQ hP (by omega) h)
    | fn k b u =>
      rw [terms?] at h
      rcases h.of_ite with ⟨hroot, hnext⟩ | ⟨hroot, rfl⟩
      · obtain ⟨rfl, rfl⟩ : m = k ∧ a = b := by simpa using hroot
        have htV : Among V t := (closed_among V).fn m a t ht
        have huV : Among V u := (closed_among V).fn m a u hu
        exact .fn (ih hs htV huV hP hQ hn hnext)
      · exact .clash (by simp only [clashes, hroot, Bool.not_false])
    | _ =>
      obtain rfl : r = none := h
      exact .clash rfl
  | quant m q x t ih | conn m c l r ihl ihr | freeClause m ts ih =>
    intro u s P Q hs ht hu hP hQ hn es r h
    cases u with
    | var k y => exact .turn (by simp) (evaluates_occurrence? hchase hs hu ht hQ hP (by omega) h)
    | _ =>
      obtain rfl : r = none := h
      exact .clash rfl

theorem ends_unifyUpTo (n : Nat) : Ends V n (unifyUpTo n) := by
  induction n with
  | zero =>
    intro t u s P Q _ _ _ _ _ hn
    omega
  | succ n ih => exact ends_terms? (solving_unifyUpTo n) ih

/-- From an acyclic substitution unification comes to an end, with the result that `unify` gives. -/
theorem evaluates_unify (hs : s.Acyclic) (t u : Term) : Evaluates [(t, u)] s (unify t u s) := by
  have htame : Tame (inPlay t u s).toFinset s := by
    refine ⟨hs, fun x b hb y hy => ?_⟩
    simp only [inPlay, List.mem_toFinset, List.mem_append, List.mem_flatMap]
    exact .inr ⟨(x, b), Subst.mem_entries_of_get? hb, mem_occurrences.mpr hy⟩
  have ht : Among (inPlay t u s).toFinset t := fun x hx => by simp [inPlay, hx]
  have hu : Among (inPlay t u s).toFinset u := fun x hx => by simp [inPlay, hx]
  have hcard := card_inPlay_le t u s
  have hend : Continues (unify t u s) [] (unify t u s) := by
    cases unify t u s with
    | none => rfl
    | some s' => exact .done s'
  refine ends_unifyUpTo (2 * (s.load + t.varCount + u.varCount) + 1) htame ht hu spent_empty spent_empty ?_ hend
  rw [Finset.card_empty]
  omega

end Ends

/-! ## What is left -/

section Appends

variable {es : List (Term × Term)} {s s' : Subst}

theorem toList_insert {x : String} (hx : s.get? x = none) (t : Term) :
    (s.insert x t).toList = s.toList ++ [(x, t)] := by
  have hentries : (s.insert x t).entries = (x, t) :: s.entries := by
    unfold Subst.insert
    rw [dif_neg (by simp [hx])]
  rw [Subst.toList, hentries, List.reverse_cons]
  rfl

/-- Bindings keep their places, and new ones, of variables that had none, come after them. -/
theorem Solved.appends (h : Solved es s s') :
    ∃ new, s'.toList = s.toList ++ new ∧ ∀ e ∈ new, s.get? e.1 = none := by
  induction h with
  | done s => exact ⟨[], (List.append_nil _).symm, fun e he => nomatch he⟩
  | @bind n x t _ s s' hx _ _ ih =>
    obtain ⟨new, hnew, hunbound⟩ := ih
    refine ⟨(x, signed n t) :: new, ?_, List.forall_mem_cons.mpr ⟨hx, fun e he => ?_⟩⟩
    · rw [hnew, toList_insert hx, List.append_assoc, List.singleton_append]
    · have hnone := hunbound e he
      rw [Subst.get?_insert] at hnone
      split at hnone
      · cases hnone
      · exact hnone
  | lit _ ih | rel _ _ ih | fn _ ih | same _ _ ih | follow _ _ ih | swap _ ih => exact ih

end Appends

end Unify

/-! ## Sequences of unifications -/

section Reached

variable {s s' : Subst}

theorem acyclic_of_unifyAll {xs ys : List Term} (hs : s.Acyclic) (h : unifyAll xs ys s = some s') : s'.Acyclic := by
  induction xs generalizing ys s with
  | nil =>
    cases ys with
    | nil =>
      cases h
      exact hs
    | cons y ys => cases h
  | cons x xs ih =>
    cases ys with
    | nil => cases h
    | cons y ys =>
      rw [unifyAll, Option.bind_eq_some_iff] at h
      obtain ⟨s₁, hfirst, hrest⟩ := h
      exact ih ((Unify.solved_of_unify hfirst).acyclic hs) hrest

/-- Unifications of terms and of lists of terms, one after the other, lead from no bindings to the substitution. -/
inductive Reached : Subst → Prop where
  | empty : Reached .empty
  | unify {s s' : Subst} {x y : Term} : Reached s → unify x y s = some s' → Reached s'
  | unifyAll {s s' : Subst} {xs ys : List Term} : Reached s → unifyAll xs ys s = some s' → Reached s'

theorem Reached.acyclic (h : Reached s) : s.Acyclic := by
  induction h with
  | empty => exact Subst.acyclic_empty
  | unify _ hu ih => exact (Unify.solved_of_unify hu).acyclic ih
  | unifyAll _ hu ih => exact acyclic_of_unifyAll ih hu

/-- **Unification is sound and keeps substitutions acyclic.**  From an acyclic substitution it comes to an end; if it
succeeds, it has appended bindings to an acyclic substitution that makes the two terms equal, signs included.  So under
every substitution that unifications lead to, following bindings comes to an end, and `apply` gives a bound occurrence
what it gives the binding, is idempotent, and leaves no bound variable. -/
theorem unification_sound :
    (∀ (x y : Term) (s : Subst), s.Acyclic →
      (∀ r, Unify.Evaluates [(x, y)] s r ↔ r = unify x y s) ∧
      ∀ s', unify x y s = some s' →
        (∃ new, s'.toList = s.toList ++ new ∧ ∀ e ∈ new, s.get? e.1 = none) ∧ s'.Acyclic ∧
          s'.apply x = s'.apply y) ∧
    ∀ s, Reached s →
      (∀ n x b, s.get? x = some b → s.apply (.var n x) = .signed n (s.apply b)) ∧
      ∀ t, Acc s.Calls t ∧ s.apply (s.apply t) = s.apply t ∧
        ∀ x, (s.apply t).mentions x = true → s.get? x = none := by
  refine ⟨fun x y s hs => ⟨fun r => ⟨fun hr => ?_, ?_⟩, fun s' hu => ?_⟩, fun s hs => ⟨fun n x b hb => ?_, fun t => ?_⟩⟩
  · exact hr.unique (Unify.evaluates_unify hs x y)
  · rintro rfl
    exact Unify.evaluates_unify hs x y
  · have hsolved := Unify.solved_of_unify hu
    exact ⟨hsolved.appends, hsolved.acyclic hs, hsolved.apply_eq hs _ List.mem_cons_self⟩
  · rw [Subst.apply_var_of_get? hs.acyclic hb, Subst.apply_signed]
  · exact ⟨Subst.acc_calls hs.acyclic t, Subst.apply_apply hs.acyclic t,
      fun x hx => Subst.unbound_of_mentions_apply hs.acyclic hx⟩

/-- `r(X, ¬X)`. -/
def contrary : Term := .rel false "r" [.var false "X", .var true "X"]

/-- `r(¬Y, f(Z))`. -/
def contraryValue : Term := .rel false "r" [.var true "Y", .fn false "f" (.var false "Z")]

/-- With `W` bound to `Y`, the two terms above unify: `X` is bound to `¬Y`, and then, since `¬X` stands for `Y`, that
variable to `f(Z)`. -/
theorem unification_sound_contrary :
    ∃ s s', (unify (.var false "W") (.var false "Y") .empty = some s ∧ s.Acyclic ∧ Reached s') ∧
      unify contrary contraryValue s = some s' ∧
      s'.toList = [("W", .var false "Y"), ("X", .var true "Y"), ("Y", .fn false "f" (.var false "Z"))] ∧
      s'.Acyclic ∧ s'.apply contrary = s'.apply contraryValue ∧
      s'.apply (s'.apply contrary) = s'.apply contrary ∧
      s'.apply contrary = .rel false "r" [.fn true "f" (.var false "Z"), .fn false "f" (.var false "Z")] := by
  obtain ⟨s, hs, hs'⟩ : ∃ s, unify (.var false "W") (.var false "Y") .empty = some s ∧
      ((unify contrary contraryValue s).map fun s' => (s'.toList, s'.apply contrary)) =
        some ([("W", .var false "Y"), ("X", .var true "Y"), ("Y", .fn false "f" (.var false "Z"))],
          .rel false "r" [.fn true "f" (.var false "Z"), .fn false "f" (.var false "Z")]) :=
    ⟨_, rfl, rfl⟩
  obtain ⟨s', hu, hresult⟩ := Option.map_eq_some_iff.mp hs'
  obtain ⟨hlist, happly⟩ := Prod.ext_iff.mp hresult
  have hreached : Reached s := .unify .empty hs
  have hreached' : Reached s' := .unify hreached hu
  obtain ⟨-, hacyclic, hequal⟩ := (unification_sound.1 contrary contraryValue s hreached.acyclic).2 s' hu
  exact ⟨s, s', ⟨hs, hreached.acyclic, hreached'⟩, hu, hlist, hacyclic, hequal,
    ((unification_sound.2 s' hreached').2 contrary).2.1, happly⟩

end Reached

end Clausal
