import Mathlib.Data.Finset.Card
import Mathlib.Logic.Relation
import Clausal.Proofs.Term.Replacement
import Clausal.Subst

/-!
# Clausal.Proofs.Subst.Acyclic — substitutions without a cycle of bindings

`s.Leads x y` says that the binding of `x` mentions `y`; `s` is acyclic if no variable leads back to itself.  On such
a substitution every chain of bindings is shorter than the number of bindings, so `apply` and `occurs` follow all
chains to their end.

* `Subst.rank`: the number of bound variables that a variable leads to, itself included; it drops along `Leads`.
* `apply_eq_mapVars`, `value_of_get?`, `value_of_unbound`: `apply` puts `value x` for `x`, which is the value of the
  binding, or the variable itself if there is none.
* `occurs_iff`: the occurs check sees exactly the variables that a term leads to.
* `Subst.Admits`: a replacement that agrees with every binding; `Admits.mapVars_apply` says it absorbs `apply`.
* `Acyclic.insert`: binding an unbound variable that does not occur in the term keeps a substitution acyclic.
-/

namespace Clausal.Subst

open Relation

variable {s s' : Subst}

/-! ## Look-up -/

section Lookup

@[simp] theorem get?_empty (x : String) : empty.get? x = none := by
  rw [get?_eq_lookup]
  rfl

/-- Only the inserted variable changes. -/
theorem get?_insert (s : Subst) (x : String) (t : Term) (y : String) :
    (s.insert x t).get? y = if x = y then some t else s.get? y := by
  unfold insert get?
  by_cases hy : x = y
  · split <;> simp [hy]
  · split <;> simp [Std.TreeMap.getElem?_insert, hy]

theorem mem_entries_of_get? {x : String} {b : Term} (h : s.get? x = some b) : (x, b) ∈ s.entries := by
  rw [get?_eq_lookup] at h
  obtain ⟨l, r, hlr, -⟩ := List.lookup_eq_some_iff.mp h
  rw [hlr]
  simp

theorem mem_keys_of_get? {x : String} {b : Term} (h : s.get? x = some b) : x ∈ s.entries.map Prod.fst :=
  List.mem_map.mpr ⟨(x, b), mem_entries_of_get? h, rfl⟩

theorem length_entries_le_load (s : Subst) : s.entries.length ≤ s.load := by
  rw [s.load_eq]
  induction s.entries with
  | nil => exact le_rfl
  | cons e es ih =>
    rw [List.length_cons, bindingLoad]
    omega

/-- `s'` has every binding of `s`. -/
def Extends (s' s : Subst) : Prop :=
  ∀ x b, s.get? x = some b → s'.get? x = some b

theorem Extends.refl (s : Subst) : s.Extends s := fun _ _ h => h

theorem Extends.trans {r : Subst} (h : s'.Extends s) (h' : s.Extends r) : s'.Extends r :=
  fun x b hb => h x b (h' x b hb)

theorem extends_insert {x : String} (hx : s.get? x = none) (t : Term) : (s.insert x t).Extends s := by
  intro y b hb
  have hne : x ≠ y := by
    rintro rfl
    rw [hx] at hb
    cases hb
  rw [get?_insert, if_neg hne, hb]

end Lookup

/-! ## Chains of bindings -/

section Chains

/-- The binding of `x` mentions `y`. -/
def Leads (s : Subst) (x y : String) : Prop :=
  ∃ b, s.get? x = some b ∧ b.mentions y = true

/-- No variable leads back to itself. -/
def Acyclic (s : Subst) : Prop :=
  ∀ x, ¬ TransGen s.Leads x x

theorem Extends.leads_le (h : s'.Extends s) : s.Leads ≤ s'.Leads := by
  rintro x y ⟨b, hb, hy⟩
  exact ⟨b, h x b hb, hy⟩

theorem not_leads_of_unbound {x : String} (hx : s.get? x = none) (y : String) : ¬ s.Leads x y := by
  rintro ⟨b, hb, -⟩
  rw [hx] at hb
  cases hb

/-- An unbound variable leads nowhere else. -/
theorem eq_of_reaches_unbound {x y : String} (hx : s.get? x = none) (h : ReflTransGen s.Leads x y) : x = y := by
  rcases ReflTransGen.cases_head h with rfl | ⟨z, hxz, -⟩
  · rfl
  · exact absurd hxz (not_leads_of_unbound hx z)

theorem acyclic_empty : empty.Acyclic := by
  intro x h
  rcases TransGen.head'_iff.mp h with ⟨y, hxy, -⟩
  exact not_leads_of_unbound (get?_empty x) y hxy

open Classical in
/-- The number of bound variables that `x` leads to, itself included. -/
noncomputable def rank (s : Subst) (x : String) : Nat :=
  ((s.entries.map Prod.fst).toFinset.filter (ReflTransGen s.Leads x)).card

theorem rank_le_load (s : Subst) (x : String) : s.rank x ≤ s.load := by
  classical
  calc s.rank x ≤ (s.entries.map Prod.fst).toFinset.card := Finset.card_filter_le _ _
    _ ≤ (s.entries.map Prod.fst).length := List.toFinset_card_le _
    _ = s.entries.length := List.length_map _
    _ ≤ s.load := s.length_entries_le_load

theorem rank_lt_of_leads (hs : s.Acyclic) {x y : String} (h : s.Leads x y) : s.rank y < s.rank x := by
  classical
  obtain ⟨b, hb, hy⟩ := h
  have hxy : s.Leads x y := ⟨b, hb, hy⟩
  apply Finset.card_lt_card
  refine ⟨fun z hz => ?_, fun hsub => ?_⟩
  · simp only [Finset.mem_filter] at hz ⊢
    exact ⟨hz.1, .head hxy hz.2⟩
  · -- `x` is counted for itself, and `y` does not lead back to it
    have hx : x ∈ (s.entries.map Prod.fst).toFinset.filter (ReflTransGen s.Leads x) :=
      Finset.mem_filter.mpr ⟨List.mem_toFinset.mpr (mem_keys_of_get? hb), .refl⟩
    exact hs x (.head' hxy (Finset.mem_filter.mp (hsub hx)).2)

theorem rank_pos {x : String} {b : Term} (h : s.get? x = some b) : 0 < s.rank x := by
  classical
  exact Finset.card_pos.mpr ⟨x, Finset.mem_filter.mpr ⟨List.mem_toFinset.mpr (mem_keys_of_get? h), .refl⟩⟩

/-- Every variable of `t` has a rank of at most `n`. -/
def RankAtMost (s : Subst) (n : Nat) (t : Term) : Prop :=
  ∀ x, t.mentions x = true → s.rank x ≤ n

theorem rankAtMost_load (s : Subst) (t : Term) : s.RankAtMost s.load t :=
  fun x _ => s.rank_le_load x

theorem RankAtMost.binding (hs : s.Acyclic) {n : Nat} {t b : Term} (h : s.RankAtMost (n + 1) t) {x : String}
    (hx : t.mentions x = true) (hb : s.get? x = some b) : s.RankAtMost n b := by
  intro y hy
  have h1 := rank_lt_of_leads hs ⟨b, hb, hy⟩
  have h2 := h x hx
  omega

theorem RankAtMost.unbound {t : Term} (h : s.RankAtMost 0 t) {x : String} (hx : t.mentions x = true) :
    s.get? x = none := by
  cases hb : s.get? x with
  | none => rfl
  | some b =>
    have h1 := rank_pos hb
    have h2 := h x hx
    omega

end Chains

/-! ## Application -/

section Application

/-- What `x` stands for once all bindings are followed. -/
def value (s : Subst) (x : String) : Term :=
  s.apply (.var false x)

theorem apply_eq_mapVars (s : Subst) (t : Term) : s.apply t = t.mapVars s.value := rfl

/-- Beyond the ranks of its variables, the length of the chains followed makes no difference to a term. -/
theorem applyUpTo_stable (hs : s.Acyclic) {n m : Nat} {t : Term} (h : s.RankAtMost n t) (hnm : n ≤ m) :
    s.applyUpTo (m + 1) t = s.applyUpTo (n + 1) t := by
  induction n generalizing m t with
  | zero =>
    refine Term.mapVars_congr fun x hx => ?_
    rw [h.unbound hx]
  | succ n ih =>
    refine Term.mapVars_congr fun x hx => ?_
    cases hb : s.get? x with
    | none => rfl
    | some b =>
      obtain ⟨m, rfl⟩ : ∃ k, m = k + 1 := ⟨m - 1, by omega⟩
      exact ih (h.binding hs hx hb) (by omega)

theorem value_of_unbound {x : String} (h : s.get? x = none) : s.value x = .var false x := by
  rw [value, apply, applyUpTo, Term.mapVars, h]
  rfl

/-- A bound variable stands for what its binding stands for. -/
theorem value_of_get? (hs : s.Acyclic) {x : String} {b : Term} (h : s.get? x = some b) : s.value x = s.apply b := by
  have hpos : 0 < s.load := lt_of_lt_of_le (rank_pos h) (s.rank_le_load x)
  obtain ⟨n, hn⟩ : ∃ n, s.load = n + 1 := ⟨s.load - 1, by omega⟩
  have hx : s.RankAtMost (n + 1) (.var false x) := fun y _ => hn ▸ s.rank_le_load y
  have hb : s.RankAtMost n b := hx.binding hs (x := x) (by simp [Term.mentions]) h
  have hstep : s.value x = s.applyUpTo s.load b := by
    rw [value, apply, applyUpTo, Term.mapVars, h]
    rfl
  rw [hstep, apply, hn, applyUpTo_stable hs hb (Nat.le_succ n)]

@[simp] theorem apply_signed (s : Subst) (n : Bool) (t : Term) : s.apply (.signed n t) = .signed n (s.apply t) :=
  Term.mapVars_signed _ n t

@[simp] theorem apply_lit (s : Subst) (n : Bool) (a : String) : s.apply (.lit n a) = .lit n a := rfl

@[simp] theorem apply_rel (s : Subst) (n : Bool) (a : String) (ts : List Term) :
    s.apply (.rel n a ts) = .rel n a (ts.map s.apply) := by
  rw [apply_eq_mapVars, Term.mapVars, Term.mapVarsAll_eq_map]
  rfl

@[simp] theorem apply_fn (s : Subst) (n : Bool) (a : String) (t : Term) :
    s.apply (.fn n a t) = .fn n a (s.apply t) := rfl

theorem apply_var (s : Subst) (n : Bool) (x : String) : s.apply (.var n x) = .signed n (s.value x) := rfl

/-- A bound occurrence stands for its signed binding. -/
theorem apply_var_of_get? (hs : s.Acyclic) {n : Bool} {x : String} {b : Term} (h : s.get? x = some b) :
    s.apply (.var n x) = s.apply (.signed n b) := by
  rw [apply_var, value_of_get? hs h, apply_signed]

/-- A property of terms that passes to replacements and to the variables of a term passes from a term and the bindings
to what the term stands for. -/
theorem apply_induct {Q : Term → Prop} (hvar : ∀ t x, Q t → t.mentions x = true → Q (.var false x))
    (hmap : ∀ t f, Q t → (∀ x, t.mentions x = true → Q (f x)) → Q (t.mapVars f))
    (hs : ∀ x b, s.get? x = some b → Q b) {t : Term} (ht : Q t) : Q (s.apply t) := by
  have hall : ∀ n t, Q t → Q (s.applyUpTo n t) := by
    intro n
    induction n with
    | zero => exact fun t ht => ht
    | succ n ih =>
      intro t ht
      refine hmap t _ ht fun x hx => ?_
      cases hb : s.get? x with
      | none => exact hvar t x ht hx
      | some b => exact ih b (hs x b hb)
  exact hall _ t ht

end Application

/-! ## Replacements that agree with the bindings -/

section Admits

/-- `θ` gives a bound variable what it gives its binding. -/
def Admits (s : Subst) (θ : String → Term) : Prop :=
  ∀ x b, s.get? x = some b → θ x = b.mapVars θ

variable {θ : String → Term}

theorem admits_empty (θ : String → Term) : empty.Admits θ := by
  intro x b hb
  rw [get?_empty] at hb
  cases hb

theorem Admits.of_extends (h : s'.Admits θ) (hext : s'.Extends s) : s.Admits θ :=
  fun x b hb => h x b (hext x b hb)

theorem admits_value (hs : s.Acyclic) : s.Admits s.value :=
  fun _ _ hb => value_of_get? hs hb

theorem Admits.insert {x : String} {t : Term} (h : s.Admits θ) (hx : θ x = t.mapVars θ) : (s.insert x t).Admits θ := by
  intro y b hb
  rw [get?_insert] at hb
  split at hb
  · next heq =>
    subst heq
    cases hb
    exact hx
  · exact h y b hb

/-- A replacement that agrees with the bindings gives a variable what it gives the value of the variable. -/
theorem Admits.mapVars_value (hs : s.Acyclic) (h : s.Admits θ) (x : String) : (s.value x).mapVars θ = θ x := by
  induction hn : s.rank x using Nat.strong_induction_on generalizing x with
  | _ n ih =>
    cases hb : s.get? x with
    | none => rw [value_of_unbound hb]; rfl
    | some b =>
      rw [value_of_get? hs hb, apply_eq_mapVars, Term.mapVars_mapVars, h x b hb]
      refine Term.mapVars_congr fun y hy => ih _ ?_ y rfl
      rw [← hn]
      exact rank_lt_of_leads hs ⟨b, hb, hy⟩

theorem Admits.mapVars_apply (hs : s.Acyclic) (h : s.Admits θ) (t : Term) : (s.apply t).mapVars θ = t.mapVars θ := by
  rw [apply_eq_mapVars, Term.mapVars_mapVars]
  exact Term.mapVars_congr fun x _ => h.mapVars_value hs x

end Admits

/-! ## The occurs check -/

section Occurs

theorem reaches_of_occursUpTo {x : String} {n : Nat} {t : Term} (h : s.occursUpTo x n t = true) :
    ∃ y, t.mentions y = true ∧ ReflTransGen s.Leads y x := by
  induction n generalizing t with
  | zero => exact ⟨x, h, .refl⟩
  | succ n ih =>
    obtain ⟨y, hy, hp⟩ := Term.anyVar_eq_true.mp h
    rw [Bool.or_eq_true, beq_iff_eq] at hp
    rcases hp with rfl | hp
    · exact ⟨x, hy, .refl⟩
    · cases hb : s.get? y with
      | none => rw [hb] at hp; cases hp
      | some b =>
        rw [hb] at hp
        obtain ⟨z, hz, hzx⟩ := ih hp
        exact ⟨y, hy, .head ⟨b, hb, hz⟩ hzx⟩

theorem occursUpTo_of_reaches (hs : s.Acyclic) {x y : String} {n : Nat} {t : Term} (h : s.RankAtMost n t)
    (hy : t.mentions y = true) (hyx : ReflTransGen s.Leads y x) : s.occursUpTo x (n + 1) t = true := by
  induction n generalizing t y with
  | zero =>
    obtain rfl := eq_of_reaches_unbound (h.unbound hy) hyx
    exact Term.anyVar_eq_true.mpr ⟨y, hy, by simp⟩
  | succ n ih =>
    refine Term.anyVar_eq_true.mpr ⟨y, hy, ?_⟩
    rcases ReflTransGen.cases_head hyx with rfl | ⟨z, ⟨b, hb, hz⟩, hzx⟩
    · simp
    · rw [hb, Bool.or_eq_true]
      exact .inr (ih (h.binding hs hy hb) hz hzx)

/-- The occurs check sees what a term leads to. -/
theorem occurs_iff (hs : s.Acyclic) {x : String} {t : Term} :
    s.occurs x t = true ↔ ∃ y, t.mentions y = true ∧ ReflTransGen s.Leads y x := by
  constructor
  · exact reaches_of_occursUpTo
  · rintro ⟨y, hy, hyx⟩
    exact occursUpTo_of_reaches hs (s.rankAtMost_load t) hy hyx

@[simp] theorem occurs_signed (s : Subst) (x : String) (n : Bool) (t : Term) :
    s.occurs x (.signed n t) = s.occurs x t :=
  Term.anyVar_signed _ n t

/-- A chain after `x` was bound to `t` is a chain from before, or goes on from the binding of `x`. -/
theorem reaches_insert {x : String} {t : Term} {y z : String} (h : ReflTransGen (s.insert x t).Leads y z) :
    ReflTransGen s.Leads y z ∨
      ReflTransGen s.Leads y x ∧ ∃ w, t.mentions w = true ∧ ReflTransGen (s.insert x t).Leads w z := by
  induction h using ReflTransGen.head_induction_on with
  | refl => exact .inl .refl
  | @head y w hyw hwz ih =>
    obtain ⟨b, hb, hw⟩ := hyw
    rw [get?_insert] at hb
    split at hb
    · next heq =>
      subst heq
      cases hb
      exact .inr ⟨.refl, w, hw, hwz⟩
    · exact ih.imp (.head ⟨b, hb, hw⟩) (.imp_left (.head ⟨b, hb, hw⟩))

/-- Binding an unbound variable to a term that does not lead to it closes no cycle. -/
theorem Acyclic.insert (hs : s.Acyclic) {x : String} {t : Term} (hx : s.get? x = none) (ht : s.occurs x t = false) :
    (s.insert x t).Acyclic := by
  have hfree : ∀ y, t.mentions y = true → ¬ ReflTransGen s.Leads y x := fun y hy h => by
    rw [(occurs_iff hs).mpr ⟨y, hy, h⟩] at ht
    cases ht
  have hback : ∀ y, t.mentions y = true → ¬ ReflTransGen (s.insert x t).Leads y x := fun y hy h =>
    (reaches_insert h).elim (hfree y hy) fun h' => hfree y hy h'.1
  intro y hcycle
  obtain ⟨z, ⟨b, hb, hz⟩, hzy⟩ := TransGen.head'_iff.mp hcycle
  have hyz : (s.insert x t).Leads y z := ⟨b, hb, hz⟩
  rw [get?_insert] at hb
  split at hb
  · next heq =>
    subst heq
    cases hb
    exact hback z hz hzy
  · rcases reaches_insert hzy with h | ⟨hzx, w, hw, hwy⟩
    · exact hs y (.head' ⟨b, hb, hz⟩ h)
    · -- the cycle passes through `x`: it enters the binding of `x` and comes back
      have hzx' : ReflTransGen (s.insert x t).Leads z x :=
        ReflTransGen.mono (extends_insert hx t).leads_le _ _ hzx
      exact hback w hw (hwy.trans (.head hyz hzx'))

end Occurs

end Clausal.Subst
