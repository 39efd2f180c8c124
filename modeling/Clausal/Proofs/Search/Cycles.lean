import Mathlib.Data.List.Chain
import Mathlib.Logic.Relation
import Clausal.Proofs.Search.Inherited
import Clausal.Proofs.Search.Requests
import Clausal.Proofs.Search.Soundness

/-!
# Clausal.Proofs.Search.Cycles — what a repeated goal shows

The ancestors of a goal are kept as they stood when a clause was applied to them, and are read under the substitution of
the branch when a goal is compared with them.  However far the search has come by then, some instance of a clause has
the parent of a goal as its head and the goal among its premises.

* `DependsOn kb t u`: an instance of a clause has the head `t`, and `u` among its premises.
* `Ancestry kb goals s`: the invariant, that under each replacement that agrees with the bindings every goal and its
  ancestors are a chain; `Ancestry.resolve` says that a rule application preserves it.
* `Circle kb b gs`: goals of a branch, from one that the selected goal repeats down to it, of which each depends on the
  next.
* `Trace.exists_refused`: an error about a repeated goal comes from a branch that was refused.
* `cycles_genuine`: the main statement.
-/

namespace Clausal.Machine

open Relation

variable {kb : HornBase} {limits : Limits} {query : Term} {m m' : Machine} {b : Branch} {s : Subst} {n : Nat}

/-! ## Dependence -/

section Dependence

/-- Some first-order instance of a clause has the head `t`, and `u` is one of its premises. -/
def DependsOn (kb : HornBase) (t u : Term) : Prop :=
  ∃ h ∈ kb.clauses, ∃ θ : String → Term, (∀ x, (θ x).isFirstOrder = true) ∧
    t = h.head.mapVars θ ∧ ∃ p ∈ h.premises, u = p.mapVars θ

/-- An instance of a copy of a clause is an instance of the clause. -/
theorem dependsOn_copyTerm {h : HornClause} (hmem : h ∈ kb.clauses) {p : Term} (hp : p ∈ h.premises) (k : Nat)
    {σ : String → Term} (hσ : ∀ x, (σ x).isFirstOrder = true) :
    DependsOn kb ((copyTerm h k h.head).mapVars σ) ((copyTerm h k p).mapVars σ) := by
  refine ⟨h, hmem, fun x => (Term.var false (copyName h k x)).mapVars σ, fun x => ?_, ?_, p, hp, ?_⟩
  · exact hσ (copyName h k x)
  · rw [copyTerm, Term.mapVars_mapVars]
  · rw [copyTerm, Term.mapVars_mapVars]

/-- What stands at the end of a chain is reached from its beginning. -/
theorem transGen_of_isChain {R : Term → Term → Prop} {first last : Term} {between : List Term}
    (h : (first :: between ++ [last]).IsChain R) : TransGen R first last := by
  induction between generalizing first with
  | nil => exact .single (List.isChain_pair.mp h)
  | cons t between ih =>
    obtain ⟨hfirst, hrest⟩ := List.isChain_cons_cons.mp h
    exact .head hfirst (ih hrest)

end Dependence

/-! ## First-order terms -/

section FirstOrder

theorem closed_isFirstOrder : Unify.Closed fun t => t.isFirstOrder = true where
  rel n a ts h t ht := by
    rw [Term.isFirstOrder, Term.areFirstOrder_eq_true] at h
    exact h t ht
  fn n a t h := h
  signed n x t _ ht := by rwa [Term.isFirstOrder_signed]

theorem inherited_isFirstOrder (hkb : ∀ h ∈ kb.clauses, ∀ t ∈ clauseTerms h, t.isFirstOrder = true) :
    Inherited kb fun _ t => t.isFirstOrder = true where
  mono _ h := h
  copy hmem ht := Term.isFirstOrder_mapVars (hkb _ hmem _ ht) fun _ _ => rfl
  closed _ := closed_isFirstOrder
  var _ _ := rfl
  mapVars ht hf := Term.isFirstOrder_mapVars ht hf

/-- What variables stand for. -/
theorem isFirstOrder_value (hs : ∀ x t, s.get? x = some t → t.isFirstOrder = true) (x : String) :
    (s.value x).isFirstOrder = true := by
  have happly : (s.apply (.var false x)).isFirstOrder = true :=
    Subst.apply_induct (Q := fun t => t.isFirstOrder = true) (fun _ _ _ _ => rfl)
      (fun _ _ ht hf => Term.isFirstOrder_mapVars ht hf) hs rfl
  rwa [Subst.apply_var, Term.isFirstOrder_signed] at happly

end FirstOrder

/-! ## The ancestors of a goal -/

section Ancestors

/-- Under every first-order replacement that agrees with the bindings, the ancestors of a goal depend on each other, and
the last of them on the goal. -/
structure Ancestry (kb : HornBase) (goals : List Goal) (s : Subst) : Prop where
  acyclic : s.Acyclic
  chain : ∀ σ : String → Term, s.Admits σ → (∀ x, (σ x).isFirstOrder = true) → ∀ g ∈ goals,
    ((g.term :: g.ancestors).map (Term.mapVars σ)).IsChain fun child parent => DependsOn kb parent child

theorem ancestry_start (kb : HornBase) (query : Term) : Ancestry kb [⟨query, []⟩] .empty where
  acyclic := Subst.acyclic_empty
  chain σ _ _ g hg := by
    obtain rfl := List.mem_singleton.mp hg
    exact List.isChain_singleton _

/-- A premise of the copy that was applied depends on the goal that it was applied to, for that is the head of the
copy. -/
theorem Ancestry.resolve {h : HornClause} {k : Nat} (hb : Ancestry kb (Branch.goals b) b.subst) (hmem : h ∈ kb.clauses)
    (hu : unify (renameClause h k).1.1 (b.subst.apply b.goal.term) b.subst = some s) :
    Ancestry kb (Branch.next b (renameClause h k).1.2) s := by
  rw [renameClause_eq] at hu ⊢
  have hsolved := Unify.solved_of_unify hu
  refine ⟨hsolved.acyclic hb.acyclic, fun σ hσ hfo g hg => ?_⟩
  have hold := hb.chain σ (hσ.of_extends hsolved.extends) hfo
  rcases mem_next.mp hg with ⟨q, hq, rfl⟩ | hg
  · obtain ⟨p, hp, rfl⟩ := List.mem_map.mp hq
    have hhead : (copyTerm h k h.head).mapVars σ = b.goal.term.mapVars σ := mapVars_eq_of_unify hb.acyclic hu hσ
    refine List.isChain_cons_cons.mpr ⟨?_, hold b.goal List.mem_cons_self⟩
    rw [← hhead]
    exact dependsOn_copyTerm hmem hp k hfo
  · exact hold g (List.mem_cons_of_mem _ hg)

theorem kept_ancestry (kb : HornBase) : Kept kb fun _ => Ancestry kb where
  mono _ h := h
  resolve hb hmem _ hu := hb.resolve hmem hu

end Ancestors

/-! ## Repeated goals -/

section Repeated

/-- Goals of a branch, from an ancestor of the selected goal down to it, under the substitution of the branch: each
depends on the next, and the first and the last are the same. -/
structure Circle (kb : HornBase) (b : Branch) (gs : List Term) : Prop where
  lineage : gs.reverse <+: (b.goal.term :: b.goal.ancestors).map b.subst.apply
  depends : gs.IsChain (DependsOn kb)
  closed : ∃ first between last, gs = first :: between ++ [last] ∧ first.same last = true

/-- The goals that are named when a goal is repeated. -/
theorem exists_split_of_repeatedFrom {goal : Term} {ancestors path : List Term}
    (h : repeatedFrom s goal ancestors = some path) :
    ∃ pre a post, ancestors = pre ++ a :: post ∧ (s.apply a).same goal = true ∧
      path = s.apply a :: (pre.map s.apply).reverse := by
  induction ancestors generalizing path with
  | nil => cases h
  | cons a as ih =>
    unfold repeatedFrom at h
    split at h
    · next hsame =>
      cases h
      exact ⟨[], a, as, rfl, by rwa [← Subst.resolvesTo_eq], rfl⟩
    · obtain ⟨path', hpath, rfl⟩ := Option.map_eq_some_iff.mp h
      obtain ⟨pre, a', post, rfl, hsame, rfl⟩ := ih hpath
      refine ⟨a :: pre, a', post, rfl, hsame, ?_⟩
      rw [List.map_cons, List.reverse_cons, List.cons_append]

theorem exists_repeatedFrom_of_checkGoal {path : List String} (h : checkGoal limits b = .error (.cycle path)) :
    ∃ p, repeatedFrom b.subst (b.subst.apply b.goal.term) b.goal.ancestors = some p ∧
      path = (p ++ [b.subst.apply b.goal.term]).map Term.render := by
  unfold checkGoal at h
  split at h
  · cases h
  · split at h
    · cases h
    · dsimp only at h
      split at h
      · cases h
      · next p hp =>
        split at h
        · cases h
          exact ⟨p, hp, rfl⟩
        · cases h

/-- A branch whose ancestors are a chain is refused for a circle only. -/
theorem exists_circle_of_checkGoal (hb : Ancestry kb (Branch.goals b) b.subst)
    (hfo : ∀ x t, b.subst.get? x = some t → t.isFirstOrder = true) {path : List String}
    (h : checkGoal limits b = .error (.cycle path)) : ∃ gs, path = gs.map Term.render ∧ Circle kb b gs := by
  obtain ⟨p, hp, hpath⟩ := exists_repeatedFrom_of_checkGoal h
  obtain ⟨pre, a, post, hanc, hsame, rfl⟩ := exists_split_of_repeatedFrom hp
  have hchain := hb.chain b.subst.value (Subst.admits_value hb.acyclic) (isFirstOrder_value hfo) b.goal
    List.mem_cons_self
  have hlineage : (b.subst.apply b.goal.term :: pre.map b.subst.apply ++ [b.subst.apply a]) ++
      post.map b.subst.apply = (b.goal.term :: b.goal.ancestors).map b.subst.apply := by
    simp [hanc]
  have hreverse : (b.subst.apply a :: (pre.map b.subst.apply).reverse ++ [b.subst.apply b.goal.term]).reverse =
      b.subst.apply b.goal.term :: pre.map b.subst.apply ++ [b.subst.apply a] := by
    simp
  refine ⟨_, hpath, ⟨post.map b.subst.apply, ?_⟩, ?_, ⟨_, _, _, rfl, hsame⟩⟩
  · rw [hreverse, hlineage]
  · -- the chain of a goal and its ancestors goes up, that of a circle goes down
    change ((b.goal.term :: b.goal.ancestors).map b.subst.apply).IsChain _ at hchain
    rw [← hlineage, ← hreverse] at hchain
    exact List.isChain_reverse.mp hchain.left_of_append

end Repeated

/-! ## Errors -/

section Errors

variable {out : List (Except SolveError Subst)} {path : List String}

theorem interruption_ne_cycle (limits : Limits) (now : Signals) (path : List String) :
    interruption limits now ≠ some (.cycle path) := by
  unfold interruption
  split
  · nofun
  · cases limits.timeoutMs.filter (· < now.elapsedMs) <;> nofun

/-- Only a branch that is refused makes for an error about a repeated goal. -/
theorem exists_refused_of_step {now : Signals} (h : step kb limits now m = .stopped (.cycle path) m') :
    ∃ b, m.pending = some b ∧ checkGoal limits b = .error (.cycle path) := by
  rcases cause_of_stopped h with he | hrefused | ⟨limit, goal, s, clauses, steps, n, steps', n', -, he⟩
  · exact absurd he (interruption_ne_cycle limits now path)
  · exact hrefused
  · cases he

theorem Trace.exists_refused (ht : Trace kb limits query out m) (h : .error (.cycle path) ∈ out) :
    ∃ out₀ m₀ b, Trace kb limits query out₀ m₀ ∧ m₀.pending = some b ∧ checkGoal limits b = .error (.cycle path) := by
  induction ht with
  | start => cases h
  | running now _ _ ih | finished now _ _ ih => exact ih h
  | answer now ht hstep ih =>
    rcases List.mem_append.mp h with h | h
    · exact ih h
    · simp at h
  | @stopped out m m' e now ht hstep ih =>
    rcases List.mem_append.mp h with h | h
    · exact ih h
    · obtain rfl : SolveError.cycle path = e := by simpa using h
      obtain ⟨b, hb, hcheck⟩ := exists_refused_of_step hstep
      exact ⟨out, m, b, ht, hb, hcheck⟩

/-- An error about a repeated goal shows a circle in a branch that the search has come to. -/
theorem Trace.exists_circle (hkb : ∀ h ∈ kb.clauses, ∀ t ∈ clauseTerms h, t.isFirstOrder = true)
    (hquery : query.isFirstOrder = true) (ht : Trace kb limits query out m) (h : .error (.cycle path) ∈ out) :
    ∃ out₀ m₀ b gs, Trace kb limits query out₀ m₀ ∧ m₀.pending = some b ∧
      checkGoal limits b = .error (.cycle path) ∧ path = gs.map Term.render ∧ Circle kb b gs := by
  obtain ⟨out₀, m₀, b, ht₀, hb, hcheck⟩ := ht.exists_refused h
  have hancestry := ((kept_ancestry kb).trace (ancestry_start kb query) ht₀).1.pending b hb
  have hfo := ((inherited_isFirstOrder hkb).kept.trace (throughout_start hquery) ht₀).1.pending b hb
  obtain ⟨gs, hpath, hcircle⟩ := exists_circle_of_checkGoal hancestry (fun x t hx => (hfo.bindings x t hx).2) hcheck
  exact ⟨out₀, m₀, b, gs, ht₀, hb, hcheck, hpath, hcircle⟩

/-- **Errors about repeated goals are genuine.**  Let the clauses and the query be first-order.  Whatever the limits and
whatever the world says, if the search responds to a request that a goal is repeated, the goals that it names are those
of a circle in a branch that it has come to and refused.  So if nothing depends on what is the same as itself, through
one or more instances of clauses, the search never responds so. -/
theorem cycles_genuine (kb : HornBase) (query : Term) (limits : Limits)
    (hkb : ∀ h ∈ kb.clauses, ∀ t ∈ clauseTerms h, t.isFirstOrder = true) (hquery : query.isFirstOrder = true) :
    (∀ world fuel i path, response? kb limits fuel world (.start query) i = some (some (.error (.cycle path))) →
      ∃ out m b gs, Trace kb limits query out m ∧ m.pending = some b ∧
        checkGoal limits b = .error (.cycle path) ∧ path = gs.map Term.render ∧ Circle kb b gs) ∧
    ((∀ t u, TransGen (DependsOn kb) t u → t.same u = false) →
      ∀ world fuel i path, response? kb limits fuel world (.start query) i ≠ some (some (.error (.cycle path)))) := by
  have hcircle : ∀ world fuel i path,
      response? kb limits fuel world (.start query) i = some (some (.error (.cycle path))) →
      ∃ out m b gs, Trace kb limits query out m ∧ m.pending = some b ∧
        checkGoal limits b = .error (.cycle path) ∧ path = gs.map Term.render ∧ Circle kb b gs := by
    intro world fuel i path h
    obtain ⟨out, m, ht, hmem⟩ := Trace.start.exists_mem_of_response? h
    exact ht.exists_circle hkb hquery hmem
  refine ⟨hcircle, fun hacyclic world fuel i path h => ?_⟩
  obtain ⟨out, m, b, gs, -, -, -, -, hgs⟩ := hcircle world fuel i path h
  obtain ⟨first, between, last, rfl, hsame⟩ := hgs.closed
  have hdepends := transGen_of_isChain hgs.depends
  rw [hacyclic first last hdepends] at hsame
  cases hsame

/-- `p(X) ← q(f(X))` and `q(Y) ← p(a)`. -/
def mutualBase : HornBase :=
  ⟨[⟨⟨false, [.rel false "p" [.var false "X"], .rel true "q" [.fn false "f" (.var false "X")]]⟩,
      .rel false "p" [.var false "X"], rfl⟩,
    ⟨⟨false, [.rel false "q" [.var false "Y"], .rel true "p" [.const "a"]]⟩, .rel false "q" [.var false "Y"], rfl⟩]⟩

/-- `p(X) ← q(X)` and `q(a)`. -/
def layeredBase : HornBase :=
  ⟨[⟨⟨false, [.rel false "p" [.var false "X"], .rel true "q" [.var false "X"]]⟩, .rel false "p" [.var false "X"], rfl⟩,
    ⟨⟨false, [.rel false "q" [.const "a"]]⟩, .rel false "q" [.const "a"], rfl⟩]⟩

/-- What depends on something else in `layeredBase` has the symbol `p`, and what it depends on has `q`. -/
theorem layeredBase_acyclic (t u : Term) (h : TransGen (DependsOn layeredBase) t u) : t.same u = false := by
  have hstep : ∀ t u, DependsOn layeredBase t u → ∃ v w, t = .rel false "p" [v] ∧ u = .rel false "q" [w] := by
    rintro _ _ ⟨h, hh, θ, -, rfl, p, hp, rfl⟩
    simp only [layeredBase, List.mem_cons, List.not_mem_nil, or_false] at hh
    rcases hh with rfl | rfl
    · obtain rfl : p = .rel false "q" [.var false "X"] := List.mem_singleton.mp hp
      exact ⟨θ "X", θ "X", rfl, rfl⟩
    · cases hp
  have htrans : ∃ v w, t = .rel false "p" [v] ∧ u = .rel false "q" [w] := by
    induction h with
    | single h => exact hstep _ _ h
    | tail _ h ih =>
      -- nothing that something depends on depends on anything
      obtain ⟨_, _, _, rfl⟩ := ih
      obtain ⟨_, _, hp, -⟩ := hstep _ _ h
      simp at hp
  obtain ⟨v, w, rfl, rfl⟩ := htrans
  simp [Term.same]

/-- The search for `p(a)` comes over `q(f(a))` to `p(a)` again; in `layeredBase` no search comes upon a repeated
goal. -/
theorem mutualBase_circle :
    (∃ b gs, gs.map Term.render = ["p(a)", "q(f(a))", "p(a)"] ∧ Circle mutualBase b gs) ∧
    ∀ world fuel i path,
      response? layeredBase .unbounded fuel world (.start (.rel false "p" [.var false "Z"])) i ≠
        some (some (.error (.cycle path))) := by
  have hcycle : response? mutualBase .unbounded 5 (fun _ _ => ⟨false, 0⟩) (.start (.rel false "p" [.const "a"])) 0 =
      some (some (.error (.cycle ["p(a)", "q(f(a))", "p(a)"]))) := rfl
  constructor
  · obtain ⟨out, m, b, gs, -, -, -, hpath, hcircle⟩ :=
      (cycles_genuine mutualBase (.rel false "p" [.const "a"]) .unbounded (by decide) rfl).1 _ _ _ _ hcycle
    exact ⟨b, gs, hpath.symm, hcircle⟩
  · exact (cycles_genuine layeredBase (.rel false "p" [.var false "Z"]) .unbounded (by decide) rfl).2
      layeredBase_acyclic

end Errors

end Clausal.Machine
