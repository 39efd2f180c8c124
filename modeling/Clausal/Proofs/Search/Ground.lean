import Mathlib.Data.List.Perm.Subperm
import Clausal.Proofs.Search.Inherited
import Clausal.Proofs.Search.Termination
import Clausal.Proofs.Unify.Evaluation

/-!
# Clausal.Proofs.Search.Ground — search among ground clauses

Where clauses have no variables, every goal is the query or a premise of a clause as it stands, and a goal that is
opened differs from its ancestors.  So no goal has more ancestors than there are such terms, and every search ends,
without any limits.

* `HornBase.IsGround`: no clause has a variable.
* `goalTerms`: what goals can be.
* `Unrepeated`: the invariant of such a search; `Unrepeated.turn` says what one turn preserves.
* `descends_of_isGround`: every turn lowers the cost for the depth that the number of goal terms allows.
* `Branch.IsWorkable`: the work that a turn does on a branch comes to an end; `Trace.isWorkable` says that this is so in
  every search.
* `ground_search_ends`: the main statement.
-/

namespace Clausal

/-- No clause has a variable. -/
def HornBase.IsGround (kb : HornBase) : Prop :=
  ∀ h ∈ kb.clauses, ∀ t ∈ Machine.clauseTerms h, t.isGround = true

instance (kb : HornBase) : Decidable kb.IsGround :=
  inferInstanceAs (Decidable (∀ h ∈ kb.clauses, ∀ t ∈ Machine.clauseTerms h, t.isGround = true))

namespace Machine

variable {kb : HornBase} {limits : Limits} {query : Term} {m m' : Machine}

/-! ## Goals -/

section Goals

/-- What goals can be: the query and the premises of the clauses. -/
def goalTerms (kb : HornBase) (query : Term) : List Term :=
  query :: kb.clauses.flatMap HornClause.premises

/-- A ground clause is used as it is. -/
theorem premises_renameClause (hkb : kb.IsGround) {h : HornClause} (hmem : h ∈ kb.clauses) (k : Nat) :
    (renameClause h k).1.2 = h.premises := by
  have hcopy : ∀ t ∈ h.premises, copyTerm h k t = t := fun t ht =>
    Term.mapVars_of_isGround (hkb h hmem t (List.mem_cons_of_mem _ ht)) _
  rw [renameClause_eq, List.map_congr_left hcopy, List.map_id']

/-- A goal and its ancestors are among `terms`, and no ancestor comes twice. -/
structure Lineal (terms : List Term) (g : Goal) : Prop where
  term : g.term ∈ terms
  ancestors : g.ancestors ⊆ terms
  nodup : g.ancestors.Nodup

theorem Lineal.length_le {terms : List Term} {g : Goal} (hg : Lineal terms g) : g.ancestors.length ≤ terms.length :=
  (List.subperm_of_subset hg.nodup hg.ancestors).length_le

theorem repeatedFrom_none {s : Subst} {goal : Term} {ancestors : List Term}
    (h : repeatedFrom s goal ancestors = none) : ∀ a ∈ ancestors, s.resolvesTo a goal = false := by
  induction ancestors with
  | nil => nofun
  | cons a ancestors ih =>
    rw [repeatedFrom] at h
    split at h
    · cases h
    · next hne =>
      exact List.forall_mem_cons.mpr ⟨by simpa using hne, ih (Option.map_eq_none_iff.mp h)⟩

/-- A goal that is opened is none of its ancestors. -/
theorem notMem_ancestors_of_checkGoal {b : Branch} (h : checkGoal limits b = .ok true) :
    b.goal.term ∉ b.goal.ancestors := by
  intro hmem
  unfold checkGoal at h
  split at h
  · next hnil =>
    rw [List.isEmpty_iff] at hnil
    rw [hnil] at hmem
    cases hmem
  · split at h
    · cases h
    · dsimp only at h
      split at h
      · next hnone =>
        have hne := repeatedFrom_none hnone _ hmem
        rw [Subst.resolvesTo_eq, Term.same_refl] at hne
        cases hne
      · split at h <;> cases h

end Goals

/-! ## Turns -/

section Turns

/-- The goal of a choice point is none of its ancestors, and clauses of `kb` are to be tried on it. -/
structure Opened (kb : HornBase) (query : Term) (p : ChoicePoint) : Prop where
  goals : ∀ g ∈ Branch.goals p.branch, Lineal (goalTerms kb query) g
  new : p.branch.goal.term ∉ p.branch.goal.ancestors
  untried : p.untried ⊆ kb.clauses

/-- No goal of the search has an ancestor twice. -/
structure Unrepeated (kb : HornBase) (query : Term) (m : Machine) : Prop where
  pending : ∀ b, m.pending = some b → ∀ g ∈ Branch.goals b, Lineal (goalTerms kb query) g
  stack : ∀ p ∈ m.stack, Opened kb query p

theorem unrepeated_start (kb : HornBase) (query : Term) : Unrepeated kb query (.start query) where
  pending := by
    rintro _ ⟨⟩ g hg
    obtain rfl := List.mem_singleton.mp hg
    exact ⟨List.mem_cons_self, List.nil_subset _, List.nodup_nil⟩
  stack p hp := nomatch hp

theorem unrepeated_of_not_pending (hpend : m.pending = none) (h : ∀ p ∈ m.stack, Opened kb query p) :
    Unrepeated kb query m where
  pending b hb := by
    rw [hpend] at hb
    cases hb
  stack := h

/-- The goals that come of a clause applied to the goal of a choice point. -/
theorem Opened.next (hkb : kb.IsGround) {p : ChoicePoint} (hp : Opened kb query p) {h : HornClause}
    (hh : h ∈ p.untried) (k : Nat) :
    ∀ g ∈ Branch.next p.branch (renameClause h k).1.2, Lineal (goalTerms kb query) g := by
  obtain ⟨hgoal, hafter⟩ := List.forall_mem_cons.mp hp.goals
  intro g hg
  rw [premises_renameClause hkb (hp.untried hh)] at hg
  rcases mem_next.mp hg with ⟨t, ht, rfl⟩ | hg
  · exact {
      term := List.mem_cons_of_mem _ (List.mem_flatMap.mpr ⟨h, hp.untried hh, ht⟩)
      ancestors := List.cons_subset.mpr ⟨hgoal.term, hgoal.ancestors⟩
      nodup := List.nodup_cons.mpr ⟨hp.new, hgoal.nodup⟩ }
  · exact hafter g hg

/-- After a clause was applied to the goal of a choice point, all is as before, and the new goals are descendants. -/
theorem Unrepeated.apply (hkb : kb.IsGround) (hm : Unrepeated kb query m) {b : Branch} {pre untried : List HornClause}
    {h : HornClause} {stack : List ChoicePoint} (hstack : m.stack = ⟨b, pre ++ h :: untried⟩ :: stack) (k : Nat) :
    (∀ p ∈ ⟨b, untried⟩ :: stack, Opened kb query p) ∧
      ∀ g ∈ Branch.next b (renameClause h k).1.2, Lineal (goalTerms kb query) g := by
  have hall := hm.stack
  rw [hstack] at hall
  obtain ⟨hp, hrest⟩ := List.forall_mem_cons.mp hall
  refine ⟨List.forall_mem_cons.mpr ⟨⟨hp.goals, hp.new, fun c hc => hp.untried ?_⟩, hrest⟩, hp.next hkb ?_ k⟩
  · exact List.mem_append_right pre (List.mem_cons_of_mem h hc)
  · exact List.mem_append_right pre List.mem_cons_self

/-- What one turn preserves. -/
theorem Unrepeated.turn (hkb : kb.IsGround) (hm : Unrepeated kb query m) {result : Progress}
    (hturn : Turn kb limits m result) (hm' : continued result = some m') : Unrepeated kb query m' := by
  cases hturn with
  | halted _ | exhausted _ _ _ | interrupted _ | refused _ _ _ _ | spent _ _ _ _ _ _ _ _ => cases hm'
  | pruned b _ _ =>
    cases hm'
    exact unrepeated_of_not_pending rfl hm.stack
  | opened b hb hgo =>
    cases hm'
    have hpoint : Opened kb query ⟨b, kb.clauses⟩ :=
      ⟨hm.pending b hb, notMem_ancestors_of_checkGoal hgo, List.Subset.refl _⟩
    exact unrepeated_of_not_pending rfl (List.forall_mem_cons.mpr ⟨hpoint, hm.stack⟩)
  | failed p stack steps n hpend hstack _ _ =>
    cases hm'
    refine unrepeated_of_not_pending hpend fun q hq => hm.stack q ?_
    rw [hstack]
    exact List.mem_cons_of_mem p hq
  | applied b pre h untried stack k s goal rest steps n hpend hstack _ hnext =>
    cases hm'
    obtain ⟨hpoints, hgoals⟩ := hm.apply hkb hstack k
    refine ⟨?_, hpoints⟩
    rintro _ ⟨⟩
    rw [hnext] at hgoals
    exact hgoals
  | answered b pre h untried stack k s steps n hpend hstack _ _ =>
    cases hm'
    exact unrepeated_of_not_pending hpend (hm.apply hkb hstack k).1

/-- No goal of such a search has more ancestors than there are goal terms. -/
theorem descends_of_isGround (hkb : kb.IsGround) (limits : Limits) (query : Term) :
    Descends kb limits (Unrepeated kb query) (cost kb ((goalTerms kb query).length + 1)) :=
  descends_of_open (fun {now m _} hm hcont => hm.turn hkb (turn_step kb limits now m) hcont)
    fun _ b _ hm hb _ => Nat.lt_succ_of_le (hm.pending b hb b.goal List.mem_cons_self).length_le

end Turns

/-! ## Searches that end -/

section Ends

/-- Under the substitution of the branch, following bindings comes to an end, and so does unification. -/
structure Branch.IsWorkable (b : Branch) : Prop where
  calls : ∀ t, Acc b.subst.Calls t
  evaluates : ∀ x y r, Unify.Evaluates [(x, y)] b.subst r ↔ r = unify x y b.subst

theorem Branch.isWorkable_of_acyclic {b : Branch} (hb : b.subst.Acyclic) : Branch.IsWorkable b where
  calls := Subst.acc_calls hb
  evaluates x y r := by
    have hends := Unify.evaluates_unify hb x y
    refine ⟨fun hr => hr.unique hends, ?_⟩
    rintro rfl
    exact hends

/-- `b` is pending, or there is a choice point for it. -/
def HasBranch (m : Machine) (b : Branch) : Prop :=
  m.pending = some b ∨ ∃ p ∈ m.stack, p.branch = b

/-- No search comes to a branch on which the work of a turn does not end. -/
theorem Trace.isWorkable {out : List (Except SolveError Subst)} {b : Branch} (ht : Trace kb limits query out m)
    (hb : m.HasBranch b) : Branch.IsWorkable b := by
  have hm := ((kept_acyclic kb).trace Subst.acyclic_empty ht).1
  rcases hb with hb | ⟨p, hp, rfl⟩
  · exact Branch.isWorkable_of_acyclic (hm.pending b hb)
  · exact Branch.isWorkable_of_acyclic (hm.stack p hp).1

/-- **Ground searches end.**  If no clause has a variable, there is a number of turns that is enough for every request,
and after that many requests there are no more results, whatever the query, the limits, none included, the policy on
repeated goals, and what the world says at each turn.  What a turn does within itself comes to an end as well. -/
theorem ground_search_ends (kb : HornBase) (hkb : kb.IsGround) (limits : Limits) (query : Term) :
    (∃ bound, ∀ world i, ∃ r, response? kb limits bound world (.start query) i = some r ∧ (bound ≤ i → r = none)) ∧
    ∀ out m, Trace kb limits query out m → ∀ b, m.HasBranch b → Branch.IsWorkable b :=
  ⟨(descends_of_isGround hkb limits query).ends (unrepeated_start kb query), fun _ _ ht _ hb => ht.isWorkable hb⟩

/-- `p(a) ← p(b)`, `p(b) ← p(a)` and `p(c)`. -/
def ringBase : HornBase :=
  let p (neg : Bool) (a : String) : Term := .rel neg "p" [.const a]
  ⟨[⟨⟨false, [p false "a", p true "b"]⟩, p false "a", rfl⟩,
    ⟨⟨false, [p false "b", p true "a"]⟩, p false "b", rfl⟩,
    ⟨⟨false, [p false "c"]⟩, p false "c", rfl⟩]⟩

/-- Without limits, the search for `p(X)` goes around the ring and ends: by an error, or past the ring at `p(c)`. -/
theorem ringBase_ends :
    ringBase.IsGround ∧ ∀ policy, ∃ bound, ∀ world i, ∃ r,
      response? ringBase (unlimited policy) bound world (.start (.rel false "p" [.var false "X"])) i = some r ∧
        (bound ≤ i → r = none) := by
  have hground : ringBase.IsGround := by decide
  exact ⟨hground, fun policy => (ground_search_ends ringBase hground (unlimited policy) _).1⟩

end Ends

end Machine

end Clausal
