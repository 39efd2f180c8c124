import Clausal.Proofs.Search.Apart
import Clausal.Proofs.Unify.Completeness

/-!
# Clausal.Proofs.Search.Completeness — an exhausted search has missed nothing

Fix a replacement `θ` under which the query is derivable.  At every moment of a search some answer has this instance,
or some branch is on the way to it (`Covers`): a replacement that agrees with `θ` on the query and with the bindings
makes the goals derivable, each by a proof that is shorter than every proof of the goals it descends from.

* `Covers.checkGoal_ne`: such a branch is never pruned, since a goal that equals an ancestor has no shorter proof.
* `mayMatch_of_mapVars_eq`, `Covers.next`: the clause that the proof of the selected goal ends with is not passed
  over, and applying it leads to such a branch again.
* `Trace.exhausted`: when nothing is left to try and there was no error, an answer has the instance.
-/

namespace Clausal.Machine

variable {kb : HornBase} {limits : Limits} {query : Term}

/-! ## The terms of a search -/

section Plain

/-- A first-order term without negated variables. -/
def Plain (t : Term) : Prop :=
  t.isFirstOrder = true ∧ t.isUnsigned = true

instance (t : Term) : Decidable (Plain t) :=
  inferInstanceAs (Decidable (_ ∧ _))

/-- Clauses and query are plain, and no variable of the query is a variable of a clause with a number. -/
structure Searchable (kb : HornBase) (query : Term) : Prop where
  clauses : ∀ h ∈ kb.clauses, ∀ t ∈ clauseTerms h, Plain t
  plain : Plain query
  apart : ∀ h ∈ kb.clauses, ∀ v ∈ clauseVariables h, ∀ n, suffixed v n ∉ query.variableNames

theorem plain_var (x : String) : Plain (.var false x) := ⟨rfl, rfl⟩

theorem Plain.mapVars {t : Term} {f : String → Term} (ht : Plain t) (hf : ∀ x, t.mentions x = true → Plain (f x)) :
    Plain (t.mapVars f) :=
  ⟨Term.isFirstOrder_mapVars ht.1 fun x hx => (hf x hx).1, Term.isUnsigned_mapVars ht.2 fun x hx => (hf x hx).2⟩

theorem closed_plain : Unify.Closed Plain where
  rel n a ts h t ht := by
    obtain ⟨hfo, hun⟩ := h
    rw [Term.isFirstOrder, Term.areFirstOrder_eq_true] at hfo
    rw [Term.isUnsigned, Term.areUnsigned_eq_true] at hun
    exact ⟨hfo t ht, hun t ht⟩
  fn n a t h := h
  signed n x t hx ht := by
    obtain rfl : n = false := by simpa [Plain, Term.isUnsigned] using hx.2
    exact ht

theorem inherited_plain (hkb : ∀ h ∈ kb.clauses, ∀ t ∈ clauseTerms h, Plain t) : Inherited kb fun _ => Plain where
  mono _ h := h
  copy hmem ht := (hkb _ hmem _ ht).mapVars fun _ _ => plain_var _
  closed _ := closed_plain
  var _ _ := plain_var _
  mapVars ht hf := ht.mapVars hf

/-- What is true of every branch of a search: its substitution is acyclic, its terms are plain and their names known. -/
structure Orderly (kb : HornBase) (query : Term) (n : Nat) (goals : List Goal) (s : Subst) : Prop where
  acyclic : s.Acyclic
  plain : Throughout (fun _ => Plain) n goals s
  known : Throughout (AllKnown kb query) n goals s

theorem kept_orderly (h : Searchable kb query) : Kept kb (Orderly kb query) where
  mono hnm ho :=
    ⟨ho.acyclic, ho.plain.mono (inherited_plain h.clauses) hnm, ho.known.mono (inherited_allKnown kb query) hnm⟩
  resolve ho hmem hnk hu :=
    ⟨(kept_acyclic kb).resolve ho.acyclic hmem hnk hu, ho.plain.resolve (inherited_plain h.clauses) hmem hnk hu,
      ho.known.resolve (inherited_allKnown kb query) hmem hnk hu⟩

theorem orderly_start (h : Searchable kb query) : Orderly kb query 0 [⟨query, []⟩] .empty :=
  ⟨Subst.acyclic_empty, throughout_start h.plain, throughout_start fun _ hx => .inl hx⟩

variable {n : Nat} {goals : List Goal} {s : Subst}

/-- A goal or one of its ancestors, under the substitution. -/
theorem Orderly.plain_apply (ho : Orderly kb query n goals s) {g : Goal} (hg : g ∈ goals) {t : Term}
    (ht : t ∈ g.term :: g.ancestors) : Plain (s.apply t) :=
  Subst.apply_induct (fun _ _ _ _ => plain_var _) (fun _ _ ht hf => ht.mapVars hf)
    (fun x b hb => (ho.plain.bindings x b hb).2) (ho.plain.goals g hg t ht)

end Plain

/-! ## Branches on the way to an instance -/

section Covers

/-- `σ` extends `θ` from the query to the branch and makes its goals derivable, by ever shorter proofs. -/
structure Covers (kb : HornBase) (query : Term) (θ : String → Term) (goals : List Goal) (s : Subst)
    (σ : String → Term) : Prop where
  agrees : ∀ x, query.mentions x = true → σ x = θ x
  admits : s.Admits σ
  derivable : ∀ g ∈ goals, Derivable kb (g.term.mapVars σ)
  shorter : ∀ g ∈ goals, ∀ a ∈ g.ancestors, Shorter kb (g.term.mapVars σ) (a.mapVars σ)

/-- A proof of `t` ends with the rule `h`, under `τ`. -/
structure EndsWith (kb : HornBase) (t : Term) (h : HornClause) (τ : String → Term) : Prop where
  head : t = h.head.mapVars τ
  premises : ∀ p ∈ h.premises, Shorter kb (p.mapVars τ) t

variable {θ σ τ : String → Term} {goals : List Goal} {s : Subst} {n k : Nat}

theorem covers_start (h : Derivable kb (query.mapVars θ)) : Covers kb query θ [⟨query, []⟩] .empty θ where
  agrees _ _ := rfl
  admits := Subst.admits_empty θ
  derivable := by
    intro g hg
    obtain rfl := List.mem_singleton.mp hg
    exact h
  shorter := by
    intro g hg a ha
    obtain rfl := List.mem_singleton.mp hg
    cases ha

/-- When nothing is left to prove, the instance is one of the answer. -/
theorem Covers.answer (hs : s.Acyclic) (hc : Covers kb query θ goals s σ) :
    query.mapVars θ = (s.apply query).mapVars σ := by
  rw [hc.admits.mapVars_apply hs]
  exact Term.mapVars_congr fun x hx => (hc.agrees x hx).symm

theorem repeatedFrom_some {goal : Term} {ancestors path : List Term} (h : repeatedFrom s goal ancestors = some path) :
    ∃ a ∈ ancestors, s.resolvesTo a goal = true := by
  induction ancestors generalizing path with
  | nil => cases h
  | cons a as ih =>
    unfold repeatedFrom at h
    split at h
    · next ha => exact ⟨a, List.mem_cons_self, ha⟩
    · obtain ⟨path', hpath, -⟩ := Option.map_eq_some_iff.mp h
      obtain ⟨a', ha', hres⟩ := ih hpath
      exact ⟨a', List.mem_cons_of_mem a ha', hres⟩

theorem repeatedFrom_of_checkGoal {b : Branch} (h : checkGoal limits b = .ok false) :
    ∃ path, repeatedFrom b.subst (b.subst.apply b.goal.term) b.goal.ancestors = some path := by
  unfold checkGoal at h
  split at h
  · cases h
  · split at h
    · cases h
    · dsimp only at h
      split at h
      · cases h
      · next path hpath => exact ⟨path, hpath⟩

/-- A branch on the way to an instance is not pruned. -/
theorem Covers.checkGoal_ne {b : Branch} (ho : Orderly kb query n (Branch.goals b) b.subst)
    (hc : Covers kb query θ (Branch.goals b) b.subst σ) : checkGoal limits b ≠ .ok false := by
  intro hpruned
  obtain ⟨path, hpath⟩ := repeatedFrom_of_checkGoal hpruned
  obtain ⟨a, ha, hres⟩ := repeatedFrom_some hpath
  have hgoal : b.goal ∈ Branch.goals b := List.mem_cons_self
  rw [Subst.resolvesTo_eq] at hres
  have heq : b.subst.apply a = b.subst.apply b.goal.term :=
    Term.eq_of_same (ho.plain_apply hgoal (List.mem_cons_of_mem _ ha)).2 (ho.plain_apply hgoal List.mem_cons_self).2 hres
  refine (hc.shorter b.goal hgoal a ha).ne ?_
  rw [← hc.admits.mapVars_apply ho.acyclic, ← heq, hc.admits.mapVars_apply ho.acyclic]

/-- The quick test passes every pair of terms with a common instance. -/
theorem mayMatch_of_mapVars_eq {t u : Term} (ht : t.isFirstOrder = true) (h : t.mapVars τ = u.mapVars σ) :
    mayMatch t u = true := by
  cases t with
  | var n x => cases u <;> rfl
  | lit n a =>
    cases u <;> simp_all [mayMatch, Term.mapVars]
  | rel n a ts =>
    cases u with
    | rel m b us =>
      simp only [Term.mapVars, Term.mapVarsAll_eq_map, Term.rel.injEq] at h
      obtain ⟨rfl, rfl, hargs⟩ := h
      have hlen : ts.length = us.length := by simpa using congrArg List.length hargs
      simp [mayMatch, hlen]
    | var m y => rfl
    | _ => cases h
  | fn n a t => cases u <;> simp_all [mayMatch, Term.mapVars]
  | quant n q x t | conn n c l r | freeClause n ts => cases ht

/-- `σ`, except that the suffixed variables of `h` stand for what `τ` gives the variables. -/
def graft (σ τ : String → Term) (h : HornClause) (k : Nat) (x : String) : Term :=
  match (clauseVariables h).find? (fun v => suffixed v k == x) with
  | some v => τ v
  | none => σ x

theorem graft_suffixed {h : HornClause} {v : String} (hv : v ∈ clauseVariables h) :
    graft σ τ h k (suffixed v k) = τ v := by
  unfold graft
  cases hf : (clauseVariables h).find? (fun w => suffixed w k == suffixed v k) with
  | none =>
    have hnone := List.find?_eq_none.mp hf v hv
    simp at hnone
  | some w =>
    have hw : suffixed w k = suffixed v k := by simpa using List.find?_some hf
    rw [(suffixed_inj.mp hw).1]

theorem graft_of_known (hs : Searchable kb query) {h : HornClause} (hmem : h ∈ kb.clauses) (hnk : n ≤ k) {x : String}
    (hx : Known kb query n x) : graft σ τ h k x = σ x := by
  unfold graft
  cases hf : (clauseVariables h).find? (fun v => suffixed v k == x) with
  | none => rfl
  | some v =>
    -- a suffixed variable of `h` with a new number is not known
    obtain rfl : suffixed v k = x := by simpa using List.find?_some hf
    rcases known_suffixed hnk hx with hq | ⟨c, hc, hb⟩
    · exact absurd hq (hs.apart h hmem v (List.mem_of_find?_eq_some hf) k)
    · exact absurd hb (not_binds_of_isFirstOrder (fun t ht => (hs.clauses c hc t ht).1) _)

theorem mapVars_graft (hs : Searchable kb query) {h : HornClause} (hmem : h ∈ kb.clauses) (hnk : n ≤ k) {t : Term}
    (ht : AllKnown kb query n t) : t.mapVars (graft σ τ h k) = t.mapVars σ :=
  Term.mapVars_congr fun x hx => graft_of_known hs hmem hnk (ht x (Term.mem_variableNames.mpr (.inl hx)))

/-- In the copy, `graft` does what `τ` does in the clause. -/
theorem mapVars_graft_copyTerm {h : HornClause} {t : Term} (ht : t ∈ clauseTerms h) (hplain : Plain t) :
    (copyTerm h k t).mapVars (graft σ τ h k) = t.mapVars τ := by
  rw [copyTerm, Term.mapVars_mapVars]
  refine Term.mapVars_congr fun x hx => ?_
  have hfree := Term.mem_freeVars.mp (Term.mem_freeVars_of_isFirstOrder hplain.1 hx)
  have hv : x ∈ clauseVariables h := mem_clauseVariables.mpr ⟨t, ht, hfree⟩
  rw [copyName_of_mem hv, Term.mapVars, Term.signed_false, graft_suffixed hv]

/-- The rule that a proof of the selected goal ends with applies, and leads on towards the instance. -/
theorem Covers.next (hs : Searchable kb query) {b : Branch} (ho : Orderly kb query n (Branch.goals b) b.subst)
    (hc : Covers kb query θ (Branch.goals b) b.subst σ) {h : HornClause} (hmem : h ∈ kb.clauses)
    (hend : EndsWith kb (b.goal.term.mapVars σ) h τ) (hnk : n ≤ k) :
    ∃ s, unify (renameClause h k).1.1 (b.subst.apply b.goal.term) b.subst = some s ∧
      Covers kb query θ (Branch.next b (renameClause h k).1.2) s (graft σ τ h k) := by
  have hgoal : b.goal ∈ Branch.goals b := List.mem_cons_self
  -- `graft` does to the branch what `σ` does
  have hterm : ∀ g ∈ Branch.goals b, ∀ t ∈ g.term :: g.ancestors, t.mapVars (graft σ τ h k) = t.mapVars σ :=
    fun g hg t ht => mapVars_graft hs hmem hnk (ho.known.goals g hg t ht)
  have hgterm : ∀ g ∈ Branch.goals b, g.term.mapVars (graft σ τ h k) = g.term.mapVars σ :=
    fun g hg => hterm g hg _ List.mem_cons_self
  have hadmits : b.subst.Admits (graft σ τ h k) := by
    intro x t hx
    obtain ⟨⟨m, hkey⟩, hval⟩ := ho.known.bindings x t hx
    rw [graft_of_known hs hmem hnk (hkey x List.mem_cons_self), mapVars_graft hs hmem hnk hval]
    exact hc.admits x t hx
  have hcopy : ∀ t ∈ clauseTerms h, (copyTerm h k t).mapVars (graft σ τ h k) = t.mapVars τ :=
    fun t ht => mapVars_graft_copyTerm ht (hs.clauses h hmem t ht)
  have heq : (copyTerm h k h.head).mapVars (graft σ τ h k) = (b.subst.apply b.goal.term).mapVars (graft σ τ h k) := by
    rw [hcopy _ List.mem_cons_self, hadmits.mapVars_apply ho.acyclic, hgterm b.goal hgoal, hend.head]
  have hhead : (copyTerm h k h.head).isFirstOrder = true :=
    ((inherited_plain hs.clauses).copy (k := k) hmem List.mem_cons_self).1
  obtain ⟨s, hu, hadm⟩ := unify_complete ho.acyclic hadmits hhead (ho.plain_apply hgoal List.mem_cons_self).1
    (fun x t hx => (ho.plain.bindings x t hx).2.1) heq
  rw [renameClause_eq]
  refine ⟨s, hu, ⟨fun x hx => ?_, hadm, fun g hg => ?_, fun g hg a ha => ?_⟩⟩
  · rw [graft_of_known hs hmem hnk (.inl (Term.mem_variableNames.mpr (.inl hx)))]
    exact hc.agrees x hx
  · rcases mem_next.mp hg with ⟨q, hq, rfl⟩ | hg
    · obtain ⟨p, hp, rfl⟩ := List.mem_map.mp hq
      rw [hcopy p (List.mem_cons_of_mem _ hp)]
      exact (hend.premises p hp).derivable
    · rw [hgterm g (List.mem_cons_of_mem _ hg)]
      exact hc.derivable g (List.mem_cons_of_mem _ hg)
  · rcases mem_next.mp hg with ⟨q, hq, rfl⟩ | hg
    · obtain ⟨p, hp, rfl⟩ := List.mem_map.mp hq
      rw [hcopy p (List.mem_cons_of_mem _ hp), hterm b.goal hgoal a ha]
      -- a premise is shorter than the goal, which is shorter than its ancestors
      rcases List.mem_cons.mp ha with rfl | ha
      · exact hend.premises p hp
      · exact (hend.premises p hp).trans (hc.shorter b.goal hgoal a ha)
    · have hg' := List.mem_cons_of_mem b.goal hg
      rw [hgterm g hg', hterm g hg' a (List.mem_cons_of_mem _ ha)]
      exact hc.shorter g hg' a ha

/-- Nor is that rule passed over. -/
theorem Covers.not_skipped (hs : Searchable kb query) {b : Branch} (ho : Orderly kb query n (Branch.goals b) b.subst)
    (hc : Covers kb query θ (Branch.goals b) b.subst σ) {h : HornClause} (hmem : h ∈ kb.clauses)
    (hend : EndsWith kb (b.goal.term.mapVars σ) h τ) :
    ¬ Skipped n (b.subst.apply b.goal.term) b.subst h := by
  rintro (hmatch | ⟨k, hnk, hu⟩)
  · have heq : h.head.mapVars τ = (b.subst.apply b.goal.term).mapVars σ := by
      rw [hc.admits.mapVars_apply ho.acyclic, hend.head]
    rw [mayMatch_of_mapVars_eq (hs.clauses h hmem _ List.mem_cons_self).1 heq] at hmatch
    cases hmatch
  · obtain ⟨s, hsome, -⟩ := hc.next hs ho hmem hend hnk
    rw [hu] at hsome
    cases hsome

end Covers

/-! ## Runs -/

section Runs

variable {θ : String → Term} {out : List (Except SolveError Subst)} {m : Machine}

/-- The instance of `query` under `θ` is an instance of an answer. -/
def Yielded (query : Term) (θ : String → Term) (out : List (Except SolveError Subst)) : Prop :=
  ∃ s, .ok s ∈ out ∧ ∃ ρ, query.mapVars θ = (s.apply query).mapVars ρ

/-- The branch of a choice point is on the way to the instance, by a rule that has not been tried. -/
def PointCovers (kb : HornBase) (query : Term) (θ : String → Term) (p : ChoicePoint) : Prop :=
  ∃ σ τ, ∃ h ∈ p.untried, Covers kb query θ (Branch.goals p.branch) p.branch.subst σ ∧
    EndsWith kb (p.branch.goal.term.mapVars σ) h τ

/-- Some branch of `m` is on the way to the instance. -/
def Underway (kb : HornBase) (query : Term) (θ : String → Term) (m : Machine) : Prop :=
  (∃ b σ, m.pending = some b ∧ Covers kb query θ (Branch.goals b) b.subst σ) ∨ ∃ p ∈ m.stack, PointCovers kb query θ p

/-- What a turn that yields no error leaves of the way to the instance. -/
def UnderwayAfter (kb : HornBase) (query : Term) (θ : String → Term) : Progress → Prop
  | .running m | .finished m => Underway kb query θ m
  | .answer s m => Underway kb query θ m ∨ Yielded query θ [.ok s]
  | .stopped _ _ => True

/-- Trying the clauses of a choice point up to the first that applies leaves the instance to the choice point or to the
new goals. -/
theorem PointCovers.apply (hs : Searchable kb query) {b : Branch} {pre untried : List HornClause} {h : HornClause}
    {n n' k : Nat} {s : Subst} (ho : Orderly kb query n (Branch.goals b) b.subst)
    (hsub : pre ++ h :: untried ⊆ kb.clauses) (hp : PointCovers kb query θ ⟨b, pre ++ h :: untried⟩)
    (ha : Applied (b.subst.apply b.goal.term) b.subst n pre h k s n') :
    PointCovers kb query θ ⟨b, untried⟩ ∨ ∃ σ, Covers kb query θ (Branch.next b (renameClause h k).1.2) s σ := by
  obtain ⟨σ, τ, c, hc, hcov, hend⟩ := hp
  have hmem := hsub hc
  rcases List.mem_append.mp hc with hpre | hc
  · exact absurd (ha.skipped c hpre) (hcov.not_skipped hs ho hmem hend)
  · rcases List.mem_cons.mp hc with rfl | hc
    · obtain ⟨s', hu, hcov'⟩ := hcov.next hs ho hmem hend ha.le
      obtain rfl : s = s' := by
        rw [ha.unify] at hu
        exact Option.some.inj hu
      exact .inr ⟨_, hcov'⟩
    · exact .inl ⟨σ, τ, c, hc, hcov, hend⟩

/-- A choice point for all clauses takes over from a branch that is on the way. -/
theorem Covers.opened {b : Branch} {σ : String → Term} (hc : Covers kb query θ (Branch.goals b) b.subst σ) :
    PointCovers kb query θ ⟨b, kb.clauses⟩ := by
  obtain ⟨h, hmem, τ, heq, hprem⟩ := (hc.derivable b.goal List.mem_cons_self).last_rule
  exact ⟨σ, τ, h, hmem, hc, ⟨heq, hprem⟩⟩

/-- What one turn does to the way to the instance. -/
theorem Underway.turn (hs : Searchable kb query) (hm : m.Satisfies kb (Orderly kb query))
    (hc : Underway kb query θ m) {r : Progress} (hr : Turn kb limits m r) : UnderwayAfter kb query θ r := by
  cases hr with
  | halted _ | exhausted _ _ _ => exact hc
  | interrupted e | refused b e _ _ | spent p stack e steps n _ _ _ => trivial
  | pruned b hb hcheck =>
    rcases hc with ⟨b', σ, hb', hcov⟩ | hstack
    · obtain rfl : b' = b := Option.some.inj (hb'.symm.trans hb)
      exact absurd hcheck (hcov.checkGoal_ne (hm.pending b' hb))
    · exact .inr hstack
  | opened b hb _ =>
    rcases hc with ⟨b', σ, hb', hcov⟩ | ⟨p, hp, hcov⟩
    · obtain rfl : b' = b := Option.some.inj (hb'.symm.trans hb)
      exact .inr ⟨_, List.mem_cons_self, hcov.opened⟩
    · exact .inr ⟨p, List.mem_cons_of_mem _ hp, hcov⟩
  | failed p stack steps n hpend hstack _ hskip =>
    rcases hc with ⟨b, σ, hb, -⟩ | ⟨q, hq, hcov⟩
    · rw [hpend] at hb
      cases hb
    · rw [hstack] at hq
      rcases List.mem_cons.mp hq with rfl | hq
      · obtain ⟨ho, hsub⟩ := hm.stack q (by rw [hstack]; exact List.mem_cons_self)
        obtain ⟨σ, τ, h, hh, hcov, hend⟩ := hcov
        exact absurd (hskip h hh) (hcov.not_skipped hs ho (hsub hh) hend)
      · exact .inr ⟨q, hq, hcov⟩
  | applied b pre h untried stack k s goal rest steps n hpend hstack ha hnext =>
    rcases hc with ⟨b', σ, hb, -⟩ | ⟨q, hq, hcov⟩
    · rw [hpend] at hb
      cases hb
    · rw [hstack] at hq
      rcases List.mem_cons.mp hq with rfl | hq
      · obtain ⟨ho, hsub⟩ := hm.stack _ (by rw [hstack]; exact List.mem_cons_self)
        rcases hcov.apply hs ho hsub ha with hpoint | ⟨σ, hnew⟩
        · exact .inr ⟨_, List.mem_cons_self, hpoint⟩
        · rw [hnext] at hnew
          exact .inl ⟨_, σ, rfl, hnew⟩
      · exact .inr ⟨q, List.mem_cons_of_mem _ hq, hcov⟩
  | answered b pre h untried stack k s steps n hpend hstack ha hnext =>
    rcases hc with ⟨b', σ, hb, -⟩ | ⟨q, hq, hcov⟩
    · rw [hpend] at hb
      cases hb
    · rw [hstack] at hq
      rcases List.mem_cons.mp hq with rfl | hq
      · obtain ⟨ho, hsub⟩ := hm.stack _ (by rw [hstack]; exact List.mem_cons_self)
        rcases hcov.apply hs ho hsub ha with hpoint | ⟨σ, hnew⟩
        · exact .inl (.inr ⟨_, List.mem_cons_self, hpoint⟩)
        · have hs' := (Unify.solved_of_unify ha.unify).acyclic ho.acyclic
          exact .inr ⟨s, List.mem_cons_self, σ, hnew.answer hs'⟩
      · exact .inl (.inr ⟨q, List.mem_cons_of_mem _ hq, hcov⟩)

theorem Yielded.append (h : Yielded query θ out) (more : List (Except SolveError Subst)) :
    Yielded query θ (out ++ more) := by
  obtain ⟨s, hs, hρ⟩ := h
  exact ⟨s, List.mem_append_left more hs, hρ⟩

/-- As long as a run yields no error, an answer has the instance or a branch is on the way to it. -/
theorem Trace.underway (hs : Searchable kb query) (hθ : Derivable kb (query.mapVars θ))
    (ht : Trace kb limits query out m) (hok : ∀ r ∈ out, ∃ s, r = .ok s) :
    Yielded query θ out ∨ Underway kb query θ m := by
  induction ht with
  | start => exact .inr (.inl ⟨_, θ, rfl, covers_start hθ⟩)
  | @running out m m' now ht hstep ih | @finished out m m' now ht hstep ih =>
    refine (ih hok).imp_right fun hway => ?_
    have hturn := hway.turn hs ((kept_orderly hs).trace (orderly_start hs) ht).1 (turn_step kb limits now m)
    rw [hstep] at hturn
    exact hturn
  | stopped now _ hstep ih =>
    obtain ⟨s, hs⟩ := hok _ (List.mem_append_right _ List.mem_cons_self)
    cases hs
  | @answer out m m' s now ht hstep ih =>
    rcases ih fun r hr => hok r (List.mem_append_left _ hr) with hdone | hway
    · exact .inl (hdone.append _)
    · have hturn := hway.turn hs ((kept_orderly hs).trace (orderly_start hs) ht).1 (turn_step kb limits now m)
      rw [hstep] at hturn
      rcases hturn with hway | ⟨s', hs', hρ⟩
      · exact .inr hway
      · exact .inl ⟨s', List.mem_append_right _ hs', hρ⟩

/-- Nothing is left to try. -/
def Idle (m : Machine) : Prop :=
  m.pending = none ∧ m.stack = []

/-- What a turn that yields no error comes to is idle if it is halted. -/
def IdleAfter : Progress → Prop
  | .running m | .answer _ m | .finished m => m.halted = true → Idle m
  | .stopped _ _ => True

theorem idleAfter_turn (hm : m.halted = true → Idle m) {r : Progress} (hr : Turn kb limits m r) : IdleAfter r := by
  cases hr with
  | halted _ => exact hm
  | exhausted _ hpend hstack => exact fun _ => ⟨hpend, hstack⟩
  | interrupted e | refused b e _ _ | spent p stack e steps n _ _ _ => trivial
  | pruned b hb _ | opened b hb _ =>
    intro hh
    rw [(hm hh).1] at hb
    cases hb
  | failed p stack steps n _ hstack _ _ =>
    intro hh
    rw [(hm hh).2] at hstack
    cases hstack
  | applied b pre h untried stack k s goal rest steps n _ hstack _ _ =>
    intro hh
    rw [(hm hh).2] at hstack
    cases hstack
  | answered b pre h untried stack k s steps n _ hstack _ _ =>
    intro hh
    rw [(hm hh).2] at hstack
    cases hstack

/-- A run without errors halts only when it is idle. -/
theorem Trace.idle (ht : Trace kb limits query out m) (hok : ∀ r ∈ out, ∃ s, r = .ok s) : m.halted = true → Idle m := by
  induction ht with
  | start => exact fun hh => nomatch hh
  | @running out m m' now _ hstep ih | @finished out m m' now _ hstep ih =>
    have hturn := idleAfter_turn (ih hok) (turn_step kb limits now m)
    rw [hstep] at hturn
    exact hturn
  | stopped now _ hstep ih =>
    obtain ⟨s, hs⟩ := hok _ (List.mem_append_right _ List.mem_cons_self)
    cases hs
  | @answer out m m' s now _ hstep ih =>
    have hturn := idleAfter_turn (ih fun r hr => hok r (List.mem_append_left _ hr)) (turn_step kb limits now m)
    rw [hstep] at hturn
    exact hturn

/-- A run that ends without an error has yielded every derivable instance. -/
theorem Trace.exhausted (hs : Searchable kb query) (hθ : Derivable kb (query.mapVars θ))
    (ht : Trace kb limits query out m) (hok : ∀ r ∈ out, ∃ s, r = .ok s) {now : Signals} {m' : Machine}
    (hend : m.step kb limits now = .finished m') : Yielded query θ out := by
  have hidle : Idle m := by
    have hturn := turn_step kb limits now m
    rw [hend] at hturn
    cases hturn with
    | halted hh => exact ht.idle hok hh
    | exhausted _ hpend hstack => exact ⟨hpend, hstack⟩
  rcases ht.underway hs hθ hok with hdone | ⟨b, σ, hb, -⟩ | ⟨p, hp, -⟩
  · exact hdone
  · rw [hidle.1] at hb
    cases hb
  · rw [hidle.2] at hp
    cases hp

theorem forall_map_ok (found : List Subst) :
    ∀ r ∈ found.map (Except.ok : Subst → Except SolveError Subst), ∃ s, r = .ok s := by
  intro r hr
  obtain ⟨s, -, rfl⟩ := List.mem_map.mp hr
  exact ⟨s, rfl⟩

/-- **An exhausted search is complete.**  If a search ends without an error, every derivable instance of the query is
an instance of an answer, under either policy on repeated goals; in particular, if `solve` finds nothing, no instance
is derivable. -/
theorem exhausted_search_complete (limits : Limits) (hs : Searchable kb query) :
    (∀ out m now m', Trace kb limits query out m → (∀ r ∈ out, ∃ s, r = .ok s) →
      m.step kb limits now = .finished m' → ∀ θ, Derivable kb (query.mapVars θ) →
      ∃ s, .ok s ∈ out ∧ ∃ ρ, query.mapVars θ = (s.apply query).mapVars ρ) ∧
    (∀ fuel answers, proveAll kb limits query none fuel = some (.ok answers) →
      ∀ θ, Derivable kb (query.mapVars θ) → ∃ a ∈ answers, ∃ ρ, query.mapVars θ = a.term.mapVars ρ) ∧
    (∀ fuel, solve kb limits query fuel = some (.ok none) → ∀ θ, ¬ Derivable kb (query.mapVars θ)) := by
  refine ⟨fun out m now m' ht hok hend θ hθ => ht.exhausted hs hθ hok hend, ?_, ?_⟩
  · intro fuel answers h θ hθ
    obtain ⟨found, m, rfl, htrace, ⟨now, m', hend⟩ | hwanted⟩ := proveAll_trace h
    · obtain ⟨s, hmem, ρ, hρ⟩ := htrace.exhausted hs hθ (forall_map_ok found) hend
      obtain ⟨s', hs', hok⟩ := List.mem_map.mp hmem
      cases hok
      exact ⟨_, List.mem_map_of_mem hs', ρ, hρ⟩
    · cases hwanted
  · intro fuel h θ hθ
    obtain ⟨found, m, hnone, htrace, hend⟩ := solve_trace h
    obtain rfl : found = [] := by
      cases found with
      | nil => rfl
      | cons s found => cases hnone
    rcases hend with ⟨now, m', hend⟩ | hlen
    · obtain ⟨s, hmem, -⟩ := htrace.exhausted hs hθ (forall_map_ok []) hend
      cases hmem
    · cases hlen

/-- The fact `edge(a, a)` and the rule `path(X, Z)` from `edge(X, Y)` and `path(Y, Z)`. -/
def loopBase : HornBase where
  clauses :=
    [⟨⟨false, [.rel false "edge" [.const "a", .const "a"]]⟩, .rel false "edge" [.const "a", .const "a"], rfl⟩,
     ⟨⟨false, [.rel false "path" [.var false "X", .var false "Z"], .rel true "edge" [.var false "X", .var false "Y"],
        .rel true "path" [.var false "Y", .var false "Z"]]⟩, .rel false "path" [.var false "X", .var false "Z"], rfl⟩]

/-- The search for `path(a, W)` comes back to its first goal and, if that is pruned, finds nothing: no instance is
derivable. -/
theorem loopBase_no_path :
    solve loopBase { Limits.standard with cyclePolicy := .prune } (.rel false "path" [.const "a", .var false "W"]) 10 =
      some (.ok none) ∧
    ∀ t, ¬ Derivable loopBase (.rel false "path" [.const "a", t]) := by
  have hsolve : solve loopBase { Limits.standard with cyclePolicy := .prune }
      (.rel false "path" [.const "a", .var false "W"]) 10 = some (.ok none) := by rfl
  have hs : Searchable loopBase (.rel false "path" [.const "a", .var false "W"]) := by
    refine ⟨by decide, by decide, fun h _ v _ n hmem => ?_⟩
    have hname : suffixed v n = "W" := by simpa [Term.variableNames, Term.variableNamesAll] using hmem
    have hunder := underscore_mem_suffixed v n
    rw [hname] at hunder
    revert hunder
    decide
  exact ⟨hsolve, fun t => (exhausted_search_complete _ hs).2.2 10 hsolve fun _ => t⟩

end Runs

end Clausal.Machine
