import Mathlib.Logic.Equiv.Basic
import Clausal.Proofs.Search.Apart
import Clausal.Proofs.Search.Procedure
import Clausal.Proofs.Unify.Renaming

/-!
# Clausal.Proofs.Search.Variant — the numbers of copies do not matter

A search numbers the copies of clauses in the order in which it makes them, on whichever branch.  The recursive
procedure numbers them along one branch.  The two differ by a permutation of the numbers.

* `renumber kb π`: the renaming of variables that gives the copy with number `i` the number `π i`.
* `Admissible kb query`: no variable of the query looks like a variable of a copy.
* `Variant`: a branch of the search is a branch of the procedure up to a renumbering.
* `Variant.resolve`: a clause applies to both or to neither, and the branches it leads to are variants again.
* `Variant.cycle?_eq`: a goal repeats an ancestor in both or in neither.
-/

namespace Clausal.Machine

open Procedure

variable {kb : HornBase} {query : Term} {π π' : Equiv.Perm Nat} {n k i : Nat} {v x : String}

/-! ## Renumbering -/

section Renumber

/-- The number in `x`, if `x` is `v` with a number. -/
def number? (v x : String) : Option Nat :=
  (String.ofList (x.toList.drop (v.toList.length + 1))).toNat?.filter fun n => x == suffixed v n

theorem number?_eq_some : number? v x = some n ↔ x = suffixed v n := by
  rw [number?, Option.filter_eq_some_iff, beq_iff_eq]
  constructor
  · exact fun h => h.2
  · rintro rfl
    have hdrop : (suffixed v n).toList.drop (v.toList.length + 1) = n.repr.toList := by
      rw [toList_suffixed, List.drop_append, List.drop_eq_nil_of_le (Nat.le_succ _), List.nil_append,
        Nat.add_sub_cancel_left]
      rfl
    rw [hdrop, String.ofList_toList, Nat.toNat?_repr]
    exact ⟨rfl, rfl⟩

/-- The variables of the clauses. -/
def baseVariables (kb : HornBase) : List String :=
  kb.clauses.flatMap clauseVariables

theorem mem_baseVariables : v ∈ baseVariables kb ↔ ∃ h ∈ kb.clauses, v ∈ clauseVariables h :=
  List.mem_flatMap

/-- `x` with the number `π n` in the place of `n`, if it is a variable of a copy. -/
def renumberName (kb : HornBase) (π : Nat → Nat) (x : String) : String :=
  ((baseVariables kb).findSome? fun v => (number? v x).map fun n => suffixed v (π n)).getD x

theorem renumberName_suffixed {π : Nat → Nat} (hv : v ∈ baseVariables kb) (n : Nat) :
    renumberName kb π (suffixed v n) = suffixed v (π n) := by
  unfold renumberName
  cases hf : (baseVariables kb).findSome? fun w => (number? w (suffixed v n)).map fun i => suffixed w (π i) with
  | none =>
    have hnone := List.findSome?_eq_none_iff.mp hf v hv
    rw [number?_eq_some.mpr rfl] at hnone
    cases hnone
  | some y =>
    obtain ⟨w, -, hw⟩ := List.exists_of_findSome?_eq_some hf
    obtain ⟨i, hi, rfl⟩ := Option.map_eq_some_iff.mp hw
    obtain ⟨rfl, rfl⟩ := suffixed_inj.mp (number?_eq_some.mp hi)
    rfl

theorem renumberName_of_ne {π : Nat → Nat} (hx : ∀ v ∈ baseVariables kb, ∀ n, x ≠ suffixed v n) :
    renumberName kb π x = x := by
  have hnone : (baseVariables kb).findSome? (fun v => (number? v x).map fun n => suffixed v (π n)) = none := by
    refine List.findSome?_eq_none_iff.mpr fun v hv => ?_
    cases hn : number? v x with
    | none => rfl
    | some n => exact absurd (number?_eq_some.mp hn) (hx v hv n)
  rw [renumberName, hnone]
  rfl

theorem renumberName_inverse {π σ : Nat → Nat} (h : ∀ n, σ (π n) = n) (x : String) :
    renumberName kb σ (renumberName kb π x) = x := by
  by_cases hx : ∃ v ∈ baseVariables kb, ∃ n, x = suffixed v n
  · obtain ⟨v, hv, n, rfl⟩ := hx
    rw [renumberName_suffixed hv, renumberName_suffixed hv, h]
  · have hne : ∀ v ∈ baseVariables kb, ∀ n, x ≠ suffixed v n := fun v hv n heq => hx ⟨v, hv, n, heq⟩
    rw [renumberName_of_ne hne, renumberName_of_ne hne]

/-- The renaming of variables that gives the copy with number `i` the number `π i`. -/
def renumber (kb : HornBase) (π : Equiv.Perm Nat) : Equiv.Perm String where
  toFun := renumberName kb π
  invFun := renumberName kb π.symm
  left_inv := renumberName_inverse π.symm_apply_apply
  right_inv := renumberName_inverse π.apply_symm_apply

theorem renumber_suffixed (hv : v ∈ baseVariables kb) (π : Equiv.Perm Nat) (n : Nat) :
    renumber kb π (suffixed v n) = suffixed v (π n) :=
  renumberName_suffixed hv n

theorem renumber_of_ne (hx : ∀ v ∈ baseVariables kb, ∀ n, x ≠ suffixed v n) : renumber kb π x = x :=
  renumberName_of_ne hx

end Renumber

/-! ## Names that are told apart -/

section Admissible

/-- The clauses are first-order, and no variable of the query is a variable of a clause with a number. -/
structure Admissible (kb : HornBase) (query : Term) : Prop where
  clauses : ∀ h ∈ kb.clauses, ∀ t ∈ clauseTerms h, t.isFirstOrder = true
  apart : ∀ h ∈ kb.clauses, ∀ v ∈ clauseVariables h, ∀ n, suffixed v n ∉ query.variableNames

/-- A renumbering does not touch the query. -/
theorem Admissible.renumber_query (hadm : Admissible kb query) (hx : x ∈ query.variableNames) :
    renumber kb π x = x := by
  refine renumber_of_ne fun v hv n heq => ?_
  obtain ⟨h, hmem, hv⟩ := mem_baseVariables.mp hv
  rw [heq] at hx
  exact hadm.apart h hmem v hv n hx

theorem Admissible.relabel_query (hadm : Admissible kb query) (π : Equiv.Perm Nat) :
    query.relabel (renumber kb π) = query := by
  have hid : query.relabel (renumber kb π) = query.relabel id :=
    Term.relabel_congr fun x hx => hadm.renumber_query (Term.mem_variableNames.mpr (.inl hx))
  rw [hid, Term.relabel_id]

/-- Only the numbers of copies that have been made matter. -/
theorem Admissible.renumber_congr (hadm : Admissible kb query) (hπ : ∀ i < n, π' i = π i)
    (hx : Known kb query n x) : renumber kb π' x = renumber kb π x := by
  rcases hx with hq | ⟨h, hmem, hb | ⟨v, hv, i, hi, rfl⟩⟩
  · rw [hadm.renumber_query hq, hadm.renumber_query hq]
  · exact absurd hb (not_binds_of_isFirstOrder (hadm.clauses h hmem) x)
  · have hv' : v ∈ baseVariables kb := mem_baseVariables.mpr ⟨h, hmem, hv⟩
    rw [renumber_suffixed hv', renumber_suffixed hv', hπ i hi]

theorem Admissible.relabel_congr (hadm : Admissible kb query) (hπ : ∀ i < n, π' i = π i) {t : Term}
    (ht : AllKnown kb query n t) : t.relabel (renumber kb π') = t.relabel (renumber kb π) :=
  Term.relabel_congr fun x hx => hadm.renumber_congr hπ (ht x (Term.mem_variableNames.mpr (.inl hx)))

/-- The copy with number `π i` is the renumbered copy with number `i`. -/
theorem Admissible.copyTerm_eq (hadm : Admissible kb query) {h : HornClause} (hmem : h ∈ kb.clauses) {t : Term}
    (ht : t ∈ clauseTerms h) (π : Equiv.Perm Nat) (i : Nat) :
    copyTerm h (π i) t = (copyTerm h i t).relabel (renumber kb π) := by
  change t.relabel (copyName h (π i)) = (t.relabel (copyName h i)).relabel (renumber kb π)
  rw [Term.relabel_relabel]
  refine Term.relabel_congr fun x hx => ?_
  have hfree := Term.mem_freeVars.mp (Term.mem_freeVars_of_isFirstOrder (hadm.clauses h hmem t ht) hx)
  have hv : x ∈ clauseVariables h := mem_clauseVariables.mpr ⟨t, ht, hfree⟩
  rw [Function.comp_apply, copyName_of_mem hv, copyName_of_mem hv,
    renumber_suffixed (mem_baseVariables.mpr ⟨h, hmem, hv⟩)]

end Admissible

/-! ## Variants -/

section Variant

/-- A goal with its variables renamed. -/
def relabelGoal (ρ : String → String) (g : Goal) : Goal :=
  ⟨g.term.relabel ρ, g.ancestors.map (Term.relabel ρ)⟩

/-- The goals and bindings of a search that has made `n` copies are those of the procedure, with the copies numbered by
`π`. -/
structure Variant (kb : HornBase) (query : Term) (n : Nat) (goals : List Goal) (s : Subst) (goals' : List Goal)
    (c : Context) (π : Equiv.Perm Nat) : Prop where
  numbers : ∀ i < c.copies, π i < n
  goals_eq : goals = goals'.map (relabelGoal (renumber kb π))
  renamed : c.subst.RenamedBy (renumber kb π) s
  acyclic : c.subst.Acyclic
  known : Throughout (AllKnown kb query) c.copies goals' c.subst

variable {goals goals' : List Goal} {s : Subst} {c : Context} {g : Goal} {rest : List Goal} {b : Branch}

theorem variant_start (hadm : Admissible kb query) :
    Variant kb query 0 [⟨query, []⟩] .empty [⟨query, []⟩] ⟨.empty, 0⟩ (Equiv.refl Nat) where
  numbers i hi := nomatch hi
  goals_eq := by simp [relabelGoal, hadm.relabel_query]
  renamed := Subst.renamedBy_empty _
  acyclic := Subst.acyclic_empty
  known := throughout_start fun _ hx => .inl hx

theorem Variant.mono (hv : Variant kb query n goals s goals' c π) (hnk : n ≤ k) :
    Variant kb query k goals s goals' c π :=
  { hv with numbers := fun i hi => Nat.lt_of_lt_of_le (hv.numbers i hi) hnk }

theorem Variant.apply_query (hadm : Admissible kb query) (hv : Variant kb query n goals s goals' c π) :
    s.apply query = (c.subst.apply query).relabel (renumber kb π) := by
  have h := hv.renamed.apply hv.acyclic query
  rwa [hadm.relabel_query] at h

theorem Variant.selected_eq (hv : Variant kb query n (Branch.goals b) s (g :: rest) c π) :
    b.goal = relabelGoal (renumber kb π) g ∧ b.rest = rest.map (relabelGoal (renumber kb π)) :=
  List.cons_eq_cons.mp hv.goals_eq

/-- Another renumbering does as well if it agrees on the copies that have been made. -/
theorem Variant.renumbered (hadm : Admissible kb query) (hv : Variant kb query n goals s goals' c π)
    (hπ : ∀ i < c.copies, π' i = π i) : Variant kb query n goals s goals' c π' where
  numbers i hi := by
    rw [hπ i hi]
    exact hv.numbers i hi
  goals_eq := by
    rw [hv.goals_eq]
    refine List.map_congr_left fun g hg => ?_
    have hterm : ∀ t ∈ g.term :: g.ancestors, t.relabel (renumber kb π) = t.relabel (renumber kb π') :=
      fun t ht => (hadm.relabel_congr hπ (hv.known.goals g hg t ht)).symm
    obtain ⟨hgoal, hancestors⟩ := List.forall_mem_cons.mp hterm
    rw [relabelGoal, relabelGoal, hgoal, List.map_congr_left hancestors]
  renamed := by
    -- the bound variables are known, and so is what they are bound to
    refine hv.renamed.congr fun x b hb => ?_
    obtain ⟨⟨neg, hkey⟩, hval⟩ := hv.known.bindings x b hb
    exact ⟨hadm.renumber_congr hπ (hkey x List.mem_cons_self), hadm.relabel_congr hπ hval⟩
  acyclic := hv.acyclic
  known := hv.known

/-- A number above those in use can be given to the next copy. -/
theorem exists_renumbering {j : Nat} (hπ : ∀ i < j, π i < n) (hnk : n ≤ k) :
    ∃ π' : Equiv.Perm Nat, π' j = k ∧ ∀ i < j, π' i = π i := by
  refine ⟨π.trans (Equiv.swap (π j) k), ?_, fun i hi => ?_⟩
  · rw [Equiv.trans_apply, Equiv.swap_apply_left]
  · have hne : π i ≠ π j := π.injective.ne (Nat.ne_of_lt hi)
    have hlt : π i < k := Nat.lt_of_lt_of_le (hπ i hi) hnk
    rw [Equiv.trans_apply, Equiv.swap_apply_of_ne_of_ne hne (Nat.ne_of_lt hlt)]

theorem renameClause_snd (h : HornClause) (n : Nat) :
    (renameClause h n).2 = if (clauseVariables h).isEmpty then n else n + 1 := by
  unfold renameClause
  split <;> rfl

/-- The branches that the same clause leads to are variants, if the bindings are. -/
theorem Variant.next (hadm : Admissible kb query) (hv : Variant kb query n (Branch.goals b) b.subst (g :: rest) c π)
    {h : HornClause} (hmem : h ∈ kb.clauses) (hnk : n ≤ π c.copies) {s s' : Subst}
    (hu : unify (renameClause h c.copies).1.1 (c.subst.apply g.term) c.subst = some s')
    (hs : s'.RenamedBy (renumber kb π) s) :
    Variant kb query (renameClause h (π c.copies)).2 (Branch.next b (renameClause h (π c.copies)).1.2) s
      (Branch.next ⟨g, rest, c.subst⟩ (renameClause h c.copies).1.2) ⟨s', (renameClause h c.copies).2⟩ π where
  numbers i hi := by
    change i < (renameClause h c.copies).2 at hi
    rw [renameClause_snd] at hi ⊢
    split
    · next hh =>
      rw [if_pos hh] at hi
      exact Nat.lt_of_lt_of_le (hv.numbers i hi) hnk
    · next hh =>
      rw [if_neg hh] at hi
      rcases Nat.lt_succ_iff_lt_or_eq.mp hi with hlt | rfl
      · exact Nat.lt_of_lt_of_le (hv.numbers i hlt) (Nat.le_succ_of_le hnk)
      · exact Nat.lt_succ_self _
  goals_eq := by
    obtain ⟨hgoal, hrest⟩ := hv.selected_eq
    rw [renameClause_eq, renameClause_eq, Branch.next, Branch.next, hgoal, hrest, List.map_append, List.map_map,
      List.map_map, List.map_map]
    congr 1
    refine List.map_congr_left fun p hp => ?_
    simp only [Function.comp_apply, relabelGoal, List.map_cons]
    rw [hadm.copyTerm_eq hmem (List.mem_cons_of_mem _ hp)]
  renamed := hs
  acyclic := (kept_acyclic kb).resolve (b := ⟨g, rest, c.subst⟩) hv.acyclic hmem (Nat.le_refl c.copies) hu
  known := hv.known.resolve (b := ⟨g, rest, c.subst⟩) (inherited_allKnown kb query) hmem (Nat.le_refl c.copies) hu

/-- A clause applies to the goal of a branch and to that of its variant, or to neither. -/
theorem Variant.resolve (hadm : Admissible kb query)
    (hv : Variant kb query n (Branch.goals b) b.subst (g :: rest) c π) {h : HornClause} (hmem : h ∈ kb.clauses)
    (hnk : n ≤ k) :
    Option.Rel
      (fun s' s => ∃ π', Variant kb query (renameClause h k).2 (Branch.next b (renameClause h k).1.2) s
        (Branch.next ⟨g, rest, c.subst⟩ (renameClause h c.copies).1.2) ⟨s', (renameClause h c.copies).2⟩ π')
      (unify (renameClause h c.copies).1.1 (c.subst.apply g.term) c.subst)
      (unify (renameClause h k).1.1 (b.subst.apply b.goal.term) b.subst) := by
  obtain ⟨π', rfl, hagree⟩ := exists_renumbering hv.numbers hnk
  have hv' := hv.renumbered hadm hagree
  have hhead : (renameClause h (π' c.copies)).1.1 = (renameClause h c.copies).1.1.relabel (renumber kb π') := by
    rw [renameClause_eq, renameClause_eq]
    exact hadm.copyTerm_eq hmem List.mem_cons_self π' c.copies
  have hgoal : b.subst.apply b.goal.term = (c.subst.apply g.term).relabel (renumber kb π') := by
    rw [hv'.selected_eq.1]
    exact hv'.renamed.apply hv'.acyclic g.term
  have hrel := hv'.renamed.unify hv'.acyclic (renameClause h c.copies).1.1 (c.subst.apply g.term)
  rw [← hhead, ← hgoal] at hrel
  generalize unify (renameClause h (π' c.copies)).1.1 (b.subst.apply b.goal.term) b.subst = r at hrel ⊢
  cases hu : unify (renameClause h c.copies).1.1 (c.subst.apply g.term) c.subst with
  | none =>
    rw [hu] at hrel
    cases hrel
    exact .none
  | some s' =>
    rw [hu] at hrel
    cases hrel with
    | some hs => exact .some ⟨π', hv'.next hadm hmem hnk hu hs⟩

theorem Variant.resolve_none (hadm : Admissible kb query)
    (hv : Variant kb query n (Branch.goals b) b.subst (g :: rest) c π) {h : HornClause} (hmem : h ∈ kb.clauses)
    (hnk : n ≤ k) (hu : unify (renameClause h k).1.1 (b.subst.apply b.goal.term) b.subst = none) :
    unify (renameClause h c.copies).1.1 (c.subst.apply g.term) c.subst = none := by
  have hrel := hv.resolve hadm hmem hnk
  cases hu' : unify (renameClause h c.copies).1.1 (c.subst.apply g.term) c.subst with
  | none => rfl
  | some s' =>
    rw [hu', hu] at hrel
    cases hrel

theorem Variant.resolve_some (hadm : Admissible kb query)
    (hv : Variant kb query n (Branch.goals b) b.subst (g :: rest) c π) {h : HornClause} (hmem : h ∈ kb.clauses)
    (hnk : n ≤ k) {s : Subst} (hu : unify (renameClause h k).1.1 (b.subst.apply b.goal.term) b.subst = some s) :
    ∃ s' π', unify (renameClause h c.copies).1.1 (c.subst.apply g.term) c.subst = some s' ∧
      Variant kb query (renameClause h k).2 (Branch.next b (renameClause h k).1.2) s
        (Branch.next ⟨g, rest, c.subst⟩ (renameClause h c.copies).1.2) ⟨s', (renameClause h c.copies).2⟩ π' := by
  have hrel := hv.resolve hadm hmem hnk
  cases hu' : unify (renameClause h c.copies).1.1 (c.subst.apply g.term) c.subst with
  | none =>
    rw [hu', hu] at hrel
    cases hrel
  | some s' =>
    rw [hu', hu] at hrel
    cases hrel with
    | some hvar =>
      obtain ⟨π', hv'⟩ := hvar
      exact ⟨s', π', rfl, hv'⟩

end Variant

/-! ## Repeated goals -/

section Cycle

theorem repeatedFrom_eq (s : Subst) (goal : Term) (ancestors : List Term) :
    repeatedFrom s goal ancestors = ((ancestors.map s.apply).findIdx? fun a => a.same goal).map
      fun i => ((ancestors.map s.apply).take (i + 1)).reverse := by
  induction ancestors with
  | nil => rfl
  | cons a ancestors ih =>
    rw [repeatedFrom, Subst.resolvesTo_eq, List.map_cons, List.findIdx?_cons]
    split
    · rfl
    · rw [ih, Option.map_map, Option.map_map]
      congr 1
      funext i
      simp

theorem cycle?_eq (s : Subst) (ancestors : List Term) (goal : Term) :
    cycle? s ancestors goal = (repeatedFrom s (s.apply goal) ancestors).map (· ++ [s.apply goal]) := by
  rw [repeatedFrom_eq, Option.map_map]
  rfl

theorem cycle?_relabel {ρ : Equiv.Perm String} {s s' : Subst} (h : s.RenamedBy ρ s') (hs : s.Acyclic)
    (ancestors : List Term) (goal : Term) :
    cycle? s' (ancestors.map (Term.relabel ρ)) (goal.relabel ρ) =
      (cycle? s ancestors goal).map (List.map (Term.relabel ρ)) := by
  have hvalues : (ancestors.map (Term.relabel ρ)).map s'.apply = (ancestors.map s.apply).map (Term.relabel ρ) := by
    rw [List.map_map, List.map_map]
    exact List.map_congr_left fun a _ => h.apply hs a
  rw [cycle?, cycle?, hvalues, h.apply hs, List.findIdx?_map, Option.map_map]
  have hsame : ((fun a => a.same ((s.apply goal).relabel ρ)) ∘ Term.relabel ρ) = fun a => a.same (s.apply goal) :=
    funext fun a => Term.same_relabel ρ.injective a (s.apply goal)
  rw [hsame]
  congr 1
  funext i
  simp

/-- A goal repeats an ancestor in a branch exactly if it does so in its variant. -/
theorem Variant.cycle?_eq {b : Branch} {g : Goal} {rest : List Goal} {c : Context}
    (hv : Variant kb query n (Branch.goals b) b.subst (g :: rest) c π) :
    cycle? b.subst b.goal.ancestors b.goal.term =
      (cycle? c.subst g.ancestors g.term).map (List.map (Term.relabel (renumber kb π))) := by
  rw [hv.selected_eq.1]
  exact cycle?_relabel hv.renamed hv.acyclic g.ancestors g.term

end Cycle

end Clausal.Machine
