import Mathlib.Data.List.Induction
import Clausal.Proofs.Clause.Members

/-!
# Clausal.Proofs.Clause.Stores — clauses, rules and bases after any operations

* `Change`, `Change.replay`: what is done to a set, and the set after a history of changes.
* `Change.standing`: the insertions of a history that no later removal undoes; `replay_eq_firsts` says that the set
  holds these in their order, each once.
* `HornClause.Splits`: the head is the one member without a negation sign, and the body the rest.
* `Value`, `Operation`, `Course`: clauses, rules and bases, one operation on them, and a sequence of operations.  A base
  is taken together with its history.
* `Operation.sound`, `Course.sound`: what one operation keeps, and so all of them.
* `stores_keep_invariant`: the main statement.
-/

namespace Clausal

/-! ## Histories -/

section Histories

variable {α : Type} {R : α → α → Prop} {P : α → Prop} {eq : α → α → Bool} {a : α} {xs : List α}

/-- What is done to a set. -/
inductive Change (α : Type) where
  | insert (a : α)
  | remove (a : α)

namespace Change

variable {log : List (Change α)}

/-- The element that is put in or taken out. -/
def item : Change α → α
  | .insert a | .remove a => a

/-- The set after one change. -/
def act (eq : α → α → Bool) (xs : List α) : Change α → List α
  | .insert a => Distinct.insert eq xs a
  | .remove a => Distinct.erase eq xs a

/-- The set after a history, which begins with the empty set. -/
def replay (eq : α → α → Bool) (log : List (Change α)) : List α :=
  log.foldl (act eq) []

open Classical in
/-- What was put in and not taken out again later. -/
noncomputable def standing (R : α → α → Prop) : List (Change α) → List α
  | [] => []
  | .insert a :: later =>
    if ∃ b, .remove b ∈ later ∧ R a b then standing R later else a :: standing R later
  | .remove _ :: later => standing R later

theorem insert_mem_of_mem_standing (h : a ∈ standing R log) : .insert a ∈ log := by
  fun_induction standing R log with
  | case1 => cases h
  | case2 b later hundone ih => exact List.mem_cons_of_mem _ (ih h)
  | case3 b later hundone ih =>
    rcases List.mem_cons.mp h with rfl | h
    · exact List.mem_cons_self
    · exact List.mem_cons_of_mem _ (ih h)
  | case4 b later ih => exact List.mem_cons_of_mem _ (ih h)

theorem standing_concat_insert (log : List (Change α)) (a : α) :
    standing R (log ++ [.insert a]) = standing R log ++ [a] := by
  fun_induction standing R log with
  | case1 => simp [standing]
  | case2 b later hundone ih =>
    rw [List.cons_append, standing, if_pos (by simpa using hundone), ih]
  | case3 b later hundone ih =>
    rw [List.cons_append, standing, if_neg (by simpa using hundone), ih, List.cons_append]
  | case4 b later ih => rw [List.cons_append, standing, ih]

open Classical in
theorem standing_concat_remove (log : List (Change α)) (a : α) :
    standing R (log ++ [.remove a]) = (standing R log).filter fun x => ¬ R x a := by
  have hundone_iff : ∀ (later : List (Change α)) (b : α),
      (∃ c, .remove c ∈ later ++ [.remove a] ∧ R b c) ↔ (∃ c, .remove c ∈ later ∧ R b c) ∨ R b a := by
    intro later b
    simp only [List.mem_append, List.mem_singleton, Change.remove.injEq, or_and_right, exists_or, exists_eq_left]
  fun_induction standing R log with
  | case1 => rfl
  | case2 b later hundone ih =>
    rw [List.cons_append, standing, if_pos ((hundone_iff later b).mpr (.inl hundone)), ih]
  | case3 b later hundone ih =>
    rw [List.cons_append, standing, List.filter_cons, ih]
    by_cases hb : R b a
    · rw [if_pos ((hundone_iff later b).mpr (.inr hb)), if_neg (by simpa using hb)]
    · rw [if_neg (mt (hundone_iff later b).mp (not_or_intro hundone hb)), if_pos (by simpa using hb)]
  | case4 b later ih => rw [List.cons_append, standing, ih]

theorem replay_concat (log : List (Change α)) (change : Change α) :
    replay eq (log ++ [change]) = act eq (replay eq log) change := by
  rw [replay, List.foldl_append]
  rfl

/-- A list that is put in member by member is united with the set. -/
theorem replay_append_inserts (log : List (Change α)) (xs : List α) :
    replay eq (log ++ xs.map .insert) = Distinct.union eq (replay eq log) xs := by
  rw [replay, List.foldl_append, List.foldl_map]
  rfl

open Classical in
/-- After any history the set holds what was put in and not taken out again, in the order of insertion; of equal
elements it holds the first one. -/
theorem replay_eq_firsts (h : Distinct.Decides eq R P) (hR : Equivalence R) (hlog : ∀ e ∈ log, P e.item) :
    replay eq log = firsts R (standing R log) := by
  -- the last change decides what is left of the history before it
  induction log using List.reverseRecOn with
  | nil => rfl
  | append_singleton log change ih =>
    obtain ⟨hbefore, hlast⟩ := List.forall_mem_append.mp hlog
    have hchange : P change.item := hlast change List.mem_cons_self
    have hstanding : ∀ x ∈ standing R log, P x := fun x hx => hbefore _ (insert_mem_of_mem_standing hx)
    have hset : ∀ x ∈ firsts R (standing R log), P x := fun x hx => hstanding x (mem_of_mem_firsts hx)
    rw [replay_concat, ih hbefore]
    cases change with
    | insert a =>
      have hall : ∀ x ∈ standing R log ++ [a], P x :=
        List.forall_mem_append.mpr ⟨hstanding, List.forall_mem_singleton.mpr hchange⟩
      rw [standing_concat_insert, ← Distinct.ofList_eq_firsts h hstanding, ← Distinct.ofList_eq_firsts h hall,
        Distinct.ofList_append]
      rfl
    | remove a =>
      have ha : P a := hchange
      have hrespects : ∀ x y, R x y → (decide (¬ R x a) = decide (¬ R y a)) := by
        intro x y hxy
        exact decide_eq_decide.mpr (not_congr ⟨hR.trans (hR.symm hxy), hR.trans hxy⟩)
      rw [standing_concat_remove, firsts_filter hrespects, act,
        Distinct.erase_eq_filter h hR hset ha (pairwise_firsts R _)]
      refine List.filter_congr fun x hx => ?_
      rw [Bool.eq_iff_iff, Bool.not_eq_true', Bool.eq_false_iff, Ne, h.iff (hset x hx) ha, decide_eq_true_iff]

end Change

/-- What an insertion does to a list: `a` comes to its end, and is said to be new, unless an element stands for it. -/
structure Taken (R : α → α → Prop) (xs : List α) (a : α) (isNew : Bool) (ys : List α) : Prop where
  isNew_iff : isNew = true ↔ ∀ x ∈ xs, ¬ R x a
  result : ys = if isNew then xs ++ [a] else xs

theorem taken_insert (h : Distinct.Decides eq R P) (hxs : ∀ x ∈ xs, P x) (ha : P a) :
    Taken R xs a (!Distinct.mem eq xs a) (Distinct.insert eq xs a) where
  isNew_iff := by
    rw [Bool.not_eq_true', Bool.eq_false_iff, Ne, Distinct.mem_eq_true h hxs ha]
    push Not
    rfl
  result := by
    rw [Distinct.insert]
    cases Distinct.mem eq xs a <;> rfl

end Histories

/-! ## Rules -/

section Rules

theorem Clause.decides_isSet : Distinct.Decides Clause.same Clause.Alike Clause.IsSet where
  iff ha hb := decides_alike.iff ha.distinct hb.distinct
  trans := alike_equivalence.trans

namespace HornClause

variable {c : Clause} {h : HornClause}

/-- The clauses have the same sign and the same members. -/
def Alike (g h : HornClause) : Prop :=
  g.clause.Alike h.clause

theorem alike_equivalence : Equivalence Alike where
  refl h := Clause.alike_equivalence.refl h.clause
  symm := Clause.alike_equivalence.symm
  trans := Clause.alike_equivalence.trans

theorem decides_isSet : Distinct.Decides same Alike fun h => h.clause.IsSet where
  iff ha hb := Clause.decides_isSet.iff ha hb
  trans := alike_equivalence.trans

/-- The head is the one member without a negation sign, and the body holds the other members in their order. -/
def Splits (h : HornClause) : Prop :=
  h.head.isNegated = false ∧ (∀ b ∈ h.body, b.isNegated = true) ∧
    ∃ before after, h.clause.members = before ++ h.head :: after ∧ h.body = before ++ after

theorem splits (h : HornClause) : h.Splits := by
  obtain ⟨before, after, hmembers, hbefore, hhead, hafter⟩ := List.filter_eq_cons_iff.mp h.positives_eq
  have hnegated : ∀ t ∈ before ++ after, t.isNegated = true := by
    refine List.forall_mem_append.mpr ⟨fun t ht => ?_, fun t ht => ?_⟩
    · simpa using hbefore t ht
    · simpa using List.filter_eq_nil_iff.mp hafter t ht
  have hbody : h.body = before ++ after := by
    rw [body, Clause.negatives, hmembers, List.filter_append, List.filter_cons_of_neg (by simpa using hhead),
      ← List.filter_append, List.filter_eq_self.mpr hnegated]
  exact ⟨by simpa using hhead, fun b => isNegated_of_mem_body, before, after, hmembers, hbody⟩

/-- A clause is taken for a rule just if it has one member without a negation sign. -/
theorem ofClause_outcome (c : Clause) :
    (∃ h, ofClause c = .ok h ∧ h.clause = c) ∨
      c.positives.length ≠ 1 ∧ ofClause c = .error (.notHorn c.render c.positives.length) := by
  unfold ofClause
  split
  · exact .inl ⟨_, rfl, rfl⟩
  · next hnone =>
    refine .inr ⟨fun hlength => ?_, rfl⟩
    obtain ⟨head, hhead⟩ := List.length_eq_one_iff.mp hlength
    exact hnone head hhead

/-- The rule that is made of a clause, if there is one. -/
def admitted (c : Clause) : List HornClause :=
  (ofClause c).toOption.toList

theorem admitted_of_ok (hc : ofClause c = .ok h) : admitted c = [h] := by
  rw [admitted, hc]
  rfl

theorem admitted_of_error {e : FormationError} (hc : ofClause c = .error e) : admitted c = [] := by
  rw [admitted, hc]
  rfl

theorem clause_of_mem_admitted (hh : h ∈ admitted c) : h.clause = c := by
  rcases ofClause_outcome c with ⟨g, hg, hclause⟩ | ⟨-, herror⟩
  · rw [admitted_of_ok hg, List.mem_singleton] at hh
    rw [hh, hclause]
  · rw [admitted_of_error herror] at hh
    cases hh

end HornClause

namespace HornBase

variable {c : Clause} {cs : List Clause} {hb hb' : HornBase}

/-- A clause that is no rule is refused, and the base stays as it is. -/
theorem run_addClause (c : Clause) (hb : HornBase) :
    (addClause c).run.run hb =
      match HornClause.ofClause c with
      | .ok h => (.ok (!hb.contains h), hb.insert h)
      | .error e => (.error e, hb) := by
  rw [addClause]
  cases HornClause.ofClause c <;> rfl

/-- Clauses that are taken in one after the other are united with the base, as rules. -/
theorem clauses_of_foldlM (h : cs.foldlM insertClause hb = .ok hb') :
    hb'.clauses = Distinct.union HornClause.same hb.clauses (cs.flatMap HornClause.admitted) := by
  induction cs generalizing hb with
  | nil =>
    cases h
    rfl
  | cons c cs ih =>
    rw [List.foldlM_cons] at h
    obtain ⟨hb₁, hinsert, hrest⟩ := bind_eq_ok.mp h
    obtain ⟨r, hr, hhb₁⟩ := bind_eq_ok.mp hinsert
    cases hhb₁
    rw [ih hrest, List.flatMap_cons, HornClause.admitted_of_ok hr]
    rfl

end HornBase

end Rules

/-! ## Sequences of operations -/

section Courses

/-- A value that operations work on.  A base of clauses comes with its history, and a base of rules, from which nothing
is taken out, with the rules put in. -/
inductive Value where
  | clause (c : Clause)
  | rule (h : HornClause)
  | base (log : List (Change Clause)) (kb : KnowledgeBase)
  | ruleBase (log : List HornClause) (hb : HornBase)

/-- An operation on values of `σ` gives the value.  A clause that is refused leaves the history of a base of rules as it
is. -/
inductive Operation (σ : List Value) : Value → Prop where
  | ofList {ts : List Term} {c : Clause} : Clause.ofList ts = .ok c → Operation σ (.clause c)
  | unit {t : Term} {c : Clause} : Clause.unit t = .ok c → Operation σ (.clause c)
  | negate {c : Clause} : .clause c ∈ σ → Operation σ (.clause c.negate)
  | without {c : Clause} (t : Term) : .clause c ∈ σ → Operation σ (.clause (c.without t))
  | union {c d : Clause} : .clause c ∈ σ → .clause d ∈ σ → Operation σ (.clause (c.union d))
  | fact {t : Term} {h : HornClause} : HornClause.fact t = .ok h → Operation σ (.rule h)
  | rule {t : Term} {ts : List Term} {h : HornClause} : HornClause.rule t ts = .ok h → Operation σ (.rule h)
  | ofClause {c : Clause} {h : HornClause} : .clause c ∈ σ → HornClause.ofClause c = .ok h → Operation σ (.rule h)
  | toClause {h : HornClause} : .rule h ∈ σ → Operation σ (.clause h.clause)
  | newBase : Operation σ (.base [] .empty)
  | insert {log : List (Change Clause)} {kb : KnowledgeBase} {c : Clause} : .base log kb ∈ σ → .clause c ∈ σ →
      Operation σ (.base (log ++ [.insert c]) ((KnowledgeBase.add c).run kb).2)
  | remove {log : List (Change Clause)} {kb : KnowledgeBase} {c : Clause} : .base log kb ∈ σ → .clause c ∈ σ →
      Operation σ (.base (log ++ [.remove c]) ((KnowledgeBase.remove c).run kb).2)
  | unite {log log' : List (Change Clause)} {kb kb' : KnowledgeBase} : .base log kb ∈ σ → .base log' kb' ∈ σ →
      Operation σ (.base (log ++ kb'.clauses.map .insert) (kb.union kb'))
  | collect {cs : List Clause} : (∀ c ∈ cs, .clause c ∈ σ) → Operation σ (.base (cs.map .insert) (.ofList cs))
  | member {log : List (Change Clause)} {kb : KnowledgeBase} {c : Clause} : .base log kb ∈ σ → c ∈ kb.clauses →
      Operation σ (.clause c)
  | newRuleBase : Operation σ (.ruleBase [] .empty)
  | insertClause {log : List HornClause} {hb : HornBase} {c : Clause} : .ruleBase log hb ∈ σ → .clause c ∈ σ →
      Operation σ (.ruleBase (log ++ HornClause.admitted c) ((HornBase.addClause c).run.run hb).2)
  | insertRule {log : List HornClause} {hb : HornBase} {h : HornClause} : .ruleBase log hb ∈ σ → .rule h ∈ σ →
      Operation σ (.ruleBase (log ++ [h]) ((HornBase.add h).run hb).2)
  | ofBase {log : List (Change Clause)} {kb : KnowledgeBase} {hb : HornBase} : .base log kb ∈ σ →
      HornBase.ofKnowledgeBase kb = .ok hb → Operation σ (.ruleBase (kb.clauses.flatMap HornClause.admitted) hb)
  | collectRules {hs : List HornClause} : (∀ h ∈ hs, .rule h ∈ σ) → Operation σ (.ruleBase hs (.ofList hs))
  | toBase {log : List HornClause} {hb : HornBase} : .ruleBase log hb ∈ σ →
      Operation σ (.base ((hb.clauses.map (·.clause)).map .insert) hb.toKnowledgeBase)
  | ruleMember {log : List HornClause} {hb : HornBase} {h : HornClause} : .ruleBase log hb ∈ σ → h ∈ hb.clauses →
      Operation σ (.rule h)

/-- The values after a sequence of operations, the last one first. -/
inductive Course : List Value → Prop where
  | start : Course []
  | step {σ : List Value} {v : Value} : Course σ → Operation σ v → Course (v :: σ)

/-- Clauses are sets of members, and a base is what its history makes of it. -/
def Value.Sound : Value → Prop
  | .clause c => c.IsSet
  | .rule h => h.clause.IsSet
  | .base log kb => (∀ e ∈ log, e.item.IsSet) ∧ kb.clauses = Change.replay Clause.same log
  | .ruleBase log hb => (∀ h ∈ log, h.clause.IsSet) ∧ hb.clauses = Distinct.ofList HornClause.same log

variable {σ : List Value} {v : Value} {log : List (Change Clause)} {kb : KnowledgeBase} {rules : List HornClause}
  {hb : HornBase}

theorem Value.Sound.clauses_eq (h : (Value.base log kb).Sound) :
    kb.clauses = firsts Clause.Alike (Change.standing Clause.Alike log) := by
  rw [h.2, Change.replay_eq_firsts Clause.decides_isSet Clause.alike_equivalence h.1]

theorem Value.Sound.isSet_of_mem (h : (Value.base log kb).Sound) : ∀ c ∈ kb.clauses, c.IsSet := by
  intro c hc
  rw [h.clauses_eq] at hc
  exact h.1 _ (Change.insert_mem_of_mem_standing (mem_of_mem_firsts hc))

theorem Value.Sound.rules_eq (h : (Value.ruleBase rules hb).Sound) : hb.clauses = firsts HornClause.Alike rules := by
  rw [h.2, Distinct.ofList_eq_firsts HornClause.decides_isSet h.1]

theorem Value.Sound.isSet_of_mem_rules (h : (Value.ruleBase rules hb).Sound) :
    ∀ r ∈ hb.clauses, r.clause.IsSet := by
  intro r hr
  rw [h.rules_eq] at hr
  exact h.1 r (mem_of_mem_firsts hr)

theorem isSet_of_ofClause {c : Clause} {h : HornClause} (hc : c.IsSet) (hh : HornClause.ofClause c = .ok h) :
    h.clause.IsSet := by
  rwa [HornClause.clause_of_ofClause hh]

theorem isSet_of_mem_admitted {c : Clause} (hc : c.IsSet) : ∀ h ∈ HornClause.admitted c, h.clause.IsSet := by
  intro h hh
  rwa [HornClause.clause_of_mem_admitted hh]

/-- One operation gives a sound value if it is done on sound ones. -/
theorem Operation.sound (h : Operation σ v) (hσ : ∀ w ∈ σ, w.Sound) : v.Sound := by
  cases h with
  | ofList hc => exact Clause.isSet_of_ofList hc
  | unit hc => exact Clause.isSet_of_ofList hc
  | negate hc => exact Clause.IsSet.negate (hσ _ hc)
  | without t hc => exact Clause.IsSet.without (hσ _ hc) t
  | union hc hd => exact Clause.IsSet.union (hσ _ hc) (hσ _ hd)
  | fact hh =>
    obtain ⟨c, hc, hh⟩ := bind_eq_ok.mp hh
    exact isSet_of_ofClause (Clause.isSet_of_ofList hc) hh
  | rule hh =>
    obtain ⟨c, hc, hh⟩ := bind_eq_ok.mp hh
    exact isSet_of_ofClause (Clause.isSet_of_ofList hc) hh
  | ofClause hc hh => exact isSet_of_ofClause (hσ _ hc) hh
  | @toClause h hh => exact hσ (.rule h) hh
  | newBase => exact ⟨fun e he => (nomatch he), rfl⟩
  | @insert log kb c hkb hc =>
    obtain ⟨hlog, hclauses⟩ := hσ _ hkb
    refine ⟨List.forall_mem_append.mpr ⟨hlog, List.forall_mem_singleton.mpr (hσ _ hc)⟩, ?_⟩
    rw [Change.replay_concat, ← hclauses]
    rfl
  | @remove log kb c hkb hc =>
    obtain ⟨hlog, hclauses⟩ := hσ _ hkb
    refine ⟨List.forall_mem_append.mpr ⟨hlog, List.forall_mem_singleton.mpr (hσ _ hc)⟩, ?_⟩
    rw [Change.replay_concat, ← hclauses]
    rfl
  | unite hkb hkb' =>
    obtain ⟨hlog, hclauses⟩ := hσ _ hkb
    refine ⟨List.forall_mem_append.mpr ⟨hlog, List.forall_mem_map.mpr (hσ _ hkb').isSet_of_mem⟩, ?_⟩
    rw [Change.replay_append_inserts, ← hclauses]
    rfl
  | collect hcs =>
    refine ⟨List.forall_mem_map.mpr fun c hc => hσ _ (hcs c hc), ?_⟩
    exact (Change.replay_append_inserts [] _).symm
  | member hkb hc => exact (hσ _ hkb).isSet_of_mem _ hc
  | newRuleBase => exact ⟨fun h hh => (nomatch hh), rfl⟩
  | @insertClause log hb c hhb hc =>
    obtain ⟨hlog, hclauses⟩ := hσ _ hhb
    refine ⟨List.forall_mem_append.mpr ⟨hlog, isSet_of_mem_admitted (hσ _ hc)⟩, ?_⟩
    rw [Distinct.ofList_append, ← hclauses, HornBase.run_addClause]
    rcases HornClause.ofClause_outcome c with ⟨h, hh, -⟩ | ⟨-, herror⟩
    · rw [HornClause.admitted_of_ok hh, hh]
      rfl
    · rw [HornClause.admitted_of_error herror, herror]
      rfl
  | @insertRule log hb h hhb hh =>
    obtain ⟨hlog, hclauses⟩ := hσ _ hhb
    refine ⟨List.forall_mem_append.mpr ⟨hlog, List.forall_mem_singleton.mpr (hσ (.rule h) hh)⟩, ?_⟩
    rw [Distinct.ofList_append, ← hclauses]
    rfl
  | ofBase hkb hhb =>
    refine ⟨List.forall_mem_flatMap.mpr fun c hc => isSet_of_mem_admitted ((hσ _ hkb).isSet_of_mem c hc), ?_⟩
    exact HornBase.clauses_of_foldlM hhb
  | collectRules hhs => exact ⟨fun h hh => hσ _ (hhs h hh), rfl⟩
  | toBase hhb =>
    refine ⟨List.forall_mem_map.mpr (List.forall_mem_map.mpr (hσ _ hhb).isSet_of_mem_rules), ?_⟩
    exact (Change.replay_append_inserts [] _).symm
  | ruleMember hhb hh => exact (hσ _ hhb).isSet_of_mem_rules _ hh

theorem Course.sound (h : Course σ) : ∀ v ∈ σ, v.Sound := by
  induction h with
  | start => exact fun v hv => (nomatch hv)
  | step _ hop ih => exact List.forall_mem_cons.mpr ⟨hop.sound ih, ih⟩

theorem taken_addClause (hrules : ∀ r ∈ hb.clauses, r.clause.IsSet) {c : Clause} (hc : c.IsSet) :
    c.positives.length ≠ 1 ∧
        (HornBase.addClause c).run.run hb = (.error (.notHorn c.render c.positives.length), hb) ∨
      ∃ h isNew hb', h.clause = c ∧ (HornBase.addClause c).run.run hb = (.ok isNew, hb') ∧
        Taken HornClause.Alike hb.clauses h isNew hb'.clauses := by
  rw [HornBase.run_addClause]
  rcases HornClause.ofClause_outcome c with ⟨h, hh, hclause⟩ | ⟨hlength, herror⟩
  · rw [hh]
    exact .inr ⟨h, _, _, hclause, rfl, taken_insert HornClause.decides_isSet hrules (hclause ▸ hc)⟩
  · rw [herror]
    exact .inl ⟨hlength, rfl⟩

/-- **Clauses, rules and bases after any operations.**  A clause has atomic members, no two of them the same.  A rule
has one member without a negation sign, its head, and its body holds the others in their order.  A base holds clauses no
two of which are alike: those that were put in and not taken out again, in their order.  Insertion tells whether a like
clause was there, and puts the new one to the end if there was none.  What is no rule is refused by a base of rules,
which stays as it is. -/
theorem stores_keep_invariant (σ : List Value) (hσ : Course σ) :
    (∀ c, .clause c ∈ σ → c.IsSet) ∧
    (∀ h, .rule h ∈ σ → h.clause.IsSet ∧ h.Splits) ∧
    (∀ log kb, .base log kb ∈ σ →
      (∀ c ∈ kb.clauses, c.IsSet) ∧ (kb.clauses.Pairwise fun c d => ¬ c.Alike d) ∧
      kb.clauses = firsts Clause.Alike (Change.standing Clause.Alike log) ∧
      ∀ c, .clause c ∈ σ →
        Taken Clause.Alike kb.clauses c ((KnowledgeBase.add c).run kb).1 ((KnowledgeBase.add c).run kb).2.clauses) ∧
    (∀ log hb, .ruleBase log hb ∈ σ →
      (∀ h ∈ hb.clauses, h.clause.IsSet ∧ h.Splits) ∧ (hb.clauses.Pairwise fun g h => ¬ g.Alike h) ∧
      hb.clauses = firsts HornClause.Alike log ∧
      (∀ h, .rule h ∈ σ →
        Taken HornClause.Alike hb.clauses h ((HornBase.add h).run hb).1 ((HornBase.add h).run hb).2.clauses) ∧
      ∀ c, .clause c ∈ σ →
        c.positives.length ≠ 1 ∧
            (HornBase.addClause c).run.run hb = (.error (.notHorn c.render c.positives.length), hb) ∨
          ∃ h isNew hb', h.clause = c ∧ (HornBase.addClause c).run.run hb = (.ok isNew, hb') ∧
            Taken HornClause.Alike hb.clauses h isNew hb'.clauses) := by
  have hsound := hσ.sound
  refine ⟨fun c hc => hsound _ hc, fun h hh => ⟨hsound (.rule h) hh, h.splits⟩, fun log kb hkb => ?_,
    fun log hb hhb => ?_⟩
  · have hbase := hsound _ hkb
    refine ⟨hbase.isSet_of_mem, ?_, hbase.clauses_eq, fun c hc => ?_⟩
    · rw [hbase.clauses_eq]
      exact pairwise_firsts _ _
    · exact taken_insert Clause.decides_isSet hbase.isSet_of_mem (hsound _ hc)
  · have hbase := hsound _ hhb
    refine ⟨fun h hh => ⟨hbase.isSet_of_mem_rules h hh, h.splits⟩, ?_, hbase.rules_eq, fun h hh => ?_, fun c hc => ?_⟩
    · rw [hbase.rules_eq]
      exact pairwise_firsts _ _
    · exact taken_insert HornClause.decides_isSet hbase.isSet_of_mem_rules (hsound (.rule h) hh)
    · exact taken_addClause hbase.isSet_of_mem_rules (hsound _ hc)

/-- The clause `p`. -/
def clauseP : Clause := ⟨false, [.const "p"]⟩

/-- The clause `q`. -/
def clauseQ : Clause := ⟨false, [.const "q"]⟩

/-- The clause `¬p`, which is no rule. -/
def denialP : Clause := ⟨false, [.lit true "p"]⟩

/-- The fact `p`. -/
def factP : HornClause := ⟨clauseP, .const "p", rfl⟩

/-- A base takes in `p` and `q`, loses `p` and takes it in again; a base of rules takes in `p` and refuses `¬p`. -/
def reinserted : List Value :=
  [.ruleBase [factP] ⟨[factP]⟩, .ruleBase [factP] ⟨[factP]⟩, .ruleBase [] .empty, .clause denialP,
    .base [.insert clauseP, .insert clauseQ, .remove clauseP, .insert clauseP] ⟨[clauseQ, clauseP]⟩,
    .base [.insert clauseP, .insert clauseQ, .remove clauseP] ⟨[clauseQ]⟩,
    .base [.insert clauseP, .insert clauseQ] ⟨[clauseP, clauseQ]⟩, .base [.insert clauseP] ⟨[clauseP]⟩,
    .base [] .empty, .clause clauseQ, .clause clauseP]

theorem course_reinserted : Course reinserted := by
  have hclauses : Course [.clause clauseQ, .clause clauseP] :=
    (Course.start.step (.unit (t := .const "p") rfl)).step (.unit (t := .const "q") rfl)
  have hbase : Course (reinserted.drop 4) := by
    refine .step (.step (.step (.step (.step hclauses .newBase) ?_) ?_) ?_) ?_
    · exact .insert List.mem_cons_self (by simp)
    · exact .insert List.mem_cons_self (by simp)
    · exact .remove List.mem_cons_self (by simp)
    · exact .insert List.mem_cons_self (by simp)
  refine .step (.step (.step (.step hbase (.unit (t := .lit true "p") rfl)) .newRuleBase) ?_) ?_
  · exact .insertClause List.mem_cons_self (c := clauseP) (by simp)
  · exact .insertClause List.mem_cons_self (c := denialP) (by simp)

/-- `p` comes after `q` when it is taken in again, and is refused then; `¬p` does not change the base of rules. -/
theorem reinserted_keeps_invariant :
    Course reinserted ∧
      firsts Clause.Alike (Change.standing Clause.Alike
        [.insert clauseP, .insert clauseQ, .remove clauseP, .insert clauseP]) = [clauseQ, clauseP] ∧
      Taken Clause.Alike [clauseQ, clauseP] clauseP false [clauseQ, clauseP] ∧
      (HornBase.addClause denialP).run.run ⟨[factP]⟩ = (.error (.notHorn denialP.render 0), ⟨[factP]⟩) := by
  obtain ⟨-, -, hbases, hruleBases⟩ := stores_keep_invariant reinserted course_reinserted
  have hbase : .base [.insert clauseP, .insert clauseQ, .remove clauseP, .insert clauseP] ⟨[clauseQ, clauseP]⟩ ∈
      reinserted := by simp [reinserted]
  have hruleBase : .ruleBase [factP] ⟨[factP]⟩ ∈ reinserted := by simp [reinserted]
  obtain ⟨-, -, hclauses, htaken⟩ := hbases _ _ hbase
  obtain ⟨-, -, -, -, hclause⟩ := hruleBases _ _ hruleBase
  refine ⟨course_reinserted, hclauses.symm, htaken clauseP (by simp [reinserted]), ?_⟩
  rcases hclause denialP (by simp [reinserted]) with ⟨-, hrefused⟩ | ⟨h, -, -, hdenial, -⟩
  · exact hrefused
  · have hpositives := h.positives_eq
    rw [hdenial] at hpositives
    cases hpositives

end Courses

end Clausal
