import Mathlib.Order.Bounds.Basic
import Mathlib.Data.Set.Lattice
import Clausal.Proofs.Forward.LeastModel
import Clausal.Proofs.Horn.Meaning

/-!
# Clausal.Proofs.Forward.Counting — forward chaining by counters

What forward chaining derives is the least model of the rules, and it can be told with a counter for each rule in place
of the premises that are left.

* `HornBase.IsModel`, `HornBase.leastModel`: the sets of terms that have the head of every rule whose premises they
  have, and the least of them; `mem_leastModel_iff` says that its members are the terms that follow.
* `Tally`: an agenda, the terms that were derived, and a counter for each rule.  `Tally.derive` is what a new term does
  to the counters.
* `Tally.run`: the loop.  A turn takes a term off the agenda, and one is put there only when a counter comes to zero, so
  that `Tally.weight` sinks.
* `Tally.Sound`: the invariant, that a counter is the number of premises that have not been derived.
* `Tally.run_iff`: the loop tells whether the query follows from what is left.
* `chaining_computes_least_model`: the main statement.
-/

namespace Clausal

/-! ## Models -/

section Models

variable {kb : HornBase} {t : Term}

/-- A set of terms, up to `Term.same`, that has the head of every rule whose premises it has. -/
structure HornBase.IsModel (kb : HornBase) (M : Set Term) : Prop where
  same : ∀ {t u : Term}, t.same u = true → t ∈ M → u ∈ M
  rule : ∀ h ∈ kb.clauses, (∀ b ∈ h.body, b.positive ∈ M) → h.head ∈ M

/-- The terms that are in every model. -/
def HornBase.leastModel (kb : HornBase) : Set Term :=
  ⋂₀ {M | kb.IsModel M}

theorem isLeast_leastModel (kb : HornBase) : IsLeast {M | kb.IsModel M} kb.leastModel := by
  refine ⟨⟨fun hsame ht M hM => hM.same hsame (ht M hM), fun h hh hbody M hM => ?_⟩, fun M hM t ht => ht M hM⟩
  exact hM.rule h hh fun b hb => hbody b hb M hM

namespace Forward

theorem isModel_follows (kb : HornBase) : kb.IsModel {t | Follows (rules kb) t} where
  same := by
    rintro t u hsame ⟨hmem, hprem, hhead⟩
    exact .fire hmem hprem (Term.same_trans hhead hsame)
  rule h hh hbody := by
    refine .fire (List.mem_map_of_mem hh) (fun p hp => ?_) (Term.same_refl h.head)
    obtain ⟨b, hb, rfl⟩ := List.mem_map.mp hp
    exact hbody b hb

theorem mem_leastModel_iff : t ∈ kb.leastModel ↔ Follows (rules kb) t := by
  constructor
  · exact fun ht => ht _ (isModel_follows kb)
  · intro h M hM
    induction h with
    | fire hmem _ hhead ih =>
      obtain ⟨c, hc, rfl⟩ := List.mem_map.mp hmem
      exact hM.same hhead (hM.rule c hc fun b hb => ih _ (List.mem_map_of_mem hb))

end Forward

end Models

namespace Forward

/-! ## The loop -/

section Loop

/-- A rule with the number of premises that it waits for. -/
abbrev Counter := HornClause × Nat

/-- The counter once `t` has been derived: one less if `t` is a premise, unless it is zero. -/
def Counter.credit (t : Term) (r : Counter) : Counter :=
  if 0 < r.2 && Distinct.mem Term.same r.1.body t.negate then (r.1, r.2 - 1) else r

/-- The counter comes to zero when `t` is derived. -/
def Counter.fires (t : Term) (r : Counter) : Bool :=
  0 < r.2 && (r.credit t).2 == 0

/-- The state of forward chaining by counters. -/
structure Tally where
  /-- The terms to be looked at, the last one that was put there first. -/
  agenda : List Term
  derived : List Term
  counters : List Counter

/-- The facts on the agenda, and a counter for all premises of each rule. -/
def Tally.start (kb : HornBase) : Tally where
  agenda := ((kb.clauses.filter HornClause.isFact).map (·.head)).reverse
  derived := []
  counters := kb.clauses.map fun h => (h, h.body.length)

/-- The new term `t` is derived: the counters of the rules that have it as a premise go down, and the heads of those
that come to zero are put on the agenda. -/
def Tally.derive (s : Tally) (t : Term) : Tally where
  agenda := ((s.counters.filter (Counter.fires t)).map (·.1.head)).reverse ++ s.agenda
  derived := Distinct.insert Term.same s.derived t
  counters := s.counters.map (Counter.credit t)

/-- The number of turns to come at most: the terms on the agenda, and the rules that may put one there. -/
def Tally.weight (s : Tally) : Nat :=
  s.agenda.length + s.counters.countP (0 < ·.2)

/-- A counter that comes to zero does so once. -/
theorem countP_credit (t : Term) (cs : List Counter) :
    cs.countP (Counter.fires t) + (cs.map (Counter.credit t)).countP (0 < ·.2) = cs.countP (0 < ·.2) := by
  induction cs with
  | nil => rfl
  | cons r cs ih =>
    have hhead : (if r.fires t then 1 else 0) + (if 0 < (r.credit t).2 then 1 else 0) = if 0 < r.2 then 1 else 0 := by
      by_cases hpos : 0 < r.2
      · by_cases hzero : (r.credit t).2 = 0
        · simp [Counter.fires, hpos, hzero]
        · simp [Counter.fires, hpos, hzero, Nat.pos_of_ne_zero hzero]
      · have hsame : r.credit t = r := by simp [Counter.credit, hpos]
        simp [Counter.fires, hsame, hpos]
    simp only [List.map_cons, List.countP_cons, decide_eq_true_eq]
    omega

theorem weight_derive (s : Tally) (t : Term) : (s.derive t).weight = s.weight := by
  have hcount := countP_credit t s.counters
  simp only [Tally.weight, Tally.derive, List.length_append, List.length_reverse, List.length_map,
    ← List.countP_eq_length_filter]
  omega

/-- Whether `query` is derived from the state `s`. -/
def Tally.run (query : Term) : Tally → Bool
  | ⟨[], _, _⟩ => false
  | ⟨t :: agenda, derived, counters⟩ =>
    if t.same query then true
    else if Distinct.mem Term.same derived t then run query ⟨agenda, derived, counters⟩
    else run query (Tally.derive ⟨agenda, derived, counters⟩ t)
termination_by s => s.weight
decreasing_by
  · simp only [Tally.weight, List.length_cons]
    omega
  · rw [weight_derive]
    simp only [Tally.weight, List.length_cons]
    omega

end Loop

/-! ## The premises that are left -/

section Left

variable {derived : List Term} {h : HornClause} {t : Term}

/-- The premises of `h` that have not been derived. -/
def left (derived : List Term) (h : HornClause) : List Term :=
  h.premises.filter fun p => !Distinct.mem Term.same derived p

/-- The rule `h` with the premises that are left. -/
def pend (derived : List Term) (h : HornClause) : Pending where
  head := h.head
  premises := left derived h

theorem mem_derived_of_same {p : Term} (hp : Distinct.mem Term.same derived p = true) (hsame : p.same t = true) :
    Distinct.mem Term.same derived t = true := by
  obtain ⟨u, hu, hup⟩ := List.any_eq_true.mp hp
  exact List.any_eq_true.mpr ⟨u, hu, Term.same_trans hup hsame⟩

/-- What is left after `t` has been derived too. -/
theorem pend_insert (ht : Distinct.mem Term.same derived t = false) (h : HornClause) :
    pend (Distinct.insert Term.same derived t) h = (pend derived h).discharge t := by
  have hinsert : Distinct.insert Term.same derived t = derived ++ [t] := by simp [Distinct.insert, ht]
  have hmem : ∀ p, Distinct.mem Term.same (derived ++ [t]) p = (Distinct.mem Term.same derived p || p.same t) := by
    intro p
    simp [Distinct.mem, Term.same_comm t p]
  unfold pend left Pending.discharge
  rw [hinsert, List.filter_filter]
  congr 1
  refine List.filter_congr fun p _ => ?_
  rw [hmem, Bool.not_or, Bool.and_comm]

/-- A term that was derived before is no premise that is left. -/
theorem discharge_pend (ht : Distinct.mem Term.same derived t = true) (h : HornClause) :
    (pend derived h).discharge t = pend derived h := by
  unfold pend Pending.discharge
  congr 1
  refine List.filter_eq_self.mpr fun p hp => ?_
  have hleft : Distinct.mem Term.same derived p = false := by simpa using (List.mem_filter.mp hp).2
  cases hsame : p.same t with
  | false => rfl
  | true =>
    rw [mem_derived_of_same ht (by rw [Term.same_comm]; exact hsame)] at hleft
    cases hleft

/-- A negated term is the negation of `t` just if it is `t` without its sign. -/
theorem same_negate {b : Term} (hb : b.isNegated = true) (ht : t.isNegated = false) :
    b.same t.negate = b.positive.same t := by
  cases b <;> cases hb <;> cases t <;> cases ht <;>
    simp [Term.same, Term.negate, Term.positive, Term.withFlag, Term.isNegated]

theorem same_positive_of_isNegated {b b' : Term} (hb : b.isNegated = true) (hb' : b'.isNegated = true) :
    b.positive.same b'.positive = b.same b' := by
  cases b <;> cases hb <;> cases b' <;> cases hb' <;> simp [Term.same, Term.positive, Term.withFlag]

theorem pairwise_premises (hbody : h.body.Pairwise fun a b => ¬ a.same b = true) :
    h.premises.Pairwise fun a b => ¬ a.same b = true := by
  refine List.pairwise_map.mpr (hbody.imp_of_mem fun {b b'} hb hb' hne => ?_)
  rw [same_positive_of_isNegated (HornClause.isNegated_of_mem_body hb) (HornClause.isNegated_of_mem_body hb')]
  exact hne

/-- Among terms that differ from each other at most one is the same as `t`. -/
theorem length_filter_same {ts : List Term} (hts : ts.Pairwise fun a b => ¬ a.same b = true) {u : Term} (hu : u ∈ ts)
    (hsame : u.same t = true) : (ts.filter (!·.same t)).length + 1 = ts.length := by
  induction hts with
  | nil => cases hu
  | @cons a ts ha _ ih =>
    by_cases hat : a.same t = true
    · -- the others are not the same as `a`, so they are not the same as `t`
      have hrest : ts.filter (!·.same t) = ts := by
        refine List.filter_eq_self.mpr fun b hb => ?_
        have hbt : ¬ b.same t = true := fun hbt =>
          ha b hb (Term.same_trans hat (by rw [Term.same_comm]; exact hbt))
        simpa using hbt
      simp [hat, hrest]
    · have hu' : u ∈ ts := by
        rcases List.mem_cons.mp hu with rfl | hu
        · exact absurd hsame hat
        · exact hu
      simp [hat, ih hu']

theorem mem_body_negate (ht : t.isNegated = false) :
    Distinct.mem Term.same h.body t.negate = true ↔ ∃ p ∈ h.premises, p.same t = true := by
  rw [Distinct.mem, List.any_eq_true, HornClause.premises]
  constructor
  · rintro ⟨b, hb, hsame⟩
    rw [same_negate (HornClause.isNegated_of_mem_body hb) ht] at hsame
    exact ⟨b.positive, List.mem_map_of_mem hb, hsame⟩
  · rintro ⟨p, hp, hsame⟩
    obtain ⟨b, hb, rfl⟩ := List.mem_map.mp hp
    exact ⟨b, hb, by rw [same_negate (HornClause.isNegated_of_mem_body hb) ht]; exact hsame⟩

/-- The counter of a rule keeps up with the premises that are left. -/
theorem length_left_insert (hbody : h.body.Pairwise fun a b => ¬ a.same b = true) (ht : t.isNegated = false)
    (hnew : Distinct.mem Term.same derived t = false) :
    (Counter.credit t (h, (left derived h).length)).2 = (left (Distinct.insert Term.same derived t) h).length := by
  have hinsert : left (Distinct.insert Term.same derived t) h = (left derived h).filter (!·.same t) :=
    congrArg Pending.premises (pend_insert hnew h)
  rw [hinsert, Counter.credit]
  by_cases hprem : ∃ p ∈ h.premises, p.same t = true
  · obtain ⟨p, hp, hsame⟩ := hprem
    have hleft : p ∈ left derived h := by
      refine List.mem_filter.mpr ⟨hp, ?_⟩
      cases hmem : Distinct.mem Term.same derived p with
      | false => rfl
      | true =>
        rw [mem_derived_of_same hmem hsame] at hnew
        cases hnew
    have hlen := length_filter_same ((pairwise_premises hbody).filter _) hleft hsame
    have hpos : 0 < (left derived h).length := List.length_pos_of_mem hleft
    rw [if_pos (by simp [hpos, (mem_body_negate ht).mpr ⟨p, hp, hsame⟩])]
    change (left derived h).length - 1 = _
    unfold left at hpos ⊢
    omega
  · have hbody' : Distinct.mem Term.same h.body t.negate = false := by
      rw [Bool.eq_false_iff, ne_eq, mem_body_negate ht]
      exact hprem
    have hall : (left derived h).filter (!·.same t) = left derived h := by
      refine List.filter_eq_self.mpr fun p hp => ?_
      have hne : ¬ p.same t = true := fun hsame => hprem ⟨p, (List.mem_filter.mp hp).1, hsame⟩
      simpa using hne
    rw [hbody', Bool.and_false, hall]
    rfl

end Left

/-! ## Turns -/

section Turns

variable {s : Tally} {query t : Term} {r : Counter}

/-- The terms on the agenda are heads, no rule has a premise twice, and a counter is the number of premises that have
not been derived. -/
structure Tally.Sound (s : Tally) : Prop where
  positive : ∀ t ∈ s.agenda, t.isNegated = false
  distinct : ∀ r ∈ s.counters, r.1.body.Pairwise fun a b => ¬ a.same b = true
  count : ∀ r ∈ s.counters, r.2 = (left s.derived r.1).length

/-- The rules that wait for a premise, with the premises that are left. -/
def Tally.waiting (s : Tally) : List Pending :=
  (s.counters.filter (0 < ·.2)).map fun r => pend s.derived r.1

/-- `query` follows from the terms on the agenda and the rules that wait. -/
def Tally.Yields (s : Tally) (query : Term) : Prop :=
  Follows (s.agenda.map fact ++ s.waiting) query

theorem isNegated_head (h : HornClause) : h.head.isNegated = false := by
  have hmem : h.head ∈ h.clause.positives := by rw [h.positives_eq]; exact List.mem_singleton_self _
  simpa using (List.mem_filter.mp hmem).2

theorem credit_fst (t : Term) (r : Counter) : (r.credit t).1 = r.1 := by
  unfold Counter.credit
  split <;> rfl

theorem pos_of_pos_credit (h : 0 < (r.credit t).2) : 0 < r.2 := by
  unfold Counter.credit at h
  split at h
  · exact Nat.lt_of_lt_of_le h (Nat.sub_le _ _)
  · exact h

theorem follows_congr {rs rs' : List Pending} (h : ∀ p, p ∈ rs ↔ p ∈ rs') : Follows rs t ↔ Follows rs' t :=
  ⟨fun hf => hf.mono fun p hp => (h p).mp hp, fun hf => hf.mono fun p hp => (h p).mpr hp⟩

theorem Tally.Sound.credit_snd (hs : s.Sound) (ht : t.isNegated = false)
    (hnew : Distinct.mem Term.same s.derived t = false) (hr : r ∈ s.counters) :
    (r.credit t).2 = (left (Distinct.insert Term.same s.derived t) r.1).length := by
  rw [← length_left_insert (hs.distinct r hr) ht hnew, ← hs.count r hr]

/-- What a new term does to the invariant. -/
theorem Tally.Sound.derive (hs : s.Sound) (ht : t.isNegated = false)
    (hnew : Distinct.mem Term.same s.derived t = false) : (s.derive t).Sound where
  positive u hu := by
    rcases List.mem_append.mp hu with hu | hu
    · obtain ⟨r, -, rfl⟩ := List.mem_map.mp (List.mem_reverse.mp hu)
      exact isNegated_head r.1
    · exact hs.positive u hu
  distinct r' hr' := by
    obtain ⟨r, hr, rfl⟩ := List.mem_map.mp hr'
    rw [credit_fst]
    exact hs.distinct r hr
  count r' hr' := by
    obtain ⟨r, hr, rfl⟩ := List.mem_map.mp hr'
    rw [credit_fst]
    exact hs.credit_snd ht hnew hr

/-- The rules that fire when `t` is derived, and those that wait on, are the rules that waited, less the premise `t`. -/
theorem Tally.Sound.yields_derive_iff (hs : s.Sound) (ht : t.isNegated = false)
    (hnew : Distinct.mem Term.same s.derived t = false) :
    (s.derive t).Yields query ↔ Follows (s.agenda.map fact ++ s.waiting.map (·.discharge t)) query := by
  let rule : Counter → Pending := fun r => pend (Distinct.insert Term.same s.derived t) r.1
  have hready : ∀ r ∈ s.counters, (rule r).isReady = ((r.credit t).2 == 0) := by
    intro r hr
    rw [hs.credit_snd ht hnew hr]
    change (left (Distinct.insert Term.same s.derived t) r.1).isEmpty = _
    cases left (Distinct.insert Term.same s.derived t) r.1 <;> rfl
  have hrules : s.waiting.map (·.discharge t) = (s.counters.filter (0 < ·.2)).map rule := by
    rw [Tally.waiting, List.map_map]
    exact List.map_congr_left fun r _ => (pend_insert hnew r.1).symm
  have hfired : (s.waiting.map (·.discharge t)).filter Pending.isReady =
      (s.counters.filter (Counter.fires t)).map rule := by
    rw [hrules, List.filter_map, List.filter_filter]
    congr 1
    refine List.filter_congr fun r hr => ?_
    rw [Function.comp, hready r hr, Bool.and_comm]
    rfl
  have hwaiting : (s.waiting.map (·.discharge t)).filter (!·.isReady) = (s.derive t).waiting := by
    rw [hrules, List.filter_map, List.filter_filter, Tally.waiting, Tally.derive]
    dsimp only
    rw [List.filter_map, List.map_map]
    have hsame : (fun r : Counter => pend (Distinct.insert Term.same s.derived t) r.1) ∘ Counter.credit t = rule := by
      funext r
      simp only [Function.comp, credit_fst, rule]
    rw [hsame]
    congr 1
    refine List.filter_congr fun r hr => ?_
    have hpos := pos_of_pos_credit (t := t) (r := r)
    simp only [Function.comp, hready r hr]
    by_cases hzero : (r.credit t).2 = 0
    · simp [hzero]
    · simp [hzero, Nat.pos_of_ne_zero hzero, hpos (Nat.pos_of_ne_zero hzero)]
  rw [← follows_split_iff, hfired, hwaiting]
  refine follows_congr fun p => ?_
  simp [Tally.derive, rule, pend]

/-- **The loop tells what follows.** -/
theorem Tally.Sound.run_iff (hs : s.Sound) : s.run query = true ↔ s.Yields query := by
  fun_induction Tally.run query s with
  | case1 derived counters =>
    have hwait : ∀ p ∈ Tally.waiting ⟨[], derived, counters⟩, p.isReady = false := by
      intro p hp
      obtain ⟨r, hr, rfl⟩ := List.mem_map.mp hp
      obtain ⟨hr, hpos⟩ := List.mem_filter.mp hr
      have hcount : r.2 = (left derived r.1).length := hs.count r hr
      have hlen : 0 < (left derived r.1).length := by
        rw [← hcount]
        simpa using hpos
      simpa [Pending.isReady, pend] using List.ne_nil_of_length_pos hlen
    exact iff_of_false Bool.false_ne_true (not_follows_of_waiting hwait)
  | case2 t agenda derived counters hsame =>
    exact iff_of_true rfl (follows_agenda_iff.mpr (.inl hsame))
  | case3 t agenda derived counters hsame hold ih =>
    have hs' : Tally.Sound ⟨agenda, derived, counters⟩ :=
      ⟨fun u hu => hs.positive u (List.mem_cons_of_mem t hu), hs.distinct, hs.count⟩
    -- no rule waits for a term that was derived before
    have hstay : (Tally.waiting ⟨agenda, derived, counters⟩).map (·.discharge t) =
        Tally.waiting ⟨agenda, derived, counters⟩ := by
      rw [Tally.waiting, List.map_map]
      exact List.map_congr_left fun r _ => discharge_pend hold r.1
    rw [ih hs', Tally.Yields, ← hstay]
    exact ((or_iff_right hsame).symm.trans follows_agenda_iff.symm)
  | case4 t agenda derived counters hsame hnew ih =>
    have hs' : Tally.Sound ⟨agenda, derived, counters⟩ :=
      ⟨fun u hu => hs.positive u (List.mem_cons_of_mem t hu), hs.distinct, hs.count⟩
    have ht : t.isNegated = false := hs.positive t List.mem_cons_self
    have hfresh : Distinct.mem Term.same derived t = false := by simpa using hnew
    rw [ih (hs'.derive ht hfresh), hs'.yields_derive_iff ht hfresh]
    exact ((or_iff_right hsame).symm.trans follows_agenda_iff.symm)

end Turns

/-! ## All rules -/

section Start

variable {kb : HornBase} {query : Term}

theorem left_nil (h : HornClause) : left [] h = h.premises :=
  List.filter_eq_self.mpr fun _ _ => rfl

theorem sound_start (hkb : ∀ h ∈ kb.clauses, h.body.Pairwise fun a b => ¬ a.same b = true) :
    (Tally.start kb).Sound where
  positive t ht := by
    obtain ⟨h, -, rfl⟩ := List.mem_map.mp (List.mem_reverse.mp ht)
    exact isNegated_head h
  distinct r hr := by
    obtain ⟨h, hh, rfl⟩ := List.mem_map.mp hr
    exact hkb h hh
  count r hr := by
    obtain ⟨h, -, rfl⟩ := List.mem_map.mp hr
    change h.body.length = (left [] h).length
    rw [left_nil, HornClause.premises, List.length_map]

theorem yields_start_iff (kb : HornBase) (query : Term) : (Tally.start kb).Yields query ↔ Follows (rules kb) query := by
  have hready : ∀ h : HornClause, (⟨h.head, h.premises⟩ : Pending).isReady = h.isFact := by
    intro h
    simp [Pending.isReady, HornClause.premises, HornClause.isFact]
  have hwaiting : (Tally.start kb).waiting = (rules kb).filter (!·.isReady) := by
    have hpend : ∀ h : HornClause, pend [] h = ⟨h.head, h.premises⟩ := fun h => by rw [pend, left_nil]
    rw [Tally.waiting, Tally.start, rules, List.filter_map, List.filter_map, List.map_map]
    have hfilter : kb.clauses.filter (((0 < ·.2) : Counter → Bool) ∘ fun h => (h, h.body.length)) =
        kb.clauses.filter ((!·.isReady) ∘ fun h => (⟨h.head, h.premises⟩ : Pending)) := by
      refine List.filter_congr fun h _ => ?_
      rw [Bool.eq_iff_iff]
      simp [hready, HornClause.isFact, List.length_pos_iff]
    rw [hfilter]
    exact List.map_congr_left fun h _ => hpend h
  have hsplit := follows_split_iff (t := query) (rules kb) []
  rw [List.append_nil, List.nil_append] at hsplit
  rw [← hsplit, Tally.Yields, hwaiting]
  refine follows_congr fun p => ?_
  simp [Tally.start, rules, hready]

/-- The two ways to chain forward agree. -/
theorem run_start_eq (hkb : ∀ h ∈ kb.clauses, ∃ sign, Obtained sign h.clause) (query : Term) :
    (Tally.start kb).run query.positive = kb.entails query := by
  have hdistinct : ∀ h ∈ kb.clauses, h.body.Pairwise fun a b => ¬ a.same b = true := by
    intro h hh
    obtain ⟨sign, hc⟩ := hkb h hh
    exact hc.pairwise.filter _
  rw [Bool.eq_iff_iff, (sound_start hdistinct).run_iff, yields_start_iff, entails_iff]

end Start

/-- **Forward chaining computes the least model.**  There is a least set of terms that has the head of every rule whose
premises it has; the query is derived just if it is in there, whatever its sign; and so it is derived just if the loop
that keeps a counter for each rule comes to it, whichever way the clauses of the rules were come by. -/
theorem chaining_computes_least_model (kb : HornBase) (query : Term) :
    IsLeast {M | kb.IsModel M} kb.leastModel ∧
    (kb.entails query = true ↔ query.positive ∈ kb.leastModel) ∧
    ((∀ h ∈ kb.clauses, ∃ sign, Obtained sign h.clause) →
      (Tally.start kb).run query.positive = kb.entails query) := by
  refine ⟨isLeast_leastModel kb, ?_, fun hkb => run_start_eq hkb query⟩
  rw [entails_iff, mem_leastModel_iff]

/-- `base` is a fact that is derived again from `roof`, three rules share the premise `base`, and `lift` has no rule. -/
def meshBase : HornBase :=
  ⟨[⟨⟨false, [.const "base"]⟩, .const "base", rfl⟩,
    ⟨⟨false, [.const "base", .lit true "roof"]⟩, .const "base", rfl⟩,
    ⟨⟨false, [.const "roof", .lit true "base", .lit true "wall"]⟩, .const "roof", rfl⟩,
    ⟨⟨false, [.const "wall", .lit true "base"]⟩, .const "wall", rfl⟩,
    ⟨⟨false, [.const "tower", .lit true "base", .lit true "lift"]⟩, .const "tower", rfl⟩]⟩

theorem meshBase_least_model :
    (.const "roof" ∈ meshBase.leastModel ∧ (Tally.start meshBase).run (.const "roof") = true) ∧
    (.const "tower" ∉ meshBase.leastModel ∧ (Tally.start meshBase).run (.const "tower") = false) := by
  have hkb : ∀ h ∈ meshBase.clauses, ∃ sign, Obtained sign h.clause := by
    have hlist : ∀ h ∈ meshBase.clauses, Clause.ofList h.clause.members = .ok h.clause := by
      simp only [meshBase, List.forall_mem_cons]
      exact ⟨rfl, rfl, rfl, rfl, rfl, nofun⟩
    exact fun h hh => ⟨false, .ofList (hlist h hh)⟩
  have hd : meshBase.entails (.lit true "roof") = true := rfl
  have he : meshBase.entails (.const "tower") = false := rfl
  obtain ⟨-, hd₁, hd₂⟩ := chaining_computes_least_model meshBase (.lit true "roof")
  obtain ⟨-, he₁, he₂⟩ := chaining_computes_least_model meshBase (.const "tower")
  refine ⟨⟨hd₁.mp hd, (hd₂ hkb).trans hd⟩, ⟨fun hmem => ?_, (he₂ hkb).trans he⟩⟩
  rw [he₁.mpr hmem] at he
  cases he

end Forward

end Clausal
