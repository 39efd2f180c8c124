import Mathlib.Data.List.Basic
import Clausal.Forward
import Clausal.Proofs.Term.FirstOrder

/-!
# Clausal.Proofs.Forward.LeastModel — what forward chaining derives

Forward chaining derives the terms that follow from rules read without regard to variables: the least set, up to
`Term.same`, that has the head of every rule whose premises it has.

* `Follows rules t`: `t` is in that set.
* `follows_fact_iff`: what follows from a fact and other rules is the fact, and what follows from those rules once the
  fact has been discharged from them.  One turn of `derives` does no more than that.
* `derives_iff`: with fuel for every rule that may still fire, `derives` tells whether the query follows.
* `entails_iff`: so does `HornBase.entails`.
-/

namespace Clausal.Forward

/-- `t` follows from the rules. -/
inductive Follows (rs : List Pending) : Term → Prop where
  | fire {p : Pending} {t : Term} (hmem : p ∈ rs) (hprem : ∀ q ∈ p.premises, Follows rs q)
      (hhead : p.head.same t = true) : Follows rs t

variable {rs rs' : List Pending} {query t u : Term}

theorem Follows.mono (h : Follows rs t) (hsub : rs ⊆ rs') : Follows rs' t := by
  induction h with
  | fire hmem _ hhead ih => exact .fire (hsub hmem) ih hhead

/-! ## Facts -/

section Facts

/-- The rule without premises. -/
def fact (t : Term) : Pending :=
  { head := t, premises := [] }

theorem eq_fact_of_isReady {p : Pending} (hp : p.isReady = true) : p = fact p.head := by
  obtain ⟨head, premises⟩ := p
  obtain rfl : premises = [] := List.isEmpty_iff.mp hp
  rfl

/-- Rules that are ready are facts. -/
theorem follows_split_iff (rs rest : List Pending) :
    Follows (((rs.filter Pending.isReady).map (·.head)).map fact ++ rest ++ rs.filter (!·.isReady)) t ↔
      Follows (rest ++ rs) t := by
  have hready : ∀ p, p ∈ ((rs.filter Pending.isReady).map (·.head)).map fact ↔ p ∈ rs ∧ p.isReady = true := by
    intro p
    simp only [List.map_map, List.mem_map, List.mem_filter, Function.comp]
    constructor
    · rintro ⟨q, ⟨hq, hr⟩, rfl⟩
      rw [← eq_fact_of_isReady hr]
      exact ⟨hq, hr⟩
    · rintro ⟨hp, hr⟩
      exact ⟨p, ⟨hp, hr⟩, (eq_fact_of_isReady hr).symm⟩
  have hsame : ∀ p, p ∈ ((rs.filter Pending.isReady).map (·.head)).map fact ++ rest ++ rs.filter (!·.isReady) ↔
      p ∈ rest ++ rs := by
    intro p
    simp only [List.mem_append, hready, List.mem_filter]
    cases p.isReady with
    | true => simp [or_comm]
    | false => simp
  exact ⟨fun h => h.mono fun p hp => (hsame p).mp hp, fun h => h.mono fun p hp => (hsame p).mpr hp⟩

/-- A fact can be discharged from the other rules. -/
theorem follows_fact_iff : Follows (fact t :: rs) u ↔ t.same u = true ∨ Follows (rs.map (·.discharge t)) u := by
  constructor
  · intro h
    induction h with
    | @fire p u hmem _ hhead ih =>
      rcases List.mem_cons.mp hmem with rfl | hmem
      · exact .inl hhead
      · refine .inr (.fire (List.mem_map_of_mem hmem) (fun q hq => ?_) hhead)
        -- a premise that is left is not `t`
        obtain ⟨hq, hne⟩ := List.mem_filter.mp hq
        rcases ih q hq with hsame | hq
        · rw [Term.same_comm, hsame] at hne
          cases hne
        · exact hq
  · rintro (hsame | h)
    · exact .fire List.mem_cons_self (fun q hq => nomatch hq) hsame
    · induction h with
      | fire hmem _ hhead ih =>
        obtain ⟨p, hp, rfl⟩ := List.mem_map.mp hmem
        refine .fire (List.mem_cons_of_mem _ hp) (fun q hq => ?_) hhead
        cases hsame : q.same t with
        | true => exact .fire List.mem_cons_self (fun q hq => nomatch hq) (by rw [Term.same_comm]; exact hsame)
        | false => exact ih q (List.mem_filter.mpr ⟨hq, by rw [hsame]; rfl⟩)

/-- Nothing follows from rules that all wait for a premise. -/
theorem not_follows_of_waiting (h : ∀ p ∈ rs, p.isReady = false) : ¬ Follows rs t := by
  intro hfol
  induction hfol with
  | @fire p _ hmem _ _ ih =>
    cases hprem : p.premises with
    | nil =>
      have hready : p.isReady = true := by rw [Pending.isReady, hprem]; rfl
      rw [h p hmem] at hready
      cases hready
    | cons q premises => exact ih q (by rw [hprem]; exact List.mem_cons_self)

end Facts

/-! ## The agenda -/

section Agenda

theorem follows_agenda_iff {agenda : List Term} {waiting : List Pending} :
    Follows ((t :: agenda).map fact ++ waiting) u ↔
      t.same u = true ∨ Follows (agenda.map fact ++ waiting.map (·.discharge t)) u := by
  rw [List.map_cons, List.cons_append, follows_fact_iff, List.map_append, List.map_map]
  rfl

theorem isReady_of_mem_filter {p : Pending} (hp : p ∈ rs.filter (!·.isReady)) : p.isReady = false := by
  simpa using (List.mem_filter.mp hp).2

/-- Every term of the agenda costs a turn, and so will every rule that waits, if it fires. -/
theorem derives_iff {fuel : Nat} {agenda : List Term} {waiting : List Pending}
    (hfuel : agenda.length + waiting.length ≤ fuel) (hwait : ∀ p ∈ waiting, p.isReady = false) :
    derives query fuel agenda waiting = true ↔ Follows (agenda.map fact ++ waiting) query := by
  fun_induction derives query fuel agenda waiting with
  | case1 fuel waiting => exact ⟨nofun, fun h => absurd h (not_follows_of_waiting hwait)⟩
  | case2 t agenda waiting => simp at hfuel
  | case3 fuel t agenda waiting hsame => exact iff_of_true rfl (follows_agenda_iff.mpr (.inl hsame))
  | case4 fuel t agenda waiting₀ hsame waiting ih =>
    have hlen : (waiting.filter Pending.isReady).length + (waiting.filter (!·.isReady)).length = waiting₀.length := by
      rw [← List.length_eq_length_filter_add, List.length_map]
    have henough : ((waiting.filter Pending.isReady).map (·.head) ++ agenda).length +
        (waiting.filter (!·.isReady)).length ≤ fuel := by
      rw [List.length_cons] at hfuel
      rw [List.length_append, List.length_map]
      omega
    rw [ih henough fun p hp => isReady_of_mem_filter hp, List.map_append, follows_split_iff, follows_agenda_iff]
    exact (or_iff_right hsame).symm

end Agenda

/-- The query follows from the rules of the knowledge base exactly if it is derived. -/
theorem entails_iff (kb : HornBase) (query : Term) :
    kb.entails query = true ↔ Follows (rules kb) query.positive := by
  have hlen : ((rules kb).filter Pending.isReady).length + ((rules kb).filter (!·.isReady)).length =
      kb.clauses.length := by
    rw [← List.length_eq_length_filter_add, rules, List.length_map]
  have hsplit := follows_split_iff (t := query.positive) (rules kb) []
  rw [List.append_nil, List.nil_append] at hsplit
  rw [HornBase.entails, ← hsplit]
  exact derives_iff (by rw [List.length_map]; omega) fun p hp => isReady_of_mem_filter hp

end Clausal.Forward
