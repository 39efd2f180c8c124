import Clausal.Proofs.ClauseForm.Renaming

/-!
# Clausal.Proofs.ClauseForm.Apart — the binders of a formula apart

* `Term.IsApart t scope`: no binder of `t` is in `scope` or in the scope of another binder of its name, the two sides
  of a connective have no binder in common, and every variable is in scope.
* `Recast I names t names' t'`: `t'` is `t` under other binders: it says the same in `I`, its free variables are free in
  `t`, and its binders are those of `t` or were not issued before.
* `recast_freshen`, `recast_freshenBoth`, `recast_leaveScope`: what the renamings of the pass do.
* `apartIn_spec`: the pass recasts a settled formula whose free variables are in scope, and leaves it apart.
-/

universe u

namespace Clausal

variable {D : Type u} {I : Interpretation D} {names names' names'' : Names} {x : String}

/-! ## Recast formulas -/

/-- `t'` is `t` under other binders, the names having moved on from `names` to `names'`. -/
structure Recast (I : Interpretation D) (names : Names) (t : Term) (names' : Names) (t' : Term) : Prop where
  later : names.Later names'
  holds : ∀ v, t'.Holds I v ↔ t.Holds I v
  settled : t'.isSettled = t.isSettled
  issued : ∀ x ∈ t'.variableNames, names'.Issued x
  free : ∀ x, t'.occursFree x = true → t.occursFree x = true
  binders : ∀ x ∈ t'.binderOccurrences, x ∈ t.binderOccurrences ∨ ¬ names.Issued x

/-- All names in `t` are issued. -/
def AllIssued (names : Names) (t : Term) : Prop :=
  ∀ x ∈ t.variableNames, names.Issued x

namespace Recast

variable {t t' t'' : Term}

theorem refl (h : AllIssued names t) : Recast I names t names t where
  later := .refl names
  holds _ := Iff.rfl
  settled := rfl
  issued := h
  free _ hx := hx
  binders _ hx := .inl hx

theorem trans (h : Recast I names t names' t') (h' : Recast I names' t' names'' t'') :
    Recast I names t names'' t'' where
  later := h.later.trans h'.later
  holds v := (h'.holds v).trans (h.holds v)
  settled := h'.settled.trans h.settled
  issued := h'.issued
  free x hx := h.free x (h'.free x hx)
  binders x hx := by
    rcases h'.binders x hx with hx | hx
    · exact h.binders x hx
    · exact .inr fun hi => hx (hi.later h.later)

/-- Names may have moved on before and after. -/
theorem widen {first last : Names} (h : Recast I names t names' t') (hfirst : first.Later names)
    (hlast : names'.Later last) : Recast I first t last t' where
  later := (hfirst.trans h.later).trans hlast
  holds := h.holds
  settled := h.settled
  issued x hx := (h.issued x hx).later hlast
  free := h.free
  binders x hx := (h.binders x hx).imp_right fun hn hi => hn (hi.later hfirst)

theorem conn {l r l' r' : Term} (hl : Recast I names l names' l') (hr : Recast I names r names' r') (n : Bool)
    (c : Connective) : Recast I names (.conn n c l r) names' (.conn n c l' r') where
  later := hl.later
  holds v := by simp only [Term.Holds, hl.holds, hr.holds]
  settled := by cases c <;> simp only [Term.isSettled, hl.settled, hr.settled]
  issued x hx := by
    rw [Term.variableNames, List.mem_append] at hx
    exact hx.elim (hl.issued x) (hr.issued x)
  free x hx := by
    rw [Term.occursFree, Bool.or_eq_true] at hx ⊢
    exact hx.imp (hl.free x) (hr.free x)
  binders x hx := by
    rw [Term.binderOccurrences, List.mem_append] at hx ⊢
    rcases hx with hx | hx
    · exact (hl.binders x hx).imp_left .inl
    · exact (hr.binders x hx).imp_left .inr

theorem quant (h : Recast I names t names' t') (n : Bool) (q : Quant) (hx : names'.Issued x) :
    Recast I names (.quant n q x t) names' (.quant n q x t') where
  later := h.later
  holds v := polar_congr n (Term.quantHolds_congr q fun d => h.holds _)
  settled := by rw [Term.isSettled, Term.isSettled, h.settled]
  issued y hy := by
    rcases List.mem_cons.mp hy with rfl | hy
    · exact hx
    · exact h.issued y hy
  free y hy := by
    obtain ⟨hyx, hy⟩ := Term.occursFree_quant.mp hy
    exact Term.occursFree_quant.mpr ⟨hyx, h.free y hy⟩
  binders y hy := by
    rcases List.mem_cons.mp hy with rfl | hy
    · exact .inl List.mem_cons_self
    · exact (h.binders y hy).imp_left (List.mem_cons_of_mem x)

theorem cons {ts ts' : List Term} {n : Bool} (h : Recast I names t names' t')
    (hts : ∀ n, Recast I names (.freeClause n ts) names' (.freeClause n ts')) :
    Recast I names (.freeClause n (t :: ts)) names' (.freeClause n (t' :: ts')) where
  later := h.later
  holds v := by
    have hrest := (hts false).holds v
    simp only [Term.Holds, polar_false] at hrest
    simp only [Term.Holds, Term.HoldAll, h.holds, hrest]
  settled := by
    have hrest := (hts false).settled
    simp only [Term.isSettled, Bool.not_false, Bool.true_or, Bool.true_and] at hrest
    simp only [Term.isSettled, Term.areSettled, List.isEmpty_cons, h.settled, hrest]
  issued x hx := by
    rw [Term.variableNames, Term.variableNamesAll, List.mem_append] at hx
    exact hx.elim (h.issued x) ((hts n).issued x)
  free x hx := by
    rw [Term.occursFree, Term.occursFreeAny, Bool.or_eq_true] at hx ⊢
    exact hx.imp (h.free x) ((hts n).free x)
  binders x hx := by
    rw [Term.binderOccurrences, Term.binderOccurrencesAll, List.mem_append] at hx ⊢
    rcases hx with hx | hx
    · exact (h.binders x hx).imp_left .inl
    · exact ((hts n).binders x hx).imp_left .inr

/-- What is recast later has no binder of what was recast before, if it had none. -/
theorem binders_apart {l r l' r' : Term} (hl : Recast I names l names' l') (hr : Recast I names' r names'' r')
    (hissued : AllIssued names r)
    (hdisj : ∀ z ∈ l.binderOccurrences, z ∈ r.binderOccurrences → z ∉ r'.binderOccurrences) :
    ∀ z ∈ l'.binderOccurrences, z ∉ r'.binderOccurrences := by
  intro z hzl hzr
  -- a binder of the first one was issued when the second one was reached
  have hz : names'.Issued z := hl.issued z (Term.mem_variableNames.mpr (.inr hzl))
  rcases hr.binders z hzr with hold | hnew
  · rcases hl.binders z hzl with hzl | hzl
    · exact hdisj z hzl hold hzr
    · exact hzl (hissued z (Term.mem_variableNames.mpr (.inr hold)))
  · exact hnew hz

end Recast

theorem not_mem_of_allIssued {t : Term} (h : AllIssued names t) : names.freshVariable.1 ∉ t.variableNames :=
  fun hmem => names.not_issued_freshVariable (h _ hmem)

theorem allIssued_renameBound {t : Term} (h : AllIssued names t) (x : String) :
    AllIssued names.freshVariable.2 (t.renameBound x names.freshVariable.1) := by
  intro y hy
  rcases Term.mem_variableNames_renameBound hy with rfl | hy
  · exact names.issued_freshVariable
  · exact (h y hy).later names.later_freshVariable

/-- A fresh name for the binders `x`. -/
theorem recast_renameBound {t : Term} (h : AllIssued names t) (x : String) :
    Recast I names t names.freshVariable.2 (t.renameBound x names.freshVariable.1) where
  later := names.later_freshVariable
  holds v := Term.holds_renameBound (not_mem_of_allIssued h) v
  settled := Term.isSettled_renameBound x _ t
  issued := allIssued_renameBound h x
  free y hy := Term.occursFree_renameBound hy
  binders y hy := by
    rw [Term.binderOccurrences_renameBound] at hy
    rcases Term.mem_map_rename hy with rfl | hy
    · exact .inr names.not_issued_freshVariable
    · exact .inl hy.1

theorem recast_freshen {t : Term} (h : AllIssued names t) (xs : List String) :
    Recast I names t (names.freshen xs t).2 (names.freshen xs t).1 := by
  induction xs generalizing names t with
  | nil => exact .refl h
  | cons x xs ih =>
    have hstep : Recast I names t _ _ := recast_renameBound h x
    exact hstep.trans (ih hstep.issued)

/-- After the shared binders were renamed on both sides, no binder is shared. -/
theorem recast_freshenBoth {l r : Term} (hl : AllIssued names l) (hr : AllIssued names r) (xs : List String)
    (hshared : ∀ z ∈ l.binderOccurrences, z ∈ r.binderOccurrences → z ∈ xs) :
    Recast I names l (names.freshenBoth xs l r).2 (names.freshenBoth xs l r).1.1 ∧
      Recast I names r (names.freshenBoth xs l r).2 (names.freshenBoth xs l r).1.2 ∧
      ∀ z ∈ (names.freshenBoth xs l r).1.1.binderOccurrences, z ∉ (names.freshenBoth xs l r).1.2.binderOccurrences := by
  induction xs generalizing names l r with
  | nil => exact ⟨.refl hl, .refl hr, fun z hzl hzr => nomatch hshared z hzl hzr⟩
  | cons x xs ih =>
    have ha := names.later_freshVariable
    have hb := names.freshVariable.2.later_freshVariable
    have hra : AllIssued names.freshVariable.2 r := fun z hz => (hr z hz).later ha
    have hl' : Recast I names l _ _ := (recast_renameBound hl x).widen (.refl names) hb
    have hr' : Recast I names r _ _ := (recast_renameBound hra x).widen ha (.refl _)
    have hissued : ∀ (t : Term), AllIssued names t → ∀ z ∈ t.binderOccurrences, names.Issued z :=
      fun t ht z hz => ht z (Term.mem_variableNames.mpr (.inr hz))
    obtain ⟨hl'', hr'', hdisj⟩ := ih hl'.issued hr'.issued fun z hzl hzr => by
      rw [Term.binderOccurrences_renameBound] at hzl hzr
      rcases Term.mem_map_rename hzl with rfl | ⟨hzl, hzx⟩
      · -- the fresh name on the left is neither the one on the right nor an old one
        rcases Term.mem_map_rename hzr with heq | ⟨hzr, -⟩
        · have hold := names.issued_freshVariable
          rw [heq] at hold
          exact absurd hold names.freshVariable.2.not_issued_freshVariable
        · exact absurd (hissued r hr _ hzr) names.not_issued_freshVariable
      · rcases Term.mem_map_rename hzr with rfl | ⟨hzr, -⟩
        · exact absurd ((hissued l hl _ hzl).later ha) names.freshVariable.2.not_issued_freshVariable
        · rcases List.mem_cons.mp (hshared z hzl hzr) with rfl | hz
          · exact absurd rfl hzx
          · exact hz
    exact ⟨hl'.trans hl'', hr'.trans hr'', hdisj⟩

/-! ## Leaving the scope -/

/-- One fresh name is enough to leave the scope. -/
theorem leaveScope_eq {scope : List String} (hscope : ∀ y ∈ scope, names.Issued y) (x : String) (t : Term) :
    names.leaveScope scope (scope.length + 1) x t =
      if scope.contains x then ((names.freshVariable.1, t.renameAll x names.freshVariable.1), names.freshVariable.2)
      else ((x, t), names) := by
  rw [Names.leaveScope]
  split
  · next hx =>
    have hfresh : scope.contains names.freshVariable.1 = false := by
      rw [Bool.eq_false_iff]
      intro hmem
      exact names.not_issued_freshVariable (hscope _ (by simpa using hmem))
    cases hlen : scope.length with
    | zero =>
      rw [List.length_eq_zero_iff.mp hlen] at hx
      cases hx
    | succ k => rw [Names.leaveScope, hfresh]; rfl
  · rfl

theorem recast_leaveScope {scope : List String} {n : Bool} {q : Quant} {t : Term}
    (h : AllIssued names (.quant n q x t)) (hscope : ∀ y ∈ scope, names.Issued y) {x' : String} {t' : Term}
    (heq : names.leaveScope scope (scope.length + 1) x t = ((x', t'), names')) :
    x' ∉ scope ∧ Recast I names (.quant n q x t) names' (.quant n q x' t') := by
  rw [leaveScope_eq hscope] at heq
  split at heq
  · cases heq
    refine ⟨fun hmem => names.not_issued_freshVariable (hscope _ hmem), ?_⟩
    -- `renameBound` does this to the quantifier as a whole
    rw [← Term.renameBound_quant_self]
    exact recast_renameBound h x
  · next hx =>
    cases heq
    exact ⟨by simpa using hx, .refl h⟩

/-! ## The pass -/

namespace Term

mutual

/-- The binders are apart from each other and from `scope`, where all variables come from. -/
def IsApart : Term → List String → Prop
  | .quant _ _ x t, scope => x ∉ scope ∧ IsApart t (x :: scope)
  | .conn _ _ l r, scope =>
    IsApart l scope ∧ IsApart r scope ∧ ∀ x ∈ l.binderOccurrences, x ∉ r.binderOccurrences
  | .freeClause _ ts, scope => AreApart ts scope
  | t, scope => ∀ x, t.mentions x = true → x ∈ scope

/-- Each formula has its binders apart. -/
def AreApart : List Term → List String → Prop
  | [], _ => True
  | t :: ts, scope => IsApart t scope ∧ AreApart ts scope

end

/-- What the pass asks of a formula. -/
structure Ready (scope : List String) (names : Names) (t : Term) : Prop where
  settled : t.isSettled = true
  issued : AllIssued names t
  inScope : ∀ x, t.occursFree x = true → x ∈ scope
  scope_issued : ∀ x ∈ scope, names.Issued x

variable {scope : List String} {t t' : Term}

@[simp] theorem areApart_iff {ts : List Term} : AreApart ts scope ↔ ∀ t ∈ ts, t.IsApart scope := by
  induction ts with
  | nil => simp [AreApart]
  | cons t ts ih => simp [AreApart, ih]

theorem Ready.recast (h : Ready scope names t) (hr : Recast I names t names' t') : Ready scope names' t' where
  settled := hr.settled.trans h.settled
  issued := hr.issued
  inScope x hx := h.inScope x (hr.free x hx)
  scope_issued x hx := (h.scope_issued x hx).later hr.later

theorem Ready.later (h : Ready scope names t) (hl : names.Later names') : Ready scope names' t where
  settled := h.settled
  issued x hx := (h.issued x hx).later hl
  inScope := h.inScope
  scope_issued x hx := (h.scope_issued x hx).later hl

theorem Ready.left {n : Bool} {c : Connective} {l r : Term} (h : Ready scope names (.conn n c l r)) :
    Ready scope names l where
  settled := (isSettled_conn.mp h.settled).2.2.1
  issued x hx := h.issued x (List.mem_append_left _ hx)
  inScope x hx := h.inScope x (by simp [occursFree, hx])
  scope_issued := h.scope_issued

theorem Ready.right {n : Bool} {c : Connective} {l r : Term} (h : Ready scope names (.conn n c l r)) :
    Ready scope names r where
  settled := (isSettled_conn.mp h.settled).2.2.2
  issued x hx := h.issued x (List.mem_append_right _ hx)
  inScope x hx := h.inScope x (by simp [occursFree, hx])
  scope_issued := h.scope_issued

theorem Ready.body {n : Bool} {q : Quant} (h : Ready scope names (.quant n q x t)) : Ready (x :: scope) names t where
  settled := (isSettled_quant.mp h.settled).2
  issued y hy := h.issued y (List.mem_cons_of_mem x hy)
  inScope y hy := by
    by_cases hyx : y = x
    · subst hyx
      exact List.mem_cons_self
    · exact List.mem_cons_of_mem x (h.inScope y (occursFree_quant.mpr ⟨hyx, hy⟩))
  scope_issued y hy := by
    rcases List.mem_cons.mp hy with rfl | hy
    · exact h.issued y List.mem_cons_self
    · exact h.scope_issued y hy

/-- What the pass does to a formula. -/
def ApartSpec (I : Interpretation D) (scope : List String) (names : Names) (t : Term) : Prop :=
  Ready scope names t →
    Recast I names t (apartIn scope names t).2 (apartIn scope names t).1 ∧ (apartIn scope names t).1.IsApart scope

/-- What the pass does to the members of a free clause. -/
def ApartAllSpec (I : Interpretation D) (scope seen : List String) (names : Names) (ts : List Term) : Prop :=
  (∀ t ∈ ts, Ready scope names t) →
    (∀ n, Recast I names (.freeClause n ts) (apartAll scope seen names ts).2
      (.freeClause n (apartAll scope seen names ts).1)) ∧ AreApart (apartAll scope seen names ts).1 scope

theorem apartSpec_quant {n : Bool} {q : Quant}
    (ih : ApartSpec I ((names.leaveScope scope (scope.length + 1) x t).1.1 :: scope)
      (names.leaveScope scope (scope.length + 1) x t).2 (names.leaveScope scope (scope.length + 1) x t).1.2) :
    ApartSpec I scope names (.quant n q x t) := by
  intro h
  obtain ⟨hnew, hbound⟩ := recast_leaveScope (I := I) h.issued h.scope_issued
    (show names.leaveScope scope (scope.length + 1) x t = ((_, _), _) from rfl)
  have hready := h.recast hbound
  obtain ⟨hbody, hapart⟩ := ih hready.body
  rw [apartIn]
  refine ⟨hbound.trans (hbody.quant n q ?_), hnew, hapart⟩
  exact (hready.issued _ List.mem_cons_self).later hbody.later

theorem apartSpec_conn {n : Bool} {c : Connective} {l r : Term}
    (ihl : ApartSpec I scope (names.freshenBoth (sharedNames l.binders r.binders) l r).2
      (names.freshenBoth (sharedNames l.binders r.binders) l r).1.1)
    (ihr : ApartSpec I scope
      (apartIn scope (names.freshenBoth (sharedNames l.binders r.binders) l r).2
        (names.freshenBoth (sharedNames l.binders r.binders) l r).1.1).2
      (names.freshenBoth (sharedNames l.binders r.binders) l r).1.2) :
    ApartSpec I scope names (.conn n c l r) := by
  intro h
  have hshared : ∀ z ∈ l.binderOccurrences, z ∈ r.binderOccurrences → z ∈ sharedNames l.binders r.binders := by
    intro z hzl hzr
    simp [sharedNames, binders, hzl, hzr]
  obtain ⟨hl, hr, hdisj⟩ := recast_freshenBoth (I := I) h.left.issued h.right.issued _ hshared
  obtain ⟨hl', hapartl⟩ := ihl (h.left.recast hl)
  obtain ⟨hr', hapartr⟩ := ihr ((h.right.recast hr).later hl'.later)
  rw [apartIn]
  refine ⟨((hl.trans hl').widen (.refl _) hr'.later).conn ((hr.widen (.refl _) hl'.later).trans hr') n c,
    hapartl, hapartr, ?_⟩
  exact hl'.binders_apart hr' hr.issued fun z hzl hzr => absurd hzr (hdisj z hzl)

theorem isApart_of_isLiteral (ht : t.isLiteral = true) : t.IsApart scope ↔ ∀ x, t.mentions x = true → x ∈ scope := by
  cases t with
  | lit n a | rel n a ts | fn n a t => exact Iff.rfl
  | _ => cases ht

theorem apartSpec_literal (hconn : ∀ n c l r, t = .conn n c l r → False)
    (hquant : ∀ n q x u, t = .quant n q x u → False) (hfree : ∀ n ts, t = .freeClause n ts → False) :
    ApartSpec I scope names t := by
  intro h
  have hself : apartIn scope names t = (t, names) := by rw [apartIn] <;> assumption
  have hliteral : t.isLiteral = true := by
    have hsettled := h.settled
    cases t with
    | conn n c l r => exact absurd rfl (hconn n c l r)
    | quant n q x u => exact absurd rfl (hquant n q x u)
    | freeClause n ts => exact absurd rfl (hfree n ts)
    | _ => exact hsettled
  rw [hself]
  refine ⟨.refl h.issued, (isApart_of_isLiteral hliteral).mpr fun x hx => ?_⟩
  exact h.inScope x (mem_freeVars.mp (mem_freeVars_of_isFirstOrder (firstOrder_of_isLiteral hliteral).1 hx))

theorem Ready.member {n : Bool} {ts : List Term} (h : Ready scope names (.freeClause n ts)) (ht : t ∈ ts) :
    Ready scope names t where
  settled := (isSettled_freeClause.mp h.settled).2 t ht
  issued x hx := h.issued x (by rw [variableNames, mem_variableNamesAll]; exact ⟨t, ht, hx⟩)
  inScope x hx := h.inScope x (by rw [occursFree, occursFreeAny_eq_true]; exact ⟨t, ht, hx⟩)
  scope_issued := h.scope_issued

theorem apartSpec_freeClause {n : Bool} {ts : List Term} (ih : ApartAllSpec I scope [] names ts) :
    ApartSpec I scope names (.freeClause n ts) := by
  intro h
  obtain ⟨hall, hapart⟩ := ih fun t ht => h.member ht
  rw [apartIn]
  exact ⟨hall n, hapart⟩

theorem apartAllSpec_nil (seen : List String) : ApartAllSpec I scope seen names [] := by
  intro _
  have hissued : ∀ n, AllIssued names (.freeClause n []) := by
    intro n x hx
    cases hx
  rw [apartAll]
  exact ⟨fun n => .refl (hissued n), trivial⟩

theorem apartAllSpec_cons {seen seen' : List String} {ts : List Term} {first : Term × Names}
    (hfirst : apartIn scope (names.freshen (sharedNames t.binders seen) t).2
      (names.freshen (sharedNames t.binders seen) t).1 = first)
    (hseen : Distinct.union (· == ·) seen (names.freshen (sharedNames t.binders seen) t).1.binders = seen')
    (ih : ApartSpec I scope (names.freshen (sharedNames t.binders seen) t).2
      (names.freshen (sharedNames t.binders seen) t).1)
    (ihts : ApartAllSpec I scope seen' first.2 ts) : ApartAllSpec I scope seen names (t :: ts) := by
  intro h
  obtain ⟨ht, hts⟩ := List.forall_mem_cons.mp h
  have hown : Recast I names t _ _ := recast_freshen ht.issued (sharedNames t.binders seen)
  obtain ⟨hbody, hapart⟩ := ih (ht.recast hown)
  rw [hfirst] at hbody hapart
  have hlater := hown.later.trans hbody.later
  obtain ⟨hall, hrest⟩ := ihts fun u hu => (hts u hu).later hlater
  rw [apartAll]
  simp only [hfirst, hseen]
  refine ⟨fun n => ((hown.trans hbody).widen (.refl _) (hall n).later).cons fun m => ?_, hapart, hrest⟩
  exact (hall m).widen hlater (.refl _)

/-- The pass recasts a formula and leaves its binders apart. -/
theorem apartIn_spec (scope : List String) (names : Names) (t : Term) : ApartSpec I scope names t := by
  refine apartIn.induct (ApartSpec I) (ApartAllSpec I) ?_ ?_ ?_ ?_ ?_ ?_ scope names t
  · intro scope names n c l r _ _ ihl _ ihr
    exact apartSpec_conn ihl ihr
  · intro scope names n q x t _ ih
    exact apartSpec_quant ih
  · intro scope names n ts ih
    exact apartSpec_freeClause ih
  · intro scope names t hconn hquant hfree
    exact apartSpec_literal hconn hquant hfree
  · intro scope seen names
    exact apartAllSpec_nil seen
  · intro scope seen names t ts _ _ ih _ ihts
    exact apartAllSpec_cons rfl rfl ih ihts

end Term

end Clausal
