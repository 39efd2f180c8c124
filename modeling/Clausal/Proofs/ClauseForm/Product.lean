import Clausal.Proofs.ClauseForm.Outcome
import Clausal.Proofs.Distinct

/-!
# Clausal.Proofs.ClauseForm.Product — the clauses of a combination of atomic terms

A formula built from atomic terms by `∧` and `∨` has its clauses in a fixed order: those of a conjunction are the
clauses of its sides one after the other, and those of a disjunction join each clause of the left side to each one of the
right.

* `Term.clauseProduct`: these clauses, as lists with repetitions.
* `clauseProduct_distribute`: distribution keeps them; `mapM_clauseFormulas` says that they are what is read off then.
* `isTrue_iff_clauseProduct`: a combination is true just if each of its clauses has a true member.
* `Clause.SameMembers`, `Clause.ofFirsts`: clauses as sets, and a clause without its repetitions.
* `clauses_of_distribute`: what is read off after distribution, and when it is true.
-/

universe u

namespace Clausal

namespace Term

variable {l r t m : Term} {ms : List Term}

/-! ## The product -/

section Product

/-- The clauses of a combination of atomic terms, left to right. -/
def clauseProduct : Term → List (List Term)
  | .conn _ .and l r => clauseProduct l ++ clauseProduct r
  | .conn _ .or l r => (clauseProduct l).flatMap fun x => (clauseProduct r).map fun y => x ++ y
  | t => [[t]]

/-- The operands of a tree of connectives, left to right. -/
def leaves : Term → List Term
  | .conn _ _ l r => leaves l ++ leaves r
  | t => [t]

/-- No free clause stands in the formula; arguments do not count. -/
def isFreeClauseFree : Term → Bool
  | .quant _ _ _ t => isFreeClauseFree t
  | .conn _ _ l r => isFreeClauseFree l && isFreeClauseFree r
  | .freeClause .. => false
  | _ => true

theorem andOr_of_isNnf (hnnf : t.isNnf = true) (hquant : t.isQuantifierFree = true)
    (hfree : t.isFreeClauseFree = true) : AndOr t := by
  induction t using induct with
  | lit n a | var n x | rel n a ts ih | fn n a t ih => exact .atom rfl
  | quant n q x t ih => cases hquant
  | freeClause n ts ih => cases hfree
  | conn n c l r ihl ihr =>
    rw [isQuantifierFree, Bool.and_eq_true] at hquant
    rw [isFreeClauseFree, Bool.and_eq_true] at hfree
    obtain ⟨rfl, hc, hl, hr⟩ := isNnf_conn.mp hnnf
    have handorl := ihl hl hquant.1 hfree.1
    have handorr := ihr hr hquant.2 hfree.2
    rcases hc with rfl | rfl
    · exact .and handorl handorr
    · exact .or handorl handorr

theorem clauseProduct_of_isAtomic (ht : t.isAtomic = true) : t.clauseProduct = [[t]] := by
  cases t with
  | lit n a | var n x | rel n a ts | fn n a t => rfl
  | _ => cases ht

/-- A disjunction has one clause. -/
theorem clauseProduct_disjunction (h : t.isDisjunction = true) : t.clauseProduct = [t.leaves] := by
  induction t using induct with
  | lit n a | var n x | rel n a ts ih | fn n a t ih => rfl
  | quant n q x t ih | freeClause n ts ih => cases h
  | conn n c l r ihl ihr =>
    cases c with
    | or =>
      rw [isDisjunction, Bool.and_eq_true] at h
      simp [clauseProduct, leaves, ihl h.1, ihr h.2]
    | _ => cases h

theorem clauseProduct_disjoinOver (hl : l.isDisjunction = true) (hr : Distributed r) :
    (disjoinOver l r).clauseProduct = (Term.or l r).clauseProduct := by
  induction hr with
  | clause hr _ => rw [disjoinOver_disjunction l hr]
  | and _ _ ihb ihc => simp [disjoinOver, clauseProduct, ihb, ihc, clauseProduct_disjunction hl]

/-- Distributing a disjunction over its sides keeps its clauses and their order. -/
theorem clauseProduct_disjoin (hl : Distributed l) (hr : Distributed r) :
    (disjoin l r).clauseProduct = (Term.or l r).clauseProduct := by
  induction hl with
  | clause hl _ => rw [disjoin_disjunction r hl, clauseProduct_disjoinOver hl hr]
  | and _ _ iha ihb => simp [disjoin, clauseProduct, iha, ihb]

theorem clauseProduct_conjoin {ts : List Term} (hne : ts ≠ []) (default : Term) :
    (conjoin default ts).clauseProduct = ts.flatMap clauseProduct := by
  cases ts with
  | nil => exact absurd rfl hne
  | cons t ts => exact joinRight_eq_flatMap (fun _ _ => rfl) t ts

theorem clauseProduct_distributedParts (h : AndOr t) :
    (distributedParts t).flatMap clauseProduct = t.clauseProduct := by
  induction h with
  | atom ht => simp [distributedParts_of_isAtomic ht]
  | and _ _ ihl ihr => rw [distributedParts, List.flatMap_append, ihl, ihr, clauseProduct]
  | @or l r hl hr ihl ihr =>
    obtain ⟨hnel, hpartsl⟩ := hl.distributedParts
    obtain ⟨hner, hpartsr⟩ := hr.distributedParts
    have hleft := clauseProduct_conjoin hnel l
    have hright := clauseProduct_conjoin hner r
    rw [distributedParts, List.flatMap_singleton,
      clauseProduct_disjoin (.conjoin hnel l hpartsl) (.conjoin hner r hpartsr), clauseProduct, hleft, hright, ihl, ihr,
      clauseProduct]

/-- Distribution keeps the clauses and their order. -/
theorem clauseProduct_distribute (h : AndOr t) : t.distribute.clauseProduct = t.clauseProduct := by
  rw [distribute, clauseProduct_conjoin h.distributedParts.1, clauseProduct_distributedParts h]

theorem AndOr.mem_leaves (h : AndOr t) (hms : ms ∈ t.clauseProduct) (hm : m ∈ ms) : m ∈ t.leaves := by
  induction h generalizing ms with
  | @atom t ht =>
    rw [clauseProduct_of_isAtomic ht, List.mem_singleton] at hms
    obtain rfl : m = t := by simpa [hms] using hm
    cases m with
    | lit n a | var n x | rel n a ts | fn n a t => exact List.mem_cons_self
    | _ => cases ht
  | and _ _ ihl ihr =>
    rw [leaves, List.mem_append]
    rcases List.mem_append.mp hms with hms | hms
    · exact .inl (ihl hms hm)
    · exact .inr (ihr hms hm)
  | or _ _ ihl ihr =>
    simp only [clauseProduct, List.mem_flatMap, List.mem_map] at hms
    obtain ⟨x, hx, y, hy, rfl⟩ := hms
    rw [leaves, List.mem_append]
    rcases List.mem_append.mp hm with hm | hm
    · exact .inl (ihl hx hm)
    · exact .inr (ihr hy hm)

/-- A combination is true just if each of its clauses has a true member. -/
theorem isTrue_iff_clauseProduct {D : Type u} {V : Valuation D} (h : AndOr t) (v : String → D) :
    t.IsTrue V v ↔ ∀ ms ∈ t.clauseProduct, ∃ m ∈ ms, m.IsTrue V v := by
  induction h with
  | atom ht => simp [clauseProduct_of_isAtomic ht]
  | and _ _ ihl ihr =>
    rw [IsTrue, polar_false, Connective.Holds, ihl, ihr, clauseProduct, List.forall_mem_append]
  | @or l r _ _ ihl ihr =>
    have hjoin : (∀ ms ∈ (Term.or l r).clauseProduct, ∃ m ∈ ms, m.IsTrue V v) ↔
        ∀ x ∈ l.clauseProduct, ∀ y ∈ r.clauseProduct, (∃ m ∈ x, m.IsTrue V v) ∨ ∃ m ∈ y, m.IsTrue V v := by
      simp only [clauseProduct, List.forall_mem_flatMap, List.forall_mem_map, List.mem_append, or_and_right, exists_or]
    rw [IsTrue, polar_false, Connective.Holds, ihl, ihr, hjoin]
    constructor
    · rintro (hl | hr) x hx y hy
      · exact .inl (hl x hx)
      · exact .inr (hr y hy)
    · -- a clause of the left side without a true member leaves the right side to hold
      intro h
      by_cases hl : ∀ x ∈ l.clauseProduct, ∃ m ∈ x, m.IsTrue V v
      · exact .inl hl
      · push Not at hl
        obtain ⟨x, hx, hnone⟩ := hl
        refine .inr fun y hy => (h x hx y hy).resolve_left ?_
        rintro ⟨m, hm, htrue⟩
        exact hnone m hm htrue

end Product

/-! ## Reading off the clauses -/

section Clauses

theorem Distributed.isCnf (h : Distributed t) : t.isCnf = true := by
  induction h with
  | @clause t ht _ =>
    have hself : t.conjuncts = [t] := by
      cases t with
      | conn n c l r =>
        cases c with
        | or => cases n <;> rfl
        | _ => cases ht
      | _ => rfl
    simp [Term.isCnf, hself, ht]
  | and _ _ ihl ihr =>
    rw [Term.isCnf, conjuncts, List.all_append, Bool.and_eq_true]
    exact ⟨ihl, ihr⟩

theorem decides_same_term : Distinct.Decides Term.same (fun a b => a.same b = true) fun _ => True where
  iff _ _ := Iff.rfl
  trans := same_trans

/-- The sign of the clause of a disjunction; the sign of an atomic term stays with the term. -/
def clauseSign : Term → Bool
  | .conn n _ _ _ => n
  | _ => false

theorem clauseSign_of_isNnf (h : t.isNnf = true) : t.clauseSign = false := by
  cases t with
  | conn n c l r => exact (isNnf_conn.mp h).1
  | _ => rfl

/-- The clause of a disjunction has the sign of the disjunction, whatever signs stand inside it. -/
theorem clause_disjunction (h : t.isDisjunction = true) :
    t.clause = .ok ⟨t.clauseSign, Distinct.ofList Term.same t.leaves⟩ := by
  induction t using induct with
  | lit n a | var n x | rel n a ts ih | fn n a t ih => rfl
  | quant n q x t ih | freeClause n ts ih => cases h
  | conn n c l r ihl ihr =>
    cases c with
    | or =>
      rw [isDisjunction, Bool.and_eq_true] at h
      rw [clause, ihl h.1, ihr h.2, leaves,
        ← Distinct.union_ofList decides_same_term (fun _ _ => trivial) fun _ _ => trivial]
      rfl
    | _ => cases h

/-- After distribution, the clauses of the product are read off in their order. -/
theorem mapM_clauseFormulas (h : Distributed t) :
    t.clauseFormulas.mapM clause = .ok (t.clauseProduct.map fun ms => ⟨false, Distinct.ofList Term.same ms⟩) := by
  induction h with
  | clause ht hnnf =>
    rw [clauseFormulas_disjunction ht, clauseProduct_disjunction ht, List.mapM_cons, List.mapM_nil,
      clause_disjunction ht, clauseSign_of_isNnf hnnf]
    rfl
  | and _ _ ihl ihr =>
    rw [clauseFormulas, List.mapM_append, ihl, ihr, clauseProduct, List.map_append]
    rfl

end Clauses

end Term

/-! ## Clauses as sets -/

section Sets

/-- Two clauses have the same members, in any order. -/
def Clause.SameMembers (c d : Clause) : Prop :=
  ∀ t : Term, (∃ m ∈ c.members, m.same t = true) ↔ ∃ m ∈ d.members, m.same t = true

/-- The clause of a list of members, of those that are the same the first one. -/
noncomputable def Clause.ofFirsts (ms : List Term) : Clause where
  negated := false
  members := firsts (fun a b => a.same b = true) ms

theorem Clause.sameMembers_equivalence : Equivalence Clause.SameMembers where
  refl _ _ := Iff.rfl
  symm h t := (h t).symm
  trans h h' t := (h t).trans (h' t)

/-- Two clauses have the same sign and the same members. -/
def Clause.Alike (c d : Clause) : Prop :=
  c.negated = d.negated ∧ c.SameMembers d

theorem Clause.alike_equivalence : Equivalence Clause.Alike where
  refl c := ⟨rfl, sameMembers_equivalence.refl c⟩
  symm h := ⟨h.1.symm, sameMembers_equivalence.symm h.2⟩
  trans h h' := ⟨h.1.trans h'.1, sameMembers_equivalence.trans h.2 h'.2⟩

theorem Clause.decides_alike : Distinct.Decides Clause.same Clause.Alike fun c =>
    c.members.Pairwise fun a b => ¬ a.same b = true where
  iff hc hd := by
    have hmembers := Distinct.sameMembers_eq_true Term.decides_same_term Term.same_equivalence
      (fun _ _ => trivial) (fun _ _ => trivial) hc hd
    rw [Clause.same, Bool.and_eq_true, beq_iff_eq, hmembers]
    exact Iff.rfl
  trans := Clause.alike_equivalence.trans

theorem Clause.decides_sameMembers : Distinct.Decides Clause.same Clause.SameMembers fun c =>
    c.negated = false ∧ c.members.Pairwise fun a b => ¬ a.same b = true where
  iff := by
    rintro c d ⟨hc, hcpair⟩ ⟨hd, hdpair⟩
    rw [decides_alike.iff hcpair hdpair, Alike, hc, hd]
    exact and_iff_right rfl
  trans := Clause.sameMembers_equivalence.trans

theorem Clause.same_trans {a b c : Clause} (hab : a.same b = true) (hbc : b.same c = true) : a.same c = true := by
  simp only [Clause.same, Distinct.sameMembers, Bool.and_eq_true, beq_iff_eq, List.all_eq_true] at hab hbc ⊢
  obtain ⟨hsign, hlength, hmem⟩ := hab
  obtain ⟨hsign', hlength', hmem'⟩ := hbc
  refine ⟨hsign.trans hsign', hlength.trans hlength', fun x hx => ?_⟩
  obtain ⟨y, hy, hyx⟩ := List.any_eq_true.mp (hmem x hx)
  obtain ⟨z, hz, hzy⟩ := List.any_eq_true.mp (hmem' y hy)
  exact List.any_eq_true.mpr ⟨z, hz, Term.same_trans hzy hyx⟩

/-- Two sets of clauses in order are the set of both lists. -/
theorem KnowledgeBase.union_ofList (cs ds : List Clause) : (ofList cs).union (ofList ds) = ofList (cs ++ ds) := by
  have hdecides : Distinct.Decides Clause.same (fun a b => a.same b = true) fun _ => True :=
    ⟨fun _ _ => Iff.rfl, Clause.same_trans⟩
  exact congrArg KnowledgeBase.mk (Distinct.union_ofList hdecides (fun _ _ => trivial) fun _ _ => trivial)

/-- The clauses read off are those of the product, less the ones with the members of an earlier one. -/
theorem Term.clauses_eq_firsts {t : Term} (h : Distributed t) :
    t.clauses = .ok ⟨firsts Clause.SameMembers (t.clauseProduct.map Clause.ofFirsts)⟩ := by
  have hmembers : ∀ ms : List Term, Distinct.ofList Term.same ms = firsts (fun a b => a.same b = true) ms :=
    fun ms => Distinct.ofList_eq_firsts decides_same_term fun _ _ => trivial
  have hread : t.clauseFormulas.mapM clause = .ok (t.clauseProduct.map Clause.ofFirsts) := by
    rw [mapM_clauseFormulas h]
    simp only [hmembers]
    rfl
  have hproper : ∀ c ∈ t.clauseProduct.map Clause.ofFirsts,
      c.negated = false ∧ c.members.Pairwise fun a b => ¬ a.same b = true :=
    List.forall_mem_map.mpr fun ms _ => ⟨rfl, pairwise_firsts _ ms⟩
  have hlist := Distinct.ofList_eq_firsts Clause.decides_sameMembers hproper
  rw [clauses, hread, ← hlist]
  rfl

end Sets

/-! ## Truth -/

section Truth

variable {D : Type u} {V : Valuation D} {v : String → D} {t : Term}

/-- Leaves of `t` that are the same have the same truth value. -/
def Term.Coherent (V : Valuation D) (v : String → D) (t : Term) : Prop :=
  ∀ a ∈ t.leaves, ∀ b ∈ t.leaves, a.same b = true → (a.IsTrue V v ↔ b.IsTrue V v)

theorem Term.isUnsigned_of_mem_leaves {m : Term} (ht : t.isUnsigned = true) (hm : m ∈ t.leaves) :
    m.isUnsigned = true := by
  induction t using induct with
  | conn n c l r ihl ihr =>
    rw [isUnsigned, Bool.and_eq_true] at ht
    rcases List.mem_append.mp hm with hm | hm
    · exact ihl ht.1 hm
    · exact ihr ht.2 hm
  | lit n a | var n x | rel n a ts ih | fn n a t ih | quant n q x t ih | freeClause n ts ih =>
    obtain rfl := List.mem_singleton.mp hm
    exact ht

theorem Term.AndOr.isAtomic_of_mem_leaves {m : Term} (h : AndOr t) (hm : m ∈ t.leaves) : m.isAtomic = true := by
  induction h with
  | @atom t ht =>
    cases t with
    | lit n a | var n x | rel n a ts | fn n a t =>
      obtain rfl := List.mem_singleton.mp hm
      rfl
    | _ => cases ht
  | and _ _ ihl ihr | or _ _ ihl ihr =>
    rcases List.mem_append.mp hm with hm | hm
    · exact ihl hm
    · exact ihr hm

theorem Term.Coherent.of_isUnsigned (ht : t.isUnsigned = true) : t.Coherent V v := by
  intro a ha b hb hsame
  rw [eq_of_same (isUnsigned_of_mem_leaves ht ha) (isUnsigned_of_mem_leaves ht hb) hsame]

/-- Terms other than variables that are the same have the same sign. -/
theorem Term.isNegated_of_same {a b : Term} (h : a.same b = true) (hvar : ∀ n x, a ≠ .var n x) :
    a.isNegated = b.isNegated := by
  cases a with
  | var n x => exact absurd rfl (hvar n x)
  | _ =>
    cases b <;> first
      | cases h
      | simp only [same, Bool.and_eq_true, beq_iff_eq] at h
        simp only [isNegated, h]

theorem Term.same_positive {a b : Term} (h : a.same b = true) (hsign : a.isNegated = b.isNegated) :
    a.positive.same b.positive = true := by
  have hpositive : ∀ t : Term, t.positive = signed t.isNegated t := fun t => by
    cases t with
    | _ n => cases n <;> rfl
  rw [hpositive a, hpositive b, same_signed, hsign, signed_cancel, h]

/-- Terms that are the same have the same sign, unless they are a variable and its negation. -/
theorem Term.isNegated_eq_of_same {a b : Term} (h : a.same b = true) (hab : ∀ x, a = .var true x → b ≠ .var false x)
    (hba : ∀ x, b = .var true x → a ≠ .var false x) : a.isNegated = b.isNegated := by
  cases a with
  | var n x =>
    cases b with
    | var m y =>
      obtain rfl : x = y := by simpa [same] using h
      cases n <;> cases m
      · rfl
      · exact absurd rfl (hba x rfl)
      · exact absurd rfl (hab x rfl)
      · rfl
    | _ => cases h
  | _ => exact isNegated_of_same h fun n x => nofun

/-- Atomic terms with the same sign have the same truth value, if they have it without the sign. -/
theorem Term.isTrue_congr_of_isAtomic {a b : Term} (ha : a.isAtomic = true) (hb : b.isAtomic = true)
    (hsign : a.isNegated = b.isNegated) (hV : V a.positive v ↔ V b.positive v) : a.IsTrue V v ↔ b.IsTrue V v := by
  rw [isTrue_of_isAtomic ha, isTrue_of_isAtomic hb, hsign]
  exact polar_congr _ hV

theorem Term.Coherent.of_respects (h : AndOr t) (hvar : ∀ x, .var true x ∉ t.leaves)
    (hV : ∀ a b : Term, a.same b = true → (V a v ↔ V b v)) : t.Coherent V v := by
  intro a ha b hb hsame
  have hsign : a.isNegated = b.isNegated :=
    isNegated_eq_of_same hsame (fun x hx => absurd (hx ▸ ha) (hvar x)) fun x hx => absurd (hx ▸ hb) (hvar x)
  exact isTrue_congr_of_isAtomic (h.isAtomic_of_mem_leaves ha) (h.isAtomic_of_mem_leaves hb) hsign
    (hV _ _ (same_positive hsame hsign))

/-- The clause without the members that an earlier one stands for. -/
noncomputable def Clause.unrepeated (c : Clause) : Clause :=
  { c with members := firsts (fun a b => a.same b = true) c.members }

theorem Clause.SameMembers.unrepeated (c : Clause) : c.unrepeated.SameMembers c := by
  intro t
  refine exists_mem_firsts_iff Term.same_equivalence fun a _ b _ hab => ?_
  exact ⟨Term.same_trans (Term.same_equivalence.symm hab), Term.same_trans hab⟩

/-- Leaving out repetitions, in a clause or of a clause, changes no truth value, if members that are the same have the
same truth value wherever they stand in one clause or in two that are alike. -/
theorem Clause.isTrue_unrepeated {cs : List Clause}
    (hcoherent : ∀ c ∈ cs, ∀ d ∈ cs, c.Alike d → ∀ a ∈ c.members, ∀ b ∈ d.members, a.same b = true →
      (a.IsTrue V v ↔ b.IsTrue V v)) :
    (∀ c ∈ firsts Clause.Alike (cs.map Clause.unrepeated), c.IsTrue V v) ↔ ∀ c ∈ cs, c.IsTrue V v := by
  have hmembers : ∀ c ∈ cs, (c.unrepeated.IsTrue V v ↔ c.IsTrue V v) := by
    intro c hc
    refine polar_congr c.negated (exists_mem_firsts_iff Term.same_equivalence fun a ha b hb hsame => ?_)
    exact hcoherent c hc c hc (alike_equivalence.refl c) a ha b hb hsame
  have hclauses : ∀ c ∈ cs, ∀ d ∈ cs, c.Alike d → (∃ a ∈ c.members, a.IsTrue V v) → ∃ b ∈ d.members, b.IsTrue V v := by
    rintro c hc d hd halike ⟨a, ha, htrue⟩
    obtain ⟨b, hb, hba⟩ := (halike.2 a).mp ⟨a, ha, Term.same_refl a⟩
    exact ⟨b, hb, (hcoherent d hd c hc (alike_equivalence.symm halike) b hb a ha hba).mpr htrue⟩
  have hrespect : ∀ c ∈ cs.map Clause.unrepeated, ∀ d ∈ cs.map Clause.unrepeated, c.Alike d →
      (c.IsTrue V v ↔ d.IsTrue V v) := by
    simp only [List.forall_mem_map]
    intro c hc d hd halike
    have hwhole : c.Alike d :=
      ⟨halike.1, sameMembers_equivalence.trans (sameMembers_equivalence.symm (.unrepeated c))
        (sameMembers_equivalence.trans halike.2 (.unrepeated d))⟩
    rw [hmembers c hc, hmembers d hd, Clause.IsTrue, Clause.IsTrue, hwhole.1]
    exact polar_congr _ ⟨hclauses c hc d hd hwhole, hclauses d hd c hc (alike_equivalence.symm hwhole)⟩
  rw [forall_mem_firsts_iff alike_equivalence hrespect, List.forall_mem_map]
  exact forall₂_congr hmembers

/-- So it is for the clauses of the product. -/
theorem Term.isTrue_firsts (h : AndOr t) (hcoherent : t.Coherent V v) :
    (KnowledgeBase.mk (firsts Clause.SameMembers (t.clauseProduct.map Clause.ofFirsts))).IsTrue V v ↔ t.IsTrue V v := by
  have hlisted : t.clauseProduct.map Clause.ofFirsts = (t.clauseProduct.map (Clause.mk false)).map Clause.unrepeated := by
    rw [List.map_map]
    rfl
  have hsigns : ∀ c ∈ t.clauseProduct.map Clause.ofFirsts, ∀ d ∈ t.clauseProduct.map Clause.ofFirsts,
      (c.SameMembers d ↔ c.Alike d) := by
    simp only [List.forall_mem_map]
    exact fun ms _ ns _ => (and_iff_right rfl).symm
  have hmembers : ∀ c ∈ t.clauseProduct.map (Clause.mk false), ∀ d ∈ t.clauseProduct.map (Clause.mk false), c.Alike d →
      ∀ a ∈ c.members, ∀ b ∈ d.members, a.same b = true → (a.IsTrue V v ↔ b.IsTrue V v) := by
    simp only [List.forall_mem_map]
    exact fun ms hms ns hns _ a ha b hb => hcoherent a (h.mem_leaves hms ha) b (h.mem_leaves hns hb)
  rw [KnowledgeBase.IsTrue, firsts_congr hsigns, hlisted, Clause.isTrue_unrepeated hmembers, List.forall_mem_map,
    isTrue_iff_clauseProduct h]
  exact Iff.rfl

/-- The clauses read off after distribution are those of the product: each member once, each set of members once, in
the order of their first occurrences.  If no variable is negated they are true just where the formula is.  A negated
variable inside an argument does no harm where atoms that are the same are read alike. -/
theorem Term.clauses_of_distribute (hnnf : t.isNnf = true) (hquant : t.isQuantifierFree = true)
    (hfree : t.isFreeClauseFree = true) :
    t.distribute.isCnf = true ∧
      ∃ kb, t.distribute.clauses = .ok kb ∧
        kb.clauses = firsts Clause.SameMembers (t.clauseProduct.map Clause.ofFirsts) ∧
        ∀ (D : Type u) (V : Valuation D) (v : String → D),
          t.isUnsigned = true ∨
            (∀ x, .var true x ∉ t.leaves) ∧ (∀ a b : Term, a.same b = true → (V a v ↔ V b v)) →
          (kb.IsTrue V v ↔ t.IsTrue V v) := by
  have handor := andOr_of_isNnf hnnf hquant hfree
  have hdist := handor.distribute
  have hread := clauses_eq_firsts hdist
  rw [clauseProduct_distribute handor] at hread
  refine ⟨hdist.isCnf, _, hread, rfl, fun D V v hsigns => isTrue_firsts handor ?_⟩
  rcases hsigns with hunsigned | ⟨hvar, hV⟩
  · exact .of_isUnsigned hunsigned
  · exact .of_respects handor hvar hV

/-- `((a ∨ X) ∧ b) ∨ (b ∧ (X ∨ a))`: its last clause has the members of its first one, in another order. -/
def Term.crossed : Term :=
  .or (.and (.or (.const "a") (.var false "X")) (.const "b")) (.and (.const "b") (.or (.var false "X") (.const "a")))

theorem Term.clauses_distribute_crossed :
    crossed.isNnf = true ∧ crossed.isQuantifierFree = true ∧ crossed.isFreeClauseFree = true ∧
      crossed.isUnsigned = true ∧
      ∃ kb, crossed.distribute.clauses = .ok kb ∧
        kb.clauses.map Clause.members =
          [[.const "a", .var false "X", .const "b"], [.const "a", .var false "X"], [.const "b"]] ∧
        ∀ (V : Valuation Bool) (v : String → Bool), kb.IsTrue V v ↔ crossed.IsTrue V v := by
  have hunsigned : crossed.isUnsigned = true := by decide
  obtain ⟨-, kb, hkb, -, htruth⟩ := clauses_of_distribute (t := crossed) (by decide) (by decide) (by decide)
  refine ⟨by decide, by decide, by decide, hunsigned, kb, hkb, ?_, fun V v => htruth Bool V v (.inl hunsigned)⟩
  obtain rfl := Except.ok.inj hkb
  rfl

end Truth

end Clausal
