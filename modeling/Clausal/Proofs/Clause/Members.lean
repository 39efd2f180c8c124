import Clausal.Proofs.Horn.Meaning

/-!
# Clausal.Proofs.Clause.Members — the members of a clause, and taking one away

The members of a clause are a set up to the signs of variables: `X` and `¬X` pass for one member, and so do `p(X)` and
`p(¬X)`.  What is taken away from a clause is the member that passes for the term named, which may be another one.

* `Clause.IsSet`: the members are atomic and no two of them are the same; the operations on clauses keep that.
* `Clause.members_without`: what is left when a member is taken away.
* `Clause.TellsComplement`: no member but the complement of the literal passes for it.
* `exists_isTrue_of_consistent`: literals without a complementary pair are true together in some reading.
* `unit_resolution_sound_iff`: when unit resolution is sound, and when it takes away nothing but the complement.
-/

universe u

namespace Clausal

@[simp] theorem Term.isAtomic_negate (t : Term) : t.negate.isAtomic = t.isAtomic := by
  cases t <;> rfl

namespace Clause

variable {c d : Clause} {ts : List Term} {l m t : Term}

/-! ## Sets of members -/

section Sets

/-- The members are atomic, and no two of them are the same. -/
structure IsSet (c : Clause) : Prop where
  atomic : ∀ t ∈ c.members, t.isAtomic = true
  distinct : c.members.Pairwise fun a b => ¬ a.same b = true

theorem isAtomic_of_ofList (h : ofList ts = .ok c) : ∀ t ∈ ts, t.isAtomic = true := by
  unfold ofList at h
  split at h
  · cases h
  · next hnone =>
    intro t ht
    simpa using List.find?_eq_none.mp hnone t ht

theorem isSet_of_ofList (h : ofList ts = .ok c) : c.IsSet where
  atomic t ht := by
    rw [ofList_eq_ok h] at ht
    exact isAtomic_of_ofList h t ((Distinct.mem_of_mem_union ht).elim (fun h => nomatch h) id)
  distinct := (Obtained.ofList h).pairwise

theorem IsSet.negate (h : c.IsSet) : c.negate.IsSet where
  atomic := h.atomic
  distinct := h.distinct

theorem IsSet.without (h : c.IsSet) (t : Term) : (c.without t).IsSet where
  atomic m hm := h.atomic m (List.mem_of_mem_eraseP hm)
  distinct := h.distinct.sublist List.eraseP_sublist

theorem IsSet.union (hc : c.IsSet) (hd : d.IsSet) : (c.union d).IsSet where
  atomic m hm := (Distinct.mem_of_mem_union hm).elim (hc.atomic m) (hd.atomic m)
  distinct := Distinct.pairwise_union Term.decides_same_term (fun _ _ => trivial) (fun _ _ => trivial) hc.distinct

/-- All members that pass for the one named are taken away, and the others stay in their order. -/
theorem members_without (h : c.IsSet) (t : Term) : (c.without t).members = c.members.filter fun m => !m.same t :=
  Distinct.erase_eq_filter Term.decides_same_term Term.same_equivalence (fun _ _ => trivial) trivial h.distinct

theorem mem_resolveUnit (h : c.IsSet) :
    m ∈ (c.resolveUnit l).members ↔ m ∈ c.members ∧ ¬ m.same l.negate = true := by
  rw [resolveUnit, members_without h, List.mem_filter, Bool.not_eq_true', Bool.not_eq_true]

end Sets

/-! ## What is taken away -/

section Complements

/-- No member of the clause but the complement of the literal passes for it. -/
def TellsComplement (c : Clause) (l : Term) : Prop :=
  ∀ m ∈ c.members, m.same l.negate = true → m = l.negate

open Classical in
/-- Unit resolution keeps all members but the complement of the literal, in their order. -/
def KeepsOthers (c : Clause) (l : Term) : Prop :=
  (c.resolveUnit l).members = c.members.filter fun m => m ≠ l.negate

theorem keepsOthers_iff (hc : c.IsSet) : c.KeepsOthers l ↔ c.TellsComplement l := by
  constructor
  · intro hkeeps m hm hsame
    by_contra hne
    have hkept : m ∈ (c.resolveUnit l).members := by
      rw [hkeeps, List.mem_filter]
      exact ⟨hm, by simpa using hne⟩
    exact ((mem_resolveUnit hc).mp hkept).2 hsame
  · intro htells
    rw [KeepsOthers, resolveUnit, members_without hc]
    refine List.filter_congr fun m hm => ?_
    have hiff : m.same l.negate = true ↔ m = l.negate := ⟨htells m hm, fun heq => heq ▸ Term.same_refl m⟩
    rw [Bool.eq_iff_iff]
    simp [← hiff]

/-- The complement of a variable is mistaken just for the variable itself. -/
theorem tellsComplement_var_iff {n : Bool} {x : String} :
    c.TellsComplement (.var n x) ↔ .var n x ∉ c.members := by
  constructor
  · intro htells hmem
    have heq := htells _ hmem (by simp [Term.negate, Term.withFlag, Term.same])
    cases n <;> cases heq
  · intro hnot m hm hsame
    cases m with
    | var k y =>
      obtain rfl : y = x := by simpa [Term.negate, Term.withFlag, Term.same] using hsame
      have hk : k ≠ n := fun heq => hnot (heq ▸ hm)
      have hflip : k = !n := by revert hk; cases k <;> cases n <;> decide
      rw [hflip]
      rfl
    | _ => cases hsame

theorem isNegated_of_same_negate (hl : ∀ n x, l ≠ .var n x) (hsame : m.same l.negate = true) :
    m.isNegated = l.negate.isNegated := by
  refine Term.isNegated_eq_of_same hsame (fun x _ hx => ?_) fun x hx _ => ?_
  all_goals
    cases l with
    | var n y => exact hl n y rfl
    | _ => cases hx

/-- Where no variable is negated inside an argument, nothing else is mistaken. -/
theorem tellsComplement_of_isUnsigned (hl : ∀ n x, l ≠ .var n x) (hunsigned : l.positive.isUnsigned = true)
    (hmembers : ∀ m ∈ c.members, m.positive.isUnsigned = true) : c.TellsComplement l := by
  intro m hm hsame
  have hsign := isNegated_of_same_negate hl hsame
  have hpositive : l.negate.positive = l.positive := by cases l <;> rfl
  have hatoms := Term.same_positive hsame hsign
  rw [hpositive] at hatoms
  have heq : m.positive = l.negate.positive := hpositive ▸ Term.eq_of_same (hmembers m hm) hunsigned hatoms
  calc m = m.positive.withFlag m.isNegated := by cases m <;> rfl
    _ = l.negate.positive.withFlag l.negate.isNegated := by rw [heq, hsign]
    _ = l.negate := by cases l <;> rfl

end Complements

/-! ## Soundness -/

section Soundness

/-- Where the clause and the literal are true, so is what unit resolution makes of them. -/
def ResolvesSoundly (c : Clause) (l : Term) : Prop :=
  ∀ (D : Type u) (V : Valuation D) (v : String → D), c.IsTrue V v → l.IsTrue V v → (c.resolveUnit l).IsTrue V v

/-- One of the members is true wherever `l` is: `l` itself is a member, or a member and its complement are. -/
def IsGiven (c : Clause) (l : Term) : Prop :=
  l ∈ c.members ∨ ∃ m ∈ c.members, m.negate ∈ c.members

variable {D : Type u} {V : Valuation D} {v : String → D}

/-- A negated clause says less when it loses a member.  Another clause needs that what it loses is false. -/
theorem isTrue_resolveUnit (hc : c.IsSet)
    (hfalse : c.negated = false → ∀ m ∈ c.members, m.same l.negate = true → ¬ m.IsTrue V v) (h : c.IsTrue V v) :
    (c.resolveUnit l).IsTrue V v := by
  have hsign : (c.resolveUnit l).negated = c.negated := rfl
  rw [IsTrue, hsign]
  rw [IsTrue] at h
  cases hneg : c.negated with
  | true =>
    rw [hneg, polar_true] at h
    rintro ⟨m, hm, htrue⟩
    exact h ⟨m, ((mem_resolveUnit hc).mp hm).1, htrue⟩
  | false =>
    rw [hneg, polar_false] at h
    obtain ⟨m, hm, htrue⟩ := h
    exact ⟨m, (mem_resolveUnit hc).mpr ⟨hm, fun hsame => hfalse hneg m hm hsame htrue⟩, htrue⟩

theorem IsGiven.isTrue (h : c.IsGiven l) (hneg : c.negated = false) (hl : l.IsTrue V v) : c.IsTrue V v := by
  rw [IsTrue, hneg, polar_false]
  rcases h with hmem | ⟨m, hm, hm'⟩
  · exact ⟨l, hmem, hl⟩
  · by_cases htrue : m.IsTrue V v
    · exact ⟨m, hm, htrue⟩
    · exact ⟨m.negate, hm', (Term.isTrue_negate m v).mpr htrue⟩

/-- Literals without a complementary pair are true together in some reading: the one in which just the atoms among them
are true. -/
theorem exists_isTrue_of_consistent {T : Term → Prop} (hT : ∀ t, T t → ¬ T t.negate) (v : String → D) :
    ∃ V : Valuation D, ∀ t, T t → t.isAtomic = true → t.IsTrue V v := by
  refine ⟨fun a _ => T a, fun t ht hatomic => ?_⟩
  rw [Term.isTrue_of_isAtomic hatomic]
  cases hneg : t.isNegated with
  | false =>
    have hself : t.positive = t := by
      cases t with
      | _ n => cases hneg; rfl
    rwa [hself]
  | true =>
    have hother : t.positive = t.negate := by rw [Term.negate, hneg]; rfl
    rw [hother]
    exact hT t ht

/-- If a member that is not the complement is taken away in its place, it may be all that was true in the clause. -/
theorem exists_unsound (hc : c.IsSet) (hl : l.isAtomic = true) (hm : m ∈ c.members) (hsame : m.same l.negate = true)
    (hne : m ≠ l.negate) (hgiven : ¬ (c.resolveUnit l).IsGiven l) (v : String → D) :
    ∃ V : Valuation D, m.IsTrue V v ∧ l.IsTrue V v ∧ ∀ t ∈ (c.resolveUnit l).members, ¬ t.IsTrue V v := by
  -- what is to be true: the member, the literal, and the complements of all that is left
  let T : Term → Prop := fun t => t = m ∨ t = l ∨ t.negate ∈ (c.resolveUnit l).members
  have hlost : m ∉ (c.resolveUnit l).members := fun hleft => ((mem_resolveUnit hc).mp hleft).2 hsame
  have hother : l ∉ (c.resolveUnit l).members := fun hleft => hgiven (.inl hleft)
  have hpair : ∀ t, t ∈ (c.resolveUnit l).members → t.negate ∉ (c.resolveUnit l).members :=
    fun t ht ht' => hgiven (.inr ⟨t, ht, ht'⟩)
  have hT : ∀ t, T t → ¬ T t.negate := by
    rintro t (rfl | rfl | ht) (heq | heq | ht')
    · exact Term.negate_ne t heq
    · exact hne (by rw [← heq, Term.negate_negate])
    · exact hlost (by rwa [Term.negate_negate] at ht')
    · exact hne heq.symm
    · exact Term.negate_ne t heq
    · exact hother (by rwa [Term.negate_negate] at ht')
    · exact hlost (heq ▸ ht)
    · exact hother (heq ▸ ht)
    · exact hpair t (by rwa [Term.negate_negate] at ht') ht
  obtain ⟨V, hV⟩ := exists_isTrue_of_consistent hT v
  refine ⟨V, hV m (.inl rfl) (hc.atomic m hm), hV l (.inr (.inl rfl)) hl, fun t ht => ?_⟩
  have hatomic : t.negate.isAtomic = true := by
    rw [Term.isAtomic_negate]
    exact hc.atomic t ((mem_resolveUnit hc).mp ht).1
  have hneg : t.negate.IsTrue V v := hV t.negate (.inr (.inr (by rwa [Term.negate_negate]))) hatomic
  exact (Term.isTrue_negate t v).mp hneg

theorem resolvesSoundly_iff (hc : c.IsSet) (hl : l.isAtomic = true) :
    ResolvesSoundly.{u} c l ↔ c.negated = true ∨ c.TellsComplement l ∨ (c.resolveUnit l).IsGiven l := by
  constructor
  · intro hsound
    by_contra hnone
    push Not at hnone
    obtain ⟨hneg, hmistakes, hgiven⟩ := hnone
    obtain ⟨m, hm, hsame, hne⟩ : ∃ m ∈ c.members, m.same l.negate = true ∧ m ≠ l.negate := by
      simpa [TellsComplement] using hmistakes
    obtain ⟨V, hmtrue, hltrue, hrest⟩ := exists_unsound hc hl hm hsame hne hgiven fun _ => PUnit.unit.{u + 1}
    have hsign : c.negated = false := by simpa using hneg
    have hctrue : c.IsTrue V fun _ => PUnit.unit := by
      rw [IsTrue, hsign]
      exact ⟨m, hm, hmtrue⟩
    have hleft := hsound PUnit V _ hctrue hltrue
    rw [IsTrue, resolveUnit, without, hsign] at hleft
    obtain ⟨t, ht, htrue⟩ := hleft
    exact hrest t ht htrue
  · intro hcases D V v hctrue hltrue
    rcases hcases with hneg | htells | hgiven
    · exact isTrue_resolveUnit hc (fun hsign => absurd (hneg.symm.trans hsign) (by decide)) hctrue
    · refine isTrue_resolveUnit hc (fun _ m hm hsame => ?_) hctrue
      rw [htells m hm hsame]
      exact fun hneg => (Term.isTrue_negate l v).mp hneg hltrue
    · cases hneg : c.negated with
      | true => exact isTrue_resolveUnit hc (fun hsign => absurd (hneg.symm.trans hsign) (by decide)) hctrue
      | false => exact hgiven.isTrue hneg hltrue

/-- **Unit resolution.**  All members but the complement of the literal are kept just if no other member passes for it.
Then what is left is true where the clause and the literal are.  That is so also if the clause is negated, or if the
rest is true with the literal anyway, and never else.

Where no variable is negated inside an argument, the complement is mistaken just if the literal is a variable and a
member itself.  Unless it is, resolution is sound in all readings that read atoms alike if they are the same. -/
theorem unit_resolution_sound_iff (c : Clause) (hc : c.IsSet) (l : Term) (hl : l.isAtomic = true) :
    (c.KeepsOthers l ↔ c.TellsComplement l) ∧
    (ResolvesSoundly.{u} c l ↔ c.negated = true ∨ c.TellsComplement l ∨ (c.resolveUnit l).IsGiven l) ∧
    ((∀ m ∈ l :: c.members, m.positive.isUnsigned = true) →
      (c.TellsComplement l ↔ ∀ n x, l = .var n x → l ∉ c.members)) ∧
    ((∀ n x, l = .var n x → l ∉ c.members) →
      ∀ (D : Type u) (V : Valuation D) (v : String → D), (∀ a b : Term, a.same b = true → (V a v ↔ V b v)) →
        c.IsTrue V v → l.IsTrue V v → (c.resolveUnit l).IsTrue V v) := by
  refine ⟨keepsOthers_iff hc, resolvesSoundly_iff hc hl, fun hunsigned => ?_, fun hnot D V v hV hctrue hltrue => ?_⟩
  · obtain ⟨hlunsigned, hmembers⟩ := List.forall_mem_cons.mp hunsigned
    by_cases hvar : ∃ n x, l = .var n x
    · obtain ⟨n, x, rfl⟩ := hvar
      rw [tellsComplement_var_iff]
      exact ⟨fun hnot _ _ _ => hnot, fun hnot => hnot n x rfl⟩
    · have hother : ∀ n x, l ≠ .var n x := fun n x heq => hvar ⟨n, x, heq⟩
      have htells := tellsComplement_of_isUnsigned hother hlunsigned hmembers
      exact ⟨fun _ n x heq => absurd heq (hother n x), fun _ => htells⟩
  · have hfalse : ¬ l.negate.IsTrue V v := fun hneg => (Term.isTrue_negate l v).mp hneg hltrue
    refine isTrue_resolveUnit hc (fun _ m hm hsame => ?_) hctrue
    by_cases hvar : ∃ n x, l = .var n x
    · obtain ⟨n, x, rfl⟩ := hvar
      rwa [tellsComplement_var_iff.mpr (hnot n x rfl) m hm hsame]
    · have hsign := isNegated_of_same_negate (fun n x heq => hvar ⟨n, x, heq⟩) hsame
      have hatomic : l.negate.isAtomic = true := by rw [Term.isAtomic_negate, hl]
      rwa [Term.isTrue_congr_of_isAtomic (hc.atomic m hm) hatomic hsign (hV _ _ (Term.same_positive hsame hsign))]

/-- `p ∨ ¬q ∨ X` with `q`: the complement `¬q` goes, and `p ∨ X` follows. -/
theorem unit_resolution_sound_mixed :
    let c : Clause := ⟨false, [.const "p", .lit true "q", .var false "X"]⟩
    c.IsSet ∧ (Term.const "q").isAtomic = true ∧ (∀ m ∈ Term.const "q" :: c.members, m.positive.isUnsigned = true) ∧
      (c.resolveUnit (.const "q")).members = [.const "p", .var false "X"] ∧
      c.KeepsOthers (.const "q") ∧ ResolvesSoundly.{u} c (.const "q") := by
  intro c
  have hlist : ofList c.members = .ok c := rfl
  have hc : c.IsSet := isSet_of_ofList hlist
  have hunsigned : ∀ m ∈ Term.const "q" :: c.members, m.positive.isUnsigned = true := by decide
  obtain ⟨hkeeps, hsound, htells, -⟩ := unit_resolution_sound_iff.{u} c hc (.const "q") rfl
  have htold : c.TellsComplement (.const "q") := (htells hunsigned).mpr nofun
  exact ⟨hc, rfl, hunsigned, rfl, hkeeps.mpr htold, hsound.mpr (.inr (.inl htold))⟩

/-- Resolution of `c` with `l` ends with the empty clause, although both are true in some reading and the complement of
`l` is no member. -/
def ResolvedAway (c : Clause) (l : Term) : Prop :=
  l.negate ∉ c.members ∧ c.resolveUnit l = ⟨false, []⟩ ∧
    ∃ (V : Valuation Unit) (v : String → Unit), c.IsTrue V v ∧ l.IsTrue V v ∧ ¬ (c.resolveUnit l).IsTrue V v

/-- The clause `X` is resolved away by `X`, and `¬X` by `¬X`, as if they were their own complements.  So is `p(¬X)` by
`¬p(X)`, whose complement is another atom. -/
theorem variable_resolved_with_itself :
    (∃ c, unit (.var false "X") = .ok c ∧ c.ResolvedAway (.var false "X")) ∧
    (∃ c, unit (.var true "X") = .ok c ∧ c.ResolvedAway (.var true "X")) ∧
    ∃ c, unit (.rel false "p" [.var true "X"]) = .ok c ∧ c.ResolvedAway (.rel true "p" [.var false "X"]) := by
  refine ⟨⟨_, rfl, ?_, rfl, fun _ _ => True, fun _ => (), ?_⟩, ⟨_, rfl, ?_, rfl, fun _ _ => False, fun _ => (), ?_⟩,
    ⟨_, rfl, ?_, rfl, fun t _ => t = .rel false "p" [.var true "X"], fun _ => (), ?_⟩⟩ <;>
    simp [Distinct.ofList, Distinct.union, Distinct.insert, Distinct.mem, IsTrue, resolveUnit, without, Distinct.erase,
      Term.IsTrue, Term.negate, Term.withFlag, Term.isNegated, Term.positive, Term.same, Term.sameAll]

end Soundness

end Clause

end Clausal
