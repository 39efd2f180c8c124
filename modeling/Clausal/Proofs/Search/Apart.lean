import Clausal.Proofs.Search.Derivation
import Clausal.Proofs.Search.Inherited

/-!
# Clausal.Proofs.Search.Apart — copies and the names in play

A copy is told apart from everything else in a search by its number alone, which is new.  That is enough against the
copies made before, but a query is free to use a name such as `X_0` itself.

* `Known kb query n x`: where a name in play comes from, when `n` is the number of the next copy: the query, a binder
  of a clause, or a copy with a smaller number; `Trace.known` says that there is no other source.
* `copy_apart_iff`: in every state of every search, the next copy of a clause without binders shares no name with
  what is in play exactly if no suffixed variable of it is a name in the query.
* `copy_meets_query`: a query with such a name, which has a derivable instance and gets no answer.
-/

namespace Clausal.Machine

variable {kb : HornBase} {limits : Limits} {query : Term}

/-! ## Names in play -/

section Names

/-- The names in the goals, in the goals they descend from, and in the bindings. -/
def InPlay (goals : List Goal) (s : Subst) (x : String) : Prop :=
  (∃ g ∈ goals, ∃ t ∈ g.term :: g.ancestors, x ∈ t.variableNames) ∨
    ∃ y b, s.get? y = some b ∧ (x = y ∨ x ∈ b.variableNames)

/-- The names in the query and in the branches of `m`. -/
def Live (query : Term) (m : Machine) (x : String) : Prop :=
  x ∈ query.variableNames ∨ (∃ b, m.pending = some b ∧ InPlay (Branch.goals b) b.subst x) ∨
    ∃ p ∈ m.stack, InPlay (Branch.goals p.branch) p.branch.subst x

/-- The names in the copy of `h` with number `n`. -/
def copyNames (h : HornClause) (n : Nat) : List String :=
  Term.variableNamesAll ((renameClause h n).1.1 :: (renameClause h n).1.2)

theorem mem_copyNames {h : HornClause} {n : Nat} {x : String} :
    x ∈ copyNames h n ↔ ∃ t ∈ clauseTerms h, x ∈ (copyTerm h n t).variableNames := by
  have hmap : copyNames h n = Term.variableNamesAll ((clauseTerms h).map (copyTerm h n)) := by
    rw [copyNames, renameClause_eq]
    rfl
  rw [hmap, Term.mem_variableNamesAll]
  simp only [List.mem_map]
  constructor
  · rintro ⟨_, ⟨t, ht, rfl⟩, hx⟩
    exact ⟨t, ht, hx⟩
  · rintro ⟨t, ht, hx⟩
    exact ⟨_, ⟨t, ht, rfl⟩, hx⟩

/-- Every variable of a clause is in its copy, with the number of the copy. -/
theorem suffixed_mem_copyNames {h : HornClause} {v : String} (hv : v ∈ clauseVariables h) (n : Nat) :
    suffixed v n ∈ copyNames h n := by
  obtain ⟨t, ht, hfree⟩ := mem_clauseVariables.mp hv
  refine mem_copyNames.mpr ⟨t, ht, Term.mem_variableNames.mpr (.inl ?_)⟩
  refine Term.mentions_mapVars.mpr ⟨v, Term.mentions_of_occursFree hfree, ?_⟩
  simp [Term.mentions, copyName_of_mem hv]

end Names

/-! ## Where names come from -/

section Known

/-- `x` comes from the query, from a binder of a clause, or from a copy with a number below `n`. -/
def Known (kb : HornBase) (query : Term) (n : Nat) (x : String) : Prop :=
  x ∈ query.variableNames ∨ ∃ c ∈ kb.clauses, Binds c x ∨ ∃ v ∈ clauseVariables c, ∃ k < n, x = suffixed v k

variable {n m k : Nat} {x : String}

theorem Known.mono (hx : Known kb query n x) (hnm : n ≤ m) : Known kb query m x := by
  rcases hx with hq | ⟨c, hc, hb | ⟨v, hv, k, hk, rfl⟩⟩
  · exact .inl hq
  · exact .inr ⟨c, hc, .inl hb⟩
  · exact .inr ⟨c, hc, .inr ⟨v, hv, k, Nat.lt_of_lt_of_le hk hnm, rfl⟩⟩

theorem known_of_mem_copyTerm {h : HornClause} (hmem : h ∈ kb.clauses) {t : Term} (ht : t ∈ clauseTerms h)
    (hx : x ∈ (copyTerm h k t).variableNames) : Known kb query (renameClause h k).2 x := by
  rcases mem_names_copyTerm ht hx with ⟨v, hv, rfl⟩ | hb
  · refine .inr ⟨h, hmem, .inr ⟨v, hv, k, ?_, rfl⟩⟩
    rw [renameClause_next hv]
    exact Nat.lt_succ_self k
  · exact .inr ⟨h, hmem, .inl hb⟩

/-- All names in `t` are known. -/
def AllKnown (kb : HornBase) (query : Term) (n : Nat) (t : Term) : Prop :=
  ∀ x ∈ t.variableNames, Known kb query n x

theorem closed_allKnown (kb : HornBase) (query : Term) (n : Nat) : Unify.Closed (AllKnown kb query n) where
  rel m a ts h t ht x hx := h x (Term.mem_variableNamesAll.mpr ⟨t, ht, hx⟩)
  fn m a t h := h
  signed m y t _ h x hx := h x (by rwa [Term.variableNames_signed] at hx)

/-- No name is new but those of the copies. -/
theorem inherited_allKnown (kb : HornBase) (query : Term) : Inherited kb (AllKnown kb query) where
  mono hnm h x hx := (h x hx).mono hnm
  copy hmem ht _ hx := known_of_mem_copyTerm hmem ht hx
  closed := closed_allKnown kb query
  var {n t x} ht hx y hy := by
    obtain rfl : y = x := by simpa [Term.variableNames] using hy
    exact ht y (Term.mem_variableNames.mpr (.inl hx))
  mapVars {n t f} ht hf y hy := by
    rcases Term.mem_variableNames_mapVars hy with hb | ⟨z, hz, hyz⟩
    · exact ht y (Term.mem_variableNames.mpr (.inr hb))
    · exact hf z hz y hyz

theorem Throughout.known {goals : List Goal} {s : Subst} (h : Throughout (AllKnown kb query) n goals s)
    (hx : InPlay goals s x) : Known kb query n x := by
  rcases hx with ⟨g, hg, t, ht, hx⟩ | ⟨y, b, hb, rfl | hx⟩
  · exact h.goals g hg t ht x hx
  · obtain ⟨⟨neg, hkey⟩, -⟩ := h.bindings x b hb
    exact hkey x List.mem_cons_self
  · exact (h.bindings y b hb).2 x hx

/-- Every name in play in a search is known. -/
theorem Trace.known {out : List (Except SolveError Subst)} {m : Machine} (ht : Trace kb limits query out m)
    (hx : Live query m x) : Known kb query m.renamings x := by
  have hquery : AllKnown kb query 0 query := fun y hy => .inl hy
  have hm := ((inherited_allKnown kb query).kept.trace (throughout_start hquery) ht).1
  rcases hx with hq | ⟨b, hb, hx⟩ | ⟨p, hp, hx⟩
  · exact .inl hq
  · exact (hm.pending b hb).known hx
  · exact (hm.stack p hp).1.known hx

/-- A suffixed variable with a new number can only be known from the query or from a binder. -/
theorem known_suffixed {v : String} (hnk : n ≤ k) (hx : Known kb query n (suffixed v k)) :
    suffixed v k ∈ query.variableNames ∨ ∃ c ∈ kb.clauses, Binds c (suffixed v k) := by
  rcases hx with hq | ⟨c, hc, hb | ⟨w, -, j, hj, heq⟩⟩
  · exact .inl hq
  · exact .inr ⟨c, hc, hb⟩
  · obtain ⟨-, rfl⟩ := suffixed_inj.mp heq
    omega

end Known

/-! ## Copies apart -/

section Apart

/-- A name that a copy with a new number shares with what is in play is a suffixed variable that the query uses too,
or a binder of a clause. -/
theorem Trace.shared {out : List (Except SolveError Subst)} {m : Machine} (ht : Trace kb limits query out m)
    {h : HornClause} (hmem : h ∈ kb.clauses) {k : Nat} (hk : m.renamings ≤ k) {x : String} (hx : x ∈ copyNames h k)
    (hlive : Live query m x) :
    (x ∈ query.variableNames ∧ ∃ v ∈ clauseVariables h, x = suffixed v k) ∨ ∃ c ∈ kb.clauses, Binds c x := by
  obtain ⟨t, hterm, hx⟩ := mem_copyNames.mp hx
  rcases mem_names_copyTerm hterm hx with ⟨v, hv, rfl⟩ | hb
  · exact (known_suffixed hk (ht.known hlive)).imp_left fun hq => ⟨hq, v, hv, rfl⟩
  · exact .inr ⟨h, hmem, hb⟩

/-- In every state of every search, a name that the next copy of a clause shares with what is in play comes from the
query or from a binder; for clauses without binders, the copy is apart exactly if the query uses no suffixed variable
of it. -/
theorem copy_apart_iff {out : List (Except SolveError Subst)} {m : Machine} (ht : Trace kb limits query out m)
    {h : HornClause} (hmem : h ∈ kb.clauses) {k : Nat} (hk : m.renamings ≤ k) :
    (∀ x ∈ copyNames h k, Live query m x →
      (x ∈ query.variableNames ∧ ∃ v ∈ clauseVariables h, x = suffixed v k) ∨ ∃ c ∈ kb.clauses, Binds c x) ∧
    ((∀ c ∈ kb.clauses, ∀ x, ¬ Binds c x) →
      ((∀ x ∈ copyNames h k, ¬ Live query m x) ↔ ∀ v ∈ clauseVariables h, suffixed v k ∉ query.variableNames)) := by
  refine ⟨fun x hx hlive => ht.shared hmem hk hx hlive, fun hfree => ⟨fun hapart v hv hq => ?_, ?_⟩⟩
  · exact hapart _ (suffixed_mem_copyNames hv k) (.inl hq)
  · intro hquery x hx hlive
    rcases ht.shared hmem hk hx hlive with ⟨hq, v, hv, rfl⟩ | ⟨c, hc, hb⟩
    · exact hquery v hv hq
    · exact hfree c hc x hb

/-- The fact `p(X, a)`. -/
def openFact : HornClause :=
  ⟨⟨false, [.rel false "p" [.var false "X", .const "a"]]⟩, .rel false "p" [.var false "X", .const "a"], rfl⟩

/-- The query `p(b, x)` for a variable `x`. -/
def openQuery (x : String) : Term :=
  .rel false "p" [.const "b", .var false x]

/-- The first copy of `p(X, a)` is apart from the query `p(b, Y)`. -/
theorem openFact_apart :
    Trace ⟨[openFact]⟩ .standard (openQuery "Y") [] (.start (openQuery "Y")) ∧
    (∀ v ∈ clauseVariables openFact, suffixed v 0 ∉ (openQuery "Y").variableNames) ∧
    ∀ x ∈ copyNames openFact 0, ¬ Live (openQuery "Y") (.start (openQuery "Y")) x := by
  have htrace : Trace ⟨[openFact]⟩ .standard (openQuery "Y") [] (.start (openQuery "Y")) := .start
  have hquery : ∀ v ∈ clauseVariables openFact, suffixed v 0 ∉ (openQuery "Y").variableNames := by decide
  have hfree : ∀ c ∈ [openFact], ∀ x, ¬ Binds c x := by
    intro c hc x
    obtain rfl := List.mem_singleton.mp hc
    exact not_binds_of_isFirstOrder (by decide) x
  have hapart := (copy_apart_iff htrace (h := openFact) List.mem_cons_self (Nat.le_refl 0)).2 hfree
  exact ⟨htrace, hquery, hapart.mpr hquery⟩

/-- The first copy of `p(X, a)` is not apart from the query `p(b, X_0)`, which therefore gets no answer although
`p(b, a)` is derivable. -/
theorem copy_meets_query :
    ("X_0" ∈ copyNames openFact 0 ∧ Live (openQuery "X_0") (.start (openQuery "X_0")) "X_0") ∧
    solve ⟨[openFact]⟩ .standard (openQuery "X_0") 10 = some (.ok none) ∧
    Derivable ⟨[openFact]⟩ (.rel false "p" [.const "b", .const "a"]) := by
  refine ⟨⟨by decide, .inl (by decide)⟩, by rfl, ?_⟩
  exact .rule (h := openFact) List.mem_cons_self (fun _ => .const "b") fun p hp => nomatch hp

end Apart

end Clausal.Machine
