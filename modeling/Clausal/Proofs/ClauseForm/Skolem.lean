import Clausal.ClauseForm.Skolem
import Clausal.Proofs.ClauseForm.Apart

/-!
# Clausal.Proofs.ClauseForm.Skolem — the quantifier-free form entails the formula

The replacements made on the way to an atomic formula are read as one assignment, `assign env v`: the atomic formula
that is left says under `v` what the original one says under `assign env v`.

* `replaceInTurn_literal`: that reading.
* `MatrixOf I env scope t m`: `m` is quantifier-free, and `t` holds under `assign env v` if `m` holds under all
  assignments that differ from `v` at the binders of `t` only.
* `MatrixOf.quant_exists`, `MatrixOf.conn_or`: an existential quantifier is witnessed by the value of its Skolem term,
  whatever that is, and `∀` may be dropped below `∨` since the two sides have no binder in common.
* `matrixOf_skolemizeIn`: the pass makes such a matrix of a settled formula whose binders are apart.
-/

universe u

namespace Clausal.Term

variable {D : Type u} (I : Interpretation D)

/-! ## Replacements as an assignment -/

section Assign

/-- The assignment under which the replacements of `env` are carried out in turn. -/
def assign : List (String × Term) → (String → D) → String → D
  | [], v => v
  | e :: env, v => Function.update (assign env v) e.1 (I.value (assign env v) e.2)

theorem assign_append (env : List (String × Term)) (x : String) (s : Term) (v : String → D) :
    assign I (env ++ [(x, s)]) v = assign I env (Function.update v x (I.value v s)) := by
  induction env with
  | nil => rfl
  | cons e env ih => rw [List.cons_append, assign, ih, assign]

/-- The replacements have to do with names in `scope` only, and put arguments for variables. -/
def Within (env : List (String × Term)) (scope : List String) : Prop :=
  ∀ e ∈ env, e.1 ∈ scope ∧ e.2.isArgument = true ∧ ∀ y, e.2.mentions y = true → y ∈ scope

variable {I} {env : List (String × Term)} {scope : List String} {x : String}

theorem Within.mono {scope' : List String} (h : Within env scope) (hsub : scope ⊆ scope') : Within env scope' := by
  intro e he
  obtain ⟨h1, h2, h3⟩ := h e he
  exact ⟨hsub h1, h2, fun y hy => hsub (h3 y hy)⟩

/-- A variable out of scope keeps its value. -/
theorem assign_update (h : Within env scope) (hx : x ∉ scope) (v : String → D) (d : D) :
    assign I env (Function.update v x d) = Function.update (assign I env v) x d := by
  induction env with
  | nil => rfl
  | cons e env ih =>
    obtain ⟨⟨hkey, -, hval⟩, henv⟩ := List.forall_mem_cons.mp h
    have hne : e.1 ≠ x := fun heq => hx (heq ▸ hkey)
    have hvalue : I.value (Function.update (assign I env v) x d) e.2 = I.value (assign I env v) e.2 := by
      refine I.value_congr fun y hy => ?_
      have hyx : y ≠ x := fun heq => hx (heq ▸ hval y (mentions_of_occursFree hy))
      rw [Function.update_of_ne hyx]
    rw [assign, ih henv, hvalue, Function.update_comm hne.symm, assign]

theorem unshadowed_eq (h : Within env scope) (hx : x ∉ scope) : unshadowed x env = env := by
  refine List.filter_eq_self.mpr fun e he => ?_
  have hne : e.1 ≠ x := fun heq => hx (heq ▸ (h e he).1)
  simpa using hne

theorem value_signed (n : Bool) (v : String → D) (t : Term) : I.value v (signed n t) = I.value v t := by
  cases n with
  | false => rfl
  | true => cases t <;> rfl

@[simp] theorem substituteFreeAll_eq_map (x : String) (s : Term) (ts : List Term) :
    substituteFreeAll x s ts = ts.map (substituteFree x s) := by
  induction ts with
  | nil => rfl
  | cons t ts ih => rw [substituteFreeAll, ih, List.map_cons]

theorem value_substituteFree (x : String) (s : Term) (v : String → D) (t : Term) :
    I.value v (substituteFree x s t) = I.value (Function.update v x (I.value v s)) t := by
  induction t using induct with
  | lit n a => rfl
  | var n y =>
    by_cases hxy : x = y
    · subst hxy
      simp [substituteFree, value_signed, Interpretation.value]
    · simp [substituteFree, Interpretation.value, hxy, Function.update_of_ne (Ne.symm hxy)]
  | rel n a ts ih =>
    simp only [substituteFree, substituteFreeAll_eq_map, Interpretation.value, Interpretation.values_eq_map,
      List.map_map]
    congr 1
    exact List.map_congr_left ih
  | fn n a t ih => rw [substituteFree, Interpretation.value, ih, Interpretation.value]
  | quant n q y t ih | conn n c l r ihl ihr | freeClause n ts ih => rfl

theorem holds_substituteFree {t : Term} (ht : t.isLiteral = true) (x : String) (s : Term) (v : String → D) :
    (substituteFree x s t).Holds I v ↔ t.Holds I (Function.update v x (I.value v s)) := by
  cases t with
  | lit n a => exact Iff.rfl
  | rel n a ts =>
    refine polar_congr n (Iff.of_eq ?_)
    rw [substituteFreeAll_eq_map, I.values_eq_map, I.values_eq_map, List.map_map]
    congr 1
    exact List.map_congr_left fun t _ => value_substituteFree x s v t
  | fn n a t => exact polar_congr n (Iff.of_eq (congrArg (I.property a) (value_substituteFree x s v t)))
  | _ => cases ht

theorem isArgument_substituteFree {t s : Term} (ht : t.isArgument = true) (hs : s.isArgument = true) (x : String) :
    (substituteFree x s t).isArgument = true := by
  induction t using induct with
  | lit n a => exact ht
  | var n y =>
    obtain rfl : n = false := by simpa [isArgument] using ht
    rw [substituteFree]
    split
    · exact hs
    · exact ht
  | rel n a ts ih =>
    rw [isArgument, Bool.and_eq_true, areArguments_eq_true] at ht
    rw [substituteFree, isArgument, Bool.and_eq_true, substituteFreeAll_eq_map, areArguments_eq_true,
      List.forall_mem_map]
    exact ⟨ht.1, fun t hmem => ih t hmem (ht.2 t hmem)⟩
  | fn n a t ih =>
    rw [isArgument, Bool.and_eq_true] at ht
    rw [substituteFree, isArgument, Bool.and_eq_true]
    exact ⟨ht.1, ih ht.2⟩
  | quant n q y t ih | conn n c l r ihl ihr | freeClause n ts ih => cases ht

theorem isLiteral_substituteFree {t s : Term} (ht : t.isLiteral = true) (hs : s.isArgument = true) (x : String) :
    (substituteFree x s t).isLiteral = true := by
  cases t with
  | lit n a => rfl
  | rel n a ts =>
    rw [isLiteral, areArguments_eq_true] at ht
    rw [substituteFree, substituteFreeAll_eq_map, isLiteral, areArguments_eq_true, List.forall_mem_map]
    exact fun t hmem => isArgument_substituteFree (ht t hmem) hs x
  | fn n a t =>
    have harg : (substituteFree x s t).isArgument = true := isArgument_substituteFree (t := t) ht hs x
    exact harg
  | _ => cases ht

theorem mentions_substituteFree {t s : Term} {y : String} (h : (substituteFree x s t).mentions y = true) :
    t.mentions y = true ∨ s.mentions y = true := by
  induction t using induct with
  | lit n a => cases h
  | var n z =>
    rw [substituteFree] at h
    split at h
    · exact .inr (by rwa [mentions_signed] at h)
    · exact .inl h
  | rel n a ts ih | freeClause n ts ih =>
    rw [substituteFree, substituteFreeAll_eq_map, mentions, mentionsAny_eq_true] at h
    obtain ⟨_, hmem, hy⟩ := h
    obtain ⟨t, ht, rfl⟩ := List.mem_map.mp hmem
    rw [mentions, mentionsAny_eq_true]
    exact (ih t ht hy).imp_left fun h => ⟨t, ht, h⟩
  | fn n a t ih => exact ih h
  | quant n q z t ih =>
    rw [substituteFree, mentions] at h
    split at h
    · exact .inl h
    · exact ih h
  | conn n c l r ihl ihr =>
    rw [substituteFree, mentions, Bool.or_eq_true] at h
    rw [mentions, Bool.or_eq_true]
    rcases h with h | h
    · exact (ihl h).imp_left .inl
    · exact (ihr h).imp_left .inr

/-- What is left of an atomic formula when the replacements have been carried out. -/
theorem replaceInTurn_literal {t : Term} (ht : t.isLiteral = true) (henv : Within env scope)
    (hscope : ∀ y, t.mentions y = true → y ∈ scope) :
    (replaceInTurn env t).isLiteral = true ∧ (∀ y, (replaceInTurn env t).mentions y = true → y ∈ scope) ∧
      ∀ v, (replaceInTurn env t).Holds I v ↔ t.Holds I (assign I env v) := by
  induction env generalizing t with
  | nil => exact ⟨ht, hscope, fun v => Iff.rfl⟩
  | cons e env ih =>
    obtain ⟨⟨-, harg, hval⟩, hrest⟩ := List.forall_mem_cons.mp henv
    have hvars : ∀ y, (substituteFree e.1 e.2 t).mentions y = true → y ∈ scope := by
      intro y hy
      rcases mentions_substituteFree hy with hy | hy
      · exact hscope y hy
      · exact hval y hy
    obtain ⟨h1, h2, h3⟩ := ih (isLiteral_substituteFree ht harg e.1) hrest hvars
    refine ⟨h1, h2, fun v => (h3 v).trans ?_⟩
    rw [holds_substituteFree ht, assign]

end Assign

/-! ## Matrices -/

section Matrix

mutual

/-- A settled formula without quantifiers. -/
def isMatrix : Term → Bool
  | .conn n .and l r | .conn n .or l r => !n && isMatrix l && isMatrix r
  | .conn .. | .quant .. => false
  | .freeClause n ts => (!n || ts.isEmpty) && areMatrices ts
  | t => isLiteral t

/-- All formulas are settled and without quantifiers. -/
def areMatrices : List Term → Bool
  | [] => true
  | t :: ts => isMatrix t && areMatrices ts

end

@[simp] theorem areMatrices_eq_true {ts : List Term} : areMatrices ts = true ↔ ∀ t ∈ ts, t.isMatrix = true := by
  induction ts with
  | nil => simp [areMatrices]
  | cons t ts ih => simp [areMatrices, ih]

theorem isMatrix_conn {n : Bool} {c : Connective} {l r : Term} :
    (Term.conn n c l r).isMatrix = true ↔
      n = false ∧ (c = .and ∨ c = .or) ∧ l.isMatrix = true ∧ r.isMatrix = true := by
  cases c <;> simp [isMatrix, and_assoc]

theorem isMatrix_of_isLiteral {t : Term} (ht : t.isLiteral = true) : t.isMatrix = true := by
  cases t with
  | lit n a | rel n a ts | fn n a t => exact ht
  | _ => cases ht

variable {I} {env : List (String × Term)} {scope : List String} {x : String} {t m l r ml mr : Term}

/-- `m` stands for `t` below the replacements `env`, its former binders being free. -/
structure MatrixOf (I : Interpretation D) (env : List (String × Term)) (scope : List String) (t m : Term) : Prop where
  matrix : m.isMatrix = true
  names : ∀ y, m.mentions y = true → y ∈ scope ∨ y ∈ t.binderOccurrences
  entails : ∀ v, (∀ w, (∀ y, y ∉ t.binderOccurrences → w y = v y) → m.Holds I w) → t.Holds I (assign I env v)

namespace MatrixOf

theorem literal (ht : t.isLiteral = true) (henv : Within env scope) (hscope : ∀ y, t.mentions y = true → y ∈ scope) :
    MatrixOf I env scope t (replaceInTurn env t) := by
  obtain ⟨hliteral, hnames, hholds⟩ := replaceInTurn_literal (I := I) ht henv hscope
  exact
    { matrix := isMatrix_of_isLiteral hliteral
      names := fun y hy => .inl (hnames y hy)
      entails := fun v hall => (hholds v).mp (hall v fun _ _ => rfl) }

theorem names_quant {env' : List (String × Term)} {n : Bool} {q : Quant} (h : MatrixOf I env' (x :: scope) t m)
    (y : String) (hy : m.mentions y = true) : y ∈ scope ∨ y ∈ (Term.quant n q x t).binderOccurrences := by
  rcases h.names y hy with hy | hy
  · rcases List.mem_cons.mp hy with rfl | hy
    · exact .inr List.mem_cons_self
    · exact .inl hy
  · exact .inr (List.mem_cons_of_mem x hy)

/-- Whatever the Skolem term means, its value is a witness. -/
theorem quant_exists {s : Term} (h : MatrixOf I (env ++ [(x, s)]) (x :: scope) t m) (henv : Within env scope)
    (hx : x ∉ scope) : MatrixOf I env scope (.quant false .exists x t) m where
  matrix := h.matrix
  names := h.names_quant
  entails v hall := by
    have hbody := h.entails v fun w hw => hall w fun y hy => hw y fun hmem => hy (List.mem_cons_of_mem x hmem)
    rw [assign_append, assign_update henv hx] at hbody
    exact ⟨I.value v s, hbody⟩

theorem quant_forall (h : MatrixOf I env (x :: scope) t m) (henv : Within env scope) (hx : x ∉ scope) :
    MatrixOf I env scope (.quant false .forall x t) m where
  matrix := h.matrix
  names := h.names_quant
  entails v hall d := by
    have hbody : t.Holds I (assign I env (Function.update v x d)) := by
      refine h.entails _ fun w hw => hall w fun y hy => ?_
      have hyx : y ≠ x := fun heq => hy (heq ▸ List.mem_cons_self)
      rw [hw y fun hmem => hy (List.mem_cons_of_mem x hmem), Function.update_of_ne hyx]
    rwa [assign_update henv hx] at hbody

theorem names_conn {n : Bool} {c : Connective} (hl : MatrixOf I env scope l ml) (hr : MatrixOf I env scope r mr)
    (y : String) (hy : (Term.conn n c ml mr).mentions y = true) :
    y ∈ scope ∨ y ∈ (Term.conn n c l r).binderOccurrences := by
  rw [mentions, Bool.or_eq_true] at hy
  rcases hy with hy | hy
  · exact (hl.names y hy).imp_right (List.mem_append_left _)
  · exact (hr.names y hy).imp_right (List.mem_append_right _)

theorem conn_and (hl : MatrixOf I env scope l ml) (hr : MatrixOf I env scope r mr) :
    MatrixOf I env scope (.conn false .and l r) (.conn false .and ml mr) where
  matrix := by simp [isMatrix, hl.matrix, hr.matrix]
  names := hl.names_conn hr
  entails v hall := by
    constructor
    · exact hl.entails v fun w hw => (hall w fun y hy => hw y fun hmem => hy (List.mem_append_left _ hmem)).1
    · exact hr.entails v fun w hw => (hall w fun y hy => hw y fun hmem => hy (List.mem_append_right _ hmem)).2

/-- The quantifiers of both sides may be dropped at once, since an assignment can be chosen for each side alone. -/
theorem conn_or (hl : MatrixOf I env scope l ml) (hr : MatrixOf I env scope r mr)
    (hlscope : ∀ y ∈ l.binderOccurrences, y ∉ scope) (hrscope : ∀ y ∈ r.binderOccurrences, y ∉ scope)
    (hdisj : ∀ y ∈ l.binderOccurrences, y ∉ r.binderOccurrences) :
    MatrixOf I env scope (.conn false .or l r) (.conn false .or ml mr) where
  matrix := by simp [isMatrix, hl.matrix, hr.matrix]
  names := hl.names_conn hr
  entails v hall := by
    by_cases hboth : l.Holds I (assign I env v) ∨ r.Holds I (assign I env v)
    · exact hboth
    obtain ⟨hleft, hright⟩ := not_or.mp hboth
    obtain ⟨w₁, hw₁, hnot₁⟩ : ∃ w, (∀ y, y ∉ l.binderOccurrences → w y = v y) ∧ ¬ ml.Holds I w := by
      simpa using mt (hl.entails v) hleft
    obtain ⟨w₂, hw₂, hnot₂⟩ : ∃ w, (∀ y, y ∉ r.binderOccurrences → w y = v y) ∧ ¬ mr.Holds I w := by
      simpa using mt (hr.entails v) hright
    -- the binders of the left side as in `w₁`, all other variables as in `w₂`
    have hmix : ∀ y, y ∉ (Term.conn false .or l r).binderOccurrences →
        (if y ∈ l.binderOccurrences then w₁ y else w₂ y) = v y := by
      intro y hy
      rw [binderOccurrences, List.mem_append, not_or] at hy
      rw [if_neg hy.1, hw₂ y hy.2]
    rcases hall _ hmix with hholds | hholds
    · refine absurd ((holds_congr fun y hy => ?_).mp hholds) hnot₁
      by_cases hmem : y ∈ l.binderOccurrences
      · rw [if_pos hmem]
      · have hyscope := (hl.names y (mentions_of_occursFree hy)).resolve_right hmem
        rw [if_neg hmem, hw₁ y hmem, hw₂ y fun hyr => hrscope y hyr hyscope]
    · refine absurd ((holds_congr fun y hy => ?_).mp hholds) hnot₂
      have hmem : y ∉ l.binderOccurrences := fun hyl =>
        (hr.names y (mentions_of_occursFree hy)).elim (hlscope y hyl) (hdisj y hyl)
      rw [if_neg hmem]

theorem freeClause_nil (n : Bool) : MatrixOf I env scope (.freeClause n []) (.freeClause n []) where
  matrix := by simp [isMatrix, areMatrices]
  names y hy := by cases hy
  entails v hall := hall v fun _ _ => rfl

theorem freeClause_cons {ts ms : List Term} (ht : MatrixOf I env scope t m)
    (hts : MatrixOf I env scope (.freeClause false ts) (.freeClause false ms)) :
    MatrixOf I env scope (.freeClause false (t :: ts)) (.freeClause false (m :: ms)) where
  matrix := by
    have hrest := hts.matrix
    simp only [isMatrix, Bool.not_false, Bool.true_or, Bool.true_and] at hrest
    simp [isMatrix, areMatrices, ht.matrix, hrest]
  names y hy := by
    rw [mentions, mentionsAny, Bool.or_eq_true] at hy
    rcases hy with hy | hy
    · exact (ht.names y hy).imp_right (List.mem_append_left _)
    · exact (hts.names y hy).imp_right (List.mem_append_right _)
  entails v hall := by
    constructor
    · exact ht.entails v fun w hw => (hall w fun y hy => hw y fun hmem => hy (List.mem_append_left _ hmem)).1
    · exact hts.entails v fun w hw => (hall w fun y hy => hw y fun hmem => hy (List.mem_append_right _ hmem)).2

end MatrixOf

end Matrix

/-! ## The pass -/

section Pass

variable {I} {env : List (String × Term)} {scope : List String} {enclosing : Option String} {x : String} {t : Term}

@[simp] theorem settleQuantifiersAll_eq_map (ts : List Term) :
    settleQuantifiersAll ts = ts.map settleQuantifiers := by
  induction ts with
  | nil => rfl
  | cons t ts ih => rw [settleQuantifiersAll, ih, List.map_cons]

/-- In normal form no quantifier is negated. -/
theorem settleQuantifiers_of_isSettled (ht : t.isSettled = true) : t.settleQuantifiers = t := by
  induction t using induct with
  | lit n a | rel n a ts ih | fn n a t ih => rfl
  | var n x => cases ht
  | quant n q x t ih =>
    obtain ⟨rfl, ht⟩ := isSettled_quant.mp ht
    rw [settleQuantifiers, ih ht]
    rfl
  | conn n c l r ihl ihr =>
    obtain ⟨-, -, hl, hr⟩ := isSettled_conn.mp ht
    rw [settleQuantifiers, ihl hl, ihr hr]
  | freeClause n ts ih =>
    have hts := (isSettled_freeClause.mp ht).2
    rw [settleQuantifiers, settleQuantifiersAll_eq_map, List.map_congr_left fun t hmem => ih t hmem (hts t hmem),
      List.map_id']

theorem not_mem_scope_of_isApart (ht : t.isSettled = true) (hapart : t.IsApart scope) :
    ∀ y ∈ t.binderOccurrences, y ∉ scope := by
  intro y hy
  induction t using induct generalizing scope with
  | lit n a | rel n a ts ih | fn n a t ih =>
    rw [binderOccurrences_of_isFirstOrder (firstOrder_of_isLiteral ht).1] at hy
    cases hy
  | var n x => cases ht
  | quant n q x t ih =>
    have ht' := (isSettled_quant.mp ht).2
    rcases List.mem_cons.mp hy with rfl | hy
    · exact hapart.1
    · exact fun hmem => ih ht' hapart.2 hy (List.mem_cons_of_mem x hmem)
  | conn n c l r ihl ihr =>
    obtain ⟨-, -, hl, hr⟩ := isSettled_conn.mp ht
    rcases List.mem_append.mp hy with hy | hy
    · exact ihl hl hapart.1 hy
    · exact ihr hr hapart.2.1 hy
  | freeClause n ts ih =>
    rw [binderOccurrences, mem_binderOccurrencesAll] at hy
    obtain ⟨t, hmem, hy⟩ := hy
    exact ih t hmem ((isSettled_freeClause.mp ht).2 t hmem) (areApart_iff.mp hapart t hmem) hy

theorem isArgument_skolemTerm (names : Names) (enclosing : Option String) :
    (names.skolemTerm enclosing).1.isArgument = true := by
  cases enclosing <;> rfl

theorem mentions_skolemTerm {names : Names} {y : String} (h : (names.skolemTerm enclosing).1.mentions y = true) :
    enclosing = some y := by
  cases enclosing with
  | none => cases h
  | some x =>
    obtain rfl : y = x := by simpa [Names.skolemTerm, mentions] using h
    rfl

theorem Within.skolem {names : Names} (h : Within env scope) (henc : ∀ u, enclosing = some u → u ∈ scope) :
    Within (env ++ [(x, (names.skolemTerm enclosing).1)]) (x :: scope) := by
  intro e he
  rcases List.mem_append.mp he with he | he
  · exact h.mono (List.subset_cons_self x scope) e he
  · obtain rfl := List.mem_singleton.mp he
    exact ⟨List.mem_cons_self, isArgument_skolemTerm names enclosing,
      fun y hy => List.mem_cons_of_mem x (henc y (mentions_skolemTerm hy))⟩

theorem matrixOf_skolemizeAll {ts : List Term}
    (h : ∀ t ∈ ts, ∀ names, MatrixOf I env scope t (skolemizeIn env enclosing names t).1) (names : Names) :
    MatrixOf I env scope (.freeClause false ts) (.freeClause false (skolemizeAll env enclosing names ts).1) := by
  induction ts generalizing names with
  | nil => exact .freeClause_nil false
  | cons t ts ih =>
    obtain ⟨ht, hts⟩ := List.forall_mem_cons.mp h
    exact (ht names).freeClause_cons (ih hts _)

/-- The pass leaves a matrix that entails the formula. -/
theorem matrixOf_skolemizeIn (ht : t.isSettled = true) (hapart : t.IsApart scope) (henv : Within env scope)
    (henc : ∀ u, enclosing = some u → u ∈ scope) (names : Names) :
    MatrixOf I env scope t (skolemizeIn env enclosing names t).1 := by
  induction t using induct generalizing env scope enclosing names with
  | lit n a | rel n a ts ih | fn n a t ih => exact .literal ht henv ((isApart_of_isLiteral ht).mp hapart)
  | var n x => cases ht
  | quant n q x t ih =>
    obtain ⟨rfl, ht⟩ := isSettled_quant.mp ht
    obtain ⟨hx, hbody⟩ := hapart
    cases q with
    | «exists» =>
      rw [skolemizeIn_exists, unshadowed_eq henv hx]
      have henc' : ∀ u, enclosing = some u → u ∈ x :: scope := fun u hu => List.mem_cons_of_mem x (henc u hu)
      exact .quant_exists (ih ht hbody (henv.skolem henc) henc' _) henv hx
    | «forall» =>
      rw [skolemizeIn_forall, unshadowed_eq henv hx]
      have henc' : ∀ u, some x = some u → u ∈ x :: scope := fun u hu => Option.some.inj hu ▸ List.mem_cons_self
      exact .quant_forall (ih ht hbody (henv.mono (List.subset_cons_self x scope)) henc' _) henv hx
  | conn n c l r ihl ihr =>
    obtain ⟨rfl, hc, hl, hr⟩ := isSettled_conn.mp ht
    obtain ⟨hapartl, hapartr, hdisj⟩ := hapart
    have hleft := ihl hl hapartl henv henc names
    have hright := ihr hr hapartr henv henc (skolemizeIn env enclosing names l).2
    rw [skolemizeIn_conn]
    rcases hc with rfl | rfl
    · exact hleft.conn_and hright
    · exact hleft.conn_or hright (not_mem_scope_of_isApart hl hapartl) (not_mem_scope_of_isApart hr hapartr) hdisj
  | freeClause n ts ih =>
    obtain ⟨hsign, hts⟩ := isSettled_freeClause.mp ht
    have hmembers : ∀ t ∈ ts, ∀ names, MatrixOf I env scope t (skolemizeIn env enclosing names t).1 :=
      fun t hmem names => ih t hmem (hts t hmem) (areApart_iff.mp hapart t hmem) henv henc names
    cases n with
    | false => exact matrixOf_skolemizeAll hmembers names
    | true =>
      -- a negated free clause in normal form is empty
      obtain rfl : ts = [] := by simpa using hsign
      exact .freeClause_nil true

end Pass

end Clausal.Term
