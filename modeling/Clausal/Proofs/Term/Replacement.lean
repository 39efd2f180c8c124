import Clausal.Term.Variables

/-!
# Clausal.Proofs.Term.Replacement — signs and simultaneous replacement

The laws of `Term.signed` and `Term.mapVars` on which substitutions rest.

* `Term.induct`: induction over terms, with the hypothesis on every member of an argument list.
* `signed_signed`: signs multiply, so a sign cancels itself.
* `mapVars_mapVars`, `mapVars_congr`, `mapVars_var`: replacement composes, depends only on the variables that occur,
  and does nothing when every variable stands for itself.
* `mentions_mapVars`: the variables of a term after a replacement.
-/

namespace Clausal.Term

/-! ## Induction -/

/-- Induction over terms. -/
@[elab_as_elim]
theorem induct {P : Term → Prop}
    (lit : ∀ n a, P (.lit n a))
    (var : ∀ n x, P (.var n x))
    (rel : ∀ n a ts, (∀ t ∈ ts, P t) → P (.rel n a ts))
    (fn : ∀ n a t, P t → P (.fn n a t))
    (quant : ∀ n q x t, P t → P (.quant n q x t))
    (conn : ∀ n c l r, P l → P r → P (.conn n c l r))
    (freeClause : ∀ n ts, (∀ t ∈ ts, P t) → P (.freeClause n ts)) (t : Term) : P t := by
  refine @Term.rec P (fun ts => ∀ t ∈ ts, P t) lit var rel fn quant conn freeClause ?_ ?_ t
  · intro t ht
    cases ht
  · intro t ts ht hts u hu
    rcases List.mem_cons.mp hu with rfl | hu
    · exact ht
    · exact hts u hu

/-! ## Members of a list -/

@[simp] theorem mapVarsAll_eq_map (f : String → Term) (ts : List Term) : mapVarsAll f ts = ts.map (mapVars f) := by
  induction ts with
  | nil => rfl
  | cons t ts ih => rw [mapVarsAll, ih, List.map_cons]

@[simp] theorem mentionsAny_eq_true {x : String} {ts : List Term} :
    mentionsAny x ts = true ↔ ∃ t ∈ ts, t.mentions x = true := by
  induction ts with
  | nil => simp [mentionsAny]
  | cons t ts ih => simp [mentionsAny, ih]

@[simp] theorem anyVarAll_eq_true {p : String → Bool} {ts : List Term} :
    anyVarAll p ts = true ↔ ∃ t ∈ ts, t.anyVar p = true := by
  induction ts with
  | nil => simp [anyVarAll]
  | cons t ts ih => simp [anyVarAll, ih]

@[simp] theorem mem_variableNamesAll {x : String} {ts : List Term} :
    x ∈ variableNamesAll ts ↔ ∃ t ∈ ts, x ∈ t.variableNames := by
  induction ts with
  | nil => simp [variableNamesAll]
  | cons t ts ih => simp [variableNamesAll, ih]

@[simp] theorem mem_binderOccurrencesAll {x : String} {ts : List Term} :
    x ∈ binderOccurrencesAll ts ↔ ∃ t ∈ ts, x ∈ t.binderOccurrences := by
  induction ts with
  | nil => simp [binderOccurrencesAll]
  | cons t ts ih => simp [binderOccurrencesAll, ih]

/-- A test on variables succeeds at a variable that occurs. -/
theorem anyVar_eq_true {p : String → Bool} {t : Term} : t.anyVar p = true ↔ ∃ x, t.mentions x = true ∧ p x = true := by
  induction t using induct with
  | lit n a => simp [anyVar, mentions]
  | var n x => simp [anyVar, mentions]
  | rel n a ts ih | freeClause n ts ih =>
    simp only [anyVar, mentions, anyVarAll_eq_true, mentionsAny_eq_true]
    constructor
    · rintro ⟨t, ht, h⟩
      obtain ⟨x, hx, hp⟩ := (ih t ht).mp h
      exact ⟨x, ⟨t, ht, hx⟩, hp⟩
    · rintro ⟨x, ⟨t, ht, hx⟩, hp⟩
      exact ⟨t, ht, (ih t ht).mpr ⟨x, hx, hp⟩⟩
  | fn n a t ih => simpa [anyVar, mentions] using ih
  | quant n q x t ih => simpa [anyVar, mentions] using ih
  | conn n c l r ihl ihr => simp only [anyVar, mentions, Bool.or_eq_true, ihl, ihr, or_and_right, exists_or]

/-! ## Signs -/

@[simp] theorem signed_false (t : Term) : signed false t = t := rfl

@[simp] theorem isNegated_negate (t : Term) : t.negate.isNegated = !t.isNegated := by
  cases t <;> rfl

@[simp] theorem negate_negate (t : Term) : t.negate.negate = t := by
  cases t <;> simp [negate, withFlag, isNegated]

theorem negate_ne (t : Term) : t.negate ≠ t := by
  intro h
  have := congrArg isNegated h
  rw [isNegated_negate] at this
  cases hn : t.isNegated <;> rw [hn] at this <;> cases this

/-- Signs multiply. -/
theorem signed_signed (n m : Bool) (t : Term) : signed n (signed m t) = signed (n != m) t := by
  cases n <;> cases m <;> simp [signed]

@[simp] theorem signed_cancel (n : Bool) (t : Term) : signed n (signed n t) = t := by
  rw [signed_signed]
  cases n <;> rfl

theorem signed_inj {n : Bool} {t u : Term} : signed n t = signed n u ↔ t = u := by
  constructor
  · intro h
    rw [← signed_cancel n t, h, signed_cancel]
  · rintro rfl
    rfl

theorem eq_signed_comm {n : Bool} {t u : Term} : signed n t = u ↔ t = signed n u := by
  rw [← signed_inj (n := n), signed_cancel]

@[simp] theorem mentions_negate (t : Term) (x : String) : t.negate.mentions x = t.mentions x := by
  cases t <;> rfl

@[simp] theorem mentions_signed (n : Bool) (t : Term) (x : String) : (signed n t).mentions x = t.mentions x := by
  cases n <;> simp [signed]

@[simp] theorem anyVar_signed (p : String → Bool) (n : Bool) (t : Term) : (signed n t).anyVar p = t.anyVar p := by
  cases n
  · rfl
  · cases t <;> rfl

@[simp] theorem variableNames_negate (t : Term) : t.negate.variableNames = t.variableNames := by
  cases t <;> rfl

@[simp] theorem variableNames_signed (n : Bool) (t : Term) : (signed n t).variableNames = t.variableNames := by
  cases n <;> simp [signed]

theorem mapVars_negate (f : String → Term) (t : Term) : t.negate.mapVars f = (t.mapVars f).negate := by
  cases t with
  | var n x =>
    show signed (!n) (f x) = (signed n (f x)).negate
    cases n <;> simp [signed]
  | _ => simp [negate, withFlag, isNegated, mapVars]

@[simp] theorem mapVars_signed (f : String → Term) (n : Bool) (t : Term) :
    (signed n t).mapVars f = signed n (t.mapVars f) := by
  cases n
  · rfl
  · exact mapVars_negate f t

/-! ## Replacement -/

/-- Two replacements in a row are one. -/
theorem mapVars_mapVars (f g : String → Term) (t : Term) :
    (t.mapVars f).mapVars g = t.mapVars fun x => (f x).mapVars g := by
  induction t using induct with
  | lit n a => rfl
  | var n x => rw [mapVars, mapVars_signed, mapVars]
  | rel n a ts ih | freeClause n ts ih =>
    simp only [mapVars, mapVarsAll_eq_map, List.map_map]
    congr 1
    exact List.map_congr_left ih
  | fn n a t ih | quant n q x t ih => simp only [mapVars, ih]
  | conn n c l r ihl ihr => simp only [mapVars, ihl, ihr]

/-- A replacement depends on the variables that occur. -/
theorem mapVars_congr {f g : String → Term} {t : Term} (h : ∀ x, t.mentions x = true → f x = g x) :
    t.mapVars f = t.mapVars g := by
  induction t using induct with
  | lit n a => rfl
  | var n x => rw [mapVars, mapVars, h x (by simp [mentions])]
  | rel n a ts ih | freeClause n ts ih =>
    simp only [mapVars, mapVarsAll_eq_map]
    congr 1
    refine List.map_congr_left fun t ht => ih t ht fun x hx => h x ?_
    rw [mentions, mentionsAny_eq_true]
    exact ⟨t, ht, hx⟩
  | fn n a t ih | quant n q x t ih => rw [mapVars, mapVars, ih h]
  | conn n c l r ihl ihr =>
    rw [mapVars, mapVars, ihl fun x hx => h x (by simp [mentions, hx]), ihr fun x hx => h x (by simp [mentions, hx])]

/-- Nothing changes when every variable stands for itself. -/
@[simp] theorem mapVars_var (t : Term) : t.mapVars (.var false) = t := by
  induction t using induct with
  | lit n a => rfl
  | var n x => cases n <;> rfl
  | rel n a ts ih | freeClause n ts ih =>
    simp only [mapVars, mapVarsAll_eq_map]
    congr 1
    exact (List.map_congr_left ih).trans (List.map_id ts)
  | fn n a t ih | quant n q x t ih => rw [mapVars, ih]
  | conn n c l r ihl ihr => rw [mapVars, ihl, ihr]

/-- The variables of a term after a replacement. -/
theorem mentions_mapVars {f : String → Term} {t : Term} {x : String} :
    (t.mapVars f).mentions x = true ↔ ∃ y, t.mentions y = true ∧ (f y).mentions x = true := by
  induction t using induct with
  | lit n a => simp [mapVars, mentions]
  | var n y => simp [mapVars, mentions]
  | rel n a ts ih | freeClause n ts ih =>
    simp only [mapVars, mapVarsAll_eq_map, mentions, mentionsAny_eq_true, List.mem_map]
    constructor
    · rintro ⟨_, ⟨t, ht, rfl⟩, hx⟩
      obtain ⟨y, hy, hfy⟩ := (ih t ht).mp hx
      exact ⟨y, ⟨t, ht, hy⟩, hfy⟩
    · rintro ⟨y, ⟨t, ht, hy⟩, hfy⟩
      exact ⟨_, ⟨t, ht, rfl⟩, (ih t ht).mpr ⟨y, hy, hfy⟩⟩
  | fn n a t ih => simpa [mapVars, mentions] using ih
  | quant n q z t ih => simpa [mapVars, mentions] using ih
  | conn n c l r ihl ihr => simp only [mapVars, mentions, Bool.or_eq_true, ihl, ihr, or_and_right, exists_or]

/-- The names in a term after a replacement: its own binders apart, they are names of what was put in. -/
theorem mem_variableNames_mapVars {f : String → Term} {t : Term} {x : String} (h : x ∈ (t.mapVars f).variableNames) :
    x ∈ t.binderOccurrences ∨ ∃ y, t.mentions y = true ∧ x ∈ (f y).variableNames := by
  induction t using induct with
  | lit n a => simp [mapVars, variableNames] at h
  | var n y =>
    rw [mapVars, variableNames_signed] at h
    exact .inr ⟨y, by simp [mentions], h⟩
  | rel n a ts ih | freeClause n ts ih =>
    simp only [mapVars, mapVarsAll_eq_map, variableNames, mem_variableNamesAll, List.mem_map] at h
    obtain ⟨_, ⟨t, ht, rfl⟩, hx⟩ := h
    rcases ih t ht hx with hb | ⟨y, hy, hfy⟩
    · exact .inl (by rw [binderOccurrences, mem_binderOccurrencesAll]; exact ⟨t, ht, hb⟩)
    · exact .inr ⟨y, by rw [mentions, mentionsAny_eq_true]; exact ⟨t, ht, hy⟩, hfy⟩
  | fn n a t ih => exact ih h
  | quant n q z t ih =>
    rw [mapVars, variableNames, List.mem_cons] at h
    rcases h with rfl | h
    · exact .inl (by simp [binderOccurrences])
    · rcases ih h with hb | hy
      · exact .inl (by simp [binderOccurrences, hb])
      · exact .inr hy
  | conn n c l r ihl ihr =>
    rw [mapVars, variableNames, List.mem_append] at h
    rcases h with h | h
    · rcases ihl h with hb | ⟨y, hy, hfy⟩
      · exact .inl (by simp [binderOccurrences, hb])
      · exact .inr ⟨y, by simp [mentions, hy], hfy⟩
    · rcases ihr h with hb | ⟨y, hy, hfy⟩
      · exact .inl (by simp [binderOccurrences, hb])
      · exact .inr ⟨y, by simp [mentions, hy], hfy⟩

/-! ## Size -/

@[simp] theorem sizeOf_negate (t : Term) : sizeOf t.negate = sizeOf t := by
  cases t with
  | _ n => cases n <;> rfl

@[simp] theorem sizeOf_signed (n : Bool) (t : Term) : sizeOf (signed n t) = sizeOf t := by
  cases n <;> simp [signed]

/-- What stands for a variable is no larger than a term it is put into. -/
theorem sizeOf_le_of_mentions {f : String → Term} {t : Term} {x : String} (h : t.mentions x = true) :
    sizeOf (f x) ≤ sizeOf (t.mapVars f) := by
  induction t using induct with
  | lit n a => simp [mentions] at h
  | var n y =>
    have : x = y := by simpa [mentions] using h
    subst this
    simp [mapVars]
  | rel n a ts ih | freeClause n ts ih =>
    rw [mentions, mentionsAny_eq_true] at h
    obtain ⟨t, ht, hx⟩ := h
    have hlt := List.sizeOf_lt_of_mem (List.mem_map_of_mem (f := mapVars f) ht)
    have := ih t ht hx
    simp only [mapVars, mapVarsAll_eq_map, rel.sizeOf_spec, freeClause.sizeOf_spec]
    omega
  | fn n a t ih | quant n q y t ih =>
    have := ih h
    simp only [mapVars, fn.sizeOf_spec, quant.sizeOf_spec]
    omega
  | conn n c l r ihl ihr =>
    simp only [mapVars, conn.sizeOf_spec]
    rcases (by simpa [mentions] using h : l.mentions x = true ∨ r.mentions x = true) with hx | hx
    · have := ihl hx
      omega
    · have := ihr hx
      omega

/-- It is smaller unless the term is the variable itself. -/
theorem sizeOf_lt_of_mentions {f : String → Term} {t : Term} {x : String} (ht : ∀ n y, t ≠ .var n y)
    (h : t.mentions x = true) : sizeOf (f x) < sizeOf (t.mapVars f) := by
  cases t with
  | lit n a => simp [mentions] at h
  | var n y => exact absurd rfl (ht n y)
  | rel n a ts | freeClause n ts =>
    rw [mentions, mentionsAny_eq_true] at h
    obtain ⟨t, ht, hx⟩ := h
    have h1 := sizeOf_le_of_mentions (f := f) hx
    have h2 := List.sizeOf_lt_of_mem (List.mem_map_of_mem (f := mapVars f) ht)
    simp only [mapVars, mapVarsAll_eq_map, rel.sizeOf_spec, freeClause.sizeOf_spec]
    omega
  | fn n a t | quant n q y t =>
    have := sizeOf_le_of_mentions (f := f) (t := t) h
    simp only [mapVars, fn.sizeOf_spec, quant.sizeOf_spec]
    omega
  | conn n c l r =>
    simp only [mapVars, conn.sizeOf_spec]
    rcases (by simpa [mentions] using h : l.mentions x = true ∨ r.mentions x = true) with hx | hx
    · have := sizeOf_le_of_mentions (f := f) hx
      omega
    · have := sizeOf_le_of_mentions (f := f) hx
      omega

end Clausal.Term
