import Clausal.Term.Display
import Clausal.Proofs.Source.Language

/-!
# Clausal.Proofs.Source.Rendering — what is rendered is read back

The text of a term and the grammar of programs are made apart from each other, and they agree on the terms that the
grammar has: constants, variables and relations under names that are words of the right kind.

* `Term.isExpressible`: these terms.
* `Detached r`: no word and no bracket goes on into `r`, so that a word ends before it.
* `derives_arguments`, `derives_render`: the text of a term is the term, whatever comes after it, if that is detached.
* `parseQuery_render`: the text is read back as a query, with layout around it, with or without a full stop.
* `render_round_trip`: both ways of reading give the term back.
-/

namespace Clausal

/-! ## Terms with a text of their own -/

section Expressible

/-- The whole text is one word of the kind. -/
def Source.isLexeme (starts : Char → Bool) (a : String) : Bool :=
  match a.toList with
  | [] => false
  | c :: w => starts c && w.all isWordChar

namespace Term

mutual

/-- A constant, a variable or a relation, not negated, under a name that is a word of its kind. -/
def isExpressible : Term → Bool
  | .lit n a => !n && Source.isLexeme Source.startsName a
  | .var n x => !n && Source.isLexeme Source.startsVariable x
  | .rel n a ts => !n && Source.isLexeme Source.startsName a && !ts.isEmpty && areExpressible ts
  | .fn .. | .quant .. | .conn .. | .freeClause .. => false

/-- `isExpressible` for all members of a list. -/
def areExpressible : List Term → Bool
  | [] => true
  | t :: ts => isExpressible t && areExpressible ts

end

theorem areExpressible_eq_true {ts : List Term} : areExpressible ts = true ↔ ∀ t ∈ ts, t.isExpressible = true := by
  induction ts with
  | nil => simp [areExpressible]
  | cons t ts ih => rw [areExpressible, Bool.and_eq_true, ih, List.forall_mem_cons]

theorem isExpressible_rel {n : Bool} {a : String} {ts : List Term} (h : (rel n a ts).isExpressible = true) :
    n = false ∧ Source.isLexeme Source.startsName a = true ∧ ts ≠ [] ∧ ∀ t ∈ ts, t.isExpressible = true := by
  rw [isExpressible, Bool.and_eq_true, Bool.and_eq_true, Bool.and_eq_true, areExpressible_eq_true] at h
  obtain ⟨⟨⟨hsign, hname⟩, hne⟩, hts⟩ := h
  exact ⟨by simpa using hsign, hname, by simpa using hne, hts⟩

theorem toList_render_rel (a : String) (ts : List Term) :
    (rel false a ts).render.toList = a.toList ++ '(' :: ((", ".intercalate (renderAll ts)).toList ++ [')']) := by
  simp [render, sign]

end Term

end Expressible

namespace Source

variable {s r r' : List Char} {a : String} {t : Term} {fuel : Nat}

/-! ## Where a word ends -/

section Detached

/-- What follows starts neither with a character of words nor with the bracket of arguments. -/
def Detached (r : List Char) : Prop :=
  ∀ c ∈ r.head?, isWordChar c = false ∧ c ≠ '('

theorem detached_cons {c : Char} (hc : isWordChar c = false) (hopen : c ≠ '(') (r : List Char) : Detached (c :: r) := by
  intro d hd
  obtain rfl : c = d := Option.mem_some_iff.mp hd
  exact ⟨hc, hopen⟩

theorem Layout.detached (h : Layout r r') (hr : Detached r') : Detached r := by
  cases h with
  | none _ => exact hr
  | @blank c _ _ hc _ =>
    have hblank : [' ', '\t', '\r', '\n'].all (fun c => !isWordChar c && c != '(') = true := by decide
    have hc := List.all_eq_true.mp hblank c hc
    rw [Bool.and_eq_true, Bool.not_eq_true', bne_iff_ne] at hc
    exact detached_cons hc.1 hc.2 _
  | line _ _ _ => exact detached_cons (by decide) (by decide) _
  | block _ _ => exact detached_cons (by decide) (by decide) _

theorem word_of_isLexeme {starts : Char → Bool} (h : isLexeme starts a = true)
    (hr : ∀ c ∈ r.head?, isWordChar c = false) : Word starts a (a.toList ++ r) r := by
  unfold isLexeme at h
  split at h
  · cases h
  · next c w hchars =>
    rw [Bool.and_eq_true, List.all_eq_true] at h
    have hword : Word starts (String.ofList (c :: w)) (c :: (w ++ r)) r := .intro h.1 h.2 hr
    rw [← hchars, String.ofList_toList] at hword
    rwa [hchars]

end Detached

/-! ## The text of a term -/

section Render

/-- The arguments of a relation: each one is closed by the comma or the bracket after it. -/
theorem derives_arguments {ts : List Term} (hne : ts ≠ [])
    (h : ∀ t ∈ ts, ∀ r, Detached r → Derives (.argument t) (t.render.toList ++ r) r) (r : List Char) :
    Derives (.arguments .round ts) ((", ".intercalate (Term.renderAll ts)).toList ++ ')' :: r) r := by
  induction ts with
  | nil => exact absurd rfl hne
  | cons t ts ih =>
    obtain ⟨ht, hts⟩ := List.forall_mem_cons.mp h
    cases ts with
    | nil =>
      rw [Term.renderAll, Term.renderAll, String.intercalate_singleton]
      exact .last (ht (')' :: r) (detached_cons (by decide) (by decide) r)) (.none _)
    | cons u ts =>
      have htext : (", ".intercalate (Term.renderAll (t :: u :: ts))).toList ++ ')' :: r = t.render.toList ++
          ',' :: ' ' :: ((", ".intercalate (Term.renderAll (u :: ts))).toList ++ ')' :: r) := by
        simp [Term.renderAll, String.intercalate_cons_cons]
      have hrest := ih (List.cons_ne_nil u ts) hts
      rw [htext]
      exact .more (ht _ (detached_cons (by decide) (by decide) _)) (.none _)
        (hrest.after (.blank (by decide) (.none _)))

/-- The text of a term is the term. -/
theorem derives_render (ht : t.isExpressible = true) (hr : Detached r) :
    Derives (.argument t) (t.render.toList ++ r) r ∧
      ((∀ n x, t ≠ .var n x) → Derives (.compound t) (t.render.toList ++ r) r) := by
  induction t using Term.induct generalizing r with
  | lit n a =>
    obtain ⟨hsign, hname⟩ := Bool.and_eq_true_iff.mp ht
    obtain rfl : n = false := by simpa using hsign
    have hcompound : Derives (.compound (.lit false a)) (a.toList ++ r) r :=
      .name (.none _) (word_of_isLexeme hname fun c hc => (hr c hc).1)
    have htext : (Term.lit false a).render = a := by simp [Term.render, sign]
    rw [htext]
    exact ⟨.term hcompound, fun _ => hcompound⟩
  | var n x =>
    obtain ⟨hsign, hname⟩ := Bool.and_eq_true_iff.mp ht
    obtain rfl : n = false := by simpa using hsign
    have htext : (Term.var false x).render = x := by simp [Term.render, sign]
    rw [htext]
    exact ⟨.var (.none _) (word_of_isLexeme hname fun c hc => (hr c hc).1), fun hc => absurd rfl (hc false x)⟩
  | rel n a ts ih =>
    obtain ⟨rfl, hname, hne, hts⟩ := Term.isExpressible_rel ht
    have hcompound : Derives (.compound (.rel false a ts)) ((Term.rel false a ts).render.toList ++ r) r := by
      have hargs := derives_arguments hne (fun t htmem r hr => (ih t htmem (hts t htmem) hr).1) r
      have hopen : ∀ c ∈ ('(' :: ((", ".intercalate (Term.renderAll ts)).toList ++ ')' :: r)).head?,
          isWordChar c = false := by
        intro c hc
        obtain rfl : '(' = c := Option.mem_some_iff.mp hc
        decide
      rw [Term.toList_render_rel, List.append_assoc, List.cons_append, List.append_assoc, List.singleton_append]
      exact .applied (.none _) (word_of_isLexeme hname hopen) hargs
    exact ⟨.term hcompound, fun _ => hcompound⟩
  | fn n a t ih | quant n q x t ih | conn n c l r ihl ihr | freeClause n ts ih => cases ht

end Render

/-! ## Queries -/

section Queries

/-- What may come after a query: layout, with at most one full stop in it. -/
def EndsQuery (r : List Char) : Prop :=
  Layout r [] ∨ ∃ r', Layout r ('.' :: r') ∧ Layout r' []

theorem EndsQuery.detached (h : EndsQuery r) : Detached r := by
  rcases h with hend | ⟨r', hstop, -⟩
  · exact hend.detached fun c hc => (nomatch hc)
  · exact hstop.detached (detached_cons (by decide) (by decide) r')

theorem EndsQuery.skipLayout_skipStop (h : EndsQuery r) : skipLayout (skipStop r) = [] := by
  unfold skipStop
  rcases h with hend | ⟨r', hstop, hend⟩
  · rw [layout_nil_iff.mp hend]
    exact layout_nil_iff.mp hend
  · rw [(layout_cons_iff (by decide)).mp hstop]
    exact layout_nil_iff.mp hend

theorem query_of_word {x : String} (h : word? startsVariable (skipLayout s) = some (x, r)) (fuel : Nat) :
    query fuel s = .ok (.var false x) r := by
  simp only [query, h]

theorem query_of_spells (h : Spells (.compound t) (skipLayout s) r) (hfuel : 2 * s.length + 1 ≤ fuel) :
    query fuel s = .ok t r := by
  simp only [query, h.not_variable, h.compound_eq hfuel, Reading.required]

theorem parseQuery_of_query {text : String} (h : query (fuelFor text.toList) text.toList = .ok t r)
    (hend : EndsQuery r) : parseQuery text = .ok t := by
  simp only [parseQuery, h, Reading.andThen, complete, hend.skipLayout_skipStop]
  rfl

/-- The text of a term is read back as a query, with layout around it and with or without a full stop. -/
theorem parseQuery_render (ht : t.isExpressible = true) {text : String}
    (htext : Layout text.toList (t.render.toList ++ r)) (hend : EndsQuery r) : parseQuery text = .ok t := by
  have hopen : r.head? ≠ some '(' := fun hopen => (hend.detached '(' hopen).2 rfl
  obtain ⟨hargument, hcompound⟩ := derives_render ht hend.detached
  by_cases hvar : ∃ n x, t = .var n x
  · obtain ⟨n, x, rfl⟩ := hvar
    have hspells := (hargument.after htext).spells hopen
    cases hspells with
    | var hword => exact parseQuery_of_query (query_of_word hword _) hend
    | term _ hname => cases hname
  · have hne : ∀ n x, t ≠ .var n x := fun n x heq => hvar ⟨n, x, heq⟩
    have hspells := ((hcompound hne).after htext).spells hopen
    exact parseQuery_of_query (query_of_spells hspells (by rw [fuelFor]; omega)) hend

end Queries

/-! ## Programs -/

section Programs

/-- The text of a term other than a variable, with a full stop, is a program of one fact. -/
theorem isProgram_render (ht : t.isExpressible = true) (hcompound : ∀ n x, t ≠ .var n x) :
    IsProgram (t.render ++ ".").toList [⟨t, []⟩] := by
  have hderives := (derives_render ht (detached_cons (c := '.') (by decide) (by decide) [])).2 hcompound
  rw [String.toList_append]
  exact .fact hderives (.none _) (.done (.none []))

theorem binderOccurrences_of_isProgram {rules : List Rule} (h : IsProgram s (⟨t, []⟩ :: rules)) :
    t.binderOccurrences = [] := by
  have hplain := (isProgram_iff.mp h).plain ⟨t, []⟩ List.mem_cons_self
  exact Rule.binderOccurrences_formula hplain

/-- A term that the grammar has is read back from its text: as a query, with layout around it and with or without a full
stop, and as a program of one statement, closed over its variables in the order of their first occurrences. -/
theorem render_round_trip (t : Term) (ht : t.isExpressible = true) :
    parseQuery t.render = .ok t ∧ parseQuery (t.render ++ ".") = .ok t ∧
      (∀ text r, Layout text.toList (t.render.toList ++ r) → EndsQuery r → parseQuery text = .ok t) ∧
      ((∀ n x, t ≠ .var n x) → t.Enumerates t.freeVars ∧
        Program.parse (t.render ++ ".") = .ok ⟨[.universal t.freeVars t]⟩) := by
  refine ⟨?_, ?_, fun text r htext hend => parseQuery_render ht htext hend, fun hcompound => ?_⟩
  · have htext : Layout t.render.toList (t.render.toList ++ []) := by
      rw [List.append_nil]
      exact .none _
    exact parseQuery_render ht htext (.inl (.none []))
  · have htext : Layout (t.render ++ ".").toList (t.render.toList ++ ['.']) := by
      rw [String.toList_append]
      exact .none _
    exact parseQuery_render ht htext (.inr ⟨[], .none _, .none []⟩)
  · have hprogram := isProgram_render ht hcompound
    refine ⟨Term.enumerates_freeVars (binderOccurrences_of_isProgram hprogram), ?_⟩
    exact parse_eq_ok_iff.mpr ⟨[⟨t, []⟩], isProgram_iff.mp hprogram, rfl⟩

/-- Words are not only ASCII, and a relation may go by the name of lists. -/
theorem render_round_trip_nested :
    parseQuery "list(étage(X), _y, X)" =
        .ok (.rel false "list" [.rel false "étage" [.var false "X"], .var false "_y", .var false "X"]) ∧
      Program.parse "list(étage(X), _y, X)." =
        .ok ⟨[.quant false .forall "X" (.quant false .forall "_y"
          (.rel false "list" [.rel false "étage" [.var false "X"], .var false "_y", .var false "X"]))]⟩ := by
  have hround := render_round_trip
    (.rel false "list" [.rel false "étage" [.var false "X"], .var false "_y", .var false "X"]) (by decide +kernel)
  exact ⟨hround.1, (hround.2.2.2 nofun).2⟩

end Programs

end Source

end Clausal
