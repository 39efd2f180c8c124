import Clausal.Proofs.Source.Concatenation

/-!
# Clausal.Proofs.Source.Faults — where a text goes wrong

A fault is reported at the first character that does not fit, by its line and column in the whole text, and everything
that was read before it stands in front of it.

* `PointsAt consumed rest line column message`: the report names the place between `consumed` and `rest`;
  `Found.pointsAt` says that the wording of a fault does.
* `Reading.fault?`: the fault of a reading that must be followed by nothing but layout.
* `Accepts s ts r`: the statements `ts` are read one after the other in `s`, up to `r`.  `Accepts.suffix_of_fault?` says
  that a fault of the whole text lies in `r`.
* `Layout.append_of_suffix`, `Written.accepts_append`: a program at the start of a text is accepted there.
* `faults_located`: the faults of programs and queries.
-/

namespace Clausal.Source

variable {s r : List Char} {fuel n : Nat}

/-! ## Lines, columns and wording -/

section Report

/-- The report names the place of a text between `consumed` and `rest`. -/
structure PointsAt (consumed rest : List Char) (line column : Nat) (message : String) : Prop where
  line_eq : line = 1 + consumed.count '\n'
  /-- The column counts the characters of the line that `consumed` leaves open. -/
  column_eq : ∃ lines last, consumed = lines ++ last ∧ EndsLine lines ∧ '\n' ∉ last ∧ column = 1 + last.length
  found_char : ∀ c r, rest = c :: r → ("found `" ++ String.singleton c ++ "`").toList <:+ message.toList
  found_end : "found end of input".toList <:+ message.toList ↔ rest = []

/-- What a text has of its first line, and the rest. -/
theorem exists_first_line (s : List Char) :
    ∃ line r, s = line ++ r ∧ '\n' ∉ line ∧ (r = [] ∨ r.head? = some '\n') := by
  induction s with
  | nil => exact ⟨[], [], rfl, List.not_mem_nil, .inl rfl⟩
  | cons c s ih =>
    by_cases hc : c = '\n'
    · exact ⟨[], c :: s, rfl, List.not_mem_nil, .inr (by rw [hc]; rfl)⟩
    · obtain ⟨line, r, rfl, hline, hr⟩ := ih
      exact ⟨c :: line, r, rfl, List.not_mem_cons_of_ne_of_not_mem (Ne.symm hc) hline, hr⟩

/-- What a text has of its last line, and the lines before it. -/
theorem exists_last_line (s : List Char) :
    ∃ lines last, s = lines ++ last ∧ EndsLine lines ∧ '\n' ∉ last ∧ columnAfter s = 1 + last.length := by
  refine ⟨(s.reverse.dropWhile (· != '\n')).reverse, (s.reverse.takeWhile (· != '\n')).reverse, ?_, ?_, ?_, ?_⟩
  · rw [← List.reverse_append, List.takeWhile_append_dropWhile, List.reverse_reverse]
  · intro c hc
    have hstop := List.head?_dropWhile_not (· != '\n') s.reverse
    rw [List.getLast?_reverse, Option.mem_def] at hc
    rw [hc] at hstop
    simpa using hstop
  · intro hmem
    simpa using List.mem_takeWhile_imp (List.mem_reverse.mp hmem)
  · rw [columnAfter, List.length_reverse, Nat.add_comm]

/-- The wording of a fault. -/
def Found.message (f : Found) : String :=
  "expected " ++ f.expected ++ ", found " ++ f.description

theorem Found.suffix_message (f : Found) : "found ".toList ++ f.description.toList <:+ f.message.toList := by
  have hcomma : ", found ".toList = ", ".toList ++ "found ".toList := rfl
  refine ⟨"expected ".toList ++ f.expected.toList ++ ", ".toList, ?_⟩
  simp only [message, String.toList_append, hcomma, List.append_assoc]

theorem getLast?_of_suffix {l m : List Char} (h : l <:+ m) (hl : l ≠ []) : m.getLast? = l.getLast? := by
  obtain ⟨front, rfl⟩ := h
  exact List.getLast?_append_of_ne_nil _ hl

/-- The wording says what was found instead. -/
theorem Found.pointsAt (f : Found) (consumed : List Char) :
    PointsAt consumed f.rest (lineAfter consumed) (columnAfter consumed) f.message where
  line_eq := Nat.add_comm _ 1
  column_eq := exists_last_line consumed
  found_char c r hrest := by
    have hsuffix := f.suffix_message
    have hquote : "found `".toList = "found ".toList ++ "`".toList := rfl
    rw [description, hrest] at hsuffix
    simpa only [String.toList_append, hquote, List.append_assoc] using hsuffix
  found_end := by
    have hsuffix := f.suffix_message
    constructor
    · intro hend
      by_contra hne
      obtain ⟨c, r, hrest⟩ := List.exists_cons_of_ne_nil hne
      -- a wording that names a character ends in a quote
      have hlast := (getLast?_of_suffix hend (by decide)).symm.trans (getLast?_of_suffix hsuffix (by simp))
      rw [description, hrest] at hlast
      simp only [String.toList_append, ← List.append_assoc] at hlast
      rw [show "`".toList = ['`'] from rfl, List.getLast?_concat] at hlast
      revert hlast
      decide
    · intro hrest
      rw [description, hrest] at hsuffix
      exact hsuffix

theorem Found.toError_eq {source : List Char} {f : Found} (h : f.rest <:+ source) :
    ∃ consumed, source = consumed ++ f.rest ∧
      f.toError source = .malformed (lineAfter consumed) (columnAfter consumed) f.message := by
  obtain ⟨consumed, rfl⟩ := h
  refine ⟨consumed, rfl, ?_⟩
  rw [toError, List.length_append, Nat.add_sub_cancel, List.take_left]
  rfl

end Report

/-! ## Faults -/

section Fault

variable {α β : Type} {first : Reading α} {what : String} {f : Found}

/-- The fault of a reading that must be followed by nothing but layout. -/
def Reading.fault? (what : String) : Reading α → Option Found
  | .ok _ r => if (skipLayout r).isEmpty then none else some ⟨what, skipLayout r⟩
  | .miss => none
  | .fail p => some p

theorem complete_eq_error {source : List Char} {e : SourceError} (hmiss : first ≠ .miss)
    (h : complete source what first = .error e) : ∃ f, first.fault? what = some f ∧ e = f.toError source := by
  cases first with
  | ok a r =>
    rw [complete] at h
    split at h
    · cases h
    · next hne =>
      rw [Reading.fault?, if_neg hne]
      exact ⟨_, rfl, (Except.error.inj h).symm⟩
  | miss => exact absurd rfl hmiss
  | fail p => exact ⟨p, rfl, (Except.error.inj h).symm⟩

theorem Reading.fault?_map (g : α → β) (first : Reading α) : (first.map g).fault? what = first.fault? what := by
  cases first <;> rfl

theorem Reading.rest_of_fault? {a : α} (h : (Reading.ok a r).fault? what = some f) : f.rest = skipLayout r := by
  rw [fault?] at h
  split at h
  · cases h
  · cases h
    rfl

/-- The fault of a reading within a text lies in it. -/
theorem Reading.Within.fault? (h : first.Within s) (hf : first.fault? what = some f) : f.rest <:+ s := by
  cases first with
  | ok a r =>
    rw [Reading.rest_of_fault? hf]
    exact (suffix_skipLayout r).trans h
  | miss => cases hf
  | fail p =>
    cases hf
    exact h

/-- The first token of a statement comes after the layout in front of it. -/
theorem within_statement_skipLayout (fuel : Nat) (s : List Char) : (statement fuel s).Within (skipLayout s) :=
  (within_terms fuel (skipLayout s)).1.andThen fun _ s₁ =>
    (within_body fuel s₁).andThen fun _ s₂ => within_closed '.' _ s₂

/-- A program has no fault in the layout at its start. -/
theorem suffix_of_fault? (h : (statements fuel n s).fault? what = some f) : f.rest <:+ skipLayout s := by
  cases n with
  | zero => exact Reading.rest_of_fault? h ▸ List.suffix_rfl
  | succ n =>
    have hfirst := within_statement_skipLayout fuel s
    rw [statements_succ] at h
    cases hs : statement fuel s with
    | ok t r =>
      rw [hs] at h hfirst
      exact ((within_statements fuel n r).map (t :: ·)).mono hfirst |>.fault? h
    | miss =>
      rw [hs] at h
      exact Reading.rest_of_fault? h ▸ List.suffix_rfl
    | fail p =>
      rw [hs] at h hfirst
      cases h
      exact hfirst

end Fault

/-! ## Accepted statements -/

section Accepted

variable {what : String} {f : Found} {ts : List Term}

/-- The statements `ts` are read one after the other at the start of the text `s`, and leave `r`. -/
inductive Accepts : List Char → List Term → List Char → Prop where
  | nil (s : List Char) : Accepts s [] s
  | cons {s r r' : List Char} {t : Term} {ts : List Term} :
    statement (fuelFor s) s = .ok t r → Accepts r ts r' → Accepts s (t :: ts) r'

/-- The reader of statements starts with those that are accepted. -/
theorem Accepts.statements_eq (h : Accepts s ts r) (hfuel : 2 * s.length + 1 ≤ fuel) (hn : s.length ≤ n) :
    ∃ m, statements fuel n s = (statements fuel m r).map (ts ++ ·) := by
  induction h generalizing n with
  | nil s =>
    refine ⟨n, ?_⟩
    cases statements fuel n s <;> rfl
  | @cons s r r' t ts hfirst _ ih =>
    have hlt := length_lt_of_statement hfirst
    have hfirst' : statement fuel s = .ok t r := by
      rw [← hfirst]
      have hfor : fuelFor s = 2 * s.length + 2 := rfl
      rcases Nat.le_total fuel (fuelFor s) with hle | hle
      · exact (statement_eq_of_le hfuel hle).symm
      · exact statement_eq_of_le (by omega) hle
    obtain ⟨n, rfl⟩ : ∃ k, n = k + 1 := ⟨n - 1, by omega⟩
    obtain ⟨m, hrest⟩ := ih (n := n) (by omega) (by omega)
    refine ⟨m, ?_⟩
    rw [statements_succ, hfirst', Reading.collect, hrest]
    cases statements fuel m r' <;> rfl

/-- A fault lies after the statements that were accepted, and after the layout that follows them. -/
theorem Accepts.suffix_of_fault? (h : Accepts s ts r) (hfuel : 2 * s.length + 1 ≤ fuel) (hn : s.length ≤ n)
    (hf : (statements fuel n s).fault? what = some f) : f.rest <:+ skipLayout r := by
  obtain ⟨m, heq⟩ := h.statements_eq hfuel hn
  rw [heq, Reading.fault?_map] at hf
  exact Source.suffix_of_fault? hf

/-- Layout that is followed by nothing may go on into a text put after it, as a line comment that the text closes. -/
theorem Layout.append_of_suffix (h : Layout s r) (q : List Char) : ∃ q', q' <:+ q ∧ Layout (s ++ q) (r ++ q') := by
  induction h with
  | none s => exact ⟨q, List.suffix_rfl, .none _⟩
  | blank hc _ ih =>
    obtain ⟨q', hq', ih⟩ := ih
    exact ⟨q', hq', .blank hc ih⟩
  | @line text s r htext hstop hrest ih =>
    rw [List.cons_append, List.append_assoc]
    rcases hstop with rfl | hstop
    · obtain rfl : r = [] := List.suffix_nil.mp hrest.suffix
      obtain ⟨line, q', rfl, hline, hq'⟩ := exists_first_line q
      refine ⟨q', List.suffix_append line q', ?_⟩
      rw [List.nil_append, List.nil_append, ← List.append_assoc]
      exact .line (by simp [htext, hline]) hq' (.none q')
    · obtain ⟨q', hq', ih⟩ := ih
      refine ⟨q', hq', .line htext (.inr ?_) ih⟩
      rw [List.head?_append, hstop]
      rfl
  | @block text s r htext _ ih =>
    obtain ⟨q', hq', ih⟩ := ih
    have happ : '/' :: '*' :: (text ++ '*' :: '/' :: s) ++ q = '/' :: '*' :: (text ++ '*' :: '/' :: (s ++ q)) := by
      simp
    rw [happ]
    exact ⟨q', hq', .block htext ih⟩

theorem le_fuelFor (s : List Char) : 2 * s.length + 1 ≤ fuelFor s :=
  Nat.le_succ _

/-- A program is accepted at the start of every text that it starts. -/
theorem Written.accepts_append {rules : List Rule} (h : Written s rules) (q : List Char) :
    ∃ ts r, Accepts (s ++ q) ts r ∧ skipLayout r <:+ q := by
  induction h with
  | @done s hend =>
    obtain ⟨q', hq', hlayout⟩ := (layout_nil_iff.mpr hend).append_of_suffix q
    refine ⟨[], s ++ q, .nil _, ?_⟩
    rw [hlayout.skipLayout_eq]
    exact (suffix_skipLayout q').trans hq'
  | @fact s r r' h rules hhead hstop _ ih =>
    obtain ⟨ts, r'', haccepts, hr⟩ := ih
    have hhead' := (hhead.append_compound hstop q).compound_eq (le_fuelFor (s ++ q))
    have hstop' := skipLayout_append hstop (skipLayout_cons (by decide)) q
    exact ⟨_, r'', .cons (statement_of_fact hhead' hstop') haccepts, hr⟩
  | @rule s r r' r'' h gs rules hhead hif hgoals _ ih =>
    obtain ⟨ts, r₃, haccepts, hr⟩ := ih
    have hfuel := le_fuelFor (s ++ q)
    have hhead' := (hhead.append_compound hif q).compound_eq hfuel
    have hif' : skipLayout (r ++ q) = ':' :: '-' :: (r' ++ q) :=
      skipLayout_append hif (skipLayout_cons (by decide)) q
    have hlt := (length_lt_of_compound hhead').trans_le (length_skipLayout_le (s ++ q))
    have hlt' := length_lt_of_skipLayout hif'
    rw [List.length_cons] at hlt'
    exact ⟨_, r₃, .cons (statement_of_rule hhead' hif' (hgoals.append q) (by omega)) haccepts, hr⟩

end Accepted

/-! ## Queries -/

section Queries

theorem query_ne_miss (fuel : Nat) (s : List Char) : query fuel s ≠ .miss := by
  intro h
  rw [query] at h
  split at h
  · cases h
  · cases hfirst : compound fuel (skipLayout s) <;> rw [hfirst] at h <;> cases h

theorem query_stopped_ne_miss (fuel : Nat) (s : List Char) :
    (query fuel s).andThen (fun t r => .ok t (skipStop r)) ≠ .miss := by
  intro h
  cases hq : query fuel s with
  | ok t r | fail p =>
    rw [hq] at h
    cases h
  | miss => exact query_ne_miss fuel s hq

theorem within_query (fuel : Nat) (s : List Char) : (query fuel s).Within s := by
  unfold query
  refine Reading.Within.mono ?_ (suffix_skipLayout s)
  dsimp only
  split
  · next hword => exact suffix_of_word? hword
  · exact (within_terms fuel (skipLayout s)).1.required _

theorem within_skipStop (t : Term) (s : List Char) : (Reading.ok t (skipStop s)).Within s := by
  unfold skipStop
  split
  · next hstop => exact suffix_of_skipLayout hstop
  · exact List.suffix_rfl

/-- A fault of a query lies after the term that was read. -/
theorem suffix_of_query {what : String} {f : Found} {t : Term} (h : query fuel s = .ok t r)
    (hf : ((query fuel s).andThen fun t r => .ok t (skipStop r)).fault? what = some f) : f.rest <:+ r := by
  rw [h] at hf
  exact (within_skipStop t r).fault? hf

end Queries

/-! ## Programs -/

section Located

/-- The error names the place of the text `source` that follows `consumed`. -/
def Located (source consumed : List Char) (e : SourceError) : Prop :=
  ∃ rest line column message, e = .malformed line column message ∧ source = consumed ++ rest ∧
    PointsAt consumed rest line column message

theorem prefix_of_suffix {read consumed rest : List Char} (h : read ++ r = consumed ++ rest) (hrest : rest <:+ r) :
    read <+: consumed := by
  obtain ⟨between, rfl⟩ := hrest
  rw [← List.append_assoc] at h
  exact ⟨between, List.append_cancel_right h⟩

/-- An error is located, and what ends in front of the fault was consumed. -/
theorem located_of_complete {α : Type} {source : List Char} {what : String} {first : Reading α} {e : SourceError}
    (h : complete source what first = .error e) (hmiss : first ≠ .miss) (hwithin : first.Within source) :
    ∃ consumed f, Located source consumed e ∧ first.fault? what = some f ∧ source = consumed ++ f.rest := by
  obtain ⟨f, hf, rfl⟩ := complete_eq_error hmiss h
  obtain ⟨consumed, hsource, herror⟩ := Found.toError_eq (hwithin.fault? hf)
  exact ⟨consumed, f, ⟨f.rest, _, _, _, herror, hsource, f.pointsAt consumed⟩, hf, hsource⟩

theorem complete_of_parse {text : String} {e : SourceError} (h : Program.parse text = .error e) :
    complete text.toList "end of input"
      (statements (fuelFor text.toList) (fuelFor text.toList) text.toList) = .error e := by
  rw [Program.parse] at h
  cases hc : complete text.toList "end of input"
      (statements (fuelFor text.toList) (fuelFor text.toList) text.toList) with
  | ok ts =>
    rw [hc] at h
    cases h
  | error e' =>
    rw [hc] at h
    exact congrArg Except.error (Except.error.inj h)

/-- An error of a program or a query names the line and the column of the first character that does not fit, and the
character, or the end of the text if there is none.  All statements that were accepted, and every program that the text
starts with, lie in front of it, and so does the term of a query. -/
theorem faults_located (text : String) :
    (∀ e, Program.parse text = .error e → ∃ consumed, Located text.toList consumed e ∧
      (∀ ts read r, text.toList = read ++ r → Accepts text.toList ts r → read <+: consumed) ∧
      ∀ front back p, text = front ++ back → Program.parse front = .ok p → front.toList <+: consumed) ∧
    ∀ e, parseQuery text = .error e → ∃ consumed, Located text.toList consumed e ∧
      ∀ t read r, text.toList = read ++ r → query (fuelFor text.toList) text.toList = .ok t r →
        read <+: consumed := by
  have hfuel := le_fuelFor text.toList
  constructor
  · intro e he
    obtain ⟨consumed, f, hlocated, hf, hsource⟩ :=
      located_of_complete (complete_of_parse he) (statements_ne_miss _ _ _) (within_statements _ _ _)
    refine ⟨consumed, hlocated, ?_, ?_⟩
    · intro ts read r hread haccepts
      have hrest := (haccepts.suffix_of_fault? hfuel (by omega) hf).trans (suffix_skipLayout r)
      exact prefix_of_suffix (hread.symm.trans hsource) hrest
    · intro front back p htext hfront
      obtain ⟨rules, hwritten, -⟩ := written_of_parse hfront
      obtain ⟨ts, r, haccepts, hr⟩ := hwritten.accepts_append back.toList
      have happend : text.toList = front.toList ++ back.toList := by rw [htext, String.toList_append]
      rw [← happend] at haccepts
      have hrest := (haccepts.suffix_of_fault? hfuel (by omega) hf).trans hr
      exact prefix_of_suffix (happend.symm.trans hsource) hrest
  · intro e he
    have hwithin := (within_query (fuelFor text.toList) text.toList).andThen within_skipStop
    obtain ⟨consumed, f, hlocated, hf, hsource⟩ := located_of_complete he (query_stopped_ne_miss _ _) hwithin
    refine ⟨consumed, hlocated, fun t read r hread hquery => ?_⟩
    exact prefix_of_suffix (hread.symm.trans hsource) (suffix_of_query hquery hf)

/-- The outcome is the error `e`. -/
def reports {α : Type} (outcome : Except SourceError α) (e : SourceError) : Bool :=
  match outcome with
  | .ok _ => false
  | .error e' => e' = e

theorem eq_error_of_reports {α : Type} {outcome : Except SourceError α} {e : SourceError}
    (h : reports outcome e = true) : outcome = .error e := by
  cases outcome with
  | ok a => cases h
  | error e' => rw [of_decide_eq_true h]

/-- A fault in the second line, with letters beyond ASCII before it and a program in front of it; and a query that does
not end. -/
theorem faults_located_second_line :
    Program.parse "p(a). % é\nq(ß, b." = .error (.malformed 2 7 "expected `)`, found `.`") ∧
      (∃ consumed, Located "p(a). % é\nq(ß, b.".toList consumed (.malformed 2 7 "expected `)`, found `.`") ∧
        "p(a). % é\n".toList <+: consumed) ∧
      parseQuery "p(X) q" = .error (.malformed 1 6 "expected end of query, found `q`") ∧
      ∃ consumed, Located "p(X) q".toList consumed (.malformed 1 6 "expected end of query, found `q`") := by
  have hprogram : Program.parse "p(a). % é\nq(ß, b." = .error (.malformed 2 7 "expected `)`, found `.`") :=
    eq_error_of_reports (by decide +kernel)
  have hquery : parseQuery "p(X) q" = .error (.malformed 1 6 "expected end of query, found `q`") :=
    eq_error_of_reports (by decide +kernel)
  have hfront : Program.parse "p(a). % é\n" = .ok ⟨[.rel false "p" [.lit false "a"]]⟩ :=
    parse_of_reads (by decide +kernel)
  have hsplit : "p(a). % é\nq(ß, b." = "p(a). % é\n" ++ "q(ß, b." := by decide +kernel
  obtain ⟨consumed, hlocated, -, hbefore⟩ := (faults_located "p(a). % é\nq(ß, b.").1 _ hprogram
  obtain ⟨consumed', hlocated', -⟩ := (faults_located "p(X) q").2 _ hquery
  exact ⟨hprogram, ⟨consumed, hlocated, hbefore _ _ _ hsplit hfront⟩, hquery, consumed', hlocated'⟩

end Located

end Clausal.Source
