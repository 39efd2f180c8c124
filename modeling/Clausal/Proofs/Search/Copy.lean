import Std.Data.String.ToNat
import Clausal.Proofs.Term.FreeVars
import Clausal.Search.Machine

/-!
# Clausal.Proofs.Search.Copy — numbered copies of clauses

The copy of a clause with number `n` has `X_n` for every variable `X` of the clause.

* `suffixed_inj`: a suffixed name determines the name and the number.
* `renameClause_eq`: the clause that is used next is its copy under `copyName`, with or without variables.
* `mem_names_copyTerm`: the names in a copy are suffixed variables and the binders of the clause (`Binds`), which a copy
  keeps; a first-order clause has none.
-/

namespace Clausal.Machine

/-! ## Names with a number -/

section Suffixed

/-- The name of `x` in the copy with number `n`. -/
def suffixed (x : String) (n : Nat) : String :=
  x ++ "_" ++ toString n

theorem underscore_notMem_repr (n : Nat) : '_' ∉ n.repr.toList := by
  intro h
  rw [Nat.toList_repr] at h
  have hdigit := Nat.isDigit_of_mem_toDigits (by decide) (by decide) h
  cases hdigit

/-- The part after the last separator and the part before it are determined. -/
theorem append_cons_inj {a : Char} {xs ys ds es : List Char} (hd : a ∉ ds) (he : a ∉ es)
    (h : xs ++ a :: ds = ys ++ a :: es) : xs = ys ∧ ds = es := by
  rcases List.append_eq_append_iff.mp h with ⟨zs, rfl, hzs⟩ | ⟨zs, rfl, hzs⟩
  · cases zs with
    | nil => simpa using hzs
    | cons z zs =>
      obtain ⟨rfl, rfl⟩ := List.cons_eq_cons.mp hzs
      simp at hd
  · cases zs with
    | nil => simpa [eq_comm] using hzs
    | cons z zs =>
      obtain ⟨rfl, rfl⟩ := List.cons_eq_cons.mp hzs
      simp at he

theorem toList_suffixed (x : String) (n : Nat) : (suffixed x n).toList = x.toList ++ '_' :: n.repr.toList := by
  rw [suffixed, String.toList_append, String.toList_append, List.append_assoc]
  rfl

theorem underscore_mem_suffixed (x : String) (n : Nat) : '_' ∈ (suffixed x n).toList := by
  rw [toList_suffixed]
  exact List.mem_append_right _ List.mem_cons_self

theorem suffixed_inj {x y : String} {n m : Nat} : suffixed x n = suffixed y m ↔ x = y ∧ n = m := by
  constructor
  · intro h
    have hlist := congrArg String.toList h
    rw [toList_suffixed, toList_suffixed] at hlist
    obtain ⟨hxy, hnm⟩ := append_cons_inj (underscore_notMem_repr n) (underscore_notMem_repr m) hlist
    exact ⟨String.toList_injective hxy, Nat.repr_inj.mp (String.toList_injective hnm)⟩
  · rintro ⟨rfl, rfl⟩
    rfl

end Suffixed

/-! ## Copies -/

section Copies

/-- What a clause says: its head and its premises. -/
def clauseTerms (h : HornClause) : List Term :=
  h.head :: h.premises

theorem mem_clauseVariables {h : HornClause} {x : String} :
    x ∈ clauseVariables h ↔ ∃ t ∈ clauseTerms h, t.occursFree x = true := by
  rw [clauseVariables, Distinct.mem_union, Term.mem_freeVars, List.mem_flatMap, clauseTerms, HornClause.premises]
  constructor
  · rintro (hx | ⟨b, hb, hx⟩)
    · exact ⟨h.head, List.mem_cons_self, hx⟩
    · refine ⟨b.positive, List.mem_cons_of_mem _ (List.mem_map_of_mem hb), ?_⟩
      rwa [Term.occursFree_positive, ← Term.mem_freeVars]
  · rintro ⟨t, ht, hx⟩
    rcases List.mem_cons.mp ht with rfl | ht
    · exact .inl hx
    · obtain ⟨b, hb, rfl⟩ := List.mem_map.mp ht
      rw [Term.occursFree_positive, ← Term.mem_freeVars] at hx
      exact .inr ⟨b, hb, hx⟩

/-- The name that `x` has in the copy of `h` with number `n`. -/
def copyName (h : HornClause) (n : Nat) (x : String) : String :=
  if (clauseVariables h).contains x then suffixed x n else x

theorem copyName_of_mem {h : HornClause} {x : String} (hx : x ∈ clauseVariables h) (n : Nat) :
    copyName h n x = suffixed x n := by
  simp [copyName, hx]

theorem copyName_of_notMem {h : HornClause} {x : String} (hx : x ∉ clauseVariables h) (n : Nat) :
    copyName h n x = x := by
  simp [copyName, hx]

/-- `t`, a term of `h`, as it is in the copy with number `n`. -/
def copyTerm (h : HornClause) (n : Nat) (t : Term) : Term :=
  t.mapVars fun x => .var false (copyName h n x)

theorem copyTerm_of_isEmpty {h : HornClause} (hh : (clauseVariables h).isEmpty = true) (n : Nat) (t : Term) :
    copyTerm h n t = t := by
  have hnil : clauseVariables h = [] := by simpa using hh
  have hvar : (fun x => Term.var false (copyName h n x)) = Term.var false := by
    funext x
    rw [copyName_of_notMem (by simp [hnil])]
  rw [copyTerm, hvar, Term.mapVars_var]

/-- The clause that is used next is a copy, with or without variables. -/
theorem renameClause_eq (h : HornClause) (n : Nat) :
    (renameClause h n).1 = (copyTerm h n h.head, h.premises.map (copyTerm h n)) := by
  unfold renameClause
  split
  · next hh =>
    have hid : copyTerm h n = id := funext fun t => copyTerm_of_isEmpty hh n t
    rw [hid, List.map_id]
    rfl
  · rfl

theorem renameClause_next {h : HornClause} {x : String} (hx : x ∈ clauseVariables h) (n : Nat) :
    (renameClause h n).2 = n + 1 := by
  unfold renameClause
  split
  · next hh =>
    have hnil : clauseVariables h = [] := by simpa using hh
    rw [hnil] at hx
    cases hx
  · rfl

/-- `x` is bound by a quantifier in `h`. -/
def Binds (h : HornClause) (x : String) : Prop :=
  ∃ t ∈ clauseTerms h, x ∈ t.binderOccurrences

theorem not_binds_of_isFirstOrder {h : HornClause} (hfo : ∀ t ∈ clauseTerms h, t.isFirstOrder = true) (x : String) :
    ¬ Binds h x := by
  rintro ⟨t, ht, hx⟩
  rw [Term.binderOccurrences_of_isFirstOrder (hfo t ht)] at hx
  cases hx

/-- The names in a copy are suffixed variables and binders of the clause. -/
theorem mem_names_copyTerm {h : HornClause} {n : Nat} {t : Term} {x : String} (ht : t ∈ clauseTerms h)
    (hx : x ∈ (copyTerm h n t).variableNames) : (∃ v ∈ clauseVariables h, x = suffixed v n) ∨ Binds h x := by
  rcases Term.mem_variableNames_mapVars hx with hb | ⟨y, hy, hxy⟩
  · exact .inr ⟨t, ht, hb⟩
  · obtain rfl : x = copyName h n y := by simpa [Term.variableNames] using hxy
    by_cases hv : y ∈ clauseVariables h
    · exact .inl ⟨y, hv, copyName_of_mem hv n⟩
    · rw [copyName_of_notMem hv]
      rcases Term.occursFree_or_mem_binderOccurrences hy with hfree | hb
      · exact absurd (mem_clauseVariables.mpr ⟨t, ht, hfree⟩) hv
      · exact .inr ⟨t, ht, hb⟩

end Copies

end Clausal.Machine
