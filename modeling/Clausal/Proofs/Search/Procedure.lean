import Clausal.Search.Machine

/-!
# Clausal.Proofs.Search.Procedure — proof search by recursion

The search for proofs of a goal, said without stack and choice points.  A goal is proved by every clause whose renamed
head unifies with it, in the order of the clauses, and the premises of the clause are proved from left to right, each
from every result of the one before.  A goal that equals one of its ancestors has no proofs, or is an error.

The results of a search form a sequence that need not end.  `proveGoal depth` is the part of it that is known when
goals are opened down to the given depth only, so the sequence is what the parts tell for ever greater depths.

* `Results`: the beginning of a sequence of results and how it goes on; `append` and `bind` and their laws.
* `proveGoal`, `proveBody`: the two procedures.
* `Results.response`: what the sequence answers when it is asked for the result with a given number.
* `Generates`: the answer at some depth; `generates_unique` says that no depth gives another.
-/

namespace Clausal

/-! ## Sequences of results -/

/-- How a sequence of results goes on after those that are known. -/
inductive Ending where
  /-- There are no more. -/
  | complete
  /-- A goal repeats an ancestor; the goals from the one to the other. -/
  | cycle (path : List Term)
  /-- That is not known. -/
  | unknown

/-- The beginning of a sequence of results. -/
structure Results (α : Type) where
  items : List α
  ending : Ending

namespace Results

variable {α β γ : Type}

/-- No results. -/
def none : Results α := ⟨[], .complete⟩

/-- One result. -/
def one (a : α) : Results α := ⟨[a], .complete⟩

/-- Nothing is known. -/
def unknown : Results α := ⟨[], .unknown⟩

/-- The results of `r`, then those of `r'`, which are never asked for if `r` does not end. -/
def append (r r' : Results α) : Results α :=
  match r.ending with
  | .complete => ⟨r.items ++ r'.items, r'.ending⟩
  | _ => r

/-- Several sequences one after the other. -/
def concat (rs : List (Results α)) : Results α :=
  rs.foldr append none

/-- `bind` for the given results and ending. -/
def bindItems (f : α → Results β) (e : Ending) : List α → Results β
  | [] => ⟨[], e⟩
  | a :: items => (f a).append (bindItems f e items)

/-- The results that `f` makes of the first result, then those that it makes of the second, and so on. -/
def bind (r : Results α) (f : α → Results β) : Results β :=
  bindItems f r.ending r.items

/-- The answer to a request for the result with number `i`, if it is known: a result, an error, or that there is none.
After an error there is none. -/
def responseOf : List α → Ending → Nat → Option (Option (Except (List Term) α))
  | a :: _, _, 0 => some (some (.ok a))
  | _ :: items, e, i + 1 => responseOf items e i
  | [], .complete, _ => some .none
  | [], .cycle path, 0 => some (some (.error path))
  | [], .cycle _, _ + 1 => some .none
  | [], .unknown, _ => .none

@[inherit_doc responseOf]
def response (r : Results α) (i : Nat) : Option (Option (Except (List Term) α)) :=
  responseOf r.items r.ending i

/-- Where one answer is known, the first is. -/
theorem response_zero_ne_none {r : Results α} {i : Nat} {o : Option (Except (List Term) α)}
    (h : r.response i = some o) : r.response 0 ≠ .none := by
  obtain ⟨items, ending⟩ := r
  cases items with
  | nil =>
    cases ending with
    | complete | cycle path => nofun
    | unknown => cases h
  | cons a items => nofun

/-! ### Laws -/

section Laws

@[simp] theorem none_append (r : Results α) : none.append r = r := rfl

@[simp] theorem append_none (r : Results α) : r.append none = r := by
  obtain ⟨items, ending⟩ := r
  cases ending <;> simp [append, none]

theorem append_assoc (r r' r'' : Results α) : (r.append r').append r'' = r.append (r'.append r'') := by
  obtain ⟨items, ending⟩ := r
  obtain ⟨items', ending'⟩ := r'
  cases ending <;> cases ending' <;> simp [append]

@[simp] theorem concat_cons (r : Results α) (rs : List (Results α)) : concat (r :: rs) = r.append (concat rs) := rfl

theorem concat_append (rs rs' : List (Results α)) : concat (rs ++ rs') = (concat rs).append (concat rs') := by
  induction rs with
  | nil => rfl
  | cons r rs ih => rw [List.cons_append, concat_cons, concat_cons, ih, append_assoc]

theorem concat_of_none {rs : List (Results α)} (h : ∀ r ∈ rs, r = none) : concat rs = none := by
  induction rs with
  | nil => rfl
  | cons r rs ih =>
    obtain ⟨rfl, hrs⟩ := List.forall_mem_cons.mp h
    rw [concat_cons, none_append, ih hrs]

@[simp] theorem none_bind (f : α → Results β) : none.bind f = none := rfl

@[simp] theorem one_bind (a : α) (f : α → Results β) : (one a).bind f = f a :=
  append_none (f a)

@[simp] theorem bind_one (r : Results α) : r.bind one = r := by
  obtain ⟨items, ending⟩ := r
  change bindItems one ending items = ⟨items, ending⟩
  induction items with
  | nil => rfl
  | cons a items ih =>
    rw [bindItems, ih]
    rfl

theorem bindItems_append (f : α → Results β) (e : Ending) (items items' : List α) :
    bindItems f e (items ++ items') = (bindItems f .complete items).append (bindItems f e items') := by
  induction items with
  | nil => rfl
  | cons a items ih => rw [List.cons_append, bindItems, bindItems, ih, append_assoc]

/-- Nothing comes after a sequence that does not end. -/
theorem bindItems_append_of_ne {e : Ending} (he : e ≠ .complete) (f : α → Results β) (items : List α) (r : Results β) :
    (bindItems f e items).append r = bindItems f e items := by
  induction items with
  | nil =>
    cases e with
    | complete => exact absurd rfl he
    | cycle path | unknown => rfl
  | cons a items ih => rw [bindItems, append_assoc, ih]

theorem append_bind (r r' : Results α) (f : α → Results β) : (r.append r').bind f = (r.bind f).append (r'.bind f) := by
  obtain ⟨items, ending⟩ := r
  cases ending with
  | complete => exact bindItems_append f r'.ending items r'.items
  | cycle path => exact (bindItems_append_of_ne (e := .cycle path) nofun f items (r'.bind f)).symm
  | unknown => exact (bindItems_append_of_ne (e := .unknown) nofun f items (r'.bind f)).symm

theorem bind_assoc (r : Results α) (f : α → Results β) (g : β → Results γ) :
    (r.bind f).bind g = r.bind fun a => (f a).bind g := by
  obtain ⟨items, ending⟩ := r
  change (bindItems f ending items).bind g = bindItems (fun a => (f a).bind g) ending items
  induction items with
  | nil => rfl
  | cons a items ih => rw [bindItems, append_bind, ih, bindItems]

end Laws

/-! ### Knowing more -/

section Extension

/-- `r`, with `r'` in the place of what is not known. -/
def extend (r r' : Results α) : Results α :=
  match r.ending with
  | .unknown => ⟨r.items ++ r'.items, r'.ending⟩
  | _ => r

/-- `r'` tells what `r` tells, and maybe more. -/
def Extends (r' r : Results α) : Prop :=
  ∃ more, r' = r.extend more

theorem Extends.refl (r : Results α) : r.Extends r := by
  refine ⟨unknown, ?_⟩
  obtain ⟨items, ending⟩ := r
  cases ending <;> simp [extend, unknown]

theorem extends_unknown (r : Results α) : r.Extends unknown :=
  ⟨r, rfl⟩

theorem Extends.append {r r' q q' : Results α} (hr : r'.Extends r) (hq : q'.Extends q) :
    (r'.append q').Extends (r.append q) := by
  obtain ⟨more, rfl⟩ := hr
  obtain ⟨more', rfl⟩ := hq
  obtain ⟨items, ending⟩ := r
  cases ending with
  | complete =>
    refine ⟨more', ?_⟩
    obtain ⟨items', ending'⟩ := q
    cases ending' <;> simp [Results.append, extend]
  | cycle path => exact .refl _
  | unknown =>
    refine ⟨more.append (q.extend more'), ?_⟩
    obtain ⟨items', ending'⟩ := more
    cases ending' <;> simp [Results.append, extend]

theorem Extends.bindItems {f g : α → Results β} (hf : ∀ a, (g a).Extends (f a)) {e e' : Ending} {items' : List α}
    (h : (Results.bindItems g e' items').Extends ⟨[], e⟩) (items : List α) :
    (Results.bindItems g e' (items ++ items')).Extends (Results.bindItems f e items) := by
  induction items with
  | nil => exact h
  | cons a items ih => exact (hf a).append ih

theorem Extends.bindItems_same {f g : α → Results β} (hf : ∀ a, (g a).Extends (f a)) (e : Ending) (items : List α) :
    (Results.bindItems g e items).Extends (Results.bindItems f e items) := by
  have h : (Results.bindItems g e (items ++ [])).Extends (Results.bindItems f e items) :=
    .bindItems hf (.refl _) items
  rwa [List.append_nil] at h

theorem Extends.bind {r r' : Results α} {f g : α → Results β} (hr : r'.Extends r) (hf : ∀ a, (g a).Extends (f a)) :
    (r'.bind g).Extends (r.bind f) := by
  obtain ⟨more, rfl⟩ := hr
  obtain ⟨items, ending⟩ := r
  cases ending with
  | unknown => exact .bindItems hf (extends_unknown _) items
  | complete => exact .bindItems_same hf .complete items
  | cycle path => exact .bindItems_same hf (.cycle path) items

theorem Extends.concat {ι : Type} {f g : ι → Results α} (h : ∀ i, (g i).Extends (f i)) (is : List ι) :
    (concat (is.map g)).Extends (concat (is.map f)) := by
  induction is with
  | nil => exact .refl _
  | cons i is ih => exact (h i).append ih

theorem responseOf_append {more : Results α} {items : List α} {i : Nat} {o : Option (Except (List Term) α)}
    (h : responseOf items .unknown i = some o) : responseOf (items ++ more.items) more.ending i = some o := by
  induction items generalizing i with
  | nil => cases h
  | cons a items ih =>
    cases i with
    | zero => exact h
    | succ i => exact ih h

theorem Extends.response {r r' : Results α} (hr : r'.Extends r) {i : Nat} {o : Option (Except (List Term) α)}
    (h : r.response i = some o) : r'.response i = some o := by
  obtain ⟨more, rfl⟩ := hr
  obtain ⟨items, ending⟩ := r
  cases ending with
  | complete | cycle path => exact h
  | unknown => exact responseOf_append h

end Extension

end Results

/-! ## The procedures -/

namespace Procedure

/-- Where a proof has come to: the bindings made, and the number of the next copy of a clause. -/
structure Context where
  subst : Subst
  copies : Nat

/-- The goals from the nearest ancestor that equals `goal` down to `goal`, all taken under `s`, if there is one.
Ancestors come innermost first. -/
def cycle? (s : Subst) (ancestors : List Term) (goal : Term) : Option (List Term) :=
  let values := ancestors.map s.apply
  (values.findIdx? fun a => a.same (s.apply goal)).map fun i => (values.take (i + 1)).reverse ++ [s.apply goal]

/-- What a goal that repeats an ancestor contributes. -/
def onCycle (policy : CyclePolicy) (path : List Term) : Results Context :=
  match policy with
  | .prune => .none
  | .error => ⟨[], .cycle path⟩

/-- Proves goals from left to right, the rest of them from every result of the first. -/
def proveBody (proveGoal : Term → Context → Results Context) : List Term → Context → Results Context
  | [], c => .one c
  | goal :: goals, c => (proveGoal goal c).bind (proveBody proveGoal goals)

/-- Proves `goal` by the rule `h`, if its renamed head unifies with it. -/
def useRule (proveBody : List Term → Context → Results Context) (goal : Term) (c : Context) (h : HornClause) :
    Results Context :=
  let copy := Machine.renameClause h c.copies
  match unify copy.1.1 (c.subst.apply goal) c.subst with
  | some s => proveBody copy.1.2 ⟨s, copy.2⟩
  | none => .none

/-- Proves a goal by all rules in their order, as far as this is known when no goal is opened below the given depth. -/
def proveGoal (kb : HornBase) (policy : CyclePolicy) : Nat → List Term → Term → Context → Results Context
  | 0, _, _, _ => .unknown
  | depth + 1, ancestors, goal, c =>
    match cycle? c.subst ancestors goal with
    | some path => onCycle policy path
    | none => .concat (kb.clauses.map (useRule (proveBody (proveGoal kb policy depth (goal :: ancestors))) goal c))

/-- The sequence of results for `query` answers the request with number `i` by `o`. -/
def Generates (kb : HornBase) (policy : CyclePolicy) (query : Term) (i : Nat)
    (o : Option (Except (List Term) Context)) : Prop :=
  ∃ depth, (proveGoal kb policy depth [] query ⟨.empty, 0⟩).response i = some o

/-! ### Greater depth -/

section Depth

variable {kb : HornBase} {policy : CyclePolicy} {query : Term}

theorem extends_proveBody {p q : Term → Context → Results Context} (h : ∀ goal c, (q goal c).Extends (p goal c))
    (goals : List Term) (c : Context) : (proveBody q goals c).Extends (proveBody p goals c) := by
  induction goals generalizing c with
  | nil => exact .refl _
  | cons goal goals ih => exact (h goal c).bind ih

theorem extends_useRule {p q : List Term → Context → Results Context} (h : ∀ goals c, (q goals c).Extends (p goals c))
    (goal : Term) (c : Context) (rule : HornClause) : (useRule q goal c rule).Extends (useRule p goal c rule) := by
  unfold useRule
  dsimp only
  cases unify (Machine.renameClause rule c.copies).1.1 (c.subst.apply goal) c.subst with
  | none => exact .refl _
  | some s => exact h _ _

/-- A greater depth tells the same results, and maybe more. -/
theorem extends_proveGoal {depth depth' : Nat} (h : depth ≤ depth') (ancestors : List Term) (goal : Term)
    (c : Context) :
    (proveGoal kb policy depth' ancestors goal c).Extends (proveGoal kb policy depth ancestors goal c) := by
  induction depth generalizing depth' ancestors goal c with
  | zero => exact Results.extends_unknown _
  | succ depth ih =>
    obtain ⟨depth', rfl⟩ : ∃ d, depth' = d + 1 := ⟨depth' - 1, by omega⟩
    unfold proveGoal
    cases cycle? c.subst ancestors goal with
    | some path => exact .refl _
    | none =>
      refine Results.Extends.concat (fun rule => ?_) kb.clauses
      exact extends_useRule (fun goals c => extends_proveBody (fun g c => ih (by omega) _ g c) goals c) goal c rule

theorem generates_unique {i : Nat} {o o' : Option (Except (List Term) Context)}
    (h : Generates kb policy query i o) (h' : Generates kb policy query i o') : o' = o := by
  obtain ⟨depth, hd⟩ := h
  obtain ⟨depth', hd'⟩ := h'
  have hmax := (extends_proveGoal (Nat.le_max_left depth depth') [] query ⟨.empty, 0⟩).response hd
  have hmax' := (extends_proveGoal (Nat.le_max_right depth depth') [] query ⟨.empty, 0⟩).response hd'
  rw [hmax] at hmax'
  exact (Option.some.inj hmax').symm

end Depth

end Procedure

end Clausal
