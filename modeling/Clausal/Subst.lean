import Std.Data.TreeMap
import Clausal.Term.Display
import Clausal.Term.Variables

/-!
# Clausal.Subst — substitutions

A substitution binds variables to terms.  A binding may mention bound variables; `apply` follows such chains until
no bound variable is left, which it reaches on every substitution without a cycle of bindings.

* `Subst.entries`: the bindings, newest first.  The search tree `index` and the count `load` are derived data: the
  two proof fields say that they add nothing to `entries`.
* `Subst.get?`, `Subst.insert`, `Subst.apply`, `Subst.restrict`.
* `Subst.occurs`: whether a variable is in a term once bindings are followed.
-/

namespace Clausal

/-- The number of variables mentioned by a list of bindings, repetitions counted. -/
def bindingLoad : List (String × Term) → Nat
  | [] => 0
  | e :: es => 1 + e.2.varCount + bindingLoad es

/-- A finite map from variables to terms that remembers the order of insertion. -/
structure Subst where
  /-- The bindings, newest first. -/
  entries : List (String × Term)
  /-- The bindings again, for fast look-up. -/
  index : Std.TreeMap String Term
  /-- The number of variables mentioned, a bound on the length of every chain of bindings. -/
  load : Nat
  index_getElem? : ∀ x : String, index[x]? = entries.lookup x
  load_eq : load = bindingLoad entries

namespace Subst

/-! ## The map -/

/-- No bindings. -/
def empty : Subst where
  entries := []
  index := ∅
  load := 0
  index_getElem? := by simp
  load_eq := rfl

/-- The term bound to `x`. -/
def get? (s : Subst) (x : String) : Option Term :=
  s.index[x]?

theorem get?_eq_lookup (s : Subst) (x : String) : s.get? x = s.entries.lookup x :=
  s.index_getElem? x

/-- `x` is bound. -/
def contains (s : Subst) (x : String) : Bool :=
  (s.get? x).isSome

/-- The bindings, oldest first. -/
def toList (s : Subst) : List (String × Term) :=
  s.entries.reverse

/-- The number of bindings. -/
def size (s : Subst) : Nat :=
  s.entries.length

/-- `entries` with the value of `x` replaced by `t` in its place. -/
def replaceEntry (x : String) (t : Term) (entries : List (String × Term)) : List (String × Term) :=
  entries.map fun e => if e.1 == x then (x, t) else e

theorem lookup_replaceEntry (x : String) (t : Term) (y : String) (entries : List (String × Term)) :
    (replaceEntry x t entries).lookup y =
      if x = y ∧ (entries.lookup x).isSome then some t else entries.lookup y := by
  induction entries with
  | nil => simp [replaceEntry]
  | cons e es ih =>
    obtain ⟨k, v⟩ := e
    rw [show replaceEntry x t ((k, v) :: es) = (if k == x then (x, t) else (k, v)) :: replaceEntry x t es from rfl]
    by_cases hk : k = x
    · subst hk
      rw [if_pos (beq_self_eq_true k), List.lookup_cons, List.lookup_cons, List.lookup_cons, ih]
      by_cases hy : k = y
      · simp [hy]
      · have hyk : (y == k) = false := by simp [Ne.symm hy]
        simp [hy, hyk]
    · have hxk : (x == k) = false := by simp [Ne.symm hk]
      rw [if_neg (by simp [hk]), List.lookup_cons, List.lookup_cons, List.lookup_cons, hxk, ih]
      by_cases hyk : y = k
      · subst hyk
        simp [Ne.symm hk]
      · have : (y == k) = false := by simp [hyk]
        simp [this]

/-- `s` with `x` bound to `t`: a new binding comes last, an old one keeps its place. -/
def insert (s : Subst) (x : String) (t : Term) : Subst :=
  if h : (s.get? x).isSome then
    { entries := replaceEntry x t s.entries
      index := s.index.insert x t
      load := bindingLoad (replaceEntry x t s.entries)
      index_getElem? := by
        intro y
        rw [get?_eq_lookup] at h
        rw [Std.TreeMap.getElem?_insert, lookup_replaceEntry, s.index_getElem?]
        by_cases hy : x = y
        · rw [if_pos (by simp [hy]), if_pos ⟨hy, h⟩]
        · rw [if_neg (by simp [hy]), if_neg (fun hc => hy hc.1)]
      load_eq := rfl }
  else
    { entries := (x, t) :: s.entries
      index := s.index.insert x t
      load := 1 + t.varCount + s.load
      index_getElem? := by
        intro y
        rw [Std.TreeMap.getElem?_insert, List.lookup_cons, s.index_getElem?]
        by_cases hy : x = y
        · simp [hy]
        · have : (y == x) = false := by simp [Ne.symm hy]
          simp [hy, this]
      load_eq := by simp [bindingLoad, s.load_eq] }

/-! ## Following bindings -/

/-- `apply` along chains of at most `n` bindings. -/
def applyUpTo (s : Subst) : Nat → Term → Term
  | 0, t => t
  | n + 1, t => t.mapVars fun x =>
    match s.get? x with
    | some b => applyUpTo s n b
    | none => .var false x

/-- `t` with every bound variable replaced, the replacement taken under `s` again.  Binders are not looked at. -/
def apply (s : Subst) (t : Term) : Term :=
  s.applyUpTo (s.load + 1) t

/-- `resolvesTo` along chains of at most `n` bindings. -/
def sameUpTo (s : Subst) : Nat → Term → Term → Bool
  | 0, t, u => t.same u
  | n + 1, t, u => t.sameBy (fun x v =>
    match s.get? x with
    | some b => sameUpTo s n b v
    | none => (Term.var false x).same v) u

theorem sameUpTo_eq (s : Subst) (n : Nat) (t u : Term) : s.sameUpTo n t u = (s.applyUpTo n t).same u := by
  induction n generalizing t u with
  | zero => rfl
  | succ n ih =>
    rw [sameUpTo, applyUpTo]
    refine Term.sameBy_eq (fun x v => ?_) t u
    cases s.get? x with
    | none => rfl
    | some b => exact ih b v

/-- `t` under `s` is the same term as `u`, told without building it. -/
def resolvesTo (s : Subst) (t u : Term) : Bool :=
  s.sameUpTo (s.load + 1) t u

theorem resolvesTo_eq (s : Subst) (t u : Term) : s.resolvesTo t u = (s.apply t).same u :=
  s.sameUpTo_eq (s.load + 1) t u

/-- `occurs` along chains of at most `n` bindings. -/
def occursUpTo (s : Subst) (x : String) : Nat → Term → Bool
  | 0, t => t.mentions x
  | n + 1, t => t.anyVar fun y => x == y ||
    match s.get? y with
    | some b => occursUpTo s x n b
    | none => false

/-- `x` is met in `t` when bindings are followed. -/
def occurs (s : Subst) (x : String) (t : Term) : Bool :=
  s.occursUpTo x (s.load + 1) t

/-- The bindings of the given variables alone, each fully resolved, in the given order. -/
def restrict (s : Subst) (xs : List String) : Subst :=
  xs.foldl (fun r x => if s.contains x then r.insert x (s.apply (.var false x)) else r) empty

/-- The text of a substitution, such as `{X ↦ a, Y ↦ f(X)}`. -/
def render (s : Subst) : String :=
  "\x7b" ++ ", ".intercalate (s.toList.map fun e => e.1 ++ " ↦ " ++ e.2.render) ++ "\x7d"

end Subst

end Clausal
