import Firestorm.Program
import Firestorm.Symbols.Table

/-!
# Call graphs

Only the functions that a run can reach are part of a compiled program. The roots are the entry
point, the functions that are marked to be kept and the names that a target asks for.

## Main definitions

* `CallGraph`, `CallGraph.define`, `CallGraph.root`, `CallGraph.reachable`.
-/

namespace Firestorm

/-- The names that each function calls, and the names that are reached from outside. -/
structure CallGraph where
  callees : Table (List String) := ∅
  roots : List String := []
deriving Repr, DecidableEq

namespace CallGraph

/-- The graph with the calls of a function, which replace those it had. The entry point and kept
functions become roots. -/
def define (g : CallGraph) (name : String) (attributes : Attributes) (callees : List String) :
    CallGraph :=
  { callees := g.callees.set name callees
    roots := if attributes.keep || name == Program.entryPoint then g.roots ++ [name] else g.roots }

/-- The graph with one more root. -/
def root (g : CallGraph) (name : String) : CallGraph :=
  { g with roots := g.roots ++ [name] }

theorem countP_lt_of_mem {names visited : List String} {name : String} (hmem : name ∈ names)
    (hnew : name ∉ visited) :
    names.countP (fun n => decide (n ∉ name :: visited)) <
      names.countP (fun n => decide (n ∉ visited)) := by
  induction names with
  | nil => cases hmem
  | cons n rest ih =>
    have hle : rest.countP (fun n => decide (n ∉ name :: visited)) ≤
        rest.countP (fun n => decide (n ∉ visited)) :=
      List.countP_mono_left fun m _ => by simp +contextual
    by_cases h : n = name
    · subst h
      simp only [List.countP_cons, List.mem_cons, true_or, not_true_eq_false, decide_false, hnew,
        not_false_eq_true, decide_true]
      simp at hle ⊢
      omega
    · have hrest := ih (by simpa [Ne.symm h] using hmem)
      by_cases hv : n ∈ visited
      · simp [hv] at hrest ⊢
        omega
      · simp [hv, h] at hrest ⊢
        omega

/-- The names visited once all names still to visit, and everything they lead to, are visited. -/
def visit (callees : Table (List String)) : (pending visited : List String) → List String
  | [], visited => visited
  | name :: pending, visited =>
    if hseen : name ∈ visited then visit callees pending visited
    else
      match h : callees.get? name with
      | none => visit callees pending (name :: visited)
      | some next =>
        have := countP_lt_of_mem (Table.mem_names_of_get? h) hseen
        visit callees (next ++ pending) (name :: visited)
termination_by pending visited =>
  (callees.names.countP (fun n => decide (n ∉ visited)), pending.length)
decreasing_by
  · exact Prod.Lex.right _ (by simp)
  · have hle : callees.names.countP (fun n => decide (n ∉ name :: visited)) ≤
        callees.names.countP (fun n => decide (n ∉ visited)) :=
      List.countP_mono_left fun m _ => by simp +contextual
    rcases Nat.lt_or_eq_of_le hle with hlt | heq
    · exact Prod.Lex.left _ _ hlt
    · rw [heq]
      exact Prod.Lex.right _ (by simp)
  · exact Prod.Lex.left _ _ this

/-- The names that can be reached from the roots. -/
def reachable (g : CallGraph) : List String :=
  visit g.callees g.roots []

end CallGraph

end Firestorm
