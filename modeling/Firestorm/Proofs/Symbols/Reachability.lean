import Mathlib.Data.List.Basic
import Mathlib.Logic.Relation
import Firestorm.Symbols.CallGraph

/-!
# Reachable names

The visit of a call graph finds exactly the names to which the calls lead from its roots. A visit is
described by an invariant of the names visited and the names still to visit: whatever a visited name
calls is in one of the two lists.

A graph is the result of changes, one after another: functions are defined with the names they call,
some of them again, and roots are added. What can be reached is read off the changes, and not off
the tables that they leave.

## Main definitions

* `CallGraph.Leads`, `CallGraph.Marks`, `CallGraph.Change`, `CallGraph.ofChanges`,
  `CallGraph.IsRoot`, `CallGraph.Calls`.

## Main results

* `CallGraph.mem_reachable_iff`, `CallGraph.marks_iff`.
* `CallGraph.reachable_ofChanges`: what can be reached in a graph, whatever changes have built it.
-/

namespace Firestorm.CallGraph

variable {pending visited : List String}

/-- A name to which the calls of a graph lead from its roots. -/
inductive Leads (g : CallGraph) : String → Prop
  | root {name : String} (h : name ∈ g.roots) : Leads g name
  | call {caller name : String} {callees : List String} (hcaller : Leads g caller)
    (hcallees : g.callees.get? caller = some callees) (h : name ∈ callees) : Leads g name

variable {callees : Table (List String)}

/-- What visited names call is visited already or still to visit. -/
def Visited (callees : Table (List String)) (pending visited : List String) : Prop :=
  ∀ name ∈ visited, ∀ next, callees.get? name = some next → ∀ other ∈ next,
    other ∈ visited ∨ other ∈ pending

theorem mem_visit_of_mem {name : String} (h : name ∈ visited ∨ name ∈ pending) :
    name ∈ visit callees pending visited := by
  fun_induction visit callees pending visited <;> grind

theorem visited_visit (h : Visited callees pending visited) :
    Visited callees [] (visit callees pending visited) := by
  fun_induction visit callees pending visited with
  | case1 visited => exact h
  | case2 name pending visited hseen ih | case3 name pending visited hseen hget ih =>
    refine ih fun name' hname' next hnext other hother => ?_
    grind [Visited]
  | case4 name pending visited hseen next hget _ ih =>
    refine ih fun name' hname' next' hnext' other hother => ?_
    grind [Visited]

theorem visit_sound {P : String → Prop}
    (hstep : ∀ name next, P name → callees.get? name = some next → ∀ other ∈ next, P other)
    (hpending : ∀ name ∈ pending, P name) (hvisited : ∀ name ∈ visited, P name) :
    ∀ name ∈ visit callees pending visited, P name := by
  fun_induction visit callees pending visited with
  | case1 visited => exact hvisited
  | case2 name pending visited hseen ih => exact ih (by grind) hvisited
  | case3 name pending visited hseen hget ih => exact ih (by grind) (by grind)
  | case4 name pending visited hseen next hget _ ih =>
    have hname := hpending name (List.mem_cons_self ..)
    exact ih (by grind) (by grind)

/-- A visit finds exactly the names to which calls lead from the roots. -/
theorem mem_reachable_iff (g : CallGraph) (name : String) : name ∈ g.reachable ↔ g.Leads name := by
  constructor
  · exact visit_sound (fun _ _ hname hnext _ hother => .call hname hnext hother)
      (fun _ h => .root h) (by simp) name
  · intro h
    induction h with
    | root h => exact mem_visit_of_mem (.inr h)
    | call _ hcallees h ih =>
      have hclosed : Visited g.callees [] g.reachable := visited_visit (by simp [Visited])
      simpa using hclosed _ ih _ hcallees _ h

/-! ### Depth-first marking -/

theorem nodup_visit (h : visited.Nodup) : (visit callees pending visited).Nodup := by
  fun_induction visit callees pending visited with
  | case1 visited => exact h
  | case2 name pending visited hseen ih => exact ih h
  | case3 name pending visited hseen hget ih => exact ih (List.nodup_cons.2 ⟨hseen, h⟩)
  | case4 name pending visited hseen next hget _ ih => exact ih (List.nodup_cons.2 ⟨hseen, h⟩)

/-- Marking names one after another, where `before` and `after` are the names that are marked before
and after. A name that is marked already is left alone, any other is marked before the names that it
calls. -/
inductive Marks (callees : Table (List String)) : (names before after : List String) → Prop
  | nil {before} : Marks callees [] before before
  | again {name names before after} (hseen : name ∈ before)
    (hrest : Marks callees names before after) : Marks callees (name :: names) before after
  | fresh {name names before middle after} (hseen : name ∉ before)
    (hinside : Marks callees ((callees.get? name).getD []) (name :: before) middle)
    (hrest : Marks callees names middle after) : Marks callees (name :: names) before after

/-- Names that follow others are marked behind them. -/
theorem Marks.exists_of_append {names more before after : List String}
    (h : Marks callees (names ++ more) before after) :
    ∃ middle, Marks callees names before middle ∧ Marks callees more middle after := by
  induction names generalizing before with
  | nil => exact ⟨before, .nil, h⟩
  | cons name names ih =>
    rw [List.cons_append] at h
    cases h with
    | again hseen hrest =>
      obtain ⟨middle, hnames, hmore⟩ := ih hrest
      exact ⟨middle, .again hseen hnames, hmore⟩
    | fresh hseen hinside hrest =>
      obtain ⟨middle, hnames, hmore⟩ := ih hrest
      exact ⟨middle, .fresh hseen hinside hnames, hmore⟩

theorem Marks.unique {names before after after' : List String}
    (h : Marks callees names before after) (h' : Marks callees names before after') :
    after = after' := by
  induction h generalizing after' with
  | nil =>
    cases h'
    rfl
  | again hseen _ ih =>
    cases h' with
    | again _ hrest => exact ih hrest
    | fresh hunseen => exact absurd hseen hunseen
  | fresh hunseen _ _ ihinside ihrest =>
    cases h' with
    | again hseen => exact absurd hseen hunseen
    | fresh _ hinside hrest =>
      obtain rfl := ihinside hinside
      exact ihrest hrest

/-- The visit takes up what a name calls in front of the names that were pending before, as marking
does. -/
theorem marks_visit (pending visited : List String) :
    Marks callees pending visited (visit callees pending visited) := by
  fun_induction visit callees pending visited with
  | case1 visited => exact .nil
  | case2 name pending visited hseen ih => exact .again hseen ih
  | case3 name pending visited hseen hget ih =>
    refine .fresh hseen ?_ ih
    rw [hget]
    exact .nil
  | case4 name pending visited hseen next hget _ ih =>
    obtain ⟨middle, hinside, hrest⟩ := ih.exists_of_append
    refine .fresh hseen ?_ hrest
    rwa [hget]

/-- Depth-first marking ends on every graph, with the names that the visit finds. -/
theorem marks_iff {names before after : List String} :
    Marks callees names before after ↔ after = visit callees names before := by
  constructor
  · intro h
    exact h.unique (marks_visit names before)
  · rintro rfl
    exact marks_visit names before

/-! ### Graphs built by changes -/

/-- A change of a graph: a function is defined with the names it calls, or a root is added. -/
inductive Change
  | define (name : String) (attributes : Attributes) (callees : List String)
  | root (name : String)
deriving DecidableEq

/-- The graph behind a change. -/
def change (g : CallGraph) : Change → CallGraph
  | .define name attributes callees => g.define name attributes callees
  | .root name => g.root name

/-- The graph that changes build, one after another. -/
def ofChanges (changes : List Change) : CallGraph :=
  changes.foldl change {}

/-- What a change says that a function calls. -/
def Change.calleesOf? (name : String) : Change → Option (List String)
  | .define defined _ callees => if defined = name then some callees else none
  | .root _ => none

/-- A change makes a name a root: it adds the root, or it defines the entry point or a kept
function. -/
def Change.MakesRoot (name : String) : Change → Prop
  | .define defined attributes _ =>
    defined = name ∧ (attributes.keep = true ∨ name = Program.entryPoint)
  | .root added => added = name

/-- One of the changes makes a name a root. -/
def IsRoot (changes : List Change) (name : String) : Prop :=
  ∃ c ∈ changes, c.MakesRoot name

/-- A function calls a name, according to the last one of its definitions. -/
def Calls (changes : List Change) (caller name : String) : Prop :=
  ∃ callees, (changes.filterMap (Change.calleesOf? caller)).getLast? = some callees ∧ name ∈ callees

theorem callees_define (g : CallGraph) (name other : String) (attributes : Attributes)
    (callees : List String) : (g.define name attributes callees).callees.get? other =
      if other = name then some callees else g.callees.get? other :=
  Table.get?_set ..

theorem mem_roots_define {g : CallGraph} {name other : String} {attributes : Attributes}
    {callees : List String} : other ∈ (g.define name attributes callees).roots ↔
      other ∈ g.roots ∨ other = name ∧ (attributes.keep = true ∨ name = Program.entryPoint) := by
  unfold define
  dsimp only
  split <;> next h =>
    simp only [Bool.or_eq_true, beq_iff_eq] at h
    simp [h]

theorem mem_roots_change (g : CallGraph) (c : Change) (name : String) :
    name ∈ (g.change c).roots ↔ name ∈ g.roots ∨ c.MakesRoot name := by
  cases c with
  | root added => simp [change, root, Change.MakesRoot, eq_comm]
  | define defined attributes callees =>
    rw [change, mem_roots_define, Change.MakesRoot]
    by_cases hname : name = defined
    · simp [hname]
    · simp [hname, Ne.symm hname]

theorem mem_roots_foldl (g : CallGraph) (changes : List Change) (name : String) :
    name ∈ (changes.foldl change g).roots ↔ name ∈ g.roots ∨ IsRoot changes name := by
  induction changes generalizing g with
  | nil => simp [IsRoot]
  | cons c changes ih =>
    rw [List.foldl_cons, ih, mem_roots_change, or_assoc, IsRoot, IsRoot, List.exists_mem_cons_iff]

theorem get?_callees_change (g : CallGraph) (c : Change) (name : String) :
    (g.change c).callees.get? name = (c.calleesOf? name).or (g.callees.get? name) := by
  cases c with
  | root added => rfl
  | define defined attributes callees =>
    rw [change, callees_define, Change.calleesOf?]
    by_cases hname : name = defined
    · simp [hname]
    · simp [hname, Ne.symm hname]

theorem get?_callees_foldl (g : CallGraph) (changes : List Change) (name : String) :
    (changes.foldl change g).callees.get? name =
      (changes.filterMap (Change.calleesOf? name)).getLast?.or (g.callees.get? name) := by
  induction changes generalizing g with
  | nil => rfl
  | cons c changes ih =>
    rw [List.foldl_cons, ih, get?_callees_change, List.filterMap_cons]
    cases c.calleesOf? name with
    | none => rfl
    | some callees =>
      rw [List.getLast?_cons]
      cases (changes.filterMap (Change.calleesOf? name)).getLast? <;> rfl

/-- The calls of the graph lead from its roots to the names to which the changes lead. -/
theorem leads_ofChanges_iff (changes : List Change) (name : String) :
    (ofChanges changes).Leads name ↔
      ∃ start, IsRoot changes start ∧ Relation.ReflTransGen (Calls changes) start name := by
  have hroots : ∀ name, name ∈ (ofChanges changes).roots ↔ IsRoot changes name := fun name => by
    rw [ofChanges, mem_roots_foldl]
    simp
  have hcallees : ∀ name, (ofChanges changes).callees.get? name =
      (changes.filterMap (Change.calleesOf? name)).getLast? := fun name => by
    rw [ofChanges, get?_callees_foldl]
    exact Option.or_none
  constructor
  · intro h
    induction h with
    | root h => exact ⟨_, (hroots _).1 h, .refl⟩
    | call _ hget hmem ih =>
      obtain ⟨start, hstart, hpath⟩ := ih
      rw [hcallees] at hget
      exact ⟨start, hstart, hpath.tail ⟨_, hget, hmem⟩⟩
  · rintro ⟨start, hstart, hpath⟩
    induction hpath with
    | refl => exact .root ((hroots _).2 hstart)
    | tail _ hcall ih =>
      obtain ⟨callees, hget, hmem⟩ := hcall
      rw [← hcallees] at hget
      exact .call ih hget hmem

/-- Changes in another order tell of the same roots and calls, as long as the definitions of each
function keep their order. -/
theorem leads_perm {changes changes' : List Change} (hperm : changes.Perm changes')
    (horder : ∀ name, changes.filterMap (Change.calleesOf? name) =
      changes'.filterMap (Change.calleesOf? name))
    (name : String) : (ofChanges changes').Leads name ↔ (ofChanges changes).Leads name := by
  have hroot : IsRoot changes' = IsRoot changes := by
    funext name
    simp only [IsRoot, hperm.mem_iff]
  have hcalls : Calls changes' = Calls changes := by
    funext caller name
    simp only [Calls, horder]
  rw [leads_ofChanges_iff, leads_ofChanges_iff, hroot, hcalls]

/-- Whatever changes have built a graph, the names that can be reached in it are those to which
calls lead from a root, each of them once, where a function calls what the last of its definitions
says. Depth-first marking of the roots ends with these names, also where functions call each other
in circles or call names that are not defined. The order of the roots and of the definitions of
different functions does not matter. -/
theorem reachable_ofChanges (changes : List Change) :
    (∀ name, name ∈ (ofChanges changes).reachable ↔
      ∃ start, IsRoot changes start ∧ Relation.ReflTransGen (Calls changes) start name) ∧
    (ofChanges changes).reachable.Nodup ∧
    (∀ marked, Marks (ofChanges changes).callees (ofChanges changes).roots [] marked ↔
      marked = (ofChanges changes).reachable) ∧
    ∀ changes', changes.Perm changes' →
      (∀ name, changes.filterMap (Change.calleesOf? name) =
        changes'.filterMap (Change.calleesOf? name)) →
      ∀ name, name ∈ (ofChanges changes').reachable ↔ name ∈ (ofChanges changes).reachable := by
  refine ⟨fun name => ?_, nodup_visit List.nodup_nil, fun marked => marks_iff, ?_⟩
  · rw [mem_reachable_iff, leads_ofChanges_iff]
  · intro changes' hperm horder name
    rw [mem_reachable_iff, mem_reachable_iff, leads_perm hperm horder]

/-- Two functions that call each other, one of them defined twice, and a call of a name that is not
defined. -/
def circle : List Change :=
  [.define "ping" {} ["dead"], .define "spark" {} ["ping"], .define "ping" {} ["pong"],
    .root "extra", .define "pong" {} ["ping", "missing"], .define "orphan" {} ["spark"]]

/-- The changes of `circle` in another order. -/
def circleReordered : List Change :=
  [.define "orphan" {} ["spark"], .define "pong" {} ["ping", "missing"], .define "ping" {} ["dead"],
    .root "extra", .define "ping" {} ["pong"], .define "spark" {} ["ping"]]

/-- The same names can be reached whether the graph is built by `circle` or by `circleReordered`. -/
theorem reachable_ofChanges_circle : circle.Perm circleReordered ∧
    (ofChanges circle).reachable = ["extra", "missing", "pong", "ping", "spark"] ∧
    ∀ name, name ∈ (ofChanges circleReordered).reachable ↔ name ∈ (ofChanges circle).reachable := by
  have hperm : circle.Perm circleReordered := by decide
  have hdefined : ∀ name ∈ ["ping", "spark", "pong", "orphan"],
      circle.filterMap (Change.calleesOf? name) =
      circleReordered.filterMap (Change.calleesOf? name) := by decide
  have horder : ∀ name, circle.filterMap (Change.calleesOf? name) =
      circleReordered.filterMap (Change.calleesOf? name) := by
    intro name
    by_cases hname : name ∈ ["ping", "spark", "pong", "orphan"]
    · exact hdefined name hname
    · simp only [List.mem_cons, List.not_mem_nil, or_false, not_or, eq_comm (a := name)] at hname
      simp only [circle, circleReordered, List.filterMap_cons, Change.calleesOf?, hname, if_false]
  exact ⟨hperm, by cbv, (reachable_ofChanges circle).2.2.2 circleReordered hperm horder⟩

end Firestorm.CallGraph
