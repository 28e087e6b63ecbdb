import Firestorm.Proofs.Interpreter.Visits

/-!
# What a run changes

Most of the work of a run is handed on to parts of a task and to the bodies of functions. What is
left is few kinds of change: a constant may put a string into the heap, an assignment may change a
global or a cell, and the assembly functions print, give out blocks and take them back. All that a
run does to the state is a sequence of such changes, whether it ends with a value or stops early,
and each of them is made by a task that the run comes to. So is the error with which it stops. The
variables of a function change by assignments only, and keep their datatypes.

## Main definitions

* `Interpreter.Assigned`, `Interpreter.Updated`, `Interpreter.Change`, `Interpreter.Raises`,
  `Interpreter.Changes`, `Interpreter.Raised`, `Interpreter.Through`, `Interpreter.Visit.behind`,
  `Interpreter.Visit.Leaves`.

## Main results

* `Interpreter.orderly`, `Interpreter.changes_behind`, `Interpreter.changes_of_visited`,
  `Interpreter.Comes.subset`, `Interpreter.Comes.updated`.
-/

namespace Firestorm.Interpreter

variable {F F' : Frame} {m' : Machine}

/-! ### Assignments -/

/-- A variable of the frame has got a value, as far as the datatype of the variable holds it. -/
def Assigns (F F' : Frame) : Prop :=
  ∃ name d value, F' = F.set name (.holding d value)

/-- Variables of the frame have been given values one after another. -/
def Assigned : Frame → Frame → Prop :=
  Relation.ReflTransGen Assigns

theorem Assigned.set (h : Assigned F F') (name : String) (d : Datatype) (value : Word) :
    Assigned F (F'.set name (.holding d value)) :=
  Relation.ReflTransGen.tail h ⟨name, d, value, rfl⟩

/-- The parameters of a function that is entered have been given their values. -/
theorem assigned_enter (parameters : List Binding) (values : List Word) :
    Assigned ∅ (enter parameters values) := by
  unfold enter
  generalize parameters.zip values = pairs
  induction pairs using List.reverseRecOn with
  | nil => exact .refl
  | append_singleton pairs pair ih =>
    rw [List.foldl_append]
    exact ih.set _ _ _

theorem Assigned.isSome_get? (h : Assigned F F') {name : String} (hname : (F.get? name).isSome) :
    (F'.get? name).isSome := by
  induction h with
  | refl => exact hname
  | tail _ hassigns ih =>
    obtain ⟨other, d, value, rfl⟩ := hassigns
    rw [Table.get?_set]
    split
    · rfl
    · exact ih

/-- Statements have changed variables by assignments, and each variable has the datatype that it had
before or that of its declaration among the statements. -/
structure Updated (parts : List Stmt) (F F' : Frame) : Prop where
  assigned : Assigned F F'
  datatypes : ∀ name v, F'.get? name = some v →
    (∃ w, F.get? name = some w ∧ w.datatype = v.datatype) ∨
    ∃ init, .declare ⟨name, v.datatype⟩ init ∈ parts

namespace Updated

variable {parts more : List Stmt}

theorem refl (parts : List Stmt) (F : Frame) : Updated parts F F :=
  ⟨.refl, fun _ v hv => .inl ⟨v, hv, rfl⟩⟩

theorem mono (h : Updated parts F F') (hparts : parts ⊆ more) : Updated more F F' :=
  ⟨h.assigned, fun name v hv => (h.datatypes name v hv).imp_right <| Exists.imp fun _ hinit =>
    hparts hinit⟩

theorem trans {F'' : Frame} (h : Updated parts F F') (h' : Updated parts F' F'') :
    Updated parts F F'' where
  assigned := h.assigned.trans h'.assigned
  datatypes name v hv := by
    rcases h'.datatypes name v hv with ⟨w, hw, hd⟩ | hdeclared
    · exact hd ▸ h.datatypes name w hw
    · exact .inr hdeclared

theorem set {name : String} {d : Datatype}
    (h : (∃ w, F.get? name = some w ∧ w.datatype = d) ∨ ∃ init, .declare ⟨name, d⟩ init ∈ parts)
    (value : Word) : Updated parts F (F.set name (.holding d value)) where
  assigned := Assigned.set .refl _ _ _
  datatypes other v hv := by
    rw [Table.get?_set] at hv
    split at hv
    · next heq =>
      cases hv
      exact heq ▸ h
    · exact .inl ⟨v, hv, rfl⟩

end Updated

/-! ### Changes and errors -/

section

variable (functions : FunctionTable)

/-- A change of the state by a task. Blocks are given out and taken back by calls of assembly
functions only, in the state in which the call is taken up. -/
inductive Change : Visit → Machine → Machine → Prop
  | intern {v m content pointer heap} (hintern : m.heap.intern content = .ok (pointer, heap)) :
    Change v m { m with heap := heap }
  | write {v m pointer index value heap} (hwrite : m.heap.write pointer index value = .ok heap) :
    Change v m { m with heap := heap }
  | assign {v m name d value} :
    Change v m { m with globals := m.globals.set name (.holding d value) }
  | print {v m bytes} : Change v m { m with output := { m.output with bytes := bytes } }
  | allocate {n f arguments text m pointer heap} (hname : f.name = "allocate")
    (hbody : f.body = .assembly text)
    (hallocate : m.heap.allocate ((arguments.map Prod.snd).headD 0) = .ok (pointer, heap))
    (hcall : call functions (n + 1) f arguments m = (.ok pointer, { m with heap := heap })) :
    Change ⟨n + 1, .call f arguments, m⟩ m { m with heap := heap }
  | deallocate {n f arguments text m heap} (hname : f.name = "deallocate")
    (hbody : f.body = .assembly text)
    (hdeallocate : m.heap.deallocate ((arguments.map Prod.snd).headD 0) = .ok heap)
    (hcall : call functions (n + 1) f arguments m = (.ok 0, { m with heap := heap })) :
    Change ⟨n + 1, .call f arguments, m⟩ m { m with heap := heap }

/-- The work on a task comes to one that changes the state. -/
def Changes (v : Visit) (m m' : Machine) : Prop :=
  ∃ u, Relation.ReflTransGen (Comes functions) v u ∧ Change functions u m m'

/-- The errors with which a task stops by itself, those of names with their reasons. A global that
is there when a task is taken up does not vanish. -/
inductive Raises : Visit → Halt → Prop
  | missing {v scope F name} (haccess : v.task.access? = some (scope, F, name))
    (hv : variableOf F v.machine name = none) : Raises v (.fault (.symbol (.undefined name)))
  | unresolved {n scope F callee es m e} (he : functions.resolve callee es.length = .error e) :
    Raises ⟨n, .eval scope F (.call callee es), m⟩ (.fault (.symbol e))
  | unresolvedArgument {n scope F callee es rest m e}
    (he : functions.resolve callee es.length = .error e) :
    Raises ⟨n, .arguments scope F (.call callee es :: rest), m⟩ (.fault (.symbol e))
  | arity {n f arguments m} (h : f.parameters.length ≠ arguments.length) :
    Raises ⟨n, .call f arguments, m⟩
      (.fault (.symbol (.arity f.name f.parameters.length arguments.length)))
  | redefined {n scope F b init m} (h : ¬ ∀ v ∈ F.get? b.name, v.datatype = b.datatype) :
    Raises ⟨n, .stmt scope F (.declare b init), m⟩ (.fault (.symbol (.redefined b.name)))
  | other {v halt} (h : ∀ e, halt ≠ .fault (.symbol e)) : Raises v halt

/-- The work on a task comes to one that stops with an error. -/
def Raised (v : Visit) (halt : Halt) : Prop :=
  ∃ u, Relation.ReflTransGen (Comes functions) v u ∧ Raises functions u halt

end

variable {functions : FunctionTable}

variable {u v : Visit}

theorem Changes.of_comes (h : Relation.ReflTransGen (Comes functions) v u) {m : Machine}
    (hchange : Changes functions u m m') : Changes functions v m m' := by
  obtain ⟨w, hw, hchange⟩ := hchange
  exact ⟨w, h.trans hw, hchange⟩

theorem Raised.of_comes (h : Relation.ReflTransGen (Comes functions) v u) {halt : Halt}
    (hraised : Raised functions u halt) : Raised functions v halt := by
  obtain ⟨w, hw, hraises⟩ := hraised
  exact ⟨w, h.trans hw, hraises⟩

theorem Change.changes {m : Machine} (h : Change functions v m m') : Changes functions v m m' :=
  ⟨v, .refl, h⟩

theorem Raises.raised {halt : Halt} (h : Raises functions v halt) : Raised functions v halt :=
  ⟨v, .refl, h⟩

/-- A change of the state changes globals by assignments. -/
theorem Change.assigned {m : Machine} (h : Change functions v m m') :
    Assigned m.globals m'.globals := by
  cases h with
  | assign => exact Assigned.set .refl _ _ _
  | intern | write | print | allocate | deallocate => exact .refl

theorem assigned_of_changes {m : Machine} (h : Relation.ReflTransGen (Changes functions v) m m') :
    Assigned m.globals m'.globals := by
  refine h.lift' Machine.globals fun _ _ hchanges => ?_
  obtain ⟨u, -, hchange⟩ := hchanges
  exact hchange.assigned

/-- A global that is missing behind changes was missing before. -/
theorem variableOf_of_changes {name : String} {m : Machine}
    (h : Relation.ReflTransGen (Changes functions v) m m') (hname : variableOf F m' name = none) :
    variableOf F m name = none := by
  obtain ⟨hF, hm'⟩ := Option.or_eq_none_iff.1 hname
  refine Option.or_eq_none_iff.2 ⟨hF, ?_⟩
  by_contra hm
  have hsome := (assigned_of_changes h).isSome_get? (Option.isSome_iff_ne_none.2 hm)
  rw [hm'] at hsome
  cases hsome

/-- The state behind a computation that the program stops is the one in which it does so. -/
theorem catchExit_snd (x : Exec Word) (m : Machine) : (catchExit x m).2 = (x m).2 := by
  unfold catchExit
  split
  · next heq => rw [heq]
  · rfl

theorem checkArguments_ne_symbol {callee : String} {e : SymbolError} {parameters : List Binding}
    {arguments : List (Option Datatype × Word)} :
    checkArguments callee parameters arguments ≠ .error (.symbol e) := by
  induction parameters generalizing arguments with
  | nil => simp [checkArguments]
  | cons b rest ih =>
    rcases arguments with _ | ⟨⟨_ | d, value⟩, arguments⟩
    · simp [checkArguments]
    · exact ih
    · rw [checkArguments]
      split
      · exact ih
      · simp

/-- A computation changes the state step by step in a given way, an error that stops it is of a
given kind, and so is its value. -/
structure Through {α : Type} (R : Machine → Machine → Prop) (E : Halt → Prop) (Q : α → Prop)
    (x : Exec α) (m : Machine) : Prop where
  state : Relation.ReflTransGen R m (x m).2
  error : ∀ {halt m'}, x m = (.error halt, m') → E halt
  value : ∀ {a m'}, x m = (.ok a, m') → Q a

/-- All errors that are not about names are of a kind. -/
def Lenient (E : Halt → Prop) : Prop :=
  ∀ halt, (∀ e, halt ≠ .fault (.symbol e)) → E halt

namespace Through

variable {α β : Type} {R : Machine → Machine → Prop} {E : Halt → Prop} {P : α → Prop} {Q : β → Prop}
  {x : Exec α} {m : Machine} {a : α}

theorem of_ok (h : x m = (.ok a, m')) (hm' : Relation.ReflTransGen R m m') (ha : P a) :
    Through R E P x m where
  state := by rwa [h]
  error h' := by cases h.symm.trans h'
  value h' := by
    cases h.symm.trans h'
    exact ha

theorem of_error {halt : Halt} (h : x m = (.error halt, m)) (hE : E halt) : Through R E P x m where
  state := by rw [h]
  error h' := by
    cases h.symm.trans h'
    exact hE
  value h' := by cases h.symm.trans h'

theorem pure (ha : P a) : Through R E P (Pure.pure a) m :=
  .of_ok rfl .refl ha

/-- The state behind a value has been reached step by step. -/
theorem reaches (hx : Through R E P x m) (h : x m = (.ok a, m')) :
    Relation.ReflTransGen R m m' := by
  have hstate := hx.state
  rwa [h] at hstate

theorem bind {f : α → Exec β} (hx : Through R E P x m)
    (hf : ∀ a m', x m = (.ok a, m') → P a → Through R E Q (f a) m') :
    Through R E Q (x >>= f) m := by
  have hstate := hx.state
  cases hresult : x m with
  | mk outcome m₁ =>
    have happly := Exec.bind_apply x f m
    rw [hresult] at happly hstate
    cases outcome with
    | error halt =>
      refine ⟨by rwa [happly], fun h => ?_, fun h => by cases happly.symm.trans h⟩
      cases happly.symm.trans h
      exact hx.error hresult
    | ok a =>
      have hnext := hf a m₁ hresult (hx.value hresult)
      exact ⟨by rw [happly]; exact hstate.trans hnext.state,
        fun h => hnext.error (happly.symm.trans h), fun h => hnext.value (happly.symm.trans h)⟩

theorem mono {R' : Machine → Machine → Prop} {E' : Halt → Prop} (hR : ∀ m m', R m m' → R' m m')
    (hE : ∀ halt, E halt → E' halt) (hx : Through R E P x m) : Through R' E' P x m :=
  ⟨Relation.ReflTransGen.mono hR _ _ hx.state, fun h => hE _ (hx.error h), hx.value⟩

theorem weaken {P' : α → Prop} (hx : Through R E P x m) (hP : ∀ a, P a → P' a) :
    Through R E P' x m :=
  ⟨hx.state, hx.error, fun h => hP _ (hx.value h)⟩

theorem lookup {F : Frame} {name : String}
    (hnone : variableOf F m name = none → E (.fault (.symbol (.undefined name)))) :
    Through R E (fun _ => True) (lookup F name) m := by
  have happly := lookup_apply F name m
  cases hv : variableOf F m name with
  | some v =>
    rw [hv] at happly
    exact .of_ok happly .refl trivial
  | none =>
    rw [hv] at happly
    exact .of_error happly (hnone hv)

/-- An assignment changes a variable of the frame or a global, and nothing else. -/
theorem modifyVariable {parts : List Stmt} {name : String} {g : Variable → Word}
    (hnone : variableOf F m name = none → E (.fault (.symbol (.undefined name))))
    (hglobal : ∀ d value, R m { m with globals := m.globals.set name (.holding d value) }) :
    Through R E (Updated parts F) (modifyVariable F name g) m := by
  have happly := modifyVariable_apply F name g m
  cases hF : F.get? name with
  | some v =>
    rw [hF] at happly
    exact .of_ok happly .refl (.set (.inl ⟨v, hF, rfl⟩) _)
  | none =>
    cases hm : m.globals.get? name with
    | some v =>
      rw [hF, hm] at happly
      exact .of_ok happly (.single (hglobal _ _)) (.refl parts F)
    | none =>
      rw [hF, hm] at happly
      exact .of_error happly (hnone (Option.or_eq_none_iff.2 ⟨hF, hm⟩))

theorem staticDatatype {F : Frame} {e : Expr}
    (hnone : ∀ name, e.read? = some name → variableOf F m name = none →
      E (.fault (.symbol (.undefined name))))
    (hresolve : ∀ callee es error, e = .call callee es →
      functions.resolve callee es.length = .error error →
      E (.fault (.symbol error))) :
    Through R E (fun _ => True) (staticDatatype functions F e) m := by
  cases e with
  | lookup name | index name i => exact (lookup (hnone name rfl)).bind fun _ _ _ _ => .pure trivial
  | call callee es =>
    rw [Interpreter.staticDatatype]
    cases hf : functions.resolve callee es.length with
    | error error => exact .of_error rfl (hresolve callee es error rfl hf)
    | ok f => exact .pure trivial
  | literal | binary | compare | unary | not => exact .pure trivial

section

variable (hE : Lenient E)
include hE

theorem fault {f : Fault} (hf : ∀ e, f ≠ .symbol e) : Through R E P (Exec.fault f : Exec α) m :=
  .of_error rfl (hE _ fun e heq => hf e (Halt.fault.inj heq))

theorem outOfFuel : Through R E P (throw .outOfFuel : Exec α) m :=
  .of_error rfl (hE _ (by simp))

theorem readCell (pointer index : Word) :
    Through R E (fun _ => True) (Exec.readCell pointer index) m := by
  cases hread : m.heap.read pointer index with
  | ok value => exact .of_ok (Exec.readCell_eq_ok.2 ⟨hread, rfl⟩) .refl trivial
  | error e =>
    have hx : Exec.readCell pointer index m = (.error (.fault (.heap e)), m) := by
      simp only [Exec.readCell, hread]
    exact .of_error hx (hE _ (by simp))

theorem onHeap {operation : Heap → Except HeapError (α × Heap)}
    (hR : ∀ a heap, operation m.heap = .ok (a, heap) → R m { m with heap := heap }) :
    Through R E (fun _ => True) (Exec.onHeap operation) m := by
  cases hresult : operation m.heap with
  | ok result =>
    exact .of_ok (Exec.onHeap_eq_ok.2 ⟨_, hresult, rfl⟩) (.single (hR _ _ hresult)) trivial
  | error e =>
    have hx : Exec.onHeap operation m = (.error (.fault (.heap e)), m) := by
      simp only [Exec.onHeap, hresult]
    exact .of_error hx (hE _ (by simp))

theorem onHeap_map {operation : Heap → Except HeapError Heap}
    (hR : ∀ heap, operation m.heap = .ok heap → R m { m with heap := heap }) :
    Through R E (fun _ => True) (Exec.onHeap fun h => (operation h).map fun h => ((), h)) m := by
  refine .onHeap hE fun _ heap hresult => ?_
  obtain ⟨_, hoperation, heq⟩ := Fallible.except_map_eq_ok.1 hresult
  cases heq
  exact hR heap hoperation

theorem literal {value : Literal}
    (hintern : ∀ content pointer heap, m.heap.intern content = .ok (pointer, heap) →
      R m { m with heap := heap }) :
    Through R E (fun _ => True) (Exec.literal value) m := by
  cases value with
  | number | chr => exact .of_ok rfl .refl trivial
  | str content => exact .onHeap hE (hintern content)

theorem print {byte : UInt8}
    (hprint : ∀ bytes, R m { m with output := { m.output with bytes := bytes } }) :
    Through R E (fun _ => True) (Exec.print byte) m := by
  by_cases hroom : m.output.hasRoom = true
  · exact .of_ok (if_pos hroom) (.single (hprint _)) trivial
  · exact .of_error (if_neg hroom) (hE _ (by simp))

theorem native {name : String} {arguments : List Word}
    (hprint : ∀ bytes, R m { m with output := { m.output with bytes := bytes } })
    (hallocate : name = "allocate" → ∀ pointer heap,
      m.heap.allocate (arguments.headD 0) = .ok (pointer, heap) → R m { m with heap := heap })
    (hdeallocate : name = "deallocate" → ∀ heap, m.heap.deallocate (arguments.headD 0) = .ok heap →
      R m { m with heap := heap }) :
    Through R E (fun _ => True) (native name arguments) m := by
  unfold Interpreter.native
  dsimp only
  split
  · exact (print hE hprint).bind fun _ _ _ _ => .pure trivial
  · exact .onHeap hE (hallocate rfl)
  · exact (onHeap_map hE (hdeallocate rfl)).bind fun _ _ _ _ => .pure trivial
  · exact .of_error rfl (hE _ (by simp))
  · exact .fault hE (by simp)

theorem storeArguments
    (hintern : ∀ m content pointer heap, m.heap.intern content = .ok (pointer, heap) →
      R m { m with heap := heap })
    (hwrite : ∀ m pointer index value heap, m.heap.write pointer index value = .ok heap →
      R m { m with heap := heap }) (argv : Word) (index : Nat) (arguments : List String) :
    Through R E (fun _ => True) (storeArguments argv index arguments) m := by
  induction arguments generalizing index m with
  | nil => exact .pure trivial
  | cons argument arguments ih =>
    rw [Interpreter.storeArguments]
    refine (Through.onHeap hE fun _ _ => hintern _ _ _ _).bind fun pointer m₁ _ _ => ?_
    exact (Through.onHeap_map hE fun _ => hwrite _ _ _ _ _).bind fun _ m₂ _ _ => ih _

end

theorem catchExit {x : Exec Word} (hx : Through R E (fun _ => True) x m) :
    Through R E (fun _ => True) (catchExit x) m := by
  refine ⟨catchExit_snd x m ▸ hx.state, fun h => ?_, fun _ => trivial⟩
  unfold Interpreter.catchExit at h
  split at h
  · cases h
  · exact hx.error h

end Through

/-! ### The work on a task -/

/-- A computation that makes the changes of the tasks to which a task comes, and has their
errors. -/
abbrev Works {α : Type} (functions : FunctionTable) (v : Visit) :
    (α → Prop) → Exec α → Machine → Prop :=
  Through (Changes functions v) (Raised functions v)

theorem lenient_raised (v : Visit) : Lenient (Raised functions v) :=
  fun _ h => (Raises.other h).raised

/-- A call of an assembly function is carried out by the machine. -/
theorem call_assembly {n : Nat} {f : FunctionDef} {arguments : List (Option Datatype × Word)}
    {text : String} (hlength : f.parameters.length = arguments.length)
    (hcheck : checkArguments f.name f.parameters arguments = .ok ())
    (hbody : f.body = .assembly text) :
    call functions (n + 1) f arguments = native f.name (arguments.map Prod.snd) := by
  rw [call, if_neg (not_not.2 hlength), hcheck]
  simp only [hbody]

theorem works_native {n : Nat} {f : FunctionDef} {arguments : List (Option Datatype × Word)}
    {text : String} {m : Machine} (hlength : f.parameters.length = arguments.length)
    (hcheck : checkArguments f.name f.parameters arguments = .ok ())
    (hbody : f.body = .assembly text) :
    Works functions ⟨n + 1, .call f arguments, m⟩ (fun _ => True)
      (Interpreter.native f.name (arguments.map Prod.snd)) m := by
  have hcall : call functions (n + 1) f arguments =
      Interpreter.native f.name (arguments.map Prod.snd) :=
    call_assembly hlength hcheck hbody
  refine .native (lenient_raised _) (fun _ => Change.print.changes)
    (fun hname pointer heap hallocate => ?_) fun hname heap hdeallocate => ?_
  · refine (Change.allocate hname hbody hallocate ?_).changes
    have hexec : Exec.allocate ((arguments.map Prod.snd).headD 0) m =
        (.ok pointer, { m with heap := heap }) :=
      Exec.onHeap_eq_ok.2 ⟨heap, hallocate, rfl⟩
    rw [hcall, hname]
    exact hexec
  · refine (Change.deallocate hname hbody hdeallocate ?_).changes
    have hexec : Exec.deallocate ((arguments.map Prod.snd).headD 0) m =
        (.ok (), { m with heap := heap }) :=
      Exec.onHeap_map_eq_ok.2 ⟨heap, hdeallocate, rfl⟩
    rw [hcall, hname]
    exact Exec.bind_eq_ok.2 ⟨(), _, hexec, rfl⟩

/-- The work on a task is part of the work on another one: it makes only changes and has only errors
of tasks to which that one comes. It updates the variables of its function. -/
def Visit.Orderly (functions : FunctionTable) (v u : Visit) : Prop :=
  match u.task with
  | .eval _ F e =>
    Works functions v (fun _ => True) (Interpreter.eval functions u.fuel F e) u.machine
  | .arguments _ F es =>
    Works functions v (fun values => values.length = es.length)
      (evalArguments functions u.fuel F es) u.machine
  | .call f arguments =>
    Works functions v (fun _ => True) (Interpreter.call functions u.fuel f arguments) u.machine
  | .stmt _ F st =>
    Works functions v (fun r => Updated st.parts F r.1) (execStmt functions u.fuel F st) u.machine
  | .block _ F body =>
    Works functions v (fun r => Updated (Stmt.partsOf body) F r.1)
      (execBlock functions u.fuel F body) u.machine

section

variable {n : Nat} {scope : List String} {F : Frame} {m : Machine}
  (hnext : ∀ {t t' : Task} {m' : Machine}, Comes functions ⟨n + 1, t, m⟩ ⟨n, t', m'⟩ →
    Visit.Orderly functions ⟨n + 1, t, m⟩ ⟨n, t', m'⟩)
include hnext

theorem orderly_eval (e : Expr) :
    Visit.Orderly functions ⟨n + 1, .eval scope F e, m⟩ ⟨n + 1, .eval scope F e, m⟩ := by
  have heval : ∀ {e' m'}, Comes functions ⟨n + 1, .eval scope F e, m⟩ ⟨n, .eval scope F e', m'⟩ →
      Works functions ⟨n + 1, .eval scope F e, m⟩ (fun _ => True) (eval functions n F e') m' :=
    hnext
  have hlookup : ∀ {name}, e.read? = some name →
      Works functions ⟨n + 1, .eval scope F e, m⟩ (fun _ => True) (lookup F name) m := fun hname =>
    .lookup fun hnone => (Raises.missing (by rw [Task.access?, hname]; rfl) hnone).raised
  unfold Visit.Orderly
  dsimp only
  cases e with
  | literal value =>
    rw [eval]
    exact .literal (lenient_raised _) fun _ _ _ hintern => (Change.intern hintern).changes
  | lookup name =>
    rw [eval]
    exact (hlookup rfl).bind fun _ _ _ _ => .pure trivial
  | index name i =>
    rw [eval]
    refine (hlookup rfl).bind fun v m₁ hv _ => ?_
    refine (heval (.index hv)).bind fun x m₂ _ _ => ?_
    split
    · exact .readCell (lenient_raised _) _ _
    · exact .pure trivial
  | call callee arguments =>
    rw [eval]
    cases hf : functions.resolve callee arguments.length with
    | error e => exact .of_error rfl (Raises.unresolved hf).raised
    | ok f =>
      have harguments : Works functions ⟨n + 1, .eval scope F (.call callee arguments), m⟩
        (fun values => values.length = arguments.length)
        (evalArguments functions n F arguments) m :=
        hnext (.callArguments hf)
      exact harguments.bind fun values m₁ hvalues _ => hnext (.call hf hvalues)
  | binary op left right =>
    rw [eval]
    refine (heval .binaryLeft).bind fun x m₁ hx _ =>
      (heval (.binaryRight hx)).bind fun y m₂ _ _ => ?_
    split
    · exact .pure trivial
    · exact .fault (lenient_raised _) (by simp)
  | compare op left right =>
    rw [eval]
    refine (heval .compareLeft).bind fun x m₁ hx _ =>
      (heval (.compareRight hx)).bind fun y m₂ _ _ => ?_
    exact .pure trivial
  | unary op operand =>
    rw [eval]
    exact (heval .unary).bind fun _ _ _ _ => .pure trivial
  | not operand =>
    rw [eval]
    exact (heval .not).bind fun _ _ _ _ => .pure trivial

omit hnext in
theorem works_staticDatatype (e : Expr) (es : List Expr) :
    Works functions ⟨n, .arguments scope F (e :: es), m⟩ (fun _ => True)
      (staticDatatype functions F e) m := by
  refine .staticDatatype (fun name hname hnone => ?_) ?_
  · exact (Raises.missing (by rw [Task.access?, hname]; rfl) hnone).raised
  · rintro callee es error rfl he
    exact (Raises.unresolvedArgument he).raised

theorem orderly_arguments (es : List Expr) :
    Visit.Orderly functions ⟨n + 1, .arguments scope F es, m⟩ ⟨n + 1, .arguments scope F es,
      m⟩ := by
  unfold Visit.Orderly
  dsimp only
  cases es with
  | nil =>
    rw [evalArguments]
    exact .pure rfl
  | cons e es =>
    rw [evalArguments]
    refine (works_staticDatatype e es).bind fun d m₁ hd _ => ?_
    have he : Works functions ⟨n + 1, .arguments scope F (e :: es), m⟩ (fun _ => True)
        (eval functions n F e) m₁ :=
      hnext (.argument hd)
    refine he.bind fun x m₂ hx _ => ?_
    have hes : Works functions ⟨n + 1, .arguments scope F (e :: es), m⟩
        (fun values => values.length = es.length)
      (evalArguments functions n F es) m₂ := hnext (.furtherArguments hd hx)
    exact hes.bind fun _ _ _ hlength => .pure (congrArg Nat.succ hlength)

theorem orderly_call (f : FunctionDef) (arguments : List (Option Datatype × Word)) :
    Visit.Orderly functions ⟨n + 1, .call f arguments, m⟩ ⟨n + 1, .call f arguments, m⟩ := by
  unfold Visit.Orderly
  dsimp only
  rw [call]
  split
  · next hlength => exact .of_error rfl (Raises.arity hlength).raised
  · next hlength =>
    split
    · next fault hcheck =>
      exact .fault (lenient_raised _) fun e heq => checkArguments_ne_symbol (heq ▸ hcheck)
    · next hcheck =>
      dsimp only
      -- An assembly function changes the state by itself, another one through its body.
      split
      · next hbody => exact works_native (not_not.1 hlength) hcheck hbody
      · next body hbody =>
        have hblock : Works functions ⟨n + 1, .call f arguments, m⟩
            (fun r => Updated (Stmt.partsOf body) (enter f.parameters (arguments.map Prod.snd)) r.1)
            (execBlock functions n (enter f.parameters (arguments.map Prod.snd)) body) m :=
          hnext (.body (not_not.1 hlength) hcheck hbody)
        refine hblock.bind fun result m₁ _ _ => ?_
        split
        · exact .fault (lenient_raised _) (by simp)
        · exact .pure trivial

theorem orderly_block (body : List Stmt) :
    Visit.Orderly functions ⟨n + 1, .block scope F body, m⟩ ⟨n + 1, .block scope F body, m⟩ := by
  unfold Visit.Orderly
  dsimp only
  cases body with
  | nil =>
    rw [execBlock]
    exact .pure (.refl _ F)
  | cons st rest =>
    have hst : Works functions ⟨n + 1, .block scope F (st :: rest), m⟩
        (fun r => Updated st.parts F r.1)
      (execStmt functions n F st) m := hnext .first
    rw [execBlock]
    refine hst.bind fun result m₁ hresult hF => ?_
    replace hF := hF.mono (List.subset_append_left st.parts (Stmt.partsOf rest))
    obtain ⟨F', _ | value⟩ := result
    · have hrest : Works functions ⟨n + 1, .block scope F (st :: rest), m⟩
        (fun r => Updated (Stmt.partsOf rest) F' r.1) (execBlock functions n F' rest) m₁ :=
        hnext (.rest hresult)
      exact hrest.weaken fun r hr => hF.trans (hr.mono (List.subset_append_right ..))
    · exact .pure hF

theorem orderly_stmt (st : Stmt) :
    Visit.Orderly functions ⟨n + 1, .stmt scope F st, m⟩ ⟨n + 1, .stmt scope F st, m⟩ := by
  have heval : ∀ {scope' F' e m'},
      Comes functions ⟨n + 1, .stmt scope F st, m⟩ ⟨n, .eval scope' F' e, m'⟩ →
      Works functions ⟨n + 1, .stmt scope F st, m⟩ (fun _ => True) (eval functions n F' e) m' :=
    hnext
  have hblock : ∀ {scope' body m'},
      Comes functions ⟨n + 1, .stmt scope F st, m⟩ ⟨n, .block scope' F body, m'⟩ →
      Stmt.partsOf body ⊆ st.parts →
      Works functions ⟨n + 1, .stmt scope F st, m⟩ (fun r => Updated st.parts F r.1)
        (execBlock functions n F body) m' := fun hcomes hparts =>
    Through.weaken (hnext hcomes) fun _ hr => hr.mono hparts
  have hagain : ∀ {F' m'}, Comes functions ⟨n + 1, .stmt scope F st, m⟩ ⟨n, .stmt scope F' st, m'⟩ →
      Updated st.parts F F' →
      Works functions ⟨n + 1, .stmt scope F st, m⟩ (fun r => Updated st.parts F r.1)
        (execStmt functions n F' st) m' :=
    fun hcomes hF => Through.weaken (hnext hcomes) fun _ hr => hF.trans hr
  have hmissing : ∀ {name m'}, st.target? = some name →
      Relation.ReflTransGen (Changes functions ⟨n + 1, .stmt scope F st, m⟩) m m' →
      variableOf F m' name = none →
      Raised functions ⟨n + 1, .stmt scope F st, m⟩ (.fault (.symbol (.undefined name))) :=
    fun hname hm' hnone =>
      (Raises.missing (by rw [Task.access?, hname]; rfl) (variableOf_of_changes hm' hnone)).raised
  have hmodify : ∀ {name value m'}, st.target? = some name →
      Relation.ReflTransGen (Changes functions ⟨n + 1, .stmt scope F st, m⟩) m m' →
      Works functions ⟨n + 1, .stmt scope F st, m⟩ (Updated st.parts F)
        (modifyVariable F name value) m' :=
    fun hname hm' => .modifyVariable (hmissing hname hm') fun _ _ => Change.assign.changes
  unfold Visit.Orderly
  dsimp only
  cases st with
  | declare b init =>
    have hset : ∀ value, Updated [.declare b init] F (F.set b.name (.holding b.datatype value)) :=
      .set (.inr ⟨init, List.mem_singleton_self _⟩)
    rw [execStmt_declare]
    split
    · next hd =>
      cases init with
      | none => exact .pure (hset 0)
      | some e => exact (heval (.declare hd)).bind fun x _ _ _ => .pure (hset x)
    · next hd => exact .of_error rfl (Raises.redefined hd).raised
  | assign target e =>
    rw [execStmt]
    refine (heval .assign).bind fun x m₁ hx _ => ?_
    exact (hmodify rfl ((heval .assign).reaches hx)).bind fun _ _ _ hF => .pure hF
  | assignIndexed target i e =>
    rw [execStmt_assignIndexed]
    refine (Through.lookup (hmissing rfl .refl)).bind fun v m₁ hv _ => ?_
    split
    · next harray =>
      refine Through.bind (P := fun _ => True) ?_ fun q m₂ _ _ => ?_
      · refine (heval (.assignIndex hv harray)).bind fun x m₂ hx _ => ?_
        exact (heval (.assignElement hv harray hx)).bind fun _ _ _ _ => .pure trivial
      · unfold assignElement
        simp only [harray, Bool.not_true, Bool.false_eq_true, if_false]
        refine (Through.onHeap_map (lenient_raised _) fun heap hwrite => ?_).bind fun _ _ _ _ =>
          .pure (.refl _ F)
        exact (Change.write hwrite).changes
    · exact .fault (lenient_raised _) (by simp)
  | increment target | decrement target =>
    rw [execStmt]
    exact (hmodify rfl .refl).bind fun _ _ _ hF => .pure hF
  | return_ value =>
    cases value with
    | none =>
      rw [execStmt]
      exact .pure (.refl _ F)
    | some e =>
      rw [execStmt]
      exact (heval .return_).bind fun _ _ _ _ => .pure (.refl _ F)
  | ifThen condition body =>
    rw [execStmt]
    refine (heval .ifThen).bind fun x m₁ hx _ => ?_
    split
    · exact .pure (.refl _ F)
    · next htrue => exact hblock (.ifThenBody hx htrue) (List.subset_cons_self _ _)
  | ifElse condition body otherwise =>
    rw [execStmt]
    refine (heval .ifElse).bind fun x m₁ hx _ => ?_
    split
    · next hfalse => exact hblock (.otherwise hx hfalse) (by simp [Stmt.parts])
    · next htrue => exact hblock (.ifElseBody hx htrue) (by simp [Stmt.parts])
  | while_ condition body =>
    rw [execStmt]
    refine (heval .while_).bind fun x m₁ hx _ => ?_
    split
    · exact .pure (.refl _ F)
    · next htrue =>
      refine (hblock (.whileBody hx htrue) (List.subset_cons_self _ _)).bind
        fun result m₂ hbody hF => ?_
      obtain ⟨F', _ | value⟩ := result
      · exact hagain (.whileAgain hx htrue hbody) hF
      · exact .pure hF
  | doWhile body condition =>
    rw [execStmt]
    refine (hblock .doWhileBody (List.subset_cons_self _ _)).bind fun result m₁ hbody hF => ?_
    obtain ⟨F', _ | value⟩ := result
    · refine (heval (.doWhile hbody)).bind fun x m₂ hx _ => ?_
      split
      · exact .pure hF
      · next htrue => exact hagain (.doWhileAgain hbody hx htrue) hF
    · exact .pure hF
  | loop body =>
    rw [execStmt]
    refine (hblock .loopBody (List.subset_cons_self _ _)).bind fun result m₁ hbody hF => ?_
    obtain ⟨F', _ | value⟩ := result
    · exact hagain (.loopAgain hbody) hF
    · exact .pure hF
  | expr e =>
    rw [execStmt, Exec.discard_bind]
    exact (heval .expr).bind fun _ _ _ _ => .pure (.refl _ F)

end

theorem Visit.Orderly.of_comes {w : Visit} (h : Visit.Orderly functions u w)
    (hcomes : Relation.ReflTransGen (Comes functions) v u) : Visit.Orderly functions v w := by
  obtain ⟨n, t, m⟩ := w
  cases t <;> exact Through.mono (fun _ _ => .of_comes hcomes) (fun _ => .of_comes hcomes) h

/-- The work on a task makes the changes of the tasks to which it comes and no others, and has no
other errors. -/
theorem orderly (functions : FunctionTable) (v : Visit) : v.Orderly functions v := by
  obtain ⟨n, t, m⟩ := v
  -- By induction on the bound. What a part of a task changes is a change of the task, as the task
  -- comes to the part.
  induction n generalizing t m with
  | zero =>
    cases t <;> exact Through.outOfFuel (lenient_raised _)
  | succ n ih =>
    have hnext : ∀ {t t' : Task} {m' : Machine}, Comes functions ⟨n + 1, t, m⟩ ⟨n, t', m'⟩ →
        Visit.Orderly functions ⟨n + 1, t, m⟩ ⟨n, t', m'⟩ :=
      fun hcomes => (ih _ _).of_comes (.single hcomes)
    cases t with
    | eval scope F e => exact orderly_eval hnext e
    | arguments scope F es => exact orderly_arguments hnext es
    | call f arguments => exact orderly_call hnext f arguments
    | stmt scope F st => exact orderly_stmt hnext st
    | block scope F body => exact orderly_block hnext body

/-- The state behind the work on a task, whether the task has a value or stops early. -/
def Visit.behind (functions : FunctionTable) (v : Visit) : Machine :=
  match v.task with
  | .eval _ F e => (Interpreter.eval functions v.fuel F e v.machine).2
  | .arguments _ F es => (evalArguments functions v.fuel F es v.machine).2
  | .call f arguments => (Interpreter.call functions v.fuel f arguments v.machine).2
  | .stmt _ F st => (execStmt functions v.fuel F st v.machine).2
  | .block _ F body => (execBlock functions v.fuel F body v.machine).2

/-- The work on a task is a sequence of changes. -/
theorem changes_behind (functions : FunctionTable) (v : Visit) :
    Relation.ReflTransGen (Changes functions v) v.machine (v.behind functions) := by
  have horderly := orderly functions v
  obtain ⟨n, t, m⟩ := v
  cases t <;> exact Through.state horderly

/-- What happens between taking up a task and coming from it to another one is a sequence of
changes. -/
theorem Comes.changes (h : Comes functions v u) :
    Relation.ReflTransGen (Changes functions v) v.machine u.machine := by
  have hnext : ∀ {w}, Comes functions v w → v.Orderly functions w := fun hw =>
    (orderly functions _).of_comes (.single hw)
  cases h with
  | index hv | assignIndex hv =>
    obtain ⟨-, rfl⟩ := lookup_eq_ok.1 hv
    exact .refl
  | call hf hvalues => exact Through.reaches (hnext (.callArguments hf)) hvalues
  | binaryRight hx => exact Through.reaches (hnext .binaryLeft) hx
  | compareRight hx => exact Through.reaches (hnext .compareLeft) hx
  | argument hd => exact (works_staticDatatype _ _).reaches hd
  | furtherArguments hd hx =>
    exact ((works_staticDatatype _ _).reaches hd).trans (Through.reaches (hnext (.argument hd)) hx)
  | assignElement hv harray hx =>
    obtain ⟨-, rfl⟩ := lookup_eq_ok.1 hv
    exact Through.reaches (hnext (.assignIndex hv harray)) hx
  | ifThenBody hx => exact Through.reaches (hnext .ifThen) hx
  | ifElseBody hx | otherwise hx => exact Through.reaches (hnext .ifElse) hx
  | whileBody hx => exact Through.reaches (hnext .while_) hx
  | whileAgain hx htrue hbody =>
    exact (Through.reaches (hnext .while_) hx).trans
      (Through.reaches (hnext (.whileBody hx htrue)) hbody)
  | doWhile hbody => exact Through.reaches (hnext .doWhileBody) hbody
  | doWhileAgain hbody hx =>
    exact (Through.reaches (hnext .doWhileBody) hbody).trans
      (Through.reaches (hnext (.doWhile hbody)) hx)
  | loopAgain hbody => exact Through.reaches (hnext .loopBody) hbody
  | rest hst => exact Through.reaches (hnext .first) hst
  | _ => exact .refl

/-- What happens before a run comes to a task is a sequence of changes. -/
theorem changes_of_visited (h : Relation.ReflTransGen (Comes functions) v u) :
    Relation.ReflTransGen (Changes functions v) v.machine u.machine := by
  induction h with
  | refl => exact .refl
  | tail hvisited hcomes ih =>
    exact ih.trans (Relation.ReflTransGen.mono (fun _ _ => Changes.of_comes hvisited)
      _ _ hcomes.changes)

/-! ### The variables of a function -/

/-- The variables of the function to which a task belongs. A call has no variables before its
function is entered. -/
def Task.frame : Task → Frame
  | eval _ F _ | arguments _ F _ | stmt _ F _ | block _ F _ => F
  | call .. => ∅

/-- The work on a statement, or on statements, leaves the variables of a frame. -/
def Visit.Leaves (functions : FunctionTable) (v : Visit) (F' : Frame) : Prop :=
  match v.task with
  | .stmt _ F st => ∃ result m', execStmt functions v.fuel F st v.machine = (.ok (F', result), m')
  | .block _ F body =>
    ∃ result m', execBlock functions v.fuel F body v.machine = (.ok (F', result), m')
  | .eval .. | .arguments .. | .call .. => False

/-- The expressions of a task and the expressions inside them, up to the calls of functions. -/
def Task.expressions : Task → List Expr
  | eval _ _ e => e.parts
  | arguments _ _ es => Expr.partsOf es
  | call .. => []
  | stmt _ _ st => Stmt.expressionsOf [st]
  | block _ _ body => Stmt.expressionsOf body

/-- The statements of a task and the statements inside them. -/
def Task.statements : Task → List Stmt
  | stmt _ _ st => st.parts
  | block _ _ body => Stmt.partsOf body
  | eval .. | arguments .. | call .. => []

/-- Whether a task is a call, which has variables of its own. -/
def Task.isCall : Task → Bool
  | call .. => true
  | eval .. | arguments .. | stmt .. | block .. => false

/-- The variables behind a statement have been changed by it. -/
theorem updated_of_leaves (h : v.Leaves functions F') :
    Updated v.task.statements v.task.frame F' := by
  have horderly := orderly functions v
  obtain ⟨n, t, m⟩ := v
  cases t with
  | stmt | block =>
    obtain ⟨result, m', hresult⟩ := h
    exact Through.value horderly hresult
  | eval | arguments | call => exact h.elim

/-- What a task hands on is inside of it, except for calls. -/
theorem Comes.subset (h : Comes functions v u) (hu : u.task.isCall = false)
    (hv : v.task.isCall = false) :
    u.task.expressions ⊆ v.task.expressions ∧ u.task.statements ⊆ v.task.statements := by
  cases h with
  | call => cases hu
  | body => cases hv
  | _ =>
    simp only [Task.expressions, Task.statements, Expr.parts, Expr.partsOf, Stmt.expressionsOf,
      Stmt.partsOf, Stmt.parts, Stmt.operands]
    grind

/-- The variables of a task are those of the task that hands it on, as far as statements have not
changed them. -/
theorem Comes.updated (h : Comes functions v u) (hu : u.task.isCall = false)
    (hv : v.task.isCall = false) : Updated v.task.statements v.task.frame u.task.frame := by
  have hbody : ∀ {n F body m F' m'}, execBlock functions n F body m = (.ok (F', none), m') →
      Updated (Stmt.partsOf body) F F' := fun {n F body m F' m'} hbody =>
    updated_of_leaves (v := ⟨n, .block [] F body, m⟩) ⟨_, _, hbody⟩
  cases h with
  | call => cases hu
  | body => cases hv
  | whileAgain _ _ h | doWhile h | doWhileAgain h | loopAgain h =>
    exact (hbody h).mono (List.subset_cons_self _ _)
  | @rest n _ F st _ m _ _ h =>
    exact (updated_of_leaves (v := ⟨n, .stmt [] F st, m⟩) ⟨_, _, h⟩).mono
      (List.subset_append_left ..)
  | _ => exact .refl _ _

/-- Variables that have got all their values by assignments have done so in all tasks to which a run
comes. -/
theorem assigned_of_visited (h : Relation.ReflTransGen (Comes functions) v u)
    (hv : Assigned ∅ v.task.frame) : Assigned ∅ u.task.frame := by
  induction h with
  | refl => exact hv
  | tail _ hcomes ih =>
    have hupdated := hcomes.updated
    cases hcomes with
    | call => exact .refl
    | body => exact assigned_enter _ _
    | _ => exact ih.trans (hupdated rfl rfl).assigned

end Firestorm.Interpreter
