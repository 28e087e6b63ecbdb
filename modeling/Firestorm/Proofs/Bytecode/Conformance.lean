import Firestorm.Proofs.Bytecode.Startup

/-!
# Compiled programs do what the interpreter does

A program that is compiled, encoded and linked gives an image. Where the interpreter comes to a
value, the stack machine comes to the same value on that image and has printed the same bytes.

The program has to be such that the two cannot be told apart by what they do differently: the
interpreter looks for locals at run time, cuts the value of a function that returns a character down
to a byte, and reads a variable before its index.

## Main definitions

* `Program.Conforming`.

## Main results

* `Program.Conforming.consistent`.
* `Program.execute_of_run`: the image of a program does what the interpreter does.
-/

namespace Firestorm

open Bytecode StackMachine

/-- The text of a program tells that its image does what the interpreter does: the names of globals
are distinct and no local has one of them, the parameters of a function are distinct, no initial
value reads the variable that it is for, no function with statements returns a character, the
operands of an access to an element of a global call nothing, and assembly functions have one
parameter. -/
structure Program.Conforming (p : Program) : Prop where
  globals_nodup : (p.globals.map (·.binding.name)).Nodup
  separated : p.Separated
  parameters_nodup : ∀ f ∈ p.functions, (f.parameters.map (·.name)).Nodup
  initial : ∀ f ∈ p.functions, ∀ b e, .declare b (some e) ∈ f.statements → b.name ∉ e.reads
  returns : ∀ f ∈ p.functions, ¬ f.IsAssembly → f.returns ≠ .chr
  index : ∀ f ∈ p.functions, ∀ name i, .index name i ∈ f.expressions →
    name ∈ p.globals.map (·.binding.name) → i.callees = []
  assignIndexed : ∀ f ∈ p.functions, ∀ name i value, .assignIndexed name i value ∈ f.statements →
    name ∈ p.globals.map (·.binding.name) → i.callees = [] ∧ value.callees = []
  assembly : ∀ f ∈ p.functions, f.IsAssembly → f.parameters.length = 1

namespace Program

theorem steady_of_callees_eq_nil (p : Program) (name : String) {e : Expr} (h : e.callees = []) :
    p.Steady name e := by
  intro functions _ fuel F m value m' heval
  rw [Interpreter.globals_eq_of_eval h heval]

/-- What the agreement needs follows from the text of a program. -/
theorem Conforming.consistent {p : Program} (h : p.Conforming) : p.Consistent where
  globals g hg g' hg' hname := by rw [List.inj_on_of_nodup_map h.globals_nodup hg hg' hname]
  separated := h.separated
  parameters_nodup := h.parameters_nodup
  initial := h.initial
  returns := h.returns
  index f hf name i hi hname := p.steady_of_callees_eq_nil name (h.index f hf name i hi hname)
  assignIndexed f hf name i value hst hname := by
    obtain ⟨hi, hvalue⟩ := h.assignIndexed f hf name i value hst hname
    exact ⟨p.steady_of_callees_eq_nil name hi, p.steady_of_callees_eq_nil name hvalue⟩
  assembly := h.assembly

/-- Where the interpreter comes to a value, the stack machine comes to the same value on the image
of the program and has printed the same bytes, whatever the bound on its depth is beyond some depth.
Addresses of the image are words, and the machine has numbers for so many globals. -/
theorem execute_of_run {text : String} {tokens : List (Located Token)} {p : Program}
    {sections : List Section} {items : List Bytecode.Item} {image : List UInt8}
    (htokens : tokenize text = .ok tokens) (hparse : parse tokens = .ok p)
    (hsections : p.toBytecode = .ok sections)
    (hencode : encode (Section.renderAll sections) = .ok items) (hlink : link items = .ok image)
    (himage : image.length < 2 ^ 63) (hglobals : p.globals.length ≤ localSlotBase)
    (hp : p.Conforming) {capacity fuel : Nat} {limit : Option Nat} {arguments : List String}
    {i i' : Interpreter} {value : Word}
    (hstart : Interpreter.start p (.ofCapacity capacity) { limit := limit } = .ok i)
    (hrun : i.run fuel arguments = (.ok value, i')) :
    ∃ n, ∀ k, execute image (n + k) (.ofCapacity capacity) arguments =
      some (value, i'.machine.output.bytes) := by
  obtain ⟨σ, rfl, rfl⟩ :=
    Setting.exists_of_link (worded_of_parse htokens hparse) hsections hencode hlink himage hglobals
  exact Setting.exists_execute hp.consistent rfl hstart hrun

/-! ### The countdown -/

theorem conforming_countdown : countdown.Conforming where
  globals_nodup := by decide
  separated := by
    unfold Separated
    decide
  parameters_nodup := by decide
  initial := by
    simp [functions_countdown, countdownFunctions, FunctionDef.statements, Body.block, Stmt.partsOf,
      Stmt.parts]
  returns := by
    have hreturns : ∀ f ∈ countdown.functions, f.returns ≠ .chr := by decide
    exact fun f hf _ => hreturns f hf
  index := by
    simp [functions_countdown, countdownFunctions, FunctionDef.expressions, Stmt.expressionsOf,
      Body.block, Stmt.partsOf, Stmt.parts, Stmt.operands, Expr.parts, Expr.partsOf]
  assignIndexed := by
    simp [functions_countdown, countdownFunctions, FunctionDef.statements, Body.block, Stmt.partsOf,
      Stmt.parts]
  assembly := by simp [functions_countdown, countdownFunctions, FunctionDef.IsAssembly]

theorem run_countdown : ∃ i i', Interpreter.start countdown (.ofCapacity 8) {} = .ok i ∧
    i.run 60 ["x"] = (.ok 0, i') ∧ i'.machine.output.bytes = #[97, 97] := by
  have hrun : (Interpreter.start countdown (.ofCapacity 8) {}).toOption.map (fun i =>
      ((i.run 60 ["x"]).1, (i.run 60 ["x"]).2.machine.output.bytes)) = some (.ok 0, #[97, 97]) := by
    cbv
  obtain ⟨i, hi, hrun⟩ := Fallible.exists_ok_of_map hrun
  obtain ⟨hvalue, hbytes⟩ := Prod.ext_iff.1 hrun
  exact ⟨i, (i.run 60 ["x"]).2, hi, Prod.ext hvalue rfl, hbytes⟩

/-- The image of the countdown prints two letters and comes to zero. -/
theorem execute_of_run_countdown : ∃ image, tokenize countdownText = .ok countdownTokens ∧
    parse countdownTokens = .ok countdown ∧ countdown.Conforming ∧
    countdown.toBytecode = .ok countdownSections ∧
    encode (Section.renderAll countdownSections) = .ok (sectionsItems [] countdownSections) ∧
    link (sectionsItems [] countdownSections) = .ok image ∧
    ∃ n, ∀ k, execute image (n + k) (.ofCapacity 8) ["x"] = some (0, #[97, 97]) := by
  obtain ⟨image, hlink, hlength⟩ := link_countdownSections
  obtain ⟨i, i', hstart, hrun, hbytes⟩ := run_countdown
  refine ⟨image, tokenize_countdownText, parse_countdownTokens, conforming_countdown,
    toBytecode_eq_countdownSections, encode_countdownSections, hlink, ?_⟩
  rw [← hbytes]
  exact execute_of_run tokenize_countdownText parse_countdownTokens toBytecode_eq_countdownSections
    encode_countdownSections hlink (by rw [hlength]; decide) (by decide) conforming_countdown
      hstart hrun

end Program

end Firestorm
