import Firestorm.Proofs.Bytecode.Addresses
import Firestorm.Proofs.Bytecode.Runs
import Firestorm.Proofs.Interpreter.Variables

/-!
# States that agree

The interpreter keeps variables under their names, the stack machine under numbers. This file says
when the states of the two agree, and proves that an access to a variable finds and leaves them so.

The two agree only on programs in which a name means the same to both: the interpreter looks for a
local variable at run time, the code generator has looked for one in the text.

## Main definitions

* `Program.Separated`, `Program.Consistent`, `Setting`, `Setting.StateAgrees`,
  `Setting.FrameAgrees`.

## Main results

* `Setting.lookup_slotOf`, `Setting.store_slotOf`.
-/

namespace Firestorm

open Bytecode StackMachine

theorem Bytecode.sublist_firstDefinitions (seen : List String) (gs : List GlobalDef) :
    (firstDefinitions seen gs).Sublist gs := by
  induction gs generalizing seen with
  | nil => exact List.Sublist.refl _
  | cons g gs ih =>
    rw [firstDefinitions]
    split
    · exact (ih seen).cons _
    · exact (ih _).cons_cons _

/-- No local has the name of a global. -/
def Program.Separated (p : Program) : Prop :=
  ∀ f ∈ p.functions, ∀ b ∈ f.locals, b.name ∉ p.globals.map (·.binding.name)

/-- Whenever an expression has a value, a global has been left as it was. -/
def Program.Steady (p : Program) (name : String) (e : Expr) : Prop :=
  ∀ functions, FunctionTable.ofProgram p = .ok functions → ∀ fuel F m value m',
    Interpreter.eval functions fuel F e m = (.ok value, m') →
      m'.globals.get? name = m.globals.get? name

/-- What a program must satisfy for its code to do what the interpreter does: definitions of one
global give it one initial value, a name is not that of a global and of a local, an initial value
does not read the variable that it is for, a value of a function is not cut down to a byte, and the
operands of an access to an element of a global leave the global as it was. -/
structure Program.Consistent (p : Program) : Prop where
  globals : ∀ g ∈ p.globals, ∀ g' ∈ p.globals, g.binding.name = g'.binding.name → g.init = g'.init
  separated : p.Separated
  parameters_nodup : ∀ f ∈ p.functions, (f.parameters.map (·.name)).Nodup
  initial : ∀ f ∈ p.functions, ∀ b e, .declare b (some e) ∈ f.statements → b.name ∉ e.reads
  returns : ∀ f ∈ p.functions, ¬ f.IsAssembly → f.returns ≠ .chr
  index : ∀ f ∈ p.functions, ∀ name i, .index name i ∈ f.expressions →
    name ∈ p.globals.map (·.binding.name) → p.Steady name i
  assignIndexed : ∀ f ∈ p.functions, ∀ name i value, .assignIndexed name i value ∈ f.statements →
    name ∈ p.globals.map (·.binding.name) → p.Steady name i ∧ p.Steady name value
  assembly : ∀ f ∈ p.functions, f.IsAssembly → f.parameters.length = 1

namespace Program

/-- The sections of `countdown`. -/
def countdownSections : List Section := [
  ⟨.globals, "__globals", [.instruction (.global ⟨"left", .int⟩), number 2, access .assign "left",
    number 0, plain .return_]⟩,
  ⟨.function, "put", [.instruction (.variable_ ⟨"c", .chr⟩), access .assign "c", access .load "c",
    .instruction (.invokeNative "printc"), plain .return_, number 0, plain .return_]⟩,
  ⟨.function, "spark", [.instruction (.variable_ ⟨"argv", ⟨.str, true⟩⟩), access .assign "argv",
    .instruction (.variable_ ⟨"argc", .int⟩), access .assign "argc", .label "0",
    access .load "left",
    jump .ifFalse "1", number 97, .instruction (.invoke "put"), plain .delete,
    access .decrease "left",
    jump .always "0", .label "1", access .load "left", plain .return_, number 0, plain .return_]⟩,
  trapSection]

theorem toBytecode_eq_countdownSections : countdown.toBytecode = .ok countdownSections := by
  cbv

theorem encode_countdownSections :
    encode (Section.renderAll countdownSections) = .ok (sectionsItems [] countdownSections) := by
  refine encode_of_natives (worded_of_parse tokenize_countdownText parse_countdownTokens)
    toBytecode_eq_countdownSections ?_
  simp [functions_countdown, countdownFunctions, FunctionDef.IsAssembly, natives]

set_option maxRecDepth 4000 in
theorem link_countdownSections :
    ∃ image, link (sectionsItems [] countdownSections) = .ok image ∧ image.length = 255 := by
  have hlength : (link (sectionsItems [] countdownSections)).toOption.map List.length =
      some 255 := by
    cbv
  exact Fallible.exists_ok_of_map hlength

end Program

/-- A program with its linked image. -/
structure Setting where
  program : Program
  names : Names
  kept : List Section
  symbols : SymbolValues
  image : List UInt8
  header : Header
  worded : program.Worded
  compiled : program.Compiled names kept
  linked : program.Linked names symbols image header
  length_image : image.length < 2 ^ 63
  length_globals : (globalNames program).length ≤ localSlotBase

namespace Setting

variable {name : String} {m : Machine} {s : State} {scope : List String} {P : String → Prop}
  {F : Firestorm.Frame} {slots : Slots}

/-- A program that is compiled, encoded and linked has an image. -/
theorem exists_of_link {p : Program} {sections : List Section} {items : List Bytecode.Item}
    {image : List UInt8} (hp : p.Worded) (hsections : p.toBytecode = .ok sections)
    (hencode : encode (Section.renderAll sections) = .ok items) (hlink : link items = .ok image)
    (himage : image.length < 2 ^ 63) (hglobals : p.globals.length ≤ localSlotBase) :
    ∃ σ : Setting, σ.program = p ∧ σ.image = image := by
  obtain ⟨N, kept, h, rfl⟩ := Program.compiled_of_toBytecode hp hsections
  rcases Program.Compiled.encode_eq hp h with ⟨hitems, -⟩ | ⟨_, _, herror, -⟩
  · obtain rfl := Except.ok.inj (hitems.symm.trans hencode)
    obtain ⟨symbols, header, hlinked⟩ := h.linked hp (himage.trans (by decide)) hlink
    have hlength : (globalNames p).length ≤ p.globals.length := by
      rw [globalNames, List.length_map]
      exact (sublist_firstDefinitions [] p.globals).length_le
    exact ⟨⟨p, N, kept, symbols, image, header, hp, h, hlinked, himage, hlength.trans hglobals⟩,
      rfl, rfl⟩
  · rw [herror] at hencode
    cases hencode

/-- The countdown has an image. -/
theorem exists_countdown : ∃ σ : Setting, σ.program = Program.countdown := by
  obtain ⟨image, hlink, hlength⟩ := Program.link_countdownSections
  obtain ⟨σ, hprogram, -⟩ := exists_of_link
    (worded_of_parse Program.tokenize_countdownText Program.parse_countdownTokens)
    Program.toBytecode_eq_countdownSections Program.encode_countdownSections hlink
    (by rw [hlength]; decide) (by decide)
  exact ⟨σ, hprogram⟩

variable (σ : Setting)

/-- The names of the globals. -/
def globals : List String := globalNames σ.program

theorem mem_globals : name ∈ σ.globals ↔ name ∈ σ.program.globals.map (·.binding.name) := by
  rw [globals, mem_globalNames, List.mem_map]

theorem mem_globals_of_get? {d : Datatype} (h : σ.names.globals.get? name = some d) :
    name ∈ σ.globals := by
  obtain ⟨g, hg, hbinding⟩ := GlobalTable.mem_of_get? σ.compiled.globals_eq h
  exact mem_globalNames.2 ⟨g, hg, by rw [hbinding]⟩

/-- The number of a global. -/
def globalSlot (name : String) : UInt64 := UInt64.ofNat (σ.globals.idxOf name)

theorem toNat_globalSlot (h : name ∈ σ.globals) :
    (σ.globalSlot name).toNat = σ.globals.idxOf name := by
  have hidx := List.idxOf_lt_length_iff.2 h
  have hlength : σ.globals.length ≤ 0x100000000 := σ.length_globals
  exact Nat.mod_eq_of_lt (by omega)

/-- The number of a local in a function with the given locals. -/
def localSlot (scope : List String) (name : String) : UInt64 :=
  UInt64.ofNat (localSlotBase + scope.idxOf name)

/-- The number under which code with the given locals before it knows a variable. -/
def slotOf (locals : List String) (name : String) : UInt64 :=
  if name ∈ locals then UInt64.ofNat (localSlotBase + locals.idxOf name)
  else (σ.symbols.get? (globalSymbol name)).getD 0

/-- A variable as the machine has it. -/
def cellOf (v : Variable) : Cell :=
  ⟨v.value, v.datatype.kind == .chr, v.datatype.array⟩

theorem assign_cellOf (v : Variable) (value : Word) :
    (cellOf v).assign value = cellOf (.holding v.datatype value) := by
  obtain ⟨⟨kind, array⟩, old⟩ := v
  cases kind <;> cases array <;> rfl

theorem element_cellOf (v : Variable) (value : Word) :
    v.datatype.element.truncate value = if (cellOf v).chr then value &&& 0xff else value := by
  obtain ⟨⟨kind, array⟩, old⟩ := v
  cases kind <;> rfl

/-- The globals of the machine are those of the interpreter. -/
def GlobalsAgree (globals : Firestorm.Frame) (slots : Slots) : Prop :=
  ∀ name v, globals.get? name = some v →
    name ∈ σ.globals ∧ slots (σ.globalSlot name) = some (cellOf v)

/-- The state of the machine is that of the interpreter, the stack apart. -/
structure StateAgrees (m : Machine) (s : State) : Prop where
  heap : s.heap = m.heap
  output : s.output = m.output.bytes
  globals : σ.GlobalsAgree m.globals s.globals

theorem StateAgrees.withStack {σ : Setting} (h : σ.StateAgrees m s) (stack : List Word) :
    σ.StateAgrees m { s with stack := stack } :=
  ⟨h.heap, h.output, h.globals⟩

theorem StateAgrees.push {σ : Setting} (h : σ.StateAgrees m s) (value : Word) :
    σ.StateAgrees m (s.push value) :=
  h.withStack _

theorem StateAgrees.withHeap {σ : Setting} (h : σ.StateAgrees m s) (heap : Heap) :
    σ.StateAgrees { m with heap := heap } { s with heap := heap } :=
  ⟨rfl, h.output, h.globals⟩

/-- The variables of an activation are those of the frame of the interpreter, as far as they are
among the given names. -/
def FrameAgrees (scope : List String) (P : String → Prop) (frame : Firestorm.Frame)
    (slots : Slots) : Prop :=
  ∀ name v, frame.get? name = some v →
    name ∉ σ.globals ∧ name ∈ scope ∧ (P name → slots (localSlot scope name) = some (cellOf v))

/-- Locals before some code of a function: they are the first of the locals of the function. -/
structure Place (scope locals : List String) : Prop where
  isPrefix : locals <+: scope
  length_scope : localSlotBase + scope.length ≤ 2 ^ 64

/-- Locals before some code of a function, none of which has the name of a global. -/
structure Site (scope locals : List String) : Prop extends Place scope locals where
  notMem : ∀ name ∈ locals, name ∉ σ.globals

/-! ### Numbers of variables -/

section

variable {σ} {scope locals : List String} {name other : String}

theorem toNat_localSlot (hlength : localSlotBase + scope.length ≤ 2 ^ 64) (h : name ∈ scope) :
    (localSlot scope name).toNat = localSlotBase + scope.idxOf name := by
  have hidx := List.idxOf_lt_length_iff.2 h
  exact Nat.mod_eq_of_lt (by omega)

theorem localSlot_inj (hlength : localSlotBase + scope.length ≤ 2 ^ 64) (h : name ∈ scope)
    (h' : other ∈ scope) (heq : localSlot scope name = localSlot scope other) : name = other := by
  have hnat := congrArg UInt64.toNat heq
  rw [toNat_localSlot hlength h, toNat_localSlot hlength h'] at hnat
  exact (List.idxOf_inj h).1 (by omega)

theorem globalSlot_inj (h : name ∈ σ.globals) (h' : other ∈ σ.globals)
    (heq : σ.globalSlot name = σ.globalSlot other) : name = other := by
  have hnat := congrArg UInt64.toNat heq
  rw [σ.toNat_globalSlot h, σ.toNat_globalSlot h'] at hnat
  exact (List.idxOf_inj h).1 hnat

theorem Place.mem_scope (hplace : Place scope locals) (h : name ∈ locals) : name ∈ scope :=
  hplace.isPrefix.subset h

theorem Place.slotOf_local (hplace : Place scope locals) (h : name ∈ locals) :
    σ.slotOf locals name = localSlot scope name := by
  obtain ⟨rest, hrest⟩ := hplace.isPrefix
  rw [slotOf, if_pos h, localSlot, ← hrest, List.idxOf_append_of_mem h]

theorem Site.slotOf_global (hsite : σ.Site scope locals) (h : name ∈ σ.globals) :
    σ.slotOf locals name = σ.globalSlot name := by
  rw [slotOf, if_neg fun hmem => hsite.notMem name hmem h, σ.linked.slot_eq name h]
  rfl

theorem Place.isLocal (hplace : Place scope locals) (h : name ∈ locals) :
    localSlotBase ≤ (σ.slotOf locals name).toNat := by
  rw [hplace.slotOf_local h, toNat_localSlot hplace.length_scope (hplace.mem_scope h)]
  omega

theorem Site.not_isLocal (hsite : σ.Site scope locals) (h : name ∈ σ.globals) :
    ¬ localSlotBase ≤ (σ.slotOf locals name).toNat := by
  rw [hsite.slotOf_global h, σ.toNat_globalSlot h]
  have hidx := List.idxOf_lt_length_iff.2 h
  have hlength : σ.globals.length ≤ localSlotBase := σ.length_globals
  omega

/-- A name in scope that is not that of a global is that of a local. -/
theorem mem_locals_of_named (hnamed : Named σ.names locals name) (h : name ∉ σ.globals) :
    name ∈ locals :=
  hnamed.resolve_right fun ⟨_, hd⟩ => h (σ.mem_globals_of_get? hd)

end

/-! ### Accesses to variables -/

theorem FrameAgrees.set {σ : Setting} {R : String → Prop} (h : σ.FrameAgrees scope P F slots)
    (hlength : localSlotBase + scope.length ≤ 2 ^ 64) (hmem : name ∈ scope)
    (hname : name ∉ σ.globals) (hR : ∀ other, other ≠ name → R other → P other) (v : Variable) :
    σ.FrameAgrees scope R (F.set name v)
      (Function.update slots (localSlot scope name) (some (cellOf v))) := by
  intro other w hw
  rw [Table.get?_set] at hw
  split at hw
  · next heq =>
    subst heq
    cases hw
    exact ⟨hname, hmem, fun _ => Function.update_self ..⟩
  · next hne =>
    obtain ⟨hglobal, hother, hslot⟩ := h other w hw
    refine ⟨hglobal, hother, fun hRother => ?_⟩
    rw [Function.update_of_ne fun heq => hne (localSlot_inj hlength hother hmem heq)]
    exact hslot (hR other hne hRother)

/-- A variable whose number is used anew is no longer known. -/
theorem FrameAgrees.forget {σ : Setting} (h : σ.FrameAgrees scope P F slots)
    (hlength : localSlotBase + scope.length ≤ 2 ^ 64) (hmem : name ∈ scope) (cell : Option Cell) :
    σ.FrameAgrees scope (fun other => P other ∧ other ≠ name) F
      (Function.update slots (localSlot scope name) cell) := by
  intro other v hv
  obtain ⟨hglobal, hother, hslot⟩ := h other v hv
  refine ⟨hglobal, hother, fun ⟨hP, hne⟩ => ?_⟩
  rw [Function.update_of_ne fun heq => hne (localSlot_inj hlength hother hmem heq)]
  exact hslot hP

theorem GlobalsAgree.set {σ : Setting} {globals : Firestorm.Frame}
    (h : σ.GlobalsAgree globals slots) (hname : name ∈ σ.globals) (v : Variable) :
    σ.GlobalsAgree (globals.set name v)
      (Function.update slots (σ.globalSlot name) (some (cellOf v))) := by
  intro other w hw
  rw [Table.get?_set] at hw
  split at hw
  · next heq =>
    subst heq
    cases hw
    exact ⟨hname, Function.update_self ..⟩
  · next hne =>
    obtain ⟨hother, hslot⟩ := h other w hw
    refine ⟨hother, ?_⟩
    rw [Function.update_of_ne fun heq => hne (globalSlot_inj hother hname heq)]
    exact hslot

/-- A variable is found as before where the global is as before, or where it is none. -/
theorem StateAgrees.variableOf_eq {σ : Setting} {m' : Machine} {v : Variable}
    (hs : σ.StateAgrees m s) (hv : Interpreter.variableOf F m name = some v)
    (h : name ∈ σ.globals → m'.globals.get? name = m.globals.get? name) :
    Interpreter.variableOf F m' name = some v := by
  unfold Interpreter.variableOf at hv ⊢
  cases hframe : F.get? name with
  | some _ => rwa [hframe] at hv
  | none =>
    rw [hframe, Option.none_or] at hv
    rw [Option.none_or, h (hs.globals name v hv).1, hv]

section

variable {σ} {scope locals : List String} {P : String → Prop} {F : Firestorm.Frame} {slots : Slots}
  {m : Machine} {s : State} {name : String} (hsite : σ.Site scope locals)
  (hnamed : Named σ.names locals name) (hF : σ.FrameAgrees scope P F slots)
  (hs : σ.StateAgrees m s)
include hsite hnamed hF hs

/-- The machine finds the variable that the interpreter finds. -/
theorem lookup_slotOf (hP : P name) {v : Variable} (hv : Interpreter.variableOf F m name = some v)
    (code : List UInt8) (noreturn : Bool) :
    StackMachine.lookup ⟨code, slots, noreturn⟩ s (σ.slotOf locals name) = some (cellOf v) := by
  unfold StackMachine.lookup
  cases hframe : F.get? name with
  | some v' =>
    obtain rfl : v' = v := by simpa [Interpreter.variableOf, hframe] using hv
    obtain ⟨hglobal, hmem, hslot⟩ := hF name v' hframe
    have hlocal := mem_locals_of_named hnamed hglobal
    rw [if_pos (hsite.isLocal hlocal), hsite.slotOf_local hlocal]
    exact hslot hP
  | none =>
    have hget : m.globals.get? name = some v := by simpa [Interpreter.variableOf, hframe] using hv
    obtain ⟨hmem, hslot⟩ := hs.globals name v hget
    rw [if_neg (hsite.not_isLocal hmem), hsite.slotOf_global hmem]
    exact hslot

/-- A change of a variable keeps the states in agreement. -/
theorem store_slotOf {g : Variable → Word} {F' : Firestorm.Frame} {m' : Machine}
    (h : Interpreter.modifyVariable F name g m = (.ok F', m')) (code : List UInt8)
    (noreturn : Bool) : ∃ v slots' s', Interpreter.variableOf F m name = some v ∧
      store ⟨code, slots, noreturn⟩ s (σ.slotOf locals name)
        (cellOf (.holding v.datatype (g v))) = .next ⟨code, slots', noreturn⟩ s' ∧
      σ.FrameAgrees scope P F' slots' ∧ σ.StateAgrees m' s' ∧ s'.stack = s.stack := by
  rw [Interpreter.modifyVariable_apply] at h
  cases hframe : F.get? name with
  | some v =>
    rw [hframe] at h
    cases h
    obtain ⟨hglobal, hmem, -⟩ := hF name v hframe
    have hlocal := mem_locals_of_named hnamed hglobal
    refine ⟨v, _, s, by simp [Interpreter.variableOf, hframe], ?_,
      hF.set hsite.length_scope hmem hglobal (fun _ _ h => h) (.holding v.datatype (g v)), hs, rfl⟩
    rw [store, if_pos (hsite.isLocal hlocal), hsite.slotOf_local hlocal]
  | none =>
    cases hget : m.globals.get? name with
    | none =>
      rw [hframe, hget] at h
      cases h
    | some v =>
      rw [hframe, hget] at h
      cases h
      obtain ⟨hmem, -⟩ := hs.globals name v hget
      refine ⟨v, slots, { s with globals := Function.update s.globals (σ.globalSlot name) _ },
        by simp [Interpreter.variableOf, hframe, hget], ?_, hF,
        ⟨hs.heap, hs.output, hs.globals.set hmem (.holding v.datatype (g v))⟩, rfl⟩
      rw [store, if_neg (hsite.not_isLocal hmem), hsite.slotOf_global hmem]

end

/-- The machine finds a variable where the interpreter finds it, whatever the globals hold. -/
def Knows (locals : List String) (F : Firestorm.Frame) (slots : Slots) (name : String) : Prop :=
  ∀ {m : Machine} {s : State} {v : Variable}, σ.StateAgrees m s →
    Interpreter.variableOf F m name = some v → ∀ (code : List UInt8) (noreturn : Bool),
      StackMachine.lookup ⟨code, slots, noreturn⟩ s (σ.slotOf locals name) = some (cellOf v)

theorem Site.knows {σ : Setting} {locals : List String} (hsite : σ.Site scope locals)
    (hnamed : Named σ.names locals name) (hF : σ.FrameAgrees scope P F slots) (hP : P name) :
    σ.Knows locals F slots name :=
  fun hs hv => lookup_slotOf hsite hnamed hF hs hP hv

end Setting

end Firestorm
