import Firestorm.Proofs.Bytecode.Calls

/-!
# The protocol of calls

Arguments are pushed in order, and the code of a function takes them in reverse order. What it
leaves on the stack when it returns is the value that the caller finds there. The interpreter binds
arguments in order and cuts down the value of a function that returns a character.

## Main definitions

* `Setting.Activation.entrySlots`: the variables of the machine when the body of a function starts.

## Main results

* `Setting.Activation.callProtocol`: what parameters hold and what callers receive, and for which
  functions that is what the interpreter has.
-/

namespace Firestorm

theorem Datatype.truncate_eq_self_iff {d : Datatype} :
    (∀ value, d.truncate value = value) ↔ d ≠ .chr := by
  constructor
  · rintro h rfl
    exact absurd (h 256) (by decide)
  · exact fun h => Datatype.truncate_of_ne_chr h

namespace Setting

open Bytecode StackMachine

/-! ### Parameters with one name -/

theorem exists_variableIn {pairs : List (Binding × Word)} {name : String}
    (h : name ∈ pairs.map (·.1.name)) :
    ∃ p ∈ pairs, variableIn pairs name = some (.holding p.1.datatype p.2) := by
  obtain ⟨q, hq, rfl⟩ := List.mem_map.1 h
  cases hfind : pairs.find? (·.1.name == q.1.name) with
  | none => exact absurd (List.find?_eq_none.1 hfind q hq) (by simp)
  | some p => exact ⟨p, List.mem_of_find?_eq_some hfind, by rw [variableIn, hfind]; rfl⟩

theorem cellOf_holding_zero_ne_one (d d' : Datatype) :
    cellOf (.holding d 0) ≠ cellOf (.holding d' 1) := by
  intro h
  have hvalue := congrArg Cell.value h
  obtain ⟨kind, array⟩ := d
  obtain ⟨kind', array'⟩ := d'
  cases kind <;> cases array <;> cases kind' <;> cases array' <;> exact absurd hvalue (by decide)

/-- The first and the last of some arguments for one name are the same for all arguments exactly if
the names are distinct. -/
theorem variableIn_reverse_iff {parameters : List Binding} :
    (∀ values : List Word, parameters.length = values.length → ∀ b ∈ parameters,
      (variableIn (parameters.zip values) b.name).map cellOf =
        (variableIn (parameters.zip values).reverse b.name).map cellOf) ↔
      (parameters.map (·.name)).Nodup := by
  constructor
  · intro h
    induction parameters with
    | nil => exact List.nodup_nil
    | cons b rest ih =>
      have hnew : b.name ∉ rest.map (·.name) := by
        -- The first parameter gets zero, all others get one.
        intro hmem
        have hlength : rest.length = (List.replicate rest.length (1 : Word)).length := by simp
        rw [← Interpreter.map_fst_name_zip hlength, ← List.mem_reverse, ← List.map_reverse] at hmem
        obtain ⟨p, hp, hlast⟩ := exists_variableIn hmem
        have hone : p.2 = 1 := List.eq_of_mem_replicate (List.of_mem_zip (List.mem_reverse.1 hp)).2
        have hvalues := h (0 :: List.replicate rest.length 1) (by simp) b (List.mem_cons_self ..)
        rw [List.zip_cons_cons, variableIn_cons, if_pos rfl, List.reverse_cons, variableIn_append,
          hlast, hone] at hvalues
        exact cellOf_holding_zero_ne_one _ _ (Option.some_inj.1 hvalues)
      refine List.nodup_cons.2 ⟨hnew, ih fun values hlength b' hb' => ?_⟩
      have hne : b.name ≠ b'.name := fun heq => hnew (heq ▸ List.mem_map_of_mem hb')
      have hvalues := h (0 :: values) (by simpa using hlength) b' (List.mem_cons_of_mem _ hb')
      rw [List.zip_cons_cons, variableIn_cons, if_neg hne, List.reverse_cons, variableIn_append,
        variableIn_cons, if_neg hne] at hvalues
      rw [hvalues]
      exact congrArg _ Option.or_none
  · intro hnodup values hlength b _
    rw [variableIn_reverse (Interpreter.map_fst_name_zip hlength ▸ hnodup)]

/-! ### Calls -/

theorem call_of_execBlock {functions : FunctionTable} {fuel : Nat} {f : FunctionDef}
    {arguments : List (Option Datatype × Word)} {body : List Stmt} {F : Firestorm.Frame}
    {m m' : Machine} {value : Word} (hbody : f.body = .statements body)
    (hnoreturn : f.attributes.noreturn = false) (hlength : f.parameters.length = arguments.length)
    (hcheck : Interpreter.checkArguments f.name f.parameters arguments = .ok ())
    (hexec : Interpreter.execBlock functions fuel
      (Interpreter.enter f.parameters (arguments.map Prod.snd)) body m =
      (.ok (F, some value), m')) :
    Interpreter.call functions (fuel + 1) f arguments m = (.ok (f.returns.truncate value), m') := by
  rw [Interpreter.call, if_neg (not_not.2 hlength), hcheck]
  simp only [hbody]
  rw [Exec.bind_apply, hexec]
  simp only [hnoreturn]
  rfl

/-- A function of a linked program takes its arguments from the stack, and each parameter holds what
it holds in the interpreter, for all arguments, exactly if the parameters are distinct. A function
that returns leaves the value on the stack as it is, while the interpreter cuts it down to the
datatype that the function returns; the two are the same for all values exactly if that datatype is
not the character. -/
theorem Activation.callProtocol {σ : Setting} (a : σ.Activation) :
    (∃ address, σ.symbols.get? a.function.name = some address ∧
      ∀ values stack s, a.function.parameters.length = values.length →
        s.stack = values.reverse ++ stack →
        Reaches σ.image σ.header.unreachable (.running (.entering σ.image address) s)
          (a.at_ (σ.naming a.prologue) a.rest (a.entrySlots values) { s with stack := stack })) ∧
    ((∀ values, a.function.parameters.length = values.length → ∀ b ∈ a.function.parameters,
        a.entrySlots values (localSlot a.scope b.name) =
          ((Interpreter.enter a.function.parameters values).get? b.name).map cellOf) ↔
      (a.function.parameters.map (·.name)).Nodup) ∧
    (a.function.attributes.noreturn = false →
      (∀ k more slots s, Reaches σ.image σ.header.unreachable
        (a.at_ k (plain .return_ :: more) slots s) (.ended (.returned s))) ∧
      ∀ fuel arguments F m value m', a.function.parameters.length = arguments.length →
        Interpreter.checkArguments a.function.name a.function.parameters arguments = .ok () →
        Interpreter.execBlock σ.names.functions fuel (Interpreter.enter a.function.parameters
          (arguments.map Prod.snd)) a.body m = (.ok (F, some value), m') →
        Interpreter.call σ.names.functions (fuel + 1) a.function arguments m =
          (.ok (a.function.returns.truncate value), m')) ∧
    ((∀ value, a.function.returns.truncate value = value) ↔ a.function.returns ≠ .chr) := by
  refine ⟨?_, ?_, fun hnoreturn => ⟨a.reaches_returned hnoreturn, ?_⟩,
    Datatype.truncate_eq_self_iff⟩
  · obtain ⟨address, haddress, -⟩ := a.lies.entry
    exact ⟨address, haddress, fun values stack s => a.reaches_body haddress⟩
  · rw [← variableIn_reverse_iff]
    refine forall_congr' fun values => imp_congr_right fun _ => forall_congr' fun b =>
      imp_congr_right fun hb => ?_
    rw [a.entrySlots_apply values hb, get?_enter]
  · exact fun fuel arguments F m value m' => call_of_execBlock a.body_eq hnoreturn

/-- A function of the countdown agrees with the interpreter on all arguments and values. -/
theorem callProtocol_countdown : ∃ (σ : Setting) (a : σ.Activation), σ.program = Program.countdown ∧
    a.function.name = "put" ∧
    (∀ values, a.function.parameters.length = values.length → ∀ b ∈ a.function.parameters,
      a.entrySlots values (localSlot a.scope b.name) =
        ((Interpreter.enter a.function.parameters values).get? b.name).map cellOf) ∧
    ∀ value, a.function.returns.truncate value = value := by
  obtain ⟨σ, hσ⟩ := exists_countdown
  obtain ⟨f, hf, hname, hassembly, hnodup, hreturns⟩ : ∃ f ∈ Program.countdown.functions,
      f.name = "put" ∧ ¬ f.IsAssembly ∧ (f.parameters.map (·.name)).Nodup ∧ f.returns ≠ .chr :=
    ⟨_, List.mem_cons_of_mem _ (List.mem_cons_self ..),
      rfl, by simp [FunctionDef.IsAssembly], by decide, by decide⟩
  have hreachable : Program.countdown.Reachable f.name := by
    rw [hname]
    refine .call (f := ⟨"spark", {}, [⟨"argc", .int⟩, ⟨"argv", ⟨.str, true⟩⟩], .int, .statements [
      .while_ (.lookup "left") [.expr (.call "put" [.literal (.chr 97)]), .decrement "left"],
      .return_ (some (.lookup "left"))]⟩)
      (by simp [Program.functions_countdown, Program.countdownFunctions]) .entryPoint ?_
    decide
  rw [← hσ] at hf hreachable
  obtain ⟨a, rfl⟩ := σ.exists_activation hf hreachable hassembly
  have hprotocol := a.callProtocol
  exact ⟨σ, a, hσ, hname, hprotocol.2.1.2 hnodup, hprotocol.2.2.2.2 hreturns⟩

/-! ### A function with two parameters of one name that returns a character -/

/-- A program whose function has two parameters with one name and returns a character. -/
def twice : Program := ⟨[
  .function ⟨"f", {}, [⟨"a", .int⟩, ⟨"a", .int⟩], .chr,
    .statements [.return_ (some (.binary .add (.lookup "a") (.literal (.number 256))))]⟩,
  .function ⟨"spark", {}, [⟨"argc", .int⟩, ⟨"argv", ⟨.str, true⟩⟩], .int,
    .statements [.return_ (some (.call "f" [.literal (.number 1), .literal (.number 2)]))]⟩]⟩

set_option maxRecDepth 4000 in
theorem execute_twice :
    (twice.image?.bind fun image => execute image 100 (.ofCapacity 4) []) = some (257, #[]) := by
  rw [Program.image?_of_statements (by decide) (by decide)
    (by simp [twice, Program.functions, FunctionDef.IsAssembly])]
  cbv

/-- The interpreter takes the last argument and returns its lowest byte, the stack machine takes the
first argument and returns the whole value. -/
theorem callProtocol_twice :
    (Interpreter.start twice (.ofCapacity 4) {}).toOption.map (fun i => (i.run 20 []).1) =
    some (.ok 2) ∧
    (twice.image?.bind fun image => execute image 100 (.ofCapacity 4) []) = some (257, #[]) := by
  refine ⟨?_, execute_twice⟩
  cbv

end Setting

end Firestorm
