import Mathlib
import Firestorm.Proofs.Native.Closure

/-!
# The symbols of the runtime

The system calls `main`, and a function that must not return calls `unreachable` at its end. A
program may have functions of these names, and if it has none they are added. Whether one is added
is decided from all functions of the program, whether a function stays is decided from the calls. At
the trap the two decisions agree, because a function that ends in the trap calls it. At `main` they
do not: nothing in the program need call it.

## Main results

* `Native.Assembled.count_defined`.
* `Program.runtimeSymbols_of_toAssembly`: how often native code defines `main` and `unreachable`.
-/

namespace Firestorm

namespace Native

namespace Assembled

variable {n : Nat} {branches : Bool} {p : Program} {N : Names} {kept : List (FunctionCode n)}
  {entry trap data : List (Primitive n)} {pool : List String} {code : List (Primitive n)}
  (h : Assembled branches p N kept entry trap data pool code)

include h

theorem mem_names_iff {name : String} :
    name ∈ kept.map (·.function.name) ↔ p.function? name ≠ none ∧ p.Retained name := by
  constructor
  · intro hname
    refine ⟨h.function?_of_mem_names hname, ?_⟩
    obtain ⟨u, hu, rfl⟩ := List.mem_map.1 hname
    exact (h.mem_kept_iff _ (h.sublist.subset (List.mem_map_of_mem hu))).1 ⟨u, hu, rfl⟩
  · rintro ⟨hsome, hretained⟩
    obtain ⟨f, hf⟩ := Option.ne_none_iff_exists'.1 hsome
    rw [← FunctionTable.get?_of_ofProgram h.functions] at hf
    obtain ⟨hmem, rfl⟩ := FunctionTable.mem_of_get? h.functions hf
    obtain ⟨u, hu, rfl⟩ := (h.mem_kept_iff f hmem).2 hretained
    exact List.mem_map_of_mem hu

/-- A name that cannot be a label inside a function or a label of data is defined by the function
that has it or is added. -/
theorem count_defined {name : String} (hinner : name.toList.head? ≠ some '.')
    (hdata : name.toList.head? ≠ some '_') :
    (code.flatMap (Primitive.defined branches)).count name =
      (if name ∈ kept.map (·.function.name) then 1 else 0) +
        ((entry ++ trap).flatMap (Primitive.defined branches)).count name := by
  have hlabels : (kept.flatMap (FunctionCode.labels branches)).count name = 0 :=
    List.count_eq_zero.2 fun hmem => hinner (h.head?_of_mem_labels hmem)
  have hglobals : (dataLabels p pool).count name = 0 :=
    List.count_eq_zero.2 fun hmem => hdata (head?_of_mem_dataLabels hmem)
  rw [h.defined_perm.count_eq, List.count_append, List.count_append, List.count_append, hlabels,
    hglobals, h.nodup_names.count]
  omega

/-- A program with an entry point defines `main` once, unless a function of that name is not
retained. -/
theorem count_systemEntry (hpoint : p.Retained Program.entryPoint) :
    (code.flatMap (Primitive.defined branches)).count systemEntry ≤ 1 ∧
      ((code.flatMap (Primitive.defined branches)).count systemEntry = 1 ↔
        p.function? systemEntry = none ∨ p.Retained systemEntry) := by
  have htrap : (trap.flatMap (Primitive.defined branches)).count systemEntry = 0 := by
    rcases h.trap_eq with ⟨rfl, -⟩ | ⟨rfl, -⟩ <;> rfl
  rw [h.count_defined (by decide) (by decide), List.flatMap_append, List.count_append, htrap]
  rcases h.entry_eq with ⟨rfl, -, hnone⟩ | ⟨rfl, hown⟩
  · have hentry : ([Primitive.entry Program.entryPoint].flatMap
        (Primitive.defined (n := n) branches)).count systemEntry = 1 := rfl
    rw [if_neg fun hmem => (h.mem_names_iff.1 hmem).1 hnone, hentry]
    simp [hnone]
  · have hown := hown hpoint
    by_cases hretained : p.Retained systemEntry
    · rw [if_pos (h.mem_names_iff.2 ⟨hown, hretained⟩)]
      simp [hretained]
    · rw [if_neg fun hmem => hretained (h.mem_names_iff.1 hmem).2]
      simp [hown, hretained]

/-- If a function ends in the trap, the trap is defined once. -/
theorem count_unreachable {u : FunctionCode n} (hu : u ∈ kept) (htrap : u.function.EndsInTrap) :
    (code.flatMap (Primitive.defined branches)).count Program.unreachable = 1 := by
  have hf := h.sublist.subset (List.mem_map_of_mem hu)
  have hretained : p.Retained Program.unreachable :=
    .trap hf ((h.mem_kept_iff _ hf).1 ⟨u, hu, rfl⟩) htrap
  have hentry : (entry.flatMap (Primitive.defined branches)).count Program.unreachable = 0 := by
    rcases h.entry_eq with ⟨rfl, -⟩ | ⟨rfl, -⟩ <;> rfl
  rw [h.count_defined (by decide) (by decide), List.flatMap_append, List.count_append, hentry]
  rcases h.trap_eq with ⟨rfl, -, hnone⟩ | ⟨rfl, hown⟩
  · have hadded : ([Primitive.trap Program.unreachable].flatMap
        (Primitive.defined (n := n) branches)).count Program.unreachable = 1 := by
      simp [Primitive.defined]
    rw [if_neg fun hmem => (h.mem_names_iff.1 hmem).1 hnone, hadded]
  · have hown := hown ⟨u, hu, htrap.2⟩
    rw [if_pos (h.mem_names_iff.2 ⟨hown, hretained⟩)]
    rfl

end Assembled

end Native

open Native

/-- The native code of a program with an entry point defines `main` at most once, and once precisely
if the program has no function of that name or retains the one that it has. If a function of the
code calls `unreachable` at its end, the code defines `unreachable` once. -/
theorem Program.runtimeSymbols_of_toAssembly {p : Program} {a : Architecture} {asm : String}
    (h : p.toAssembly a = .ok asm) {f : FunctionDef} (hf : f ∈ p.functions)
    (hname : f.name = Program.entryPoint) :
    ∃ code, p.toNative a.convention = .ok code ∧ asm = String.join (code.map a.render) ∧
      (code.flatMap a.defined).count systemEntry ≤ 1 ∧
      ((code.flatMap a.defined).count systemEntry = 1 ↔
        p.function? systemEntry = none ∨ p.Retained systemEntry) ∧
      ((∃ frame, .epilogue frame true ∈ code) →
        (code.flatMap a.defined).count Program.unreachable = 1) := by
  obtain ⟨code, hnative, hasm⟩ := Fallible.except_bind_eq_ok.1 h
  cases hasm
  obtain ⟨N, kept, entry, trap, data, pool, hall⟩ := assembled_of_toNative a.branches hnative
  obtain ⟨hle, hone⟩ := hall.count_systemEntry (hname ▸ .entryPoint hf hname)
  refine ⟨code, hnative, rfl, ?_⟩
  rw [a.defined_eq]
  refine ⟨hle, hone, ?_⟩
  rintro ⟨frame, hmem⟩
  obtain ⟨u, hu, hmem⟩ := (hall.mem_code_iff rfl).1 hmem
  exact hall.count_unreachable hu ((hall.unitOf u hu).endsInTrap frame hmem)

/-- A program whose function `main` is called and does not return. -/
def Program.calledMain : Program := ⟨[
  .function ⟨"main", { noreturn := true }, [], .int, .statements []⟩,
  .function ⟨"spark", {}, [⟨"argc", .int⟩, ⟨"argv", .arrayOf .str⟩], .int,
    .statements [.return_ (some (.call "main" []))]⟩]⟩

/-- The function `main` of the program and the trap that it needs are both there. -/
theorem Program.runtimeSymbols_of_toAssembly_calledMain : ∃ asm code,
    calledMain.toAssembly .x86 = .ok asm ∧ calledMain.toNative X86.convention = .ok code ∧
      (code.flatMap Architecture.x86.defined).count systemEntry = 1 ∧
      (code.flatMap Architecture.x86.defined).count unreachable = 1 := by
  have htrap : ((calledMain.toNative X86.convention).toOption.map fun code =>
      code.contains (.epilogue 0 true)) = some true := by
    cbv
  obtain ⟨code, hcode, htrap⟩ := Fallible.exists_ok_of_map htrap
  have hmem : .epilogue 0 true ∈ code := List.contains_iff_mem.1 htrap
  have hasm : calledMain.toAssembly .x86 = .ok (String.join (code.map Architecture.x86.render)) :=
    Fallible.except_bind_eq_ok.2 ⟨code, hcode, rfl⟩
  obtain ⟨f, hf, hname, hcallee⟩ : ∃ f ∈ calledMain.functions, f.name = Program.entryPoint ∧
    systemEntry ∈ f.callees := ⟨_, List.mem_cons_of_mem _ (List.mem_cons_self ..), rfl, by decide⟩
  obtain ⟨code', hcode', -, -, hone, htrapped⟩ := runtimeSymbols_of_toAssembly hasm hf hname
  obtain rfl : code = code' := Except.ok.inj (hcode.symm.trans hcode')
  refine ⟨_, code, hasm, hcode, hone.2 (.inr ?_), htrapped ⟨0, hmem⟩⟩
  exact .call hf (.entryPoint hf hname) hcallee

/-- A program that does not call its function `main`. -/
def Program.strandedMain : Program := ⟨[
  .function ⟨"main", {}, [], .int, .statements [.return_ (some (.literal (.number 0)))]⟩,
  .function ⟨"spark", {}, [⟨"argc", .int⟩, ⟨"argv", .arrayOf .str⟩], .int,
    .statements [.return_ (some (.literal (.number 0)))]⟩]⟩

/-- The code of `strandedMain` does not define `main`. -/
theorem Program.strandedMain_undefined : ∃ asm code,
    strandedMain.toAssembly .x86 = .ok asm ∧ strandedMain.toNative X86.convention = .ok code ∧
      (∃ f ∈ strandedMain.functions, f.name = Program.entryPoint ∧ ¬ f.IsAssembly) ∧
      (code.flatMap Architecture.x86.defined).count systemEntry = 0 := by
  have hnative : ((strandedMain.toNative X86.convention).toOption.map fun code =>
      (code.flatMap Architecture.x86.defined).count systemEntry) = some 0 := by
    cbv
  obtain ⟨code, hcode, hcount⟩ := Fallible.exists_ok_of_map hnative
  refine ⟨_, code, Fallible.except_bind_eq_ok.2 ⟨code, hcode, rfl⟩, hcode, ?_, hcount⟩
  exact ⟨_, List.mem_cons_of_mem _ (List.mem_cons_self ..), rfl, by rintro ⟨text, h⟩; cases h⟩

end Firestorm
