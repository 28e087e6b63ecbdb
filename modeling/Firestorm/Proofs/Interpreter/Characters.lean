import Firestorm.Proofs.Interpreter.Changes
import Firestorm.Proofs.Resolution

/-!
# Characters are bytes

A variable of the scalar datatype `chr` keeps the low byte of what is assigned to it. Variables get
values in many ways: they are declared, assigned to, counted up and down, they are parameters, or
globals with an initial value that may be the pointer to a string. All of these are assignments, so
that such a variable never holds anything but a byte, wherever a run comes, whatever runs there were
before, and behind faults as well.

## Main definitions

* `Interpreter.Shows`.

## Main results

* `Interpreter.isByte_of_assigned`.
* `Interpreter.characters_are_bytes`: characters are bytes wherever a run comes.
-/

namespace Firestorm

/-- A word is a byte. -/
def Word.IsByte (w : Word) : Prop := 0 ≤ w.toInt ∧ w.toInt ≤ 255

namespace Interpreter

/-- A scalar character keeps the low byte of a word. -/
theorem isByte_truncate (value : Word) : (Datatype.chr.truncate value).IsByte := by
  have hnat : (value &&& 0xff).toBitVec.toNat ≤ 255 := by
    rw [Int64.toBitVec_and, BitVec.toNat_and]
    exact Nat.and_le_right
  have hint : (value &&& 0xff).toInt = (value &&& 0xff).toBitVec.toNat := by
    rw [← Int64.toInt_toBitVec]
    exact BitVec.toInt_eq_toNat_of_lt (by omega)
  change 0 ≤ (value &&& 0xff).toInt ∧ (value &&& 0xff).toInt ≤ 255
  omega

/-- A character that has got its value by an assignment is a byte. -/
theorem isByte_of_assigned {F : Frame} (hF : Assigned ∅ F) {name : String} {v : Variable}
    (hv : F.get? name = some v) (hchr : v.datatype = .chr) : v.value.IsByte := by
  induction hF with
  | refl => simp at hv
  | tail _ hassigns ih =>
    obtain ⟨other, d, value, rfl⟩ := hassigns
    rw [Table.get?_set] at hv
    split at hv
    · cases hv
      have hd : d = .chr := hchr
      rw [hd]
      exact isByte_truncate value
    · exact ih hv

/-! ### Globals -/

theorem assigned_of_start {p : Program} {heap : Heap} {output : Output} {i : Interpreter}
    (h : start p heap output = .ok i) : Assigned ∅ i.machine.globals := by
  refine start_induction (P := fun m => Assigned ∅ m.globals) h .refl fun m g m' hg hm => ?_
  obtain ⟨-, value, heap, -, -, rfl⟩ := defineGlobal_eq_ok.1 hg
  exact hm.set _ _ _

/-! ### Runs -/

/-- The variables of the function at work, and the state. Between runs no function is at work.
During a run they can be seen whenever a task is taken up, when the work on it has ended or has been
broken off, and with the variables that a statement leaves. -/
inductive Shows (i : Interpreter) : Frame → Machine → Prop
  | idle : Shows i ∅ i.machine
  | before {fuel arguments v} (hv : i.Visits fuel arguments v) : Shows i v.task.frame v.machine
  | behind {fuel arguments v} (hv : i.Visits fuel arguments v) :
    Shows i v.task.frame (v.behind i.functions)
  | leaves {fuel arguments v F} (hv : i.Visits fuel arguments v) (hF : v.Leaves i.functions F) :
    Shows i F (v.behind i.functions)

theorem Shows.assigned {i : Interpreter} {F : Frame} {m : Machine} (h : i.Shows F m) :
    Assigned i.machine.globals m.globals ∧ Assigned ∅ F := by
  cases h with
  | idle => exact ⟨.refl, .refl⟩
  | before hv => exact hv.assigned
  | behind hv =>
    exact ⟨hv.assigned.1.trans (assigned_of_changes (changes_behind i.functions _)), hv.assigned.2⟩
  | leaves hv hF =>
    exact ⟨hv.assigned.1.trans (assigned_of_changes (changes_behind i.functions _)),
      hv.assigned.2.trans (updated_of_leaves hF).assigned⟩

/-- A function with statements returns a byte if it returns a scalar character. -/
theorem isByte_of_call {functions : FunctionTable} {fuel : Nat} {f : FunctionDef} {body : List Stmt}
    {arguments : List (Option Datatype × Word)} {m m' : Machine} {value : Word}
    (hbody : f.body = .statements body) (hchr : f.returns = .chr)
    (h : call functions fuel f arguments m = (.ok value, m')) : value.IsByte := by
  cases fuel with
  | zero =>
    rw [call] at h
    cases h
  | succ fuel =>
    have hthrough : Through (fun _ _ => True) (fun _ => True) Word.IsByte
        (call functions (fuel + 1) f arguments) m := by
      rw [call]
      split
      · exact .of_error rfl trivial
      · split
        · exact .of_error rfl trivial
        · simp only [hbody]
          refine Through.bind (P := fun _ => True) ⟨.single trivial, fun _ => trivial,
            fun _ => trivial⟩ fun result m₁ _ _ => ?_
          split
          · exact .of_error rfl trivial
          · refine .pure ?_
            rw [hchr]
            cases result.2 with
            | none => exact ⟨le_rfl, by decide⟩
            | some returned => exact isByte_truncate returned
    exact hthrough.value h

/-- Characters are bytes: whatever runs there were before and however they ended, every local,
parameter and global of the scalar datatype `chr` holds a byte whenever it can be seen, and so does
what a function with statements returns as a scalar `chr`. -/
theorem characters_are_bytes {p : Program} {heap : Heap} {output : Output} {i₀ i : Interpreter}
    (hstart : start p heap output = .ok i₀) (hruns : Relation.ReflTransGen Follows i₀ i) :
    (∀ F m, i.Shows F m → ∀ name v, F.get? name = some v ∨ m.globals.get? name = some v →
      v.datatype = .chr → v.value.IsByte) ∧
    ∀ fuel f body arguments m value m', f.body = .statements body → f.returns = .chr →
      call i.functions fuel f arguments m = (.ok value, m') → value.IsByte := by
  have hglobals : Assigned ∅ i.machine.globals :=
    (assigned_of_start hstart).trans (assigned_of_follows hruns)
  refine ⟨fun F m hshows name v hv hchr => ?_,
    fun fuel f body arguments m value m' hbody hchr hcall => ?_⟩
  · obtain ⟨hm, hF⟩ := hshows.assigned
    rcases hv with hlocal | hglobal
    · exact isByte_of_assigned hF hlocal hchr
    · exact isByte_of_assigned (hglobals.trans hm) hglobal hchr
  · exact isByte_of_call hbody hchr hcall

/-- Characters whose values leave the range of a byte: in an initial value, in a declaration, by
counting up, by an assignment to a global, and in what a function returns. -/
def overflowing : Program := ⟨[
  .global ⟨⟨"mark", .chr⟩, some (.number 300)⟩,
  .function ⟨"before", {}, [⟨"c", .chr⟩], .chr, .statements [
    .return_ (some (.binary .sub (.lookup "c") (.literal (.number 1))))]⟩,
  .function ⟨"spark", {}, [⟨"argc", .int⟩, ⟨"argv", ⟨.str, true⟩⟩], .int, .statements [
    .declare ⟨"c", .chr⟩ (some (.literal (.number 511))),
    .increment "c",
    .assign "mark" (.binary .sub (.lookup "mark") (.literal (.number 100))),
    .return_ (some (.call "before" [.lookup "c"]))]⟩]⟩

theorem run_overflowing : (start overflowing (.ofCapacity 4) {}).toOption.map
    (fun i => ((i.run 60 []).1, (i.run 60 []).2.machine.globals.get? "mark")) =
      some (.ok 255, some ⟨.chr, 200⟩) := by cbv

/-- The global is a byte behind a run of `overflowing`. -/
theorem characters_are_bytes_overflowing : ∃ i, start overflowing (.ofCapacity 4) {} = .ok i ∧
    (i.run 60 []).1 = .ok 255 ∧ (i.run 60 []).2.machine.globals.get? "mark" = some ⟨.chr, 200⟩ ∧
    Word.IsByte 200 := by
  obtain ⟨i, hstart, hrun⟩ := Fallible.exists_ok_of_map run_overflowing
  obtain ⟨hresult, hmark⟩ := Prod.ext_iff.1 hrun
  have hfollows : Follows i (i.run 60 []).2 := ⟨60, [], rfl⟩
  have hbytes := (characters_are_bytes hstart (.single hfollows)).1
  exact ⟨i, hstart, hresult, hmark, hbytes _ _ .idle "mark" _ (.inr hmark) rfl⟩

end Interpreter

end Firestorm
