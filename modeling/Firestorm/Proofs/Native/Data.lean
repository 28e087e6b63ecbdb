import Firestorm.Native.Generate
import Firestorm.Proofs.Bytecode.Symbols
import Firestorm.Proofs.Interpreter.Globals

/-!
# Initial values in the data of a program

The native generator stores the initial value of a global under its label. Of several definitions of
a global the first one counts, and a character keeps the lowest byte of its value.

## Main definitions

* `GlobalDef.number?`, `Native.Datum.number?`.

## Main results

* `Native.number?_globalDatum`, `Native.datum_mem_globalData_iff`, `Native.exists_globalData`.
-/

namespace Firestorm

open Fallible Bytecode

/-- The number that a definition gives a global, unless it gives a string. -/
def GlobalDef.number? (g : GlobalDef) : Option Word :=
  match g.init with
  | none => some 0
  | some (.number value) => some value
  | some (.chr byte) => some (Int64.ofNat byte.toNat)
  | some (.str _) => none

theorem Interpreter.initialValue_of_number? {g : GlobalDef} {number : Word}
    (h : g.number? = some number) (heap : Heap) : initialValue heap g = .ok (number, heap) := by
  obtain ⟨b, init⟩ := g
  rcases init with _ | (_ | _ | _)
  all_goals cases h
  all_goals rfl

namespace Native

/-- The number that is stored, unless it is an address. -/
def Datum.number? : Datum → Option Word
  | quad value => some value
  | byte value => some (Int64.ofNat value.toNat)
  | address _ => none

theorem and_byte (value : Word) : value &&& 0xff = Int64.ofNat (value.toUInt64.toNat % 256) := by
  refine Int64.toBitVec_inj.1 (BitVec.eq_of_toNat_eq ?_)
  have hand : (value &&& 0xff).toBitVec.toNat = value.toBitVec.toNat % 256 := by
    rw [Int64.toBitVec_and, BitVec.toNat_and]
    exact Nat.and_two_pow_sub_one_eq_mod _ 8
  have hofNat : (Int64.ofNat (value.toUInt64.toNat % 256)).toBitVec.toNat =
      value.toBitVec.toNat % 256 % 2 ^ 64 := rfl
  rw [hand, hofNat]
  omega

theorem ofNat_toUInt8 (value : Word) :
    Int64.ofNat value.toUInt64.toUInt8.toNat = value &&& 0xff := by
  rw [and_byte, UInt64.toNat_toUInt8]

theorem ofNat_byte (byte : UInt8) : Int64.ofNat byte.toNat &&& 0xff = Int64.ofNat byte.toNat := by
  have hlt := byte.toNat_lt
  have hnat : (Int64.ofNat byte.toNat).toUInt64.toNat = byte.toNat :=
    Nat.mod_eq_of_lt (show byte.toNat < 2 ^ 64 by omega)
  rw [and_byte, hnat, Nat.mod_eq_of_lt (by omega)]

/-- A definition that gives a number is stored as a variable of its datatype holds it. -/
theorem number?_globalDatum {strings strings' : List String} {g : GlobalDef} {datum : Datum}
    {number : Word} (h : globalDatum strings g = .ok (datum, strings'))
    (hnumber : g.number? = some number) :
    datum.number? = some (g.binding.datatype.truncate number) := by
  obtain ⟨⟨name, kind, array⟩, init⟩ := g
  rcases init with _ | (value | _ | byte)
  · cases hnumber
    cases kind <;> cases array <;> cases h <;> rfl
  · cases hnumber
    cases kind with
    | int | str => cases array <;> cases h <;> rfl
    | chr =>
      cases array with
      | true =>
        cases h
        rfl
      | false =>
        cases h
        exact congrArg some (ofNat_toUInt8 number)
  · cases hnumber
  · cases hnumber
    cases kind with
    | int | str => cases array <;> cases h <;> rfl
    | chr =>
      cases array with
      | true =>
        cases h
        rfl
      | false =>
        cases h
        exact congrArg some (ofNat_byte byte).symm

variable {n : Nat}

/-- The first definition of each global is stored under its label, and nothing else. -/
theorem datum_mem_globalData_iff {seen strings strings' : List String} {gs : List GlobalDef}
    {data : List (Primitive n)} (h : globalData seen strings gs = .ok (data, strings')) :
    (∀ label datum, .datum label datum ∈ data → ∃ g ∈ firstDefinitions seen gs,
      label = globalLabel g.binding.name ∧ ∃ before after,
      globalDatum before g = .ok (datum, after)) ∧
    ∀ g ∈ firstDefinitions seen gs, ∃ datum, .datum (globalLabel g.binding.name) datum ∈ data := by
  induction gs generalizing seen strings data with
  | nil =>
    cases h
    exact ⟨nofun, nofun⟩
  | cons g gs ih =>
    unfold globalData at h
    dsimp only at h
    rw [firstDefinitions]
    split at h
    · next hseen =>
      rw [if_pos hseen]
      exact ih h
    · next hnew =>
      rw [if_neg hnew]
      simp only [except_bind_eq_ok] at h
      obtain ⟨⟨value, strings₁⟩, hdatum, ⟨rest, strings₂⟩, hrest, heq⟩ := h
      cases heq
      obtain ⟨hstored, hall⟩ := ih hrest
      refine ⟨fun label datum hmem => ?_, fun g' hg' => ?_⟩
      · rcases List.mem_cons.1 hmem with heq | hmem
        · cases heq
          exact ⟨g, List.mem_cons_self .., rfl, strings, strings₁, hdatum⟩
        · obtain ⟨g', hg', hlabel⟩ := hstored label datum hmem
          exact ⟨g', List.mem_cons_of_mem _ hg', hlabel⟩
      · rcases List.mem_cons.1 hg' with rfl | hg'
        · exact ⟨value, List.mem_cons_self ..⟩
        · obtain ⟨datum, hmem⟩ := hall g' hg'
          exact ⟨datum, List.mem_cons_of_mem _ hmem⟩

/-- The data of the globals follows the code of a program, and the data of the strings follows
it. -/
theorem exists_globalData {p : Program} {c : Convention} {primitives : List (Primitive c.registers)}
    (h : p.toNative c = .ok primitives) : ∃ code data strings strings',
      globalData [] strings p.globals = .ok (data, strings') ∧
        primitives = code ++ .data :: (data ++ stringData strings') := by
  simp only [Program.toNative, except_bind_eq_ok] at h
  obtain ⟨_, -, _, -, ⟨_, strings⟩, -, ⟨data, strings'⟩, hdata, heq⟩ := h
  cases heq
  exact ⟨_, data, strings, strings', hdata, by rw [List.append_assoc, List.append_assoc]; rfl⟩

theorem globalLabel_injective : Function.Injective globalLabel := by
  intro name other h
  have hlist := congrArg String.toList h
  rw [globalLabel, globalLabel, String.toList_append, String.toList_append] at hlist
  exact String.toList_inj.1 (List.append_cancel_left hlist)

end Native

end Firestorm
