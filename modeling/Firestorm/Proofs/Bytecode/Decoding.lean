import Mathlib.Algebra.Group.Nat.Defs
import Firestorm.Proofs.Bytecode.Items
import Firestorm.Proofs.Bytecode.Linking
import Firestorm.Proofs.Bytecode.Scoping
import Firestorm.Proofs.Bytecode.StackMachine

/-!
# Reading linked code

The bytes of a line are read back as the operation of the line, with the values of symbols in the
place of names. A label takes no bytes, and the value of its symbol is the address of what stands
behind it.

## Main definitions

* `Bytecode.itemBytes`, `Bytecode.Naming.command`.

## Main results

* `Bytecode.fetch_instruction`, `Bytecode.drop_of_label`.
-/

namespace Firestorm.Bytecode

open StackMachine

/-! ### Words and texts -/

theorem toNat_foldr_bytes (bs : List UInt8) :
    (bs.foldr (fun b (value : UInt64) => b.toUInt64 + 256 * value) 0).toNat =
      bs.foldr (fun b value => b.toNat + 256 * value) 0 % 2 ^ 64 := by
  induction bs with
  | nil => rfl
  | cons b bs ih =>
    simp only [List.foldr_cons, UInt64.toNat_add, UInt64.toNat_mul, ih, UInt8.toNat_toUInt64]
    have h256 : (256 : UInt64).toNat = 256 := rfl
    rw [h256]
    omega

/-- A word is read back. -/
@[simp] theorem readWord_wordBytes (value : UInt64) (rest : List UInt8) :
    readWord (wordBytes value ++ rest) = some (value, rest) := by
  have hvalue : (wordBytes value).foldr (fun b (v : UInt64) => b.toUInt64 + 256 * v) 0 = value := by
    apply UInt64.toNat_inj.1
    rw [toNat_foldr_bytes]
    have hlt := value.toNat_lt
    simp only [wordBytes, List.range, List.range.loop, List.map_cons, List.map_nil, List.foldr_cons,
      List.foldr_nil, Nat.toUInt8_eq, UInt8.toNat_ofNat']
    omega
  conv_rhs => rw [← hvalue]
  rfl

theorem toNat_toUInt64_ofNat {n : Nat} (h : n < 2 ^ 64) : (Int64.ofNat n).toUInt64.toNat = n :=
  Nat.mod_eq_of_lt h

theorem fromUTF8?_utf8 (text : String) :
    String.fromUTF8? (Text.utf8 text.toList).toByteArray = some text := by
  have hbytes : (Text.utf8 text.toList).toByteArray = text.toList.utf8Encode := rfl
  rw [hbytes, String.fromUTF8?, dif_pos ByteArray.isValidUTF8_utf8Encode]
  exact congrArg some String.ofList_toList

/-- A text is read back. -/
theorem readString_utf8 {text : String} (h : (Text.utf8 text.toList).length < 2 ^ 64)
    (rest : List UInt8) :
    readString (wordBytes (Int64.ofNat (Text.utf8 text.toList).length).toUInt64 ++
      (Text.utf8 text.toList ++ ([0] ++ rest))) = some (text, rest) := by
  rw [readString, readWord_wordBytes]
  simp only [Option.bind_eq_bind, Option.bind_some, toNat_toUInt64_ofNat h]
  rw [if_neg (by simp), List.take_left, fromUTF8?_utf8, Option.bind_some]
  simp [List.drop_append]

/-! ### Operations -/

/-- The bytes of items in a linked image. -/
def itemBytes (symbols : SymbolValues) (items : List Item) : List UInt8 :=
  items.flatMap (Item.resolved symbols)

section

variable (symbols : SymbolValues)

@[simp] theorem itemBytes_nil : itemBytes symbols [] = [] := rfl

@[simp] theorem itemBytes_append (items more : List Item) :
    itemBytes symbols (items ++ more) = itemBytes symbols items ++ itemBytes symbols more :=
  List.flatMap_append

@[simp] theorem itemBytes_cons (item : Item) (items : List Item) :
    itemBytes symbols (item :: items) = item.resolved symbols ++ itemBytes symbols items :=
  List.flatMap_cons

@[simp] theorem resolved_byte (value : UInt8) : (Item.byte value).resolved symbols = [value] := rfl

@[simp] theorem resolved_quad (value : Word) :
    (Item.quad value).resolved symbols = wordBytes value.toUInt64 := rfl

@[simp] theorem resolved_reference (symbol : String) :
    (Item.reference symbol).resolved symbols = wordBytes ((symbols.get? symbol).getD 0) := rfl

@[simp] theorem resolved_bytes (content : List UInt8) :
    (Item.bytes content).resolved symbols = content := rfl

@[simp] theorem resolved_label (name : String) : (Item.label name).resolved symbols = [] := rfl

@[simp] theorem resolved_constant (name : String) (value : UInt64) :
    (Item.constant name value).resolved symbols = [] := rfl

theorem length_itemBytes (items : List Item) :
    (itemBytes symbols items).length = Item.totalSize items := by
  induction items with
  | nil => rfl
  | cons item items ih =>
    rw [itemBytes_cons, List.length_append, ih, Item.totalSize_cons]
    cases item <;> simp [Item.size]

/-- The definition of the symbol of a global takes no bytes. -/
theorem itemBytes_global (k : Naming) (sectionName : String) (b : Binding) :
    itemBytes symbols (k.operandItems sectionName (.global b)) =
      itemBytes symbols (declarationItems ((insertName k.globals b.name).idxOf b.name)
        b.datatype.kind b.datatype.array) := by
  simp only [Naming.operandItems, itemBytes_append]
  split <;> simp

namespace Naming

/-- The operation that an instruction stands for. -/
def command (k : Naming) (sectionName : String) : Instruction → Command
  | .global b => .declare true (UInt64.ofNat ((insertName k.globals b.name).idxOf b.name))
      (b.datatype.kind == .chr) b.datatype.array
  | .variable_ b =>
    .declare false (UInt64.ofNat (localSlotBase + (insertName k.locals b.name).idxOf b.name))
      (b.datatype.kind == .chr) b.datatype.array
  | .access a name => .access a
      (if name ∈ k.locals then UInt64.ofNat (localSlotBase + k.locals.idxOf name)
        else (symbols.get? (globalSymbol name)).getD 0)
  | .number value => .number value
  | .string content => .string content
  | .jump kind label => .jump kind ((symbols.get? (sectionSymbol sectionName label)).getD 0)
  | .invoke callee => .invoke ((symbols.get? callee).getD 0)
  | .invokeNative callee => .invokeNative (UInt64.ofNat (natives.idxOf callee))
  | .plain op => .plain op

end Naming

theorem readDeclaration_items (isGlobal : Bool) (slot : Nat) (kind : Kind) (array : Bool)
    (rest : List UInt8) :
    readDeclaration isGlobal (itemBytes symbols (declarationItems slot kind array) ++ rest) =
      some (.declare isGlobal (UInt64.ofNat slot) (kind == .chr) array, rest) := by
  have hslot : (Int64.ofNat slot).toUInt64 = UInt64.ofNat slot := rfl
  have hkind : (typeTag kind == typeTag .chr) = (kind == .chr) := by cases kind <;> rfl
  have harray : ((if array then 1 else 0 : UInt8) != 0) = array := by cases array <;> rfl
  simp only [declarationItems, itemBytes_cons, itemBytes_nil, resolved_quad, resolved_byte,
    List.append_assoc, List.append_nil, readDeclaration, readWord_wordBytes, hslot,
    Option.bind_eq_bind, Option.bind_some, List.cons_append, List.nil_append, readByte,
    hkind, harray]
  rfl

theorem fetch_byte (op : Opcode) (rest : List UInt8) :
    fetch (op.byte :: rest) = readOperands op rest := by
  simp only [fetch, readByte, Option.bind_eq_bind, Option.bind_some, Opcode.ofByte?_byte]

/-- A line is read as its operation. -/
theorem fetch_instruction (k : Naming) (sectionName : String) (i : Instruction) (rest : List UInt8)
    (hsize : ∀ content, i = .string content → (Text.utf8 content.toList).length < 2 ^ 64) :
    fetch (itemBytes symbols (k.lineItems sectionName (.instruction i)) ++ rest) =
      some (k.command symbols sectionName i, rest) := by
  simp only [Naming.lineItems, itemBytes_cons, resolved_byte, List.cons_append,
    List.nil_append, fetch_byte]
  cases i with
  | global b =>
    rw [itemBytes_global]
    exact readDeclaration_items ..
  | variable_ b => exact readDeclaration_items ..
  | access a name =>
    have hitem : Item.resolved symbols (if name ∈ k.locals then
        .quad (Int64.ofNat (localSlotBase + k.locals.idxOf name))
          else .reference (globalSymbol name)) =
        wordBytes (if name ∈ k.locals then UInt64.ofNat (localSlotBase + k.locals.idxOf name)
          else (symbols.get? (globalSymbol name)).getD 0) := by
      split <;> rfl
    simp only [Naming.operandItems, itemBytes_cons, hitem, itemBytes_nil, List.append_nil]
    cases a <;> simp [readOperands, Instruction.opcode, Access.opcode, Naming.command]
  | number value =>
    simp [readOperands, Instruction.opcode, Naming.operandItems, Naming.command]
  | string content =>
    have hread := readString_utf8 (hsize content rfl) rest
    simp only [Naming.operandItems, itemBytes_cons, resolved_quad, resolved_bytes, itemBytes_nil,
      List.append_nil, List.append_assoc] at hread ⊢
    simp only [readOperands, Instruction.opcode, hread]
    rfl
  | jump kind label =>
    cases kind <;> simp [readOperands, Instruction.opcode, JumpKind.opcode, Naming.operandItems,
      Naming.command]
  | invoke callee | invokeNative callee =>
    simp [readOperands, Instruction.opcode, Naming.operandItems, Naming.command]
  | plain op =>
    cases op with
    | binary op => cases op <;> rfl
    | compare op => cases op <;> rfl
    | _ => rfl

/-! ### Addresses -/

/-- What stands at the address of a label. -/
theorem drop_of_label {items before after : List Item} {image : List UInt8} {name : String}
    (hsymbols : ∀ name value, Defines 0 items name value → symbols.get? name = some value)
    (himage : image = itemBytes symbols items) (hlength : image.length < 2 ^ 64)
    (hitems : items = before ++ .label name :: after) :
    ∃ address, symbols.get? name = some address ∧
      image.drop address.toNat = itemBytes symbols after := by
  refine ⟨(Item.totalSize before).toUInt64, hsymbols _ _ ⟨before, _, after, hitems, ?_⟩, ?_⟩
  · rw [Nat.zero_add]
    rfl
  · have hbefore : Item.totalSize before ≤ image.length := by
      rw [himage, hitems, itemBytes_append, List.length_append, length_itemBytes]
      omega
    have hnat : (Item.totalSize before).toUInt64.toNat = Item.totalSize before :=
      Nat.mod_eq_of_lt (by omega)
    rw [hnat, himage, hitems, itemBytes_append, itemBytes_cons, resolved_label, List.nil_append,
      ← length_itemBytes symbols before, List.drop_left]

end

end Firestorm.Bytecode
