/-!
# Bytes of a text

Texts are measured and stored in the bytes of their UTF-8 form.

## Main definitions

* `Text.byteSize`, `Text.utf8`.

## Main results

* `Text.length_utf8`.
-/

namespace Firestorm.Text

/-- The number of bytes of the UTF-8 form of a text. -/
def byteSize (cs : List Char) : Nat :=
  cs.foldr (·.utf8Size + ·) 0

/-- The bytes of the UTF-8 form of a text. -/
def utf8 (cs : List Char) : List UInt8 :=
  cs.flatMap String.utf8EncodeChar

@[simp] theorem byteSize_nil : byteSize [] = 0 := rfl

@[simp] theorem byteSize_cons (c : Char) (cs : List Char) :
    byteSize (c :: cs) = c.utf8Size + byteSize cs := rfl

@[simp] theorem byteSize_append (cs ds : List Char) :
    byteSize (cs ++ ds) = byteSize cs + byteSize ds := by
  induction cs with
  | nil => simp
  | cons c cs ih => simp [ih, Nat.add_assoc]

/-- The bytes are as many as the size says. -/
@[simp] theorem length_utf8 (cs : List Char) : (utf8 cs).length = byteSize cs := by
  induction cs with
  | nil => rfl
  | cons c cs ih =>
    simp only [utf8, List.flatMap_cons, List.length_append, byteSize_cons] at ih ⊢
    rw [ih, String.length_utf8EncodeChar]

end Firestorm.Text
