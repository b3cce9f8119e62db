import UiLowering.Text.Blank
import UiLowering.Text.Cut
import UiLowering.Text.Digit

/-!
# Collection types by name

`T[]` is an array of any length and `T[n]` one of a fixed length, where `n` is written in decimal
digits.  Everything else is not a collection.
-/

set_option autoImplicit false

namespace UiLowering.TypeName

/-- Element and size of `T[n]`.  The name of the element is not empty and stands on one line. -/
def fixedArray? (name : String) : Option (String × String) :=
  match name.toList.reverse with
  | ']' :: rest =>
    let size := rest.takeWhile Text.isDecimalDigit
    match rest.dropWhile Text.isDecimalDigit with
    | '[' :: element =>
      if size.isEmpty || element.isEmpty || element.contains '\n' then none
      else some (String.ofList element.reverse, String.ofList size.reverse)
    | _ => none
  | _ => none

/-- Whether a name is that of a collection. -/
def isCollection (name : String) : Bool :=
  Text.endsWith "[]" (Text.trim name) || (fixedArray? (Text.trim name)).isSome

/-- The name of the element type of a collection. -/
def elementName? (name : String) : Option String :=
  match Text.dropEnd? "[]" (Text.trim name) with
  | some element => some element
  | none => (fixedArray? (Text.trim name)).map (·.1)

end UiLowering.TypeName
