/-!
# Snake case

Functions of the runtime are found by their name in lower case with underscores, whichever of the
two spellings a call uses: `setInnerText` and `set_inner_text` are one function, and so are
`getContext2d` and `get_context_2d`.
-/

set_option autoImplicit false

namespace UiLowering.Text

/-- The snake case of `cs`, where `previous` is the character before them.  A capital is written
small, after an underscore unless it is the first character or follows one; a digit is preceded by
an underscore if it follows a small letter.  All else is kept. -/
def snakeChars (previous : Option Char) : List Char → List Char
  | [] => []
  | c :: rest =>
    let tail := snakeChars (some c) rest
    if c.isUpper then
      if previous.any (· != '_') then '_' :: c.toLower :: tail else c.toLower :: tail
    else if c.isDigit && previous.any Char.isLower then '_' :: c :: tail
    else c :: tail

/-- The snake case of a name. -/
def snakeCase (name : String) : String := String.ofList (snakeChars none name.toList)

end UiLowering.Text
