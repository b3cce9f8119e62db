import UiLowering.Text.Blank

/-!
# Enclosing parentheses

A condition is printed inside the parentheses of its statement, so one pair that already encloses
the whole of it is dropped.  Parentheses are counted by character, also inside string constants.
-/

set_option autoImplicit false

namespace UiLowering.Text

/-- Whether, with `depth` parentheses open before `cs`, the count falls to zero before the last
character. -/
def closesEarly (depth : Nat) : List Char → Bool
  | [] => false
  | '(' :: rest => closesEarly (depth + 1) rest
  | ')' :: rest => (depth == 1 && !rest.isEmpty) || closesEarly (depth - 1) rest
  | _ :: rest => closesEarly depth rest

/-- The characters without the pair of parentheses that encloses all of them, if there is one. -/
def stripParensChars (cs : List Char) : List Char :=
  if cs.head? == some '(' && cs.getLast? == some ')' && !closesEarly 0 cs then
    cs.tail.dropLast
  else cs

/-- A trimmed text without the pair of parentheses that encloses all of it, if there is one. -/
def stripParens (code : String) : String :=
  String.ofList (stripParensChars (trimChars code.toList))

end UiLowering.Text
