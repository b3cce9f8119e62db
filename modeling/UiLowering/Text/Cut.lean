/-!
# Cutting and joining texts

The few ways in which names and target text are taken apart and put together: at the first or the
last occurrence of a separator, at a known end, and joined with a separator between the parts.
Each is a function on lists of characters under a thin layer for `String`.
-/

set_option autoImplicit false

namespace UiLowering.Text

/-- What stands before and after the first `sep`. -/
def cutFirstChars (sep : Char) (cs : List Char) : Option (List Char × List Char) :=
  match cs.dropWhile (· != sep) with
  | [] => none
  | _ :: after => some (cs.takeWhile (· != sep), after)

/-- What stands before and after the last `sep`. -/
def cutLastChars (sep : Char) (cs : List Char) : Option (List Char × List Char) :=
  (cutFirstChars sep cs.reverse).map fun (after, before) => (before.reverse, after.reverse)

/-- What stands before and after the first two colons in a row. -/
def cutColonsChars : List Char → Option (List Char × List Char)
  | [] => none
  | ':' :: ':' :: rest => some ([], rest)
  | c :: rest => (cutColonsChars rest).map fun (before, after) => (c :: before, after)

/-- A pair of lists of characters as a pair of texts. -/
def ofCharsPair (p : List Char × List Char) : String × String :=
  (String.ofList p.1, String.ofList p.2)

/-- What stands before and after the first `sep`. -/
def cutFirst (sep : Char) (s : String) : Option (String × String) :=
  (cutFirstChars sep s.toList).map ofCharsPair

/-- What stands before and after the last `sep`. -/
def cutLast (sep : Char) (s : String) : Option (String × String) :=
  (cutLastChars sep s.toList).map ofCharsPair

/-- What stands before and after the first two colons in a row. -/
def cutColons (s : String) : Option (String × String) :=
  (cutColonsChars s.toList).map ofCharsPair

/-- Whether a text begins with `head`. -/
def startsWith (head s : String) : Bool := head.toList.isPrefixOf s.toList

/-- Whether a text ends in `tail`. -/
def endsWith (tail s : String) : Bool := tail.toList.isSuffixOf s.toList

/-- What stands before `tail`, for a text that ends in it. -/
def dropEnd? (tail s : String) : Option String :=
  if endsWith tail s then
    some (String.ofList (s.toList.take (s.toList.length - tail.toList.length)))
  else none

/-- Whether a text begins with one of the capital letters of ASCII. -/
def startsUpper (s : String) : Bool := s.toList.head?.any Char.isUpper

/-- The parts in order with `sep` between each two. -/
def join (sep : String) : List String → String
  | [] => ""
  | [part] => part
  | part :: parts => part ++ sep ++ join sep parts

/-- The parts in order with nothing between them. -/
def concat : List String → String
  | [] => ""
  | part :: parts => part ++ concat parts

/-- A text, closed by a line end if it does not have one already. -/
def endLine (s : String) : String :=
  if endsWith "\n" s then s else s ++ "\n"

end UiLowering.Text
