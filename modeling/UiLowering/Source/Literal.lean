import UiLowering.Text.Blank

/-!
# String literals

A string literal may hold expressions in braces.  `pieces` splits its raw text into stretches of
plain text and such holes: `\{` and `\}` stand for the braces themselves, a brace that is never
closed is plain text, and braces around nothing but white space stand for an empty pair.
-/

set_option autoImplicit false

namespace UiLowering

/-- A part of a string literal: plain text, or the source text of an expression. -/
inductive Piece where
  | text (content : List Char)
  | hole (source : List Char)

namespace Piece

/-- What a piece holds, whichever kind it is. -/
def content : Piece → String
  | .text cs => String.ofList cs
  | .hole cs => String.ofList cs

/-- Whether a piece is an expression. -/
def isHole : Piece → Bool
  | .text _ => false
  | .hole _ => true

/-- Puts a character of plain text before the pieces; it joins the text that follows it. -/
def pushText (c : Char) : List Piece → List Piece
  | .text cs :: pieces => .text (c :: cs) :: pieces
  | pieces => .text [c] :: pieces

mutual

/-- The pieces of a raw literal. -/
def ofChars : List Char → List Piece
  | [] => []
  | '\\' :: '{' :: rest => pushText '{' (ofChars rest)
  | '\\' :: '}' :: rest => pushText '}' (ofChars rest)
  | '{' :: rest =>
    if rest.contains '}' then
      let source := Text.trimChars (rest.takeWhile (· != '}'))
      if source.isEmpty then pushText '{' (pushText '}' (afterHole rest))
      else .hole source :: afterHole rest
    else pushText '{' (ofChars rest)
  | c :: rest => pushText c (ofChars rest)

/-- The pieces behind the brace that closes a hole. -/
def afterHole : List Char → List Piece
  | [] => []
  | '}' :: rest => ofChars rest
  | _ :: rest => afterHole rest

end

end Piece

namespace Literal

/-- The pieces of a string literal. -/
def pieces (raw : String) : List Piece := Piece.ofChars raw.toList

/-- Whether a string literal holds an expression. -/
def hasHole (raw : String) : Bool := (pieces raw).any Piece.isHole

/-- The contents of all pieces in order: for a literal without expressions, the text it stands
for. -/
def plainText (raw : String) : String :=
  (pieces raw).foldr (fun piece rest => piece.content ++ rest) ""

end Literal

end UiLowering
