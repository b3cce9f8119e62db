import UiLowering.Json.Basic

/-!
# Tokens of JSON text

The text is read one character at a time by a machine whose state says what the character may be:
`Scan.step` is its table and `tokens` runs it.  A token is a punctuation mark, a string with its
escapes resolved, or a word, which is a longest stretch of letters, digits, signs and points.

An escape can stand for half of a surrogate pair.  Two halves in a row, the high one first, are one
character; a string in which a half stands alone is a token still, but has no value.
-/

set_option autoImplicit false

namespace UiLowering.Json

/-- A token of JSON text. -/
inductive Token where
  | mark (c : Char)
  | text (value : Option String)
  | word (cs : List Char)

/-- Whether a number is the first half of a surrogate pair. -/
def isHighHalf (n : Nat) : Bool := 0xD800 ≤ n && n ≤ 0xDBFF

/-- Whether a number is the second half of a surrogate pair. -/
def isLowHalf (n : Nat) : Bool := 0xDC00 ≤ n && n ≤ 0xDFFF

/-- A string that is being read: its characters in reverse order, none if a half of a pair stood
alone, and the first half that waits for its second. -/
structure Draft where
  chars : Option (List Char)
  high : Option Nat

namespace Draft

/-- Nothing read yet. -/
def empty : Draft := ⟨some [], none⟩

/-- One more character or half of a pair. -/
def push (draft : Draft) (n : Nat) : Draft :=
  match draft.high with
  | some high =>
    if isLowHalf n then
      let joined := Char.ofNat (0x10000 + (high - 0xD800) * 0x400 + (n - 0xDC00))
      ⟨draft.chars.map (joined :: ·), none⟩
    else ⟨none, none⟩
  | none =>
    if isHighHalf n then ⟨draft.chars, some n⟩
    else if isLowHalf n then ⟨none, none⟩
    else ⟨draft.chars.map (Char.ofNat n :: ·), none⟩

/-- The string, if no half of a pair stands alone in it. -/
def text? (draft : Draft) : Option String :=
  match draft.high with
  | some _ => none
  | none => draft.chars.map fun chars => String.ofList chars.reverse

end Draft

/-- Where the machine stands between two characters.  The characters of a word are kept in reverse
order. -/
inductive Scan where
  | between
  | inWord (seen : List Char)
  | inText (draft : Draft)
  /-- After a backslash. -/
  | escape (draft : Draft)
  /-- Inside four hexadecimal digits, of which `left` are missing. -/
  | code (draft : Draft) (left : Nat) (value : Nat)

/-- Characters of numbers and of the words `true`, `false` and `null`. -/
def isWordChar (c : Char) : Bool := c.isAlphanum || c == '-' || c == '+' || c == '.'

/-- White space between tokens. -/
def isSpace (c : Char) : Bool := c == ' ' || c == '\n' || c == '\r' || c == '\t'

/-- The punctuation marks. -/
def isMark (c : Char) : Bool :=
  c == '[' || c == ']' || c == '{' || c == '}' || c == ':' || c == ','

/-- The value of a hexadecimal digit. -/
def hexValue? (c : Char) : Option Nat :=
  if c.isDigit then some (c.toNat - '0'.toNat)
  else if 'a' ≤ c && c ≤ 'f' then some (c.toNat - 'a'.toNat + 10)
  else if 'A' ≤ c && c ≤ 'F' then some (c.toNat - 'A'.toNat + 10)
  else none

namespace Scan

/-- Where a character leads that does not continue the token before it. -/
def start (c : Char) (found : List Token) : Option (Scan × List Token) :=
  if isSpace c then some (.between, found)
  else if isMark c then some (.between, .mark c :: found)
  else if c == '"' then some (.inText .empty, found)
  else if isWordChar c then some (.inWord [c], found)
  else none

/-- The character that a backslash and `c` stand for. -/
def escaped? : Char → Option Char
  | '"' => some '"'
  | '\\' => some '\\'
  | '/' => some '/'
  | 'b' => some '\x08'
  | 'f' => some '\x0c'
  | 'n' => some '\n'
  | 'r' => some '\r'
  | 't' => some '\t'
  | _ => none

/-- One character read, with the tokens found so far in reverse order. -/
def step : Scan × List Token → Char → Option (Scan × List Token)
  | (.between, found), c => start c found
  | (.inWord seen, found), c =>
    if isWordChar c then some (.inWord (c :: seen), found)
    else start c (.word seen.reverse :: found)
  | (.inText draft, found), c =>
    if c == '"' then some (.between, .text draft.text? :: found)
    else if c == '\\' then some (.escape draft, found)
    else if c.toNat < 0x20 then none
    else some (.inText (draft.push c.toNat), found)
  | (.escape draft, found), c =>
    if c == 'u' then some (.code draft 4 0, found)
    else (escaped? c).map fun char => (.inText (draft.push char.toNat), found)
  | (.code draft left value, found), c =>
    (hexValue? c).map fun digit =>
      let value := 16 * value + digit
      if left ≤ 1 then (.inText (draft.push value), found)
      else (.code draft (left - 1) value, found)

/-- The tokens in order, if the text may end here. -/
def finish : Scan × List Token → Option (List Token)
  | (.between, found) => some found.reverse
  | (.inWord seen, found) => some (Token.word seen.reverse :: found).reverse
  | _ => none

end Scan

/-- The tokens of a text. -/
def tokens (text : String) : Option (List Token) := do
  Scan.finish (← text.toList.foldlM Scan.step (.between, []))

end UiLowering.Json
