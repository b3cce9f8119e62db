import UiLowering.Text.Cut
import UiLowering.Text.Word

/-!
# Names

A name path is a chain of ASCII identifiers joined by dots.  This module recognises one, flattens
the path of a type into a single identifier, and finds the names that stand in a fragment of
source text: all identifiers, and all pairs of an object and its member.
-/

set_option autoImplicit false

namespace UiLowering.Text

/-- Joins the name of a module and a name declared in it into one identifier. -/
def qualify (module name : String) : String :=
  if module == "" then name else module ++ "_" ++ name

/-! ## Paths

A path of names has dots, and the path of a type may have two colons as well. -/

/-- Whether `cs` completes a name path; `fresh` says that an identifier has to begin here. -/
def completesPath (fresh : Bool) : List Char → Bool
  | [] => !fresh
  | c :: rest =>
    if fresh then isNameStart c && completesPath false rest
    else if c == '.' then completesPath true rest
    else isAsciiWord c && completesPath false rest

/-- Whether a text is a chain of ASCII identifiers joined by dots. -/
def isNamePath (s : String) : Bool := completesPath true s.toList

/-- The path with an underscore for every dot and for every two colons in a row. -/
def flattenChars : List Char → List Char
  | [] => []
  | ':' :: ':' :: rest => '_' :: flattenChars rest
  | '.' :: rest => '_' :: flattenChars rest
  | c :: rest => c :: flattenChars rest

/-- Whether a type name leads through a module, by a dot or by two colons. -/
def isQualifiedPath (s : String) : Bool :=
  s.toList.contains '.' || (cutColons s).isSome

/-- The first name of a dotted path. -/
def rootOf (path : String) : String := String.ofList (path.toList.takeWhile (· != '.'))

/-! ## Names inside a fragment

A fragment is any source text.  It is not parsed: names are the runs of word characters that do not
begin with a digit. -/

/-- The stretches between the characters that no ASCII identifier holds, empty ones included. -/
def asciiRuns : List Char → List (List Char)
  | [] => [[]]
  | c :: rest =>
    if isAsciiWord c then
      match asciiRuns rest with
      | [] => [[c]]
      | run :: runs => (c :: run) :: runs
    else [] :: asciiRuns rest

/-- The identifiers of a fragment; what begins with a digit is a number and no name. -/
def identifiers (source : String) : List String :=
  (asciiRuns source.toList).filterMap fun run =>
    match run with
    | [] => none
    | c :: _ => if c.isDigit then none else some (String.ofList run)

/-- A longest stretch of word characters, or a single other character. -/
inductive Lexeme where
  | word (cs : List Char)
  | mark (c : Char)

/-- The lexemes of a text; no two words stand side by side. -/
def lexemes : List Char → List Lexeme
  | [] => []
  | c :: rest =>
    if isWord c then
      match lexemes rest with
      | .word cs :: others => .word (c :: cs) :: others
      | others => .word [c] :: others
    else .mark c :: lexemes rest

/-- Whether a word begins like an ASCII identifier. -/
def beginsName (word : List Char) : Bool := word.head?.any isNameStart

/-- The pairs of two names joined by a dot, from left to right, no name in two pairs. -/
def dottedPairs : List Lexeme → List (String × String)
  | [] => []
  | .word object :: .mark '.' :: .word member :: rest =>
    if beginsName object && beginsName member then
      (String.ofList object, String.ofList member) :: dottedPairs rest
    else dottedPairs (.mark '.' :: .word member :: rest)
  | _ :: rest => dottedPairs rest

/-- The pairs of an object and its member in a fragment. -/
def memberPairs (source : String) : List (String × String) :=
  dottedPairs (lexemes source.toList)

end UiLowering.Text
