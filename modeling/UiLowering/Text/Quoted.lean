/-!
# Quoted text of the target language

Inside the double quotes of a target string constant a quote and a backslash are preceded by a
backslash, a line end and a tab are written as `\n` and `\t`, and every other character stands for
itself.
-/

set_option autoImplicit false

namespace UiLowering.Text

/-- How one character is written between double quotes. -/
def escapeChar : Char → List Char
  | '"' => ['\\', '"']
  | '\\' => ['\\', '\\']
  | '\n' => ['\\', 'n']
  | '\t' => ['\\', 't']
  | c => [c]

/-- How a text is written between double quotes. -/
def escape (s : String) : String := String.ofList (s.toList.flatMap escapeChar)

/-- The string constant of the target language that stands for a text. -/
def quote (s : String) : String := "\"" ++ escape s ++ "\""

end UiLowering.Text
