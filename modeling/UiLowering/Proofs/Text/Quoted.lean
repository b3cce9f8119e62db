import Mathlib.Algebra.Ring.Parity
import Mathlib.Data.List.DropRight
import UiLowering.Lower.Expr

/-!
# String constants stand for their texts

`escape` writes a text between the quotes of a string constant.  This module reads such constants
the way the target language does: `cutQuoted?` finds the quote that closes a constant, where a
backslash takes the character behind it along, and `unescapeChars?` undoes the escapes in what
stands before that quote.

Every text comes back, whatever code stands behind the constant (`constant_stands_for_text`), so no
text can end its constant early.  All of this rests on what is written for a single character
(`escapeChar_cases`): the character itself, which then is none of the four special ones, or a
backslash and a character that stands for it.
-/

set_option autoImplicit false

namespace UiLowering

namespace Text

/-! ## Reading a constant

The reader is written from the rules of the target language and not from `escape`, so that the two
can disagree. -/

/-- What a character stands for behind a backslash. -/
def unescapeChar? : Char → Option Char
  | '"' => some '"'
  | '\\' => some '\\'
  | 'n' => some '\n'
  | 't' => some '\t'
  | _ => none

/-- What the characters between the quotes of a constant stand for.  A backslash that begins no
escape is refused. -/
def unescapeChars? : List Char → Option (List Char)
  | [] => some []
  | ['\\'] => none
  | '\\' :: c :: cs => do
    let first ← unescapeChar? c
    let rest ← unescapeChars? cs
    return first :: rest
  | c :: cs => do
    let rest ← unescapeChars? cs
    return c :: rest

/-- What the text between the quotes of a constant stands for. -/
def unescape? (s : String) : Option String := (unescapeChars? s.toList).map String.ofList

/-- The characters before the quote that closes a constant, and those behind it. -/
def cutQuoted? : List Char → Option (List Char × List Char)
  | [] => none
  | '"' :: rest => some ([], rest)
  | '\\' :: c :: cs => (cutQuoted? cs).map (Prod.map (['\\', c] ++ ·) id)
  | c :: cs => (cutQuoted? cs).map (Prod.map ([c] ++ ·) id)

/-- What the constant at the beginning of a target text stands for, and the text behind it. -/
def readConstant? (code : String) : Option (String × String) :=
  match code.toList with
  | '"' :: cs => do
    let (body, rest) ← cutQuoted? cs
    let text ← unescapeChars? body
    return (String.ofList text, String.ofList rest)
  | _ => none

/-- The number of backslashes that a list of characters ends in. -/
def backslashes (cs : List Char) : Nat := (cs.rtakeWhile (· == '\\')).length

/-! ## One character

Everything that follows is an induction over the characters of a text, and each step appends what is
written for one of them. -/

/-- What is written for a character: itself, or a backslash and a character that stands for it. -/
theorem escapeChar_cases (c : Char) :
    (escapeChar c = [c] ∧ c ≠ '"' ∧ c ≠ '\\' ∧ c ≠ '\n' ∧ c ≠ '\t') ∨
      ∃ d, escapeChar c = ['\\', d] ∧ unescapeChar? d = some c := by
  by_cases hquote : c = '"'
  · subst hquote
    exact .inr ⟨'"', rfl, rfl⟩
  by_cases hslash : c = '\\'
  · subst hslash
    exact .inr ⟨'\\', rfl, rfl⟩
  by_cases hline : c = '\n'
  · subst hline
    exact .inr ⟨'n', rfl, rfl⟩
  by_cases htab : c = '\t'
  · subst htab
    exact .inr ⟨'t', rfl, rfl⟩
  exact .inl ⟨escapeChar.eq_5 c hquote hslash hline htab, hquote, hslash, hline, htab⟩

theorem not_mem_escapeChar {special : Char} (hspecial : special = '\n' ∨ special = '\t')
    (c : Char) : special ∉ escapeChar c := by
  intro hmem
  rcases escapeChar_cases c with ⟨hself, -, -, hline, htab⟩ | ⟨d, hpair, hd⟩
  · rw [hself, List.mem_singleton] at hmem
    subst hmem
    exact hspecial.elim hline htab
  · rw [hpair, List.mem_cons, List.mem_singleton] at hmem
    rcases hmem with rfl | rfl
    · exact absurd hspecial (by decide)
    · rcases hspecial with rfl | rfl
      · cases hd
      · cases hd

theorem unescapeChars?_escapeChar_append (c : Char) (cs : List Char) :
    unescapeChars? (escapeChar c ++ cs) = (unescapeChars? cs).map (c :: ·) := by
  rcases escapeChar_cases c with ⟨hself, -, hslash, -⟩ | ⟨d, hpair, hd⟩
  · rw [hself, List.singleton_append, unescapeChars?]
    · cases unescapeChars? cs <;> rfl
    · exact fun h _ => hslash h
    · exact fun _ _ h _ => hslash h
  · rw [hpair, List.cons_append, List.singleton_append, unescapeChars?, hd]
    cases unescapeChars? cs <;> rfl

theorem cutQuoted?_escapeChar_append (c : Char) (cs : List Char) :
    cutQuoted? (escapeChar c ++ cs) = (cutQuoted? cs).map (Prod.map (escapeChar c ++ ·) id) := by
  rcases escapeChar_cases c with ⟨hself, hquote, hslash, -⟩ | ⟨d, hpair, -⟩
  · rw [hself, List.singleton_append, cutQuoted?]
    · exact hquote
    · exact fun _ _ h _ => hslash h
  · rw [hpair, List.cons_append, List.singleton_append, cutQuoted?]

/-! ## Escaped texts

A constant is not closed by a quote behind a backslash, unless this backslash is itself escaped.  So
the parity of the backslashes in front of a quote decides: behind a text it is even, and for a quote
inside it is odd. -/

theorem unescapeChars?_escape (cs : List Char) :
    unescapeChars? (cs.flatMap escapeChar) = some cs := by
  induction cs with
  | nil => rfl
  | cons c cs ih => rw [List.flatMap_cons, unescapeChars?_escapeChar_append, ih, Option.map_some]

/-- The quote that closes a constant is the one behind the escaped text. -/
theorem cutQuoted?_escape (cs rest : List Char) :
    cutQuoted? (cs.flatMap escapeChar ++ '"' :: rest) = some (cs.flatMap escapeChar, rest) := by
  induction cs with
  | nil => rfl
  | cons c cs ih =>
    rw [List.flatMap_cons, List.append_assoc, cutQuoted?_escapeChar_append, ih, Option.map_some,
      Prod.map_apply, id]

theorem backslashes_concat (cs : List Char) (c : Char) :
    backslashes (cs ++ [c]) = if c = '\\' then backslashes cs + 1 else 0 := by
  rw [backslashes, List.rtakeWhile_concat]
  by_cases hc : c = '\\'
  · simp [hc, backslashes]
  · simp [hc]

/-- The backslashes at the end of an escaped text are escapes of one another. -/
theorem even_backslashes_escape (cs : List Char) :
    Even (backslashes (cs.flatMap escapeChar)) := by
  induction cs using List.reverseRecOn with
  | nil => exact Even.zero
  | append_singleton cs c ih =>
    rw [List.flatMap_append, List.flatMap_singleton]
    rcases escapeChar_cases c with ⟨hself, -, hslash, -⟩ | ⟨d, hpair, -⟩
    · rw [hself, backslashes_concat, if_neg hslash]
      exact Even.zero
    · rw [hpair, List.append_cons, backslashes_concat, backslashes_concat, if_pos rfl]
      split
      · exact ih.add_one.add_one
      · exact Even.zero

/-- A quote in an escaped text is written for a quote. -/
theorem exists_of_escape_eq_append {cs before after : List Char}
    (h : cs.flatMap escapeChar = before ++ '"' :: after) :
    ∃ front back, cs = front ++ '"' :: back ∧ before = front.flatMap escapeChar ++ ['\\'] := by
  induction cs generalizing before with
  | nil =>
    cases before with
    | nil => cases h
    | cons c before => cases h
  | cons c cs ih =>
    rw [List.flatMap_cons] at h
    rcases escapeChar_cases c with ⟨hself, hquote, -⟩ | ⟨d, hpair, hd⟩
    · rw [hself, List.singleton_append] at h
      cases before with
      | nil => exact absurd (List.cons.inj h).1 hquote
      | cons first before =>
        obtain ⟨rfl, hrest⟩ := List.cons.inj h
        obtain ⟨front, back, rfl, rfl⟩ := ih hrest
        exact ⟨c :: front, back, rfl, by rw [List.flatMap_cons, hself]; rfl⟩
    · rw [hpair, List.cons_append, List.singleton_append] at h
      rcases before with _ | ⟨first, _ | ⟨second, before⟩⟩
      · cases h
      · obtain ⟨rfl, hrest⟩ := List.cons.inj h
        obtain ⟨rfl, -⟩ := List.cons.inj hrest
        obtain rfl : '"' = c := Option.some.inj hd
        exact ⟨[], cs, rfl, rfl⟩
      · obtain ⟨rfl, hrest⟩ := List.cons.inj h
        obtain ⟨rfl, hothers⟩ := List.cons.inj hrest
        obtain ⟨front, back, rfl, rfl⟩ := ih hothers
        exact ⟨c :: front, back, rfl, by rw [List.flatMap_cons, hpair]; rfl⟩

theorem odd_backslashes_of_quote {cs before after : List Char}
    (h : cs.flatMap escapeChar = before ++ '"' :: after) : Odd (backslashes before) := by
  obtain ⟨front, -, -, rfl⟩ := exists_of_escape_eq_append h
  rw [backslashes_concat, if_pos rfl]
  exact (even_backslashes_escape front).add_one

theorem unescape?_escape (s : String) : unescape? (escape s) = some s := by
  rw [unescape?, escape, String.toList_ofList, unescapeChars?_escape, Option.map_some,
    String.ofList_toList]

theorem readConstant?_quote (s rest : String) :
    readConstant? (quote s ++ rest) = some (s, rest) := by
  have hchars : (quote s ++ rest).toList =
      '"' :: (s.toList.flatMap escapeChar ++ '"' :: rest.toList) := by
    simp [quote, escape]
  simp only [readConstant?, hchars, cutQuoted?_escape, unescapeChars?_escape, Option.bind_eq_bind,
    Option.bind_some, String.ofList_toList]
  rfl

end Text

/-! ## Literals

A literal without holes is lowered to the quoted form of its text, and nothing else is put around
it. -/

theorem Env.result_exprText_str (env : Env) {raw : String} (h : Literal.hasHole raw = false) :
    (env.exprText (.str raw)).result = .ok (Text.quote (Literal.plainText raw)) := by
  change Except.ok (Code.value (.literal raw (env.literalParts raw))) = _
  rw [Code.value, h]
  rfl

namespace Text

/-- **A string constant stands for its text.**  An escaped text has neither line ends nor tabs.
Each quote in it stands behind an odd number of backslashes, but the quote that closes its constant
behind an even number.  Undoing the escapes gives the text back, so two texts are never escaped
alike.  The constant of a text is read as this text up to its own closing quote, whatever code
stands behind it, and so is the target text of every string literal without expressions. -/
theorem constant_stands_for_text :
    (∀ s : String, '\n' ∉ (escape s).toList ∧ '\t' ∉ (escape s).toList ∧
      (∀ before after, (escape s).toList = before ++ '"' :: after → Odd (backslashes before)) ∧
      Even (backslashes (escape s).toList) ∧ unescape? (escape s) = some s ∧
      ∀ rest, readConstant? (quote s ++ rest) = some (s, rest)) ∧
    Function.Injective escape ∧
    ∀ (env : Env) (raw : String), Literal.hasHole raw = false →
      ∃ code, (env.exprText (.str raw)).result = .ok code ∧
        ∀ rest, readConstant? (code ++ rest) = some (Literal.plainText raw, rest) := by
  refine ⟨fun s => ?_, fun s t h => ?_, fun env raw h => ?_⟩
  · have hchars : (escape s).toList = s.toList.flatMap escapeChar := by
      rw [escape, String.toList_ofList]
    have hnone {special : Char} (hspecial : special = '\n' ∨ special = '\t') :
        special ∉ s.toList.flatMap escapeChar := by
      rw [List.mem_flatMap]
      rintro ⟨c, -, hc⟩
      exact not_mem_escapeChar hspecial c hc
    rw [hchars]
    exact ⟨hnone (.inl rfl), hnone (.inr rfl), fun before after => odd_backslashes_of_quote,
      even_backslashes_escape s.toList, unescape?_escape s, readConstant?_quote s⟩
  · have hsame := unescape?_escape s
    rw [h, unescape?_escape t] at hsame
    exact (Option.some.inj hsame).symm
  · exact ⟨_, env.result_exprText_str h, readConstant?_quote _⟩

/-- A backslash, a quote and a line end side by side are read back. -/
theorem constant_stands_for_text_path :
    let s := "c:\\\"\n"
    let env : Env := ⟨Scope.ofComponent "" "App" ∅, Schema.empty, Options.default⟩
    (escape s).toList = "c:\\\\\\".toList ++ '"' :: "\\n".toList ∧
      Odd (backslashes "c:\\\\\\".toList) ∧ Literal.hasHole s = false ∧
      ∃ code, (env.exprText (.str s)).result = .ok code ∧
        ∀ rest, readConstant? (code ++ rest) = some (Literal.plainText s, rest) := by
  intro s env
  obtain ⟨hescape, -, hliteral⟩ := constant_stands_for_text
  have hsplit : (escape s).toList = "c:\\\\\\".toList ++ '"' :: "\\n".toList := by decide
  have hhole : Literal.hasHole s = false := by decide +kernel
  exact ⟨hsplit, (hescape s).2.2.1 _ _ hsplit, hhole, hliteral env s hhole⟩

end Text

end UiLowering
