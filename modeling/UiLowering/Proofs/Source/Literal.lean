import Mathlib.Data.List.Chain
import UiLowering.Proofs.Source.Pieces
import UiLowering.Proofs.Text.Trim

/-!
# Writing the pieces of a literal

`Literal.render` writes pieces as a raw literal: the braces of plain text are escaped, and the
expressions stand in braces.  A backslash cannot be escaped, texts that stand side by side run
together and an expression ends with the first closing brace, so not every list of pieces can be
read back.  The lists that can are the canonical ones, and splitting a literal gives no others.
-/

set_option autoImplicit false

namespace UiLowering

namespace Piece

/-! ## Written pieces

A brace of plain text is written behind a backslash, since a brace alone would open an
expression. -/

/-- A character of plain text as it is written. -/
def escapeBrace (c : Char) : List Char :=
  if c = '{' ∨ c = '}' then ['\\', c] else [c]

/-- Plain text as it is written. -/
def escapeBraces (content : List Char) : List Char := content.flatMap escapeBrace

/-- A piece as it is written. -/
def render : Piece → List Char
  | .text content => escapeBraces content
  | .hole source => '{' :: (source ++ ['}'])

/-! ## Canonical lists of pieces

Three things can go wrong when pieces are written one behind the other: an empty text or two texts
in a row leave no trace, an expression is trimmed and cut at its first closing brace, and a
backslash at the end of a text would escape the brace behind it.  What concerns a single piece is in
`IsProper`, and what concerns two neighbours in `MayPrecede`. -/

/-- A text is not empty.  The source of an expression is neither empty nor to be trimmed, and has no
closing brace. -/
def IsProper : Piece → Prop
  | .text content => content ≠ []
  | .hole source => source ≠ [] ∧ Text.trimChars source = source ∧ '}' ∉ source

/-- Whether a piece may stand directly before another one: texts do not, and a text that ends in a
backslash does not stand before an expression, whose brace it would escape. -/
def MayPrecede : Piece → Piece → Prop
  | .text _, .text _ => False
  | .text content, .hole _ => content.getLast? ≠ some '\\'
  | .hole _, _ => True

/-- The lists of pieces that a literal is split into. -/
structure IsCanonical (pieces : List Piece) : Prop where
  proper : ∀ piece ∈ pieces, piece.IsProper
  neighbours : pieces.IsChain MayPrecede

namespace IsCanonical

variable {piece : Piece} {pieces : List Piece}

theorem nil : IsCanonical [] := ⟨by simp, .nil⟩

theorem cons_iff :
    IsCanonical (piece :: pieces) ↔
      piece.IsProper ∧ (∀ next ∈ pieces.head?, piece.MayPrecede next) ∧ IsCanonical pieces := by
  constructor
  · intro h
    obtain ⟨hpiece, hpieces⟩ := List.forall_mem_cons.1 h.proper
    obtain ⟨hnext, hchain⟩ := List.isChain_cons.1 h.neighbours
    exact ⟨hpiece, hnext, hpieces, hchain⟩
  · rintro ⟨hpiece, hnext, hpieces⟩
    exact ⟨List.forall_mem_cons.2 ⟨hpiece, hpieces.proper⟩,
      List.isChain_cons.2 ⟨hnext, hpieces.neighbours⟩⟩

/-- One more character of plain text, unless it is a backslash before an expression. -/
theorem pushText {c : Char} (h : IsCanonical pieces)
    (hc : c = '\\' → ∀ source, .hole source ∉ pieces.head?) :
    IsCanonical (pushText c pieces) := by
  cases pieces with
  | nil => exact cons_iff.2 ⟨List.cons_ne_nil c [], by simp, nil⟩
  | cons first pieces =>
    cases first with
    | text content =>
      obtain ⟨hcontent, hnext, hpieces⟩ := cons_iff.1 h
      refine cons_iff.2 ⟨List.cons_ne_nil c content, fun next hmem => ?_, hpieces⟩
      have hbefore := hnext next hmem
      cases next with
      | text other => exact hbefore
      | hole source =>
        -- the text still ends as it did
        rw [MayPrecede, List.getLast?_cons_of_ne_nil hcontent]
        exact hbefore
    | hole source =>
      refine cons_iff.2 ⟨List.cons_ne_nil c [], fun next hmem => ?_, h⟩
      cases hmem
      rw [MayPrecede, List.getLast?_singleton, ne_eq, Option.some.injEq]
      exact fun hslash => hc hslash source rfl

end IsCanonical

/-! ## Splitting gives canonical lists

The recursion on the raw text puts one character in front of the pieces of the rest.  Whether this
joins the character to a text or begins a new one is decided by the first piece, so what is known of
the first piece is carried along. -/

theorem hole_not_mem_head?_pushText (c : Char) (pieces : List Piece) (source : List Char) :
    .hole source ∉ (pushText c pieces).head? := by
  cases pieces with
  | nil => simp [pushText]
  | cons first pieces => cases first <;> simp [pushText]

/-- An expression comes first only where the literal begins with its brace. -/
theorem head?_of_hole_mem_head? {cs source : List Char}
    (h : .hole source ∈ (ofChars cs).head?) : cs.head? = some '{' := by
  induction cs using rawInduction with
  | nil => simp [ofChars] at h
  | escaped c rest hc _ =>
    rw [ofChars_escaped hc] at h
    exact absurd h (hole_not_mem_head?_pushText c _ source)
  | closed inner after hinner _ => rfl
  | unclosed rest hrest _ => rfl
  | ordinary c rest hc _ =>
    rw [ofChars_ordinary hc] at h
    exact absurd h (hole_not_mem_head?_pushText c _ source)

theorem isCanonical_ofChars (cs : List Char) : IsCanonical (ofChars cs) := by
  induction cs using rawInduction with
  | nil => rw [ofChars]; exact .nil
  | escaped c rest hc ih =>
    rw [ofChars_escaped hc]
    refine ih.pushText fun hslash => ?_
    rcases hc with rfl | rfl <;> exact absurd hslash (by decide)
  | closed inner after hinner ih =>
    rw [ofChars_closed hinner]
    split
    · exact (ih.pushText fun h => absurd h (by decide)).pushText fun h => absurd h (by decide)
    · rename_i hsource
      have hbrace : '}' ∉ Text.trimChars inner :=
        fun hmem => hinner (Text.mem_of_mem_trimChars hmem)
      have hhole : IsProper (.hole (Text.trimChars inner)) :=
        ⟨by simpa using hsource, Text.trimChars_trimChars inner, hbrace⟩
      exact IsCanonical.cons_iff.2 ⟨hhole, fun _ _ => trivial, ih⟩
  | unclosed rest hrest ih =>
    rw [ofChars_unclosed hrest]
    exact ih.pushText fun h => absurd h (by decide)
  | ordinary c rest hc ih =>
    rw [ofChars_ordinary hc]
    refine ih.pushText fun hslash source hmem => ?_
    exact (hc.2 hslash '{' (head?_of_hole_mem_head? hmem)).1 rfl

/-! ## Canonical lists can be read back

The pieces are read from the left.  Escaped text is read up to its end by itself, except that its
last character could be a backslash: then the next piece must not begin with a brace, which is what
being canonical says. -/

theorem escapeBraces_cons (c : Char) (content : List Char) :
    escapeBraces (c :: content) = escapeBrace c ++ escapeBraces content := by
  rw [escapeBraces, List.flatMap_cons, escapeBraces]

/-- Escaped text does not begin with a brace. -/
theorem not_brace_of_mem_head?_escapeBrace {c d : Char} {rest : List Char}
    (h : d ∈ (escapeBrace c ++ rest).head?) : d ≠ '{' ∧ d ≠ '}' := by
  rw [escapeBrace] at h
  split at h
  · cases h
    decide
  · rename_i hc
    cases h
    exact not_or.1 hc

/-- Escaped text is read character by character, provided that its last backslash, if it ends in
one, does not escape what follows. -/
theorem ofChars_escapeBraces_append {content rest : List Char}
    (h : content.getLast? = some '\\' → ∀ d ∈ rest.head?, d ≠ '{' ∧ d ≠ '}') :
    ofChars (escapeBraces content ++ rest) = content.foldr pushText (ofChars rest) := by
  induction content with
  | nil => rfl
  | cons c content ih =>
    have hrest :
        ofChars (escapeBraces content ++ rest) = content.foldr pushText (ofChars rest) := by
      cases content with
      | nil => rfl
      | cons d content => exact ih fun hlast => h (by rwa [List.getLast?_cons_cons])
    rw [escapeBraces_cons, List.append_assoc, List.foldr_cons, ← hrest]
    by_cases hc : c = '{' ∨ c = '}'
    · rw [escapeBrace, if_pos hc]
      exact ofChars_escaped hc _
    · rw [escapeBrace, if_neg hc]
      refine ofChars_ordinary ⟨(not_or.1 hc).1, ?_⟩
      rintro rfl d hd
      cases content with
      | nil => exact h rfl d hd
      | cons e content =>
        rw [escapeBraces_cons, List.append_assoc] at hd
        exact not_brace_of_mem_head?_escapeBrace hd

theorem foldr_pushText {content : List Char} {pieces : List Piece} (hcontent : content ≠ [])
    (hpieces : ∀ other, .text other ∉ pieces.head?) :
    content.foldr pushText pieces = .text content :: pieces := by
  induction content with
  | nil => exact absurd rfl hcontent
  | cons c content ih =>
    cases content with
    | nil =>
      cases pieces with
      | nil => rfl
      | cons first pieces =>
        cases first with
        | text other => exact absurd rfl (hpieces other)
        | hole source => rfl
    | cons d content =>
      rw [List.foldr_cons, ih (List.cons_ne_nil d content)]
      rfl

theorem ofChars_flatMap_render {pieces : List Piece} (h : IsCanonical pieces) :
    ofChars (pieces.flatMap render) = pieces := by
  induction pieces with
  | nil => rw [List.flatMap_nil, ofChars]
  | cons piece pieces ih =>
    obtain ⟨hpiece, hnext, hpieces⟩ := IsCanonical.cons_iff.1 h
    cases piece with
    | text content =>
      -- Behind a text there is nothing, or an expression that the text does not escape.
      have hfollow : content.getLast? = some '\\' →
          ∀ d ∈ (pieces.flatMap render).head?, d ≠ '{' ∧ d ≠ '}' := by
        intro hlast
        cases pieces with
        | nil => simp
        | cons next pieces =>
          have hbefore := hnext next rfl
          cases next with
          | text other => exact hbefore.elim
          | hole source => exact absurd hlast hbefore
      rw [List.flatMap_cons, render, ofChars_escapeBraces_append hfollow, ih hpieces]
      exact foldr_pushText hpiece fun other hmem => hnext (.text other) hmem
    | hole source =>
      obtain ⟨hsource, htrim, hbrace⟩ := hpiece
      rw [List.flatMap_cons, render, List.cons_append, List.append_assoc, List.singleton_append,
        ofChars_closed hbrace, htrim, ih hpieces, if_neg (by simpa using hsource)]

end Piece

namespace Literal

open Piece

/-- The raw literal of some pieces. -/
def render (pieces : List Piece) : String := String.ofList (pieces.flatMap Piece.render)

/-- A text with its braces escaped. -/
def escapeBraces (text : String) : String := String.ofList (Piece.escapeBraces text.toList)

/-- **Splitting a literal undoes writing its pieces.**  A literal is split into a canonical list of
pieces, and a list of pieces is what its literal is split into if and only if it is canonical.
Writing the pieces of a literal therefore gives a literal with the same pieces, and a text with its
braces escaped is read as that text. -/
theorem pieces_render_iff_isCanonical :
    (∀ raw, IsCanonical (pieces raw)) ∧
      (∀ list, pieces (render list) = list ↔ IsCanonical list) ∧
      (∀ raw, pieces (render (pieces raw)) = pieces raw) ∧
      ∀ text, pieces (escapeBraces text) = if text = "" then [] else [.text text.toList] := by
  have hcanonical (raw : String) : IsCanonical (pieces raw) := isCanonical_ofChars raw.toList
  have hread {list : List Piece} (h : IsCanonical list) : pieces (render list) = list := by
    rw [pieces, render, String.toList_ofList]
    exact ofChars_flatMap_render h
  refine ⟨hcanonical, fun list => ⟨fun h => h ▸ hcanonical (render list), hread⟩,
    fun raw => hread (hcanonical raw), fun text => ?_⟩
  split
  · rename_i htext
    subst htext
    rfl
  · rename_i htext
    have hlist : IsCanonical [.text text.toList] :=
      IsCanonical.cons_iff.2 ⟨by simpa [IsProper] using htext, by simp, .nil⟩
    have hrender : escapeBraces text = render [.text text.toList] := by
      rw [escapeBraces, render, List.flatMap_singleton, Piece.render]
    rw [hrender, hread hlist]

end Literal

end UiLowering
