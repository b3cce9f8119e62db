import UiLowering.Proofs.Source.Pieces
import UiLowering.Proofs.Text.Trim

/-!
# The text of a literal without expressions

Without escaped braces and expressions, a literal stands for its own text with one exception: where
two braces enclose white space and nothing else, the white space is lost.  `Literal.tighten` leaves
it out and changes nothing else.  The text of such a literal is the tightened one, so it is the raw
text exactly if there is no such pair of braces (`plainText_eq_self_iff`).

The exception comes from how a literal is split: an opening brace starts an expression, whose source
is trimmed, and an empty one is put back as two braces.  So `"{ }"` loses its blank, whereas `"{}"`
and a brace that is never closed are kept.
-/

set_option autoImplicit false

namespace UiLowering

/-! ## Tightened texts

The raw text and the text of the pieces differ in one respect only, so it is enough to say on
characters what is left out.  An opening brace is looked at with everything up to the next closing
one, and a text without such a pair is left alone. -/

namespace Literal

variable {cs blanks : List Char}

/-- A text without the white space that stands alone between two braces. -/
def tighten : List Char → List Char
  | [] => []
  | c :: cs =>
    let inner := (tighten cs).dropWhile Text.isBlank
    if c = '{' ∧ inner.head? = some '}' then c :: inner else c :: tighten cs

/-- Two braces of a text enclose white space, at least one character of it, and nothing else. -/
def HasSpacedBraces (cs : List Char) : Prop :=
  ∃ blanks, blanks ≠ [] ∧ (∀ c ∈ blanks, Text.isBlank c = true) ∧
    '{' :: (blanks ++ ['}']) <:+: cs

theorem tighten_cons_of_ne {c : Char} (hc : c ≠ '{') (cs : List Char) :
    tighten (c :: cs) = c :: tighten cs := by
  rw [tighten, if_neg fun h => hc h.1]

/-- Characters are left out, and none are added. -/
theorem tighten_sublist (cs : List Char) : (tighten cs).Sublist cs := by
  induction cs with
  | nil => exact List.Sublist.refl []
  | cons c cs ih =>
    rw [tighten]
    split
    · exact ((List.dropWhile_sublist _).trans ih).cons_cons c
    · exact ih.cons_cons c

theorem tighten_blanks_append (hblanks : ∀ c ∈ blanks, Text.isBlank c = true) (cs : List Char) :
    tighten (blanks ++ cs) = blanks ++ tighten cs := by
  induction blanks with
  | nil => rfl
  | cons c blanks ih =>
    obtain ⟨hc, hblanks⟩ := List.forall_mem_cons.1 hblanks
    have hbrace : c ≠ '{' := by
      rintro rfl
      exact absurd hc (by decide)
    rw [List.cons_append, tighten_cons_of_ne hbrace, ih hblanks, List.cons_append]

/-- Between two braces white space is left out. -/
theorem tighten_braces (hblanks : ∀ c ∈ blanks, Text.isBlank c = true) (after : List Char) :
    tighten ('{' :: (blanks ++ '}' :: after)) = '{' :: '}' :: tighten after := by
  have hinner :
      (tighten (blanks ++ '}' :: after)).dropWhile Text.isBlank = '}' :: tighten after := by
    rw [tighten_blanks_append hblanks, tighten_cons_of_ne (by decide),
      List.dropWhile_append_of_pos hblanks, List.dropWhile_cons_of_neg (by decide)]
  rw [tighten, hinner, if_pos ⟨rfl, rfl⟩]

/-- A brace that is not closed stays as it is. -/
theorem tighten_unclosed (hcs : '}' ∉ cs) : tighten ('{' :: cs) = '{' :: tighten cs := by
  rw [tighten, if_neg]
  rintro ⟨-, hhead⟩
  have hmem : '}' ∈ tighten cs :=
    (List.dropWhile_sublist _).mem (List.mem_of_mem_head? hhead)
  exact hcs ((tighten_sublist cs).mem hmem)

theorem tighten_eq_self_of_cons {c : Char} (h : tighten (c :: cs) = c :: cs) : tighten cs = cs := by
  rw [tighten] at h
  split at h
  · refine (tighten_sublist cs).eq_of_length_le ?_
    calc cs.length
      _ = ((tighten cs).dropWhile Text.isBlank).length := by rw [(List.cons.inj h).2]
      _ ≤ (tighten cs).length := (List.dropWhile_sublist _).length_le
  · exact (List.cons.inj h).2

theorem HasSpacedBraces.cons (h : HasSpacedBraces cs) (c : Char) : HasSpacedBraces (c :: cs) := by
  obtain ⟨blanks, hne, hblanks, hwithin⟩ := h
  exact ⟨blanks, hne, hblanks, hwithin.trans (List.suffix_cons c cs).isInfix⟩

/-- A text is tight exactly if no two braces of it enclose white space alone. -/
theorem tighten_eq_self_iff : tighten cs = cs ↔ ¬HasSpacedBraces cs := by
  constructor
  · rintro h ⟨blanks, hne, hblanks, front, back, rfl⟩
    induction front with
    | nil =>
      -- what stands between the braces is missing
      have hlength : ('{' :: '}' :: tighten back).length =
          ('{' :: (blanks ++ '}' :: back)).length := by
        rw [← tighten_braces hblanks]
        simpa using congrArg List.length h
      have hback : (tighten back).length ≤ back.length := (tighten_sublist back).length_le
      have hpos : 0 < blanks.length := List.length_pos_iff.2 hne
      simp only [List.length_cons, List.length_append] at hlength
      omega
    | cons c front ih => exact ih (tighten_eq_self_of_cons h)
  · intro h
    induction cs with
    | nil => rfl
    | cons c cs ih =>
      have hcs : tighten cs = cs := ih fun hspaced => h (hspaced.cons c)
      rw [tighten, hcs]
      split
      · rename_i hbraces
        obtain ⟨rfl, hhead⟩ := hbraces
        obtain ⟨after, hafter⟩ := List.head?_eq_some_iff.1 hhead
        have hsplit : cs.takeWhile Text.isBlank ++ '}' :: after = cs := by
          rw [← hafter, List.takeWhile_append_dropWhile]
        have hnone : cs.takeWhile Text.isBlank = [] := by
          by_contra hne
          refine h ⟨_, hne, fun c hc => List.mem_takeWhile_imp hc, [], after, ?_⟩
          rw [List.nil_append, List.cons_append, List.append_assoc, List.singleton_append, hsplit]
        rw [hafter, ← hsplit, hnone, List.nil_append]
      · rfl

end Literal

/-! ## The text of the pieces

The pieces are collected from the end, and a pair of braces around white space contributes two
characters and nothing between.  A pair with anything else in it is an expression, and a brace that
is never closed is plain text; the hypotheses exclude the first. -/

namespace Piece

variable {cs : List Char} {pieces : List Piece}

/-- The contents of pieces one behind the other. -/
def contents (pieces : List Piece) : List Char :=
  (pieces.foldr (fun piece rest => piece.content ++ rest) "").toList

theorem contents_pushText (c : Char) (pieces : List Piece) :
    contents (pushText c pieces) = c :: contents pieces := by
  cases pieces with
  | nil => simp [contents, pushText, content]
  | cons first pieces => cases first <;> simp [contents, pushText, content]

theorem any_isHole_pushText (c : Char) (pieces : List Piece) :
    (pushText c pieces).any isHole = pieces.any isHole := by
  cases pieces with
  | nil => rfl
  | cons first pieces => cases first <;> rfl

/-- No brace is escaped. -/
def EscapesNothing (cs : List Char) : Prop := ¬['\\', '{'] <:+: cs ∧ ¬['\\', '}'] <:+: cs

theorem EscapesNothing.of_append {front : List Char} (h : EscapesNothing (front ++ cs)) :
    EscapesNothing cs := by
  have hsuffix : cs <:+: front ++ cs := (List.suffix_append front cs).isInfix
  exact ⟨fun hwithin => h.1 (hwithin.trans hsuffix), fun hwithin => h.2 (hwithin.trans hsuffix)⟩

theorem EscapesNothing.tail {c : Char} (h : EscapesNothing (c :: cs)) : EscapesNothing cs :=
  of_append (List.singleton_append ▸ h : EscapesNothing ([c] ++ cs))

/-- Without escaped braces and expressions the pieces of a literal make up its tightened text. -/
theorem contents_ofChars (hescape : EscapesNothing cs) (hholes : (ofChars cs).any isHole = false) :
    contents (ofChars cs) = Literal.tighten cs := by
  induction cs using rawInduction with
  | nil => rfl
  | escaped c rest hc _ =>
    have hwithin : ['\\', c] <:+: '\\' :: c :: rest := ⟨[], rest, rfl⟩
    rcases hc with rfl | rfl
    · exact absurd hwithin hescape.1
    · exact absurd hwithin hescape.2
  | closed inner after hinner ih =>
    rw [ofChars_closed hinner] at hholes ⊢
    split at hholes
    · rename_i hempty
      have hblanks : ∀ c ∈ inner, Text.isBlank c = true :=
        Text.trimChars_eq_nil_iff.1 (List.isEmpty_iff.1 hempty)
      rw [any_isHole_pushText, any_isHole_pushText] at hholes
      have hafter : EscapesNothing after := by
        rw [← List.singleton_append, List.append_cons, ← List.append_assoc] at hescape
        exact hescape.of_append
      rw [if_pos hempty, contents_pushText, contents_pushText, ih hafter hholes,
        Literal.tighten_braces hblanks]
    · cases hholes
  | unclosed rest hrest ih =>
    rw [ofChars_unclosed hrest, any_isHole_pushText] at hholes
    rw [ofChars_unclosed hrest, contents_pushText, Literal.tighten_unclosed hrest,
      ih hescape.tail hholes]
  | ordinary c rest hc ih =>
    rw [ofChars_ordinary hc, any_isHole_pushText] at hholes
    rw [ofChars_ordinary hc, contents_pushText, Literal.tighten_cons_of_ne hc.1,
      ih hescape.tail hholes]

end Piece

namespace Literal

open Piece

/-- **A literal without expressions stands for its own text, unless braces enclose white space.**
Where no brace is escaped and there is no expression, the text of a literal is the tightened one.
So it is the raw text exactly if no two braces enclose white space alone. -/
theorem plainText_eq_self_iff {raw : String} (hescape : EscapesNothing raw.toList)
    (hholes : hasHole raw = false) :
    (plainText raw).toList = tighten raw.toList ∧
      (plainText raw = raw ↔ ¬HasSpacedBraces raw.toList) := by
  have htext : (plainText raw).toList = tighten raw.toList := contents_ofChars hescape hholes
  refine ⟨htext, ?_⟩
  rw [← String.toList_inj, htext, tighten_eq_self_iff]

/-- An empty pair of braces and one that is never closed. -/
theorem plainText_eq_self_open :
    let raw := "a\x7b\x7db \\ \x7bc"
    EscapesNothing raw.toList ∧ hasHole raw = false ∧ ¬HasSpacedBraces raw.toList ∧
      plainText raw = raw := by
  intro raw
  have hescape : EscapesNothing raw.toList := by simp [raw, EscapesNothing, List.infix_cons_iff]
  have hholes : hasHole raw = false := by decide
  have hspaced : ¬HasSpacedBraces raw.toList := tighten_eq_self_iff.1 (by decide)
  exact ⟨hescape, hholes, hspaced, (plainText_eq_self_iff hescape hholes).2.2 hspaced⟩

/-- A blank between two braces is lost. -/
theorem blank_between_braces_lost :
    let raw := "a\x7b \x7db"
    EscapesNothing raw.toList ∧ hasHole raw = false ∧ plainText raw = "a\x7b\x7db" ∧
      plainText raw ≠ raw := by
  intro raw
  have htext : plainText raw = "a\x7b\x7db" := by decide +kernel
  refine ⟨by simp [raw, EscapesNothing, List.infix_cons_iff], by decide, htext, ?_⟩
  rw [htext]
  decide

end Literal

end UiLowering
