import Mathlib.Data.List.TakeWhile
import UiLowering.Proofs.Text.Cut
import UiLowering.Source.Literal

/-!
# How a raw literal is split

A raw literal begins in one of four ways: with an escaped brace, with a hole, with a brace that is
never closed, or with an ordinary character.  `rawInduction` goes through a literal by these forms,
and there is one equation for the pieces of each of them, so that nothing else needs to look at how
the scan is written.
-/

set_option autoImplicit false

namespace UiLowering.Piece

/-! ## The forms of a raw literal

A hole is taken as a whole, up to its closing brace, and what is behind it is the rest of the
literal.  The induction is therefore on the length. -/

/-- A character that begins neither an escaped brace nor a hole. -/
def IsOrdinary (c : Char) (rest : List Char) : Prop :=
  c ≠ '{' ∧ (c = '\\' → ∀ d ∈ rest.head?, d ≠ '{' ∧ d ≠ '}')

/-- A raw literal begins with an escaped brace, a hole, a brace that is never closed, or an ordinary
character. -/
@[elab_as_elim]
theorem rawInduction {motive : List Char → Prop} (nil : motive [])
    (escaped : ∀ c rest, c = '{' ∨ c = '}' → motive rest → motive ('\\' :: c :: rest))
    (closed : ∀ inner after, '}' ∉ inner → motive after →
      motive ('{' :: (inner ++ '}' :: after)))
    (unclosed : ∀ rest, '}' ∉ rest → motive rest → motive ('{' :: rest))
    (ordinary : ∀ c rest, IsOrdinary c rest → motive rest → motive (c :: rest))
    (cs : List Char) : motive cs := by
  induction hlength : cs.length using Nat.strong_induction_on generalizing cs with
  | _ n ih =>
    have shorter (rest : List Char) (h : rest.length < cs.length) : motive rest :=
      ih rest.length (hlength ▸ h) rest rfl
    cases cs with
    | nil => exact nil
    | cons c rest =>
      by_cases hbrace : c = '{'
      · subst hbrace
        by_cases hclosed : '}' ∈ rest
        · obtain ⟨inner, after, rfl, hinner⟩ := List.eq_append_cons_of_mem hclosed
          have hafter : after.length < ('{' :: (inner ++ '}' :: after)).length := by
            rw [List.length_cons, List.length_append, List.length_cons]
            omega
          exact closed inner after hinner (shorter after hafter)
        · exact unclosed rest hclosed (shorter rest (by simp))
      · by_cases hescape : c = '\\' ∧ ∃ d ∈ rest.head?, d = '{' ∨ d = '}'
        · obtain ⟨rfl, d, hd, hdbrace⟩ := hescape
          obtain ⟨tail, rfl⟩ := List.head?_eq_some_iff.1 hd
          have htail : tail.length < ('\\' :: d :: tail).length := by
            rw [List.length_cons, List.length_cons]
            omega
          exact escaped d tail hdbrace (shorter tail htail)
        · refine ordinary c rest ⟨hbrace, fun hc d hd => ?_⟩ (shorter rest (by simp))
          exact not_or.1 fun hdbrace => hescape ⟨hc, d, hd, hdbrace⟩

/-! ## The pieces of each form

The scan has a case for each character that may begin a form, and a second function for the rest of
a hole.  The equations hide both. -/

section

attribute [local simp] ofChars afterHole

theorem ofChars_escaped {c : Char} (h : c = '{' ∨ c = '}') (rest : List Char) :
    ofChars ('\\' :: c :: rest) = pushText c (ofChars rest) := by
  rcases h with rfl | rfl <;> simp

theorem afterHole_append {inner : List Char} (h : '}' ∉ inner) (after : List Char) :
    afterHole (inner ++ '}' :: after) = ofChars after := by
  induction inner with
  | nil => simp
  | cons c inner ih =>
    simp [(List.ne_of_not_mem_cons h).symm, ih (List.not_mem_of_not_mem_cons h)]

theorem ofChars_closed {inner : List Char} (h : '}' ∉ inner) (after : List Char) :
    ofChars ('{' :: (inner ++ '}' :: after)) =
      if (Text.trimChars inner).isEmpty then pushText '{' (pushText '}' (ofChars after))
      else .hole (Text.trimChars inner) :: ofChars after := by
  simp [Text.takeWhile_ne_append h, afterHole_append h]

theorem ofChars_unclosed {rest : List Char} (h : '}' ∉ rest) :
    ofChars ('{' :: rest) = pushText '{' (ofChars rest) := by
  simp [h]

theorem ofChars_ordinary {c : Char} {rest : List Char} (h : IsOrdinary c rest) :
    ofChars (c :: rest) = pushText c (ofChars rest) := by
  rw [ofChars]
  · rintro tail rfl rfl
    exact (h.2 rfl '{' rfl).1 rfl
  · rintro tail rfl rfl
    exact (h.2 rfl '}' rfl).2 rfl
  · exact h.1

end

theorem hole_mem_pushText {source : List Char} (c : Char) (pieces : List Piece) :
    .hole source ∈ pushText c pieces ↔ .hole source ∈ pieces := by
  cases pieces with
  | nil => simp [pushText]
  | cons piece pieces => cases piece <;> simp [pushText]

end UiLowering.Piece
