import Mathlib.Data.List.Chain
import UiLowering.Proofs.Text.Identifier
import UiLowering.Text.Snake

/-!
# Names that are in snake case already

The snake case of a name is written again as it is exactly if it has no capital and no digit behind
a small letter (`snakeChars_eq_self_iff`).  There is never a capital in it.  A small letter before a
digit is left over if it was a capital in the name, because the rule for digits asks the name for
the character before and not what was written for it.  So the snake case of a name is its own snake
case exactly if no digit of the name stands directly behind a capital (`snakeCase_snakeCase_iff`).
-/

set_option autoImplicit false

namespace UiLowering.Text

variable {c : Char} {previous : Option Char}

/-! ## Capitals and small letters

Capitals, small letters and digits are three ranges of characters, and a capital is written small by
going from the first range to the second. -/

/-- The small form of a capital stands thirty-two places behind it. -/
theorem toNat_toLower (h : c.isUpper = true) : c.toLower.toNat = c.toNat + 32 := by
  have hcapital : c.val ≥ 'A'.val ∧ c.val ≤ 'Z'.val := of_decide_eq_true h
  have hbounds : 65 ≤ c.val.toNat ∧ c.val.toNat ≤ 90 := isUpper_iff.1 h
  have hsmall : c.toLower = _ := dif_pos hcapital
  rw [hsmall]
  change (c.val + 32).toNat = c.val.toNat + 32
  rw [UInt32.toNat_add]
  change (c.val.toNat + 32) % 2 ^ 32 = c.val.toNat + 32
  omega

/-- Capitals, and they alone, differ from their small forms. -/
theorem toLower_eq_self_iff : c.toLower = c ↔ c.isUpper = false := by
  constructor
  · intro h
    rw [← Bool.not_eq_true]
    intro hupper
    have hsmall := toNat_toLower hupper
    rw [h] at hsmall
    omega
  · exact fun h => dif_neg (of_decide_eq_false h)

theorem isLower_toLower (h : c.isUpper = true) : c.toLower.isLower = true := by
  have hbounds := isUpper_iff.1 h
  rw [isLower_iff, toNat_toLower h]
  omega

theorem not_isDigit_of_isUpper (h : c.isUpper = true) : c.isDigit = false := by
  have hbounds := isUpper_iff.1 h
  rw [← Bool.not_eq_true, isDigit_iff]
  omega

theorem not_isDigit_of_isLower (h : c.isLower = true) : c.isDigit = false := by
  have hbounds := isLower_iff.1 h
  rw [← Bool.not_eq_true, isDigit_iff]
  omega

theorem not_isUpper_of_isLower (h : c.isLower = true) : c.isUpper = false := by
  have hbounds := isLower_iff.1 h
  rw [← Bool.not_eq_true, isUpper_iff]
  omega

/-! ## Snake case

One equation for each of the three things that can happen to a character.  `isSnake` describes what
is written again as it is, character by character, with the character before it in hand. -/

theorem snakeChars_capital (previous : Option Char) (rest : List Char) (h : c.isUpper = true) :
    snakeChars previous (c :: rest) =
      (if previous.any (· != '_') then ['_'] else []) ++ c.toLower :: snakeChars (some c) rest := by
  rw [snakeChars, if_pos h]
  split <;> rfl

theorem snakeChars_number (rest : List Char) (h : c.isDigit = true)
    (hprevious : previous.any Char.isLower = true) :
    snakeChars previous (c :: rest) = '_' :: c :: snakeChars (some c) rest := by
  have hupper : ¬c.isUpper = true := fun hupper => by
    rw [not_isDigit_of_isUpper hupper] at h
    cases h
  rw [snakeChars, if_neg hupper, if_pos (by rw [h, hprevious]; rfl)]

theorem snakeChars_other (rest : List Char) (hupper : c.isUpper = false)
    (hnumber : (c.isDigit && previous.any Char.isLower) = false) :
    snakeChars previous (c :: rest) = c :: snakeChars (some c) rest := by
  simp [snakeChars, hupper, hnumber]

/-- Whether `cs` is in snake case behind `previous`: it has no capital and no digit behind a small
letter. -/
def isSnake (previous : Option Char) : List Char → Bool
  | [] => true
  | c :: rest =>
    !c.isUpper && !(c.isDigit && previous.any Char.isLower) && isSnake (some c) rest

theorem isSnake_cons_iff {rest : List Char} :
    isSnake previous (c :: rest) = true ↔ c.isUpper = false ∧
      (c.isDigit && previous.any Char.isLower) = false ∧ isSnake (some c) rest = true := by
  rw [isSnake, Bool.and_eq_true, Bool.and_eq_true, Bool.not_eq_true', Bool.not_eq_true', and_assoc]

theorem snakeChars_eq_self_iff (previous : Option Char) (cs : List Char) :
    snakeChars previous cs = cs ↔ isSnake previous cs = true := by
  induction cs generalizing previous with
  | nil => exact ⟨fun _ => rfl, fun _ => rfl⟩
  | cons c rest ih =>
    rw [isSnake_cons_iff]
    cases hupper : c.isUpper with
    | true =>
      -- a capital is never written as it is
      have hunderscore : '_' ≠ c := fun h => by rw [← h] at hupper; cases hupper
      have hlower : c.toLower ≠ c := fun h => by
        rw [toLower_eq_self_iff.1 h] at hupper
        cases hupper
      rw [snakeChars_capital previous rest hupper]
      split <;> simp [hunderscore, hlower]
    | false =>
      cases hnumber : c.isDigit && previous.any Char.isLower with
      | true =>
        obtain ⟨hdigit, hprevious⟩ := Bool.and_eq_true_iff.1 hnumber
        have hunderscore : '_' ≠ c := fun h => by rw [← h] at hdigit; cases hdigit
        rw [snakeChars_number rest hdigit hprevious]
        simp [hunderscore]
      | false =>
        rw [snakeChars_other rest hupper hnumber]
        simp [ih]

/-- No digit of a name stands directly behind a capital. -/
def NoDigitAfterCapital (name : String) : Prop :=
  name.toList.IsChain fun c d => c.isUpper = true → d.isDigit = false

instance (name : String) : Decidable (NoDigitAfterCapital name) :=
  inferInstanceAs (Decidable (name.toList.IsChain fun c d => c.isUpper = true → d.isDigit = false))

/-- The small form of a character that is no small letter before a digit is one exactly if the
character is a capital. -/
theorem number_toLower_iff (h : (c.isDigit && previous.any Char.isLower) = false) :
    (c.isDigit && (previous.map Char.toLower).any Char.isLower) = false ↔
      ∀ p ∈ previous, p.isUpper = true → c.isDigit = false := by
  cases hdigit : c.isDigit with
  | false => simp
  | true =>
    cases previous with
    | none => simp
    | some p =>
      have hlower : p.isLower = false := by simpa [hdigit] using h
      cases hupper : p.isUpper with
      | true => simp [isLower_toLower hupper, hupper]
      | false =>
        have hself := toLower_eq_self_iff.2 hupper
        simp [hself, hlower, hupper]

/-- What is written for `cs` is in snake case again, behind the small form of the character before,
exactly if no digit stands directly behind a capital. -/
theorem isSnake_snakeChars (previous : Option Char) (cs : List Char) :
    isSnake (previous.map Char.toLower) (snakeChars previous cs) = true ↔
      (previous.toList ++ cs).IsChain fun c d => c.isUpper = true → d.isDigit = false := by
  induction cs generalizing previous with
  | nil => cases previous <;> simp [snakeChars, isSnake]
  | cons c rest ih =>
    have hrest := ih (some c)
    rw [Option.map_some, Option.toList_some, List.singleton_append] at hrest
    have hchain : (previous.toList ++ c :: rest).IsChain
        (fun c d => c.isUpper = true → d.isDigit = false) ↔
        (∀ p ∈ previous, p.isUpper = true → c.isDigit = false) ∧
          (c :: rest).IsChain fun c d => c.isUpper = true → d.isDigit = false := by
      cases previous <;> simp
    rw [hchain, ← hrest]
    cases hupper : c.isUpper with
    | true =>
      have hdigit := not_isDigit_of_isUpper hupper
      have hsmall := not_isDigit_of_isLower (isLower_toLower hupper)
      have hwritten := not_isUpper_of_isLower (isLower_toLower hupper)
      rw [snakeChars_capital previous rest hupper]
      split <;> simp [isSnake, hdigit, hsmall, hwritten]
    | false =>
      have hself := toLower_eq_self_iff.2 hupper
      cases hnumber : c.isDigit && previous.any Char.isLower with
      | true =>
        obtain ⟨hdigit, hprevious⟩ := Bool.and_eq_true_iff.1 hnumber
        have hcapital : ∀ p ∈ previous, p.isUpper = true → c.isDigit = false := by
          rintro p rfl hp
          rw [not_isUpper_of_isLower hprevious] at hp
          cases hp
        rw [snakeChars_number rest hdigit hprevious, hself, and_iff_right hcapital]
        simp [isSnake, hupper]
      | false =>
        rw [snakeChars_other rest hupper hnumber, isSnake_cons_iff, hself,
          number_toLower_iff hnumber]
        simp [hupper]

theorem snakeCase_snakeCase_iff (name : String) :
    snakeCase (snakeCase name) = snakeCase name ↔ NoDigitAfterCapital name := by
  rw [snakeCase, snakeCase, String.toList_ofList, String.ofList_inj, snakeChars_eq_self_iff]
  exact isSnake_snakeChars none name.toList

end UiLowering.Text
