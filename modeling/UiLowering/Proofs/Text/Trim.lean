import Mathlib.Data.List.DropRight
import UiLowering.Text.Blank

/-!
# Trimmed texts

Trimming twice is trimming once, and what is put behind a text that is not blank is trimmed at the
ends of the whole only.

Blanks are cut off by `dropWhile` from both ends, so most facts are about one end and are used for
the other through `reverse`.
-/

set_option autoImplicit false

namespace UiLowering.Text

theorem mem_of_mem_trimEndChars {cs : List Char} {c : Char} (h : c ∈ trimEndChars cs) : c ∈ cs := by
  rw [trimEndChars, List.mem_reverse] at h
  exact List.mem_reverse.1 ((List.dropWhile_sublist _).mem h)

theorem mem_of_mem_trimChars {cs : List Char} {c : Char} (h : c ∈ trimChars cs) : c ∈ cs :=
  (List.dropWhile_sublist _).mem (mem_of_mem_trimEndChars h)

theorem trimEndChars_isPrefix (cs : List Char) : trimEndChars cs <+: cs := by
  rw [trimEndChars, ← List.reverse_suffix, List.reverse_reverse]
  exact List.dropWhile_suffix isBlank

theorem trimChars_trimChars (cs : List Char) : trimChars (trimChars cs) = trimChars cs := by
  have hend (cs : List Char) : trimEndChars (trimEndChars cs) = trimEndChars cs := by
    rw [trimEndChars, trimEndChars, List.reverse_reverse, List.dropWhile_idempotent]
  suffices hstart : (trimChars cs).dropWhile isBlank = trimChars cs by
    rw [trimChars, hstart, trimChars, hend]
  -- What is left after the first step does not begin with a blank, and the second step keeps its
  -- beginning.
  obtain ⟨blanks, hsplit⟩ : trimChars cs <+: cs.dropWhile isBlank := trimEndChars_isPrefix _
  cases htrim : trimChars cs with
  | nil => rfl
  | cons c rest =>
    have hhead := List.head?_dropWhile_not isBlank cs
    rw [← hsplit, htrim] at hhead
    rw [List.dropWhile_cons_of_neg (by simpa using hhead)]

/-- Nothing is left of a text of blanks, and something of any other. -/
theorem trimChars_eq_nil_iff {cs : List Char} :
    trimChars cs = [] ↔ ∀ c ∈ cs, isBlank c = true := by
  rw [← List.dropWhile_eq_nil_iff, trimChars, trimEndChars, List.reverse_eq_nil_iff,
    List.dropWhile_eq_nil_iff]
  constructor
  · intro h
    cases hdrop : cs.dropWhile isBlank with
    | nil => rfl
    | cons c rest =>
      -- what is left would begin with a character that is no blank
      have hhead := List.head?_dropWhile_not isBlank cs
      rw [hdrop] at h hhead
      have hc : isBlank c = true := h c (by simp)
      simp [hc] at hhead
  · intro h
    simp [h]

/-- A text that neither begins nor ends with a blank is trimmed. -/
theorem trim_eq_self {s : String} {first last : Char} {front rest : List Char}
    (hbegin : s.toList = first :: rest) (hend : s.toList = front ++ [last])
    (hfirst : isBlank first = false) (hlast : isBlank last = false) : trim s = s := by
  rw [← String.toList_inj, trim, trimChars, String.toList_ofList, hbegin,
    List.dropWhile_cons_of_neg (by simp [hfirst]), ← hbegin, hend]
  simp [trimEndChars, hlast]

/-- Behind a text that is not blank, a tail that does not end in a blank stays.  What is cut off the
beginning of the text is trimmed from the text by itself as well. -/
theorem exists_trim_append {s tail : String} (hs : ∃ c ∈ s.toList, isBlank c = false)
    (htail : ∃ cs c, tail.toList = cs ++ [c] ∧ isBlank c = false) :
    ∃ rest : String, trim (s ++ tail) = rest ++ tail ∧ trim rest = trim s ∧ rest ≠ "" ∧
      ∀ c ∈ rest.toList, c ∈ s.toList := by
  have hne : s.toList.dropWhile isBlank ≠ [] := by
    obtain ⟨c, hc, hblank⟩ := hs
    intro hnil
    rw [List.dropWhile_eq_nil_iff.1 hnil c hc] at hblank
    cases hblank
  obtain ⟨cs, last, htail, hlast⟩ := htail
  refine ⟨String.ofList (s.toList.dropWhile isBlank), ?_, ?_, ?_, fun c hc => ?_⟩
  · rw [← String.toList_inj, trim, trimChars, String.toList_ofList, String.toList_append,
      String.toList_append, String.toList_ofList, List.dropWhile_append,
      if_neg (by simpa using hne), htail, ← List.append_assoc]
    simp [trimEndChars, hlast]
  · rw [trim, trimChars, String.toList_ofList, List.dropWhile_idempotent, trim, trimChars]
  · simpa using hne
  · rw [String.toList_ofList] at hc
    exact (List.dropWhile_sublist _).mem hc

end UiLowering.Text
