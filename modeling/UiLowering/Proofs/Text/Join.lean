import UiLowering.Text.Cut

/-!
# Joined texts

The parts of a joined text stand in their order, each with the separator between it and the next.  A
part can therefore be singled out: what stands before it are the parts with a separator behind each,
and what stands behind it are the parts with a separator before each (`join_append_cons`).  A text
gets longer by what is put behind it, which tells many texts apart without looking at them.
-/

set_option autoImplicit false

namespace UiLowering.Text

@[simp] theorem concat_append (front back : List String) :
    concat (front ++ back) = concat front ++ concat back := by
  induction front with
  | nil => rw [List.nil_append, concat, String.empty_append]
  | cons part front ih => rw [List.cons_append, concat, concat, ih, String.append_assoc]

@[simp] theorem concat_singleton (part : String) : concat [part] = part := by
  rw [concat, concat, String.append_empty]

theorem join_cons (sep part : String) (parts : List String) :
    join sep (part :: parts) = part ++ concat (parts.map (sep ++ ·)) := by
  induction parts generalizing part with
  | nil => rw [join, List.map_nil, concat, String.append_empty]
  | cons next parts ih =>
    rw [join, ih, List.map_cons, concat, String.append_assoc, String.append_assoc]
    exact fun h => nomatch h

/-- One part of a joined text, with what stands before and behind it. -/
theorem join_append_cons (sep : String) (front : List String) (part : String)
    (back : List String) :
    join sep (front ++ part :: back) =
      concat (front.map (· ++ sep)) ++ part ++ concat (back.map (sep ++ ·)) := by
  induction front with
  | nil => rw [List.nil_append, List.map_nil, concat, String.empty_append, join_cons]
  | cons first front ih =>
    have hne : front ++ part :: back ≠ [] := by simp
    rw [List.cons_append, join, ih, List.map_cons, concat]
    · simp only [String.append_assoc]
    · exact hne

/-- A property that passes from two texts to the one text they make passes to joined texts. -/
theorem join_closed {P : String → Prop} (hempty : P "")
    (happend : ∀ {s t : String}, P s → P t → P (s ++ t)) {sep : String} (hsep : P sep)
    {parts : List String} (h : ∀ part ∈ parts, P part) : P (join sep parts) := by
  induction parts with
  | nil => exact hempty
  | cons first parts ih =>
    have hfirst := h first List.mem_cons_self
    cases parts with
    | nil => exact hfirst
    | cons second parts =>
      have hrest := ih fun part hpart => h part (List.mem_cons_of_mem first hpart)
      exact happend (happend hfirst hsep) hrest

/-- What is not empty makes a text longer. -/
theorem length_lt_append (base : String) {tail : String} (h : tail ≠ "") :
    base.length < (base ++ tail).length := by
  have htail : tail.length ≠ 0 := by simpa using h
  rw [String.length_append]
  omega

end UiLowering.Text
