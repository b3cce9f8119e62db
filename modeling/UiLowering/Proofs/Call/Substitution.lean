import UiLowering.Call.Template
import UiLowering.Proofs.Text.Join

/-!
# Expansion is simultaneous substitution

A template that is put together from texts without dollar signs and from placeholders is a list of
segments.  Its expansion puts each segment's value in its place (`expand_segments`).  The scan never
looks at a value it has put down, so a receiver or an argument that looks like a placeholder stays
as it is.

The scan is followed one segment at a time: `expandChars_append_of_not_mem` passes over a text, and
`expandChars_placeholder` over a placeholder, whatever its key.
-/

set_option autoImplicit false

namespace UiLowering.Template

/-! ## Segments

The segments are what the author of a template means by it.  A key may have zeros in front, so the
same argument can be named in several ways. -/

/-- The key of a placeholder for an argument: decimal digits, zeros in front allowed. -/
structure Key where
  digits : List Char
  nonempty : digits ≠ []
  isDigit : ∀ c ∈ digits, c.isDigit = true

/-- The number of the argument that a key stands for. -/
def Key.index (key : Key) : Nat := Nat.ofDigitChars 10 key.digits 0

/-- A segment of a template: a text without dollar signs, or a placeholder. -/
inductive Segment where
  | text (content : String) (noDollar : '$' ∉ content.toList)
  | receiver
  | arg (key : Key)

/-- How a segment is written in a template. -/
def Segment.source : Segment → String
  | .text content _ => content
  | .receiver => "$\x7bthis\x7d"
  | .arg key => "$\x7b" ++ String.ofList key.digits ++ "\x7d"

/-- What stands in the place of a segment in the expansion.  A placeholder for an argument that is
missing stays. -/
def Segment.value (receiver : String) (args : List String) : Segment → String
  | .text content _ => content
  | .receiver => receiver
  | .arg key => args[key.index]?.getD (Segment.arg key).source

/-! ## The scan

The scan reads the template from left to right and never goes back.  It is enough to know what it
does with a text that has no dollar sign and with one whole placeholder. -/

variable {receiver : String} {args : List String}

theorem expandChars_append_of_not_mem {cs : List Char} (h : '$' ∉ cs) (rest : List Char) :
    expandChars receiver args (cs ++ rest) = cs ++ expandChars receiver args rest := by
  induction cs with
  | nil => rfl
  | cons c cs ih =>
    rw [List.mem_cons, not_or] at h
    rw [List.cons_append, expandChars, ih h.2, List.cons_append]
    exact fun _ hc _ => h.1 hc.symm

theorem expandAfterKey_append {key : List Char} (h : '}' ∉ key) (rest : List Char) :
    expandAfterKey receiver args (key ++ '}' :: rest) = expandChars receiver args rest := by
  induction key with
  | nil => rw [List.nil_append, expandAfterKey]
  | cons c key ih =>
    rw [List.mem_cons, not_or] at h
    rw [List.cons_append, expandAfterKey, ih h.2]
    exact fun hc => h.1 hc.symm

/-- A placeholder is replaced by what its key stands for, and stays if that is nothing. -/
theorem expandChars_placeholder (key : List Char) (hdollar : '$' ∉ key) (hbrace : '}' ∉ key)
    (rest : List Char) :
    expandChars receiver args ('$' :: '{' :: (key ++ '}' :: rest)) =
      (((value? receiver args key).map String.toList).getD ('$' :: '{' :: (key ++ ['}']))) ++
        expandChars receiver args rest := by
  have hinside : ∀ c ∈ key, (c != '}') = true := by
    intro c hc
    rw [bne_iff_ne]
    rintro rfl
    exact hbrace hc
  have hkey : (key ++ '}' :: rest).takeWhile (· != '}') = key := by
    rw [List.takeWhile_append_of_pos hinside, List.takeWhile_cons_of_neg (by decide),
      List.append_nil]
  have hfound : placeholder? receiver args (key ++ '}' :: rest) = value? receiver args key := by
    rw [placeholder?, hkey, if_pos (by simp)]
  rw [expandChars, hfound]
  cases value? receiver args key with
  | some value => exact congrArg (value.toList ++ ·) (expandAfterKey_append hbrace rest)
  | none =>
    have hkeep : '$' ∉ key ++ ['}'] := by simpa using hdollar
    change '$' :: '{' :: expandChars receiver args (key ++ '}' :: rest) = _
    rw [List.append_cons, expandChars_append_of_not_mem hkeep]
    rfl

/-! ## Keys

A key of digits contains no brace, so the placeholder ends where it should, and its digits are read
as the number of the argument. -/

theorem Key.not_mem (key : Key) {c : Char} (hc : c.isDigit = false) : c ∉ key.digits := by
  intro hmem
  rw [key.isDigit c hmem] at hc
  cases hc

theorem index?_digits (key : Key) : index? key.digits = some key.index := by
  have hdigits : (key.digits.isEmpty || key.digits.any (!·.isDigit)) = false := by
    simpa [key.nonempty] using key.isDigit
  rw [index?, hdigits, Key.index, Nat.ofDigitChars_eq_foldl]
  rfl

/-- The key of an argument stands for that argument. -/
theorem value?_digits (receiver : String) (args : List String) (key : Key) :
    value? receiver args key.digits = args[key.index]? := by
  have hthis : (key.digits == ['t', 'h', 'i', 's']) = false := by
    refine beq_eq_false_iff_ne.2 fun h => key.not_mem (c := 't') rfl ?_
    rw [h]
    exact List.mem_cons_self
  rw [value?, hthis, index?_digits]
  rfl

/-! ## Templates

One segment at a time the scan arrives at the rest of the template, having put down the value of the
segment.  The values themselves are not scanned. -/

/-- The scan passes over one segment and puts its value down. -/
theorem expandChars_segment (segment : Segment) (rest : List Char) :
    expandChars receiver args (segment.source.toList ++ rest) =
      (segment.value receiver args).toList ++ expandChars receiver args rest := by
  cases segment with
  | text content noDollar => exact expandChars_append_of_not_mem noDollar rest
  | receiver => exact expandChars_placeholder ['t', 'h', 'i', 's'] (by decide) (by decide) rest
  | arg key =>
    have hsource : (Segment.arg key).source.toList = '$' :: '{' :: (key.digits ++ ['}']) := by
      simp [Segment.source]
    have hvalue : ((Segment.arg key).value receiver args).toList =
        (args[key.index]?.map String.toList).getD ('$' :: '{' :: (key.digits ++ ['}'])) := by
      rw [Segment.value, ← hsource]
      cases args[key.index]? <;> rfl
    rw [hsource, hvalue, ← value?_digits receiver,
      ← expandChars_placeholder key.digits (key.not_mem rfl) (key.not_mem rfl)]
    simp

/-- **Expansion is simultaneous substitution.**  In the expansion of a template that is put together
from texts without dollar signs and from placeholders, the texts stand unchanged, the receiver
stands for `this` and the arguments stand for their numbers; a placeholder for a missing argument
stands as it was written. -/
theorem expand_segments (segments : List Segment) (receiver : String) (args : List String) :
    expand (Text.concat (segments.map Segment.source)) receiver args =
      Text.concat (segments.map (Segment.value receiver args)) := by
  rw [expand, ← String.toList_inj, String.toList_ofList]
  induction segments with
  | nil => rfl
  | cons segment segments ih =>
    rw [List.map_cons, List.map_cons, Text.concat, Text.concat, String.toList_append,
      String.toList_append, expandChars_segment, ih]

-- Placeholders in the receiver and in the arguments are not expanded.
example : expand "$\x7bthis\x7d.f($\x7b00\x7d, $\x7b1\x7d)" "$\x7b0\x7d" ["$\x7bthis\x7d"] =
    "$\x7b0\x7d.f($\x7bthis\x7d, $\x7b1\x7d)" := by
  decide +kernel

end UiLowering.Template
