import UiLowering.Source.Expr

/-!
# Operations and how they are read

An operation is an expression of plain names, prefix operators, binary operators, conditions,
indexing and members.  In its text only binary operators and conditions have parentheses.  So the
text does not show where a prefix operator stood under a member or an index, and two minus signs
look like a decrement.

`Expr.reading` is the operation that the target language reads in the text: members and indices bind
more strongly than prefix operators, and minus signs are taken in pairs from the left.  It has the
text of the operation it comes from, and it is clear, that is, a reading of itself.

An operation that is not clear is not an error: it is lowered, and its text is read as another
operation.  `-(-a)` becomes a decrement of `a`, and `(-a).b` becomes `-(a.b)`.  The reading is a
function on the source, so what a text is taken for can be computed without a parser of the target
language.
-/

set_option autoImplicit false

namespace UiLowering

/-- The characters around names in the text of an operation. -/
def isMark (c : Char) : Bool := [' ', '(', ')', '[', ']', '.', '-', '!', '+'].contains c

/-- A name is not empty and has none of the characters around names. -/
def IsPlainName (name : String) : Prop := name ≠ "" ∧ ∀ c ∈ name.toList, isMark c = false

instance (name : String) : Decidable (IsPlainName name) :=
  @instDecidableAnd _ _ inferInstance (List.decidableBAll _ _)

/-- The operators that may stand before an operand. -/
def prefixOperators : List String := ["-", "!", "--", "++"]

namespace Expr

/-- An expression of names and operators.  Without a string literal no operation is a text chain. -/
inductive IsOperation : Expr → Prop where
  | ident {name : String} : IsPlainName name → IsOperation (.ident name)
  | unary {op : String} {operand : Expr} : op ∈ prefixOperators → IsOperation operand →
      IsOperation (.unary op operand)
  | binary {left right : Expr} {op : String} : IsOperation left → ' ' ∉ op.toList →
      IsOperation right → IsOperation (.binary left op right false)
  | conditional {condition thenValue elseValue : Expr} : IsOperation condition →
      IsOperation thenValue → IsOperation elseValue →
      IsOperation (.conditional condition thenValue elseValue)
  | index {base position : Expr} : IsOperation base → IsOperation position →
      IsOperation (.index base position)
  | member {object : Expr} {field : String} : IsOperation object → IsPlainName field →
      IsOperation (.member object field)

/-- The text of an operation. -/
def operationChars : Expr → List Char
  | .ident name => name.toList
  | .unary op operand => op.toList ++ operand.operationChars
  | .binary left op right _ =>
    '(' :: (left.operationChars ++ ' ' :: (op.toList ++ ' ' :: (right.operationChars ++ [')'])))
  | .conditional condition thenValue elseValue =>
    '(' :: (condition.operationChars ++ ' ' :: '?' :: ' ' :: (thenValue.operationChars ++
      ' ' :: ':' :: ' ' :: (elseValue.operationChars ++ [')'])))
  | .index base position => base.operationChars ++ '[' :: (position.operationChars ++ [']'])
  | .member object field => object.operationChars ++ '.' :: field.toList
  | _ => []

/-! ## Clear operations

An operation is clear if its text can be taken at its word.  Two patterns are excluded, and both are
about a prefix operator and what stands next to it. -/

/-- Whether an expression is a prefix operator with its operand. -/
def isPrefixed : Expr → Bool
  | .unary _ _ => true
  | _ => false

/-- Whether the text of an operation begins with a minus sign. -/
def startsMinus : Expr → Bool
  | .unary op _ => op == "-" || op == "--"
  | _ => false

/-- Whether an operation is read as it is: a member or an index of it is not taken of a prefix
operator, and no minus sign stands directly before another one. -/
def isClear : Expr → Bool
  | .unary op operand => operand.isClear && !(op == "-" && operand.startsMinus)
  | .binary left _ right _ => left.isClear && right.isClear
  | .conditional condition thenValue elseValue =>
    condition.isClear && thenValue.isClear && elseValue.isClear
  | .index base position => !base.isPrefixed && base.isClear && position.isClear
  | .member object _ => !object.isPrefixed && object.isClear
  | _ => true

/-! ## Readings

The reading of an operation is built from those of its parts.  A member or an index goes under the
prefix operators of its operand, and a minus sign in front of another one becomes a decrement.
Taking two signs together leaves an operand that may begin with a sign again, which is why the
induction for `withMinus` is on the prefix operators and not on the parts. -/

/-- Puts something around what stands behind the prefix operators. -/
def underPrefixes (wrap : Expr → Expr) : Expr → Expr
  | .unary op operand => .unary op (underPrefixes wrap operand)
  | e => wrap e

/-- Puts a minus sign before an operation.  It is taken together with the next one, if there is a
next one. -/
def withMinus : Expr → Expr
  | .unary op operand =>
    if op = "-" then .unary "--" operand
    else if op = "--" then .unary "--" (withMinus operand)
    else .unary "-" (.unary op operand)
  | e => .unary "-" e

/-- What is read in the text of an operation. -/
def reading : Expr → Expr
  | .unary op operand =>
    if op = "-" then withMinus operand.reading else .unary op operand.reading
  | .binary left op right chain => .binary left.reading op right.reading chain
  | .conditional condition thenValue elseValue =>
    .conditional condition.reading thenValue.reading elseValue.reading
  | .index base position => underPrefixes (.index · position.reading) base.reading
  | .member object field => underPrefixes (.member · field) object.reading
  | e => e

/-- A clear operation with the text of an operation. -/
structure IsReadingOf (e read : Expr) : Prop where
  isOperation : read.IsOperation
  isClear : read.isClear = true
  chars : read.operationChars = e.operationChars

section

variable {e : Expr}

theorem startsMinus_of_not_isPrefixed (h : e.isPrefixed = false) : e.startsMinus = false := by
  cases e with
  | unary op operand => cases h
  | _ => rfl

theorem underPrefixes_of_not_isPrefixed (wrap : Expr → Expr) (h : e.isPrefixed = false) :
    underPrefixes wrap e = wrap e := by
  cases e with
  | unary op operand => cases h
  | _ => rfl

theorem withMinus_of_not_startsMinus (h : e.startsMinus = false) :
    e.withMinus = .unary "-" e := by
  cases e with
  | unary op operand =>
    rw [startsMinus, Bool.or_eq_false_iff, beq_eq_false_iff_ne, beq_eq_false_iff_ne] at h
    rw [withMinus, if_neg h.1, if_neg h.2]
  | _ => rfl

/-! ### A minus sign in front

The sign joins with the next one, if there is one, and leaves the operation behind the two.  Going
through the prefix operators one at a time, it is seen that at most one sign is left without a
partner. -/

/-- Induction on the prefix operators of an operation. -/
theorem IsOperation.prefixInduction {motive : (e : Expr) → e.IsOperation → Prop}
    (bare : ∀ {e : Expr} (he : e.IsOperation), e.isPrefixed = false → motive e he)
    (unary : ∀ {op : String} {operand : Expr} (hop : op ∈ prefixOperators)
      (hoperand : operand.IsOperation), motive operand hoperand →
        motive (.unary op operand) (.unary hop hoperand))
    {e : Expr} (he : e.IsOperation) : motive e he := by
  induction he with
  | unary hop hoperand ih => exact unary hop hoperand ih
  | ident | binary | conditional | index | member => exact bare _ rfl

theorem isReadingOf_withMinus_of_not_startsMinus (he : e.IsOperation) (hclear : e.isClear = true)
    (h : e.startsMinus = false) : IsReadingOf (.unary "-" e) e.withMinus := by
  rw [withMinus_of_not_startsMinus h]
  exact ⟨.unary (by decide) he, by simp [isClear, hclear, h], rfl⟩

/-- A minus sign before a clear operation gives a clear operation. -/
theorem IsOperation.isReadingOf_withMinus (he : e.IsOperation) (hclear : e.isClear = true) :
    IsReadingOf (.unary "-" e) e.withMinus := by
  induction he using IsOperation.prefixInduction with
  | bare he hbare =>
    exact isReadingOf_withMinus_of_not_startsMinus he hclear (startsMinus_of_not_isPrefixed hbare)
  | @unary op operand hop hoperand ih =>
    by_cases hsingle : op = "-"
    · subst hsingle
      rw [isClear, Bool.and_eq_true] at hclear
      rw [withMinus, if_pos rfl]
      exact ⟨.unary (by decide) hoperand, by simp [isClear, hclear.1], rfl⟩
    · by_cases hdouble : op = "--"
      · subst hdouble
        rw [isClear, Bool.and_eq_true] at hclear
        obtain ⟨hoperation, hread, hchars⟩ := ih hclear.1
        rw [withMinus, if_neg hsingle, if_pos rfl]
        refine ⟨.unary hop hoperation, by simp [isClear, hread], ?_⟩
        rw [operationChars, hchars]
        rfl
      · exact isReadingOf_withMinus_of_not_startsMinus (.unary hop hoperand) hclear
          (by simp [startsMinus, hsingle, hdouble])

/-! ### Members and indices

Both are written behind their operand, so that in the text they belong to what stands behind its
prefix operators.  `Appends` says what the two have in common: how they change the text, and that
they are no prefix operators themselves. -/

/-- What is put around an operation adds `tail` to its text and makes no prefix operator of it. -/
structure Appends (wrap : Expr → Expr) (tail : List Char) : Prop where
  isOperation {e : Expr} : e.IsOperation → (wrap e).IsOperation
  isPrefixed (e : Expr) : (wrap e).isPrefixed = false
  isClear {e : Expr} : e.isPrefixed = false → e.isClear = true → (wrap e).isClear = true
  chars (e : Expr) : (wrap e).operationChars = e.operationChars ++ tail

theorem appends_member {field : String} (hfield : IsPlainName field) :
    Appends (.member · field) ('.' :: field.toList) where
  isOperation he := .member he hfield
  isPrefixed _ := rfl
  isClear hbare hclear := by simp [isClear, hbare, hclear]
  chars _ := rfl

theorem appends_index {position : Expr} (hposition : position.IsOperation)
    (hread : position.isClear = true) :
    Appends (.index · position) ('[' :: (position.operationChars ++ [']'])) where
  isOperation he := .index he hposition
  isPrefixed _ := rfl
  isClear hbare hclear := by simp [isClear, hbare, hclear, hread]
  chars _ := rfl

namespace Appends

variable {wrap : Expr → Expr} {tail : List Char}

theorem startsMinus_underPrefixes (h : Appends wrap tail) (e : Expr) :
    (underPrefixes wrap e).startsMinus = e.startsMinus := by
  cases hbare : e.isPrefixed with
  | false =>
    rw [underPrefixes_of_not_isPrefixed wrap hbare, startsMinus_of_not_isPrefixed hbare,
      startsMinus_of_not_isPrefixed (h.isPrefixed e)]
  | true =>
    cases e with
    | unary op operand => rfl
    | _ => cases hbare

/-- What is put behind the prefix operators of a clear operation gives a clear operation. -/
theorem isClear_underPrefixes (h : Appends wrap tail) (he : e.IsOperation)
    (hclear : e.isClear = true) :
    (underPrefixes wrap e).IsOperation ∧ (underPrefixes wrap e).isClear = true ∧
      (underPrefixes wrap e).operationChars = e.operationChars ++ tail := by
  induction he using IsOperation.prefixInduction with
  | bare he hbare =>
    rw [underPrefixes_of_not_isPrefixed wrap hbare]
    exact ⟨h.isOperation he, h.isClear hbare hclear, h.chars _⟩
  | @unary op operand hop hoperand ih =>
    rw [Expr.isClear, Bool.and_eq_true] at hclear
    obtain ⟨hoperation, hread, hchars⟩ := ih hclear.1
    refine ⟨.unary hop hoperation, ?_, ?_⟩
    · rw [underPrefixes, Expr.isClear, hread, h.startsMinus_underPrefixes]
      exact hclear.2
    · rw [underPrefixes, operationChars, hchars, operationChars, List.append_assoc]

end Appends

/-- **Every operation has a reading.**  It is clear and has the same text. -/
theorem IsOperation.isReadingOf_reading (he : e.IsOperation) : IsReadingOf e e.reading := by
  induction he with
  | ident hname => exact ⟨.ident hname, rfl, rfl⟩
  | @unary op operand hop _ ih =>
    rw [reading]
    split
    · rename_i hminus
      subst hminus
      obtain ⟨hoperation, hclear, hchars⟩ := ih.isOperation.isReadingOf_withMinus ih.isClear
      refine ⟨hoperation, hclear, ?_⟩
      rw [hchars, operationChars, operationChars, ih.chars]
    · rename_i hother
      refine ⟨.unary hop ih.isOperation, by simp [isClear, ih.isClear, hother], ?_⟩
      rw [operationChars, operationChars, ih.chars]
  | binary _ hop _ ihleft ihright =>
    refine ⟨.binary ihleft.isOperation hop ihright.isOperation, ?_, ?_⟩
    · rw [reading, isClear, ihleft.isClear, ihright.isClear]
      rfl
    · rw [reading, operationChars, operationChars, ihleft.chars, ihright.chars]
  | conditional _ _ _ ihtest ihthen ihelse =>
    refine ⟨.conditional ihtest.isOperation ihthen.isOperation ihelse.isOperation, ?_, ?_⟩
    · rw [reading, isClear, ihtest.isClear, ihthen.isClear, ihelse.isClear]
      rfl
    · rw [reading, operationChars, operationChars, ihtest.chars, ihthen.chars, ihelse.chars]
  | index _ _ ihbase ihposition =>
    have happends := appends_index ihposition.isOperation ihposition.isClear
    obtain ⟨hoperation, hclear, hchars⟩ :=
      happends.isClear_underPrefixes ihbase.isOperation ihbase.isClear
    refine ⟨hoperation, hclear, ?_⟩
    rw [reading, hchars, operationChars, ihbase.chars, ihposition.chars]
  | member _ hfield ih =>
    obtain ⟨hoperation, hclear, hchars⟩ :=
      (appends_member hfield).isClear_underPrefixes ih.isOperation ih.isClear
    refine ⟨hoperation, hclear, ?_⟩
    rw [reading, hchars, operationChars, ih.chars]

/-- Clear operations are read as they are. -/
theorem IsOperation.reading_of_isClear (he : e.IsOperation) (hclear : e.isClear = true) :
    e.reading = e := by
  induction he with
  | ident hname => rfl
  | @unary op operand hop hoperand ih =>
    rw [isClear, Bool.and_eq_true, Bool.not_eq_true'] at hclear
    rw [reading, ih hclear.1]
    split
    · rename_i hminus
      subst hminus
      exact withMinus_of_not_startsMinus hclear.2
    · rfl
  | binary _ _ _ ihleft ihright =>
    rw [isClear, Bool.and_eq_true] at hclear
    rw [reading, ihleft hclear.1, ihright hclear.2]
  | conditional _ _ _ ihtest ihthen ihelse =>
    rw [isClear, Bool.and_eq_true, Bool.and_eq_true] at hclear
    rw [reading, ihtest hclear.1.1, ihthen hclear.1.2, ihelse hclear.2]
  | index _ _ ihbase ihposition =>
    rw [isClear, Bool.and_eq_true, Bool.and_eq_true, Bool.not_eq_true'] at hclear
    obtain ⟨⟨hbare, hbase⟩, hposition⟩ := hclear
    rw [reading, ihbase hbase, ihposition hposition, underPrefixes_of_not_isPrefixed _ hbare]
  | member _ _ ih =>
    rw [isClear, Bool.and_eq_true, Bool.not_eq_true'] at hclear
    rw [reading, ih hclear.2, underPrefixes_of_not_isPrefixed _ hclear.1]

theorem IsOperation.reading_eq_self_iff (he : e.IsOperation) :
    e.reading = e ↔ e.isClear = true := by
  refine ⟨fun h => ?_, he.reading_of_isClear⟩
  rw [← h]
  exact he.isReadingOf_reading.isClear

end

end Expr

end UiLowering
