import UiLowering.Proofs.Call.Route
import UiLowering.Proofs.Source.Operation
import UiLowering.Proofs.Source.Parts

/-!
# Which operations have the same text

Clear operations are uniquely readable: if two of them, each followed by a blank, a closing bracket
or nothing, give the same text, they are the same and so is what follows (`Expr.Unique`).  A text
that begins with a prefix operator shows this operator.  Any other clear operation is a name or a
parenthesis with members and indices behind it.  Since these are added at the end, two such
operations are compared from the left: one of them is the beginning of the other
(`Expr.Comparable`), and what follows decides whether they are equal.

As every operation has the text of its reading, two operations have the same text exactly if they
have the same reading.

That the text determines the reading is a statement about a grammar without a tokenizer, and
therefore about characters.  The usual argument by the first symbol does not work for members and
indices, which are written behind their operand: the induction hypothesis is about the operand, and
where this ends is not known in advance.  The notion of one operation extending another makes up for
that.  It is an order in which the operations that can be read at the beginning of a text are
comparable, and what follows picks one of them.

Names are plain here, that is, they hold none of the characters that stand around names.  A binary
operator may be any text without blanks, since it stands between two of them.
-/

set_option autoImplicit false

namespace UiLowering

/-! ## What follows a name and an operation

A name is read as far as it goes.  So that two names can be compared, what stands behind them must
begin with a character that no name has. -/

/-- Texts that have no character of a kind, and are followed by one or by nothing, are told apart by
what they begin. -/
theorem append_inj_of_stop {stop : Char → Bool} {front front' rest rest' : List Char}
    (hfront : ∀ c ∈ front, stop c = false) (hfront' : ∀ c ∈ front', stop c = false)
    (hrest : ∀ c ∈ rest.head?, stop c = true) (hrest' : ∀ c ∈ rest'.head?, stop c = true)
    (h : front ++ rest = front' ++ rest') : front = front' ∧ rest = rest' := by
  induction front generalizing front' with
  | nil =>
    cases front' with
    | nil => exact ⟨rfl, h⟩
    | cons c front' =>
      rw [List.nil_append, List.cons_append] at h
      have hstop := hrest c (by rw [h]; rfl)
      rw [hfront' c List.mem_cons_self] at hstop
      cases hstop
  | cons c front ih =>
    cases front' with
    | nil =>
      rw [List.nil_append, List.cons_append] at h
      have hstop := hrest' c (by rw [← h]; rfl)
      rw [hfront c List.mem_cons_self] at hstop
      cases hstop
    | cons d front' =>
      obtain ⟨rfl, htail⟩ := List.cons.inj h
      obtain ⟨rfl, hrests⟩ := ih (fun d hd => hfront d (List.mem_cons_of_mem _ hd))
        (fun d hd => hfront' d (List.mem_cons_of_mem _ hd)) htail
      exact ⟨rfl, hrests⟩

/-- A text that may stand behind a name. -/
def FollowsName (rest : List Char) : Prop := ∀ c ∈ rest.head?, isMark c = true

/-- Whether a character may stand directly behind an operation. -/
def isEnd (c : Char) : Bool := [' ', ')', ']'].contains c

/-- A text that may stand behind an operation. -/
def FollowsOperation (rest : List Char) : Prop := ∀ c ∈ rest.head?, isEnd c = true

theorem followsName_cons {c : Char} (h : isMark c = true) (rest : List Char) :
    FollowsName (c :: rest) := by
  intro d hd
  cases hd
  exact h

theorem followsOperation_cons {c : Char} (h : isEnd c = true) (rest : List Char) :
    FollowsOperation (c :: rest) := by
  intro d hd
  cases hd
  exact h

theorem followsOperation_nil : FollowsOperation [] := by
  intro c hc
  cases hc

theorem FollowsOperation.followsName {rest : List Char} (h : FollowsOperation rest) :
    FollowsName rest := by
  intro c hc
  have hend := h c hc
  simp only [isEnd, List.contains_eq_mem, List.mem_cons, List.not_mem_nil, or_false,
    decide_eq_true_eq] at hend
  rcases hend with rfl | rfl | rfl <;> rfl

theorem IsPlainName.append_inj {name name' : String} {rest rest' : List Char}
    (hname : IsPlainName name) (hname' : IsPlainName name') (hrest : FollowsName rest)
    (hrest' : FollowsName rest') (h : name.toList ++ rest = name'.toList ++ rest') :
    name = name' ∧ rest = rest' := by
  obtain ⟨hnames, hrests⟩ := append_inj_of_stop hname.2 hname'.2 hrest hrest' h
  exact ⟨String.toList_inj.1 hnames, hrests⟩

theorem IsPlainName.exists_cons {name : String} (h : IsPlainName name) :
    ∃ c cs, name.toList = c :: cs ∧ isMark c = false := by
  cases hchars : name.toList with
  | nil => exact absurd (String.toList_eq_nil_iff.1 hchars) h.1
  | cons c cs => exact ⟨c, cs, rfl, h.2 c (by rw [hchars]; exact List.mem_cons_self)⟩

theorem IsPlainName.ne_paren {name : String} (h : IsPlainName name) (rest rest' : List Char) :
    name.toList ++ rest ≠ '(' :: rest' := by
  obtain ⟨c, cs, hcons, hmark⟩ := h.exists_cons
  rw [hcons]
  intro heq
  obtain ⟨rfl, -⟩ := List.cons.inj heq
  cases hmark

theorem operator_append_inj {op op' : String} {rest rest' : List Char} (hop : ' ' ∉ op.toList)
    (hop' : ' ' ∉ op'.toList) (h : op.toList ++ ' ' :: rest = op'.toList ++ ' ' :: rest') :
    op = op' ∧ rest = rest' := by
  have hstop : ∀ {op : String}, ' ' ∉ op.toList → ∀ c ∈ op.toList, (c == ' ') = false :=
    fun hop c hc => beq_eq_false_iff_ne.2 fun heq => hop (heq ▸ hc)
  have hblank : ∀ rest : List Char, ∀ c ∈ (' ' :: rest).head?, (c == ' ') = true := by
    intro rest c hc
    cases hc
    rfl
  obtain ⟨hops, hrests⟩ := append_inj_of_stop (hstop hop) (hstop hop') (hblank _) (hblank _) h
  exact ⟨String.toList_inj.1 hops, (List.cons.inj hrests).2⟩

namespace Expr

variable {e whole : Expr}

/-! ## Members and indices behind an operation

A member is written behind its operand, and its operand is a whole operation.  Reading from the
left, one does not know yet how many members will follow; `Extends` leaves that open. -/

/-- One expression is another one with members and indices behind it. -/
inductive Extends : Expr → Expr → Prop where
  | refl (e : Expr) : Extends e e
  | member {e whole : Expr} {field : String} : Extends (.member e field) whole → Extends e whole
  | index {e position whole : Expr} : Extends (.index e position) whole → Extends e whole

theorem Extends.trans {middle : Expr} (h : Extends e middle) (hwhole : Extends middle whole) :
    Extends e whole := by
  induction h with
  | refl e => exact hwhole
  | member _ ih => exact .member (ih hwhole)
  | index _ ih => exact .index (ih hwhole)

theorem Extends.isOperation (h : Extends e whole) (hwhole : whole.IsOperation) :
    e.IsOperation := by
  induction h with
  | refl e => exact hwhole
  | member _ ih =>
    cases ih hwhole with
    | member hobject _ => exact hobject
  | index _ ih =>
    cases ih hwhole with
    | index hbase _ => exact hbase

theorem Extends.isClear (h : Extends e whole) (hwhole : whole.isClear = true) :
    e.isClear = true := by
  induction h with
  | refl e => exact hwhole
  | member _ ih =>
    have hmember := ih hwhole
    rw [Expr.isClear, Bool.and_eq_true] at hmember
    exact hmember.2
  | index _ ih =>
    have hindex := ih hwhole
    rw [Expr.isClear, Bool.and_eq_true, Bool.and_eq_true] at hindex
    exact hindex.1.2

/-- What stands behind an expression begins with a dot or a bracket, if it is not empty. -/
theorem Extends.exists_tail (h : Extends e whole) :
    ∃ tail, whole.operationChars = e.operationChars ++ tail ∧
      (whole = e ∧ tail = [] ∨ tail.head? = some '.' ∨ tail.head? = some '[') := by
  induction h with
  | refl e => exact ⟨[], (List.append_nil _).symm, .inl ⟨rfl, rfl⟩⟩
  | @member e whole field _ ih =>
    obtain ⟨tail, hchars, -⟩ := ih
    refine ⟨'.' :: (field.toList ++ tail), ?_, .inr (.inl rfl)⟩
    rw [hchars, operationChars, List.append_assoc, List.cons_append]
  | @index e position whole _ ih =>
    obtain ⟨tail, hchars, -⟩ := ih
    refine ⟨'[' :: ((position.operationChars ++ [']']) ++ tail), ?_, .inr (.inr rfl)⟩
    rw [hchars, operationChars, List.append_assoc, List.cons_append]

/-- The same before a text that may stand behind a name. -/
theorem Extends.exists_follows {rest : List Char} (h : Extends e whole) (hrest : FollowsName rest) :
    ∃ tail, whole.operationChars ++ rest = e.operationChars ++ tail ∧ FollowsName tail := by
  obtain ⟨tail, hchars, htail⟩ := h.exists_tail
  refine ⟨tail ++ rest, by rw [hchars, List.append_assoc], ?_⟩
  rcases htail with ⟨-, rfl⟩ | htail | htail
  · exact hrest
  · intro c hc
    rw [List.head?_append, htail] at hc
    cases hc
    rfl
  · intro c hc
    rw [List.head?_append, htail] at hc
    cases hc
    rfl

/-- Whether an operation is a name or stands in parentheses. -/
def isAtom : Expr → Bool
  | .ident _ | .binary .. | .conditional .. => true
  | _ => false

/-- A clear operation without a prefix operator extends an atom. -/
theorem IsOperation.exists_atom (he : e.IsOperation) (hclear : e.isClear = true)
    (hbare : e.isPrefixed = false) : ∃ atom, Extends atom e ∧ atom.isAtom = true := by
  induction he with
  | ident | binary | conditional => exact ⟨_, .refl _, rfl⟩
  | unary => cases hbare
  | index _ _ ih =>
    rw [isClear, Bool.and_eq_true, Bool.and_eq_true, Bool.not_eq_true'] at hclear
    obtain ⟨atom, hatom, h⟩ := ih hclear.1.2 hclear.1.1
    exact ⟨atom, hatom.trans (.index (.refl _)), h⟩
  | member _ _ ih =>
    rw [isClear, Bool.and_eq_true, Bool.not_eq_true'] at hclear
    obtain ⟨atom, hatom, h⟩ := ih hclear.2 hclear.1
    exact ⟨atom, hatom.trans (.member (.refl _)), h⟩

/-- The text of a clear operation without a prefix operator begins with a parenthesis or a name. -/
theorem IsOperation.exists_cons (he : e.IsOperation) (hclear : e.isClear = true)
    (hbare : e.isPrefixed = false) :
    ∃ c cs, e.operationChars = c :: cs ∧ (c = '(' ∨ isMark c = false) := by
  obtain ⟨atom, hextends, hatom⟩ := he.exists_atom hclear hbare
  obtain ⟨tail, hchars, -⟩ := hextends.exists_tail
  cases hextends.isOperation he with
  | ident hname =>
    obtain ⟨c, cs, hcons, hmark⟩ := hname.exists_cons
    exact ⟨c, cs ++ tail, by rw [hchars, operationChars, hcons, List.cons_append], .inr hmark⟩
  | binary => exact ⟨'(', _, hchars, .inl rfl⟩
  | conditional => exact ⟨'(', _, hchars, .inl rfl⟩
  | unary | index | member => cases hatom

/-! ## Prefix operators

A text that begins with a minus sign could begin with a decrement.  In a clear operation a single
minus sign is not followed by another one, so the two can be told apart. -/

theorem exists_cons_of_mem_prefixOperators {op : String} (h : op ∈ prefixOperators) :
    ∃ c cs, op.toList = c :: cs ∧ c ≠ '(' ∧ isMark c = true ∧ (c = '-' → op = "-" ∨ op = "--") := by
  simp only [prefixOperators, List.mem_cons, List.not_mem_nil, or_false] at h
  rcases h with rfl | rfl | rfl | rfl
  · exact ⟨'-', [], by decide⟩
  · exact ⟨'!', [], by decide⟩
  · exact ⟨'-', ['-'], by decide⟩
  · exact ⟨'+', ['+'], by decide⟩

theorem IsOperation.ne_prefixOperator {op : String} (he : e.IsOperation)
    (hclear : e.isClear = true) (hbare : e.isPrefixed = false) (hop : op ∈ prefixOperators)
    (rest rest' : List Char) : e.operationChars ++ rest ≠ op.toList ++ rest' := by
  obtain ⟨c, cs, hchars, hc⟩ := he.exists_cons hclear hbare
  obtain ⟨d, ds, hop, hparen, hmark, -⟩ := exists_cons_of_mem_prefixOperators hop
  rw [hchars, hop, List.cons_append, List.cons_append]
  intro h
  obtain ⟨rfl, -⟩ := List.cons.inj h
  rcases hc with hc | hc
  · exact hparen hc
  · rw [hmark] at hc
    cases hc

theorem IsOperation.head?_ne_minus (he : e.IsOperation) (hclear : e.isClear = true)
    (h : e.startsMinus = false) (rest : List Char) :
    (e.operationChars ++ rest).head? ≠ some '-' := by
  cases hbare : e.isPrefixed with
  | false =>
    intro hhead
    obtain ⟨cs, hcs⟩ := List.head?_eq_some_iff.1 hhead
    have hminus : "-" ∈ prefixOperators := by decide
    exact he.ne_prefixOperator hclear hbare hminus rest cs hcs
  | true =>
    cases he with
    | @unary op operand hop hoperand =>
      obtain ⟨c, cs, hchars, -, -, hminus⟩ := exists_cons_of_mem_prefixOperators hop
      rw [operationChars, hchars]
      intro hhead
      rw [startsMinus, Bool.or_eq_false_iff, beq_eq_false_iff_ne, beq_eq_false_iff_ne] at h
      exact (hminus (Option.some.inj hhead)).elim h.1 h.2
    | _ => cases hbare

/-- A prefix operator is told by the text, as no minus sign follows a single one. -/
theorem prefixOperator_append_inj {op op' : String} {rest rest' : List Char}
    (hop : op ∈ prefixOperators) (hop' : op' ∈ prefixOperators)
    (hminus : op = "-" → rest.head? ≠ some '-') (hminus' : op' = "-" → rest'.head? ≠ some '-')
    (h : op.toList ++ rest = op'.toList ++ rest') : op = op' ∧ rest = rest' := by
  simp only [prefixOperators, List.mem_cons, List.not_mem_nil, or_false] at hop hop'
  have hsingle : "-".toList = ['-'] := rfl
  have hnot : "!".toList = ['!'] := rfl
  have hdouble : "--".toList = ['-', '-'] := rfl
  have hplus : "++".toList = ['+', '+'] := rfl
  rcases hop with rfl | rfl | rfl | rfl <;> rcases hop' with rfl | rfl | rfl | rfl <;>
    grind

/-! ## Unique readability

The statement for an operation needs that for its parts in two forms.  A part in brackets or with an
operator behind it is unique.  The operand of a member is only comparable, since a longer operand
may begin with the same text.  The induction proves both. -/

/-- An operation is the only clear one that can be read at the beginning of a text. -/
def Unique (e : Expr) : Prop :=
  ∀ {e' : Expr} {rest rest' : List Char}, e'.IsOperation → e'.isClear = true →
    FollowsOperation rest → FollowsOperation rest' →
    e.operationChars ++ rest = e'.operationChars ++ rest' → e = e' ∧ rest = rest'

/-- Of an operation and any other clear one without a prefix operator that is read at the beginning
of the same text, one extends the other. -/
def Comparable (e : Expr) : Prop :=
  ∀ {e' : Expr} {rest rest' : List Char}, e'.IsOperation → e'.isClear = true →
    e'.isPrefixed = false → FollowsName rest → FollowsName rest' →
    e.operationChars ++ rest = e'.operationChars ++ rest' → Extends e e' ∨ Extends e' e

/-! ### One form at a time

For each form of operation, from the statements for its parts.  Names and parentheses are told apart
by their first character.  A member or an index is compared with whatever else can be read at its
beginning, and its operand is comparable with that by induction. -/

/-- For an atom it is enough to look at other atoms. -/
theorem comparable_of_atom
    (h : ∀ {atom : Expr} {rest rest' : List Char}, atom.IsOperation → atom.isClear = true →
      atom.isAtom = true → FollowsName rest → FollowsName rest' →
      e.operationChars ++ rest = atom.operationChars ++ rest' → e = atom) : e.Comparable := by
  intro e' rest rest' he' hclear' hbare' hrest hrest' heq
  obtain ⟨atom, hextends, hatom⟩ := he'.exists_atom hclear' hbare'
  obtain ⟨tail, hchars, htail⟩ := hextends.exists_follows hrest'
  rw [hchars] at heq
  obtain rfl := h (hextends.isOperation he') (hextends.isClear hclear') hatom hrest htail heq
  exact .inl hextends

theorem comparable_ident {name : String} (hname : IsPlainName name) :
    (Expr.ident name).Comparable := by
  refine comparable_of_atom fun hoperation _ hatom hrest hrest' heq => ?_
  cases hoperation with
  | ident hname' => rw [(hname.append_inj hname' hrest hrest' heq).1]
  | binary | conditional => exact absurd heq (hname.ne_paren _ _)
  | unary | index | member => cases hatom

theorem Unique.append_cons_inj {e' : Expr} {c d : Char} {rest rest' : List Char} (h : e.Unique)
    (he' : e'.IsOperation) (hclear' : e'.isClear = true) (hc : isEnd c = true) (hd : isEnd d = true)
    (heq : e.operationChars ++ c :: rest = e'.operationChars ++ d :: rest') :
    e = e' ∧ c = d ∧ rest = rest' := by
  obtain ⟨heq, hrests⟩ :=
    h he' hclear' (followsOperation_cons hc rest) (followsOperation_cons hd rest') heq
  exact ⟨heq, List.cons.inj hrests⟩

theorem comparable_binary {left right : Expr} {op : String} (hop : ' ' ∉ op.toList)
    (hleft : left.Unique) (hright : right.Unique) :
    (Expr.binary left op right false).Comparable := by
  refine comparable_of_atom fun hoperation hclear hatom _ _ heq => ?_
  cases hoperation with
  | ident hname' => exact absurd heq.symm (hname'.ne_paren _ _)
  | binary hleft' hop' hright' =>
    rw [isClear, Bool.and_eq_true] at hclear
    simp only [operationChars, List.cons_append, List.append_assoc, List.cons.injEq, true_and]
      at heq
    obtain ⟨rfl, -, htail⟩ := hleft.append_cons_inj hleft' hclear.1 rfl rfl heq
    obtain ⟨rfl, hoperand⟩ := operator_append_inj hop hop' htail
    obtain ⟨rfl, -⟩ := hright.append_cons_inj hright' hclear.2 rfl rfl hoperand
    rfl
  | conditional htest' hthen' helse' =>
    -- A condition looks like an operation with a question mark, but only up to the colon.
    rw [isClear, Bool.and_eq_true, Bool.and_eq_true] at hclear
    simp only [operationChars, List.cons_append, List.append_assoc, List.cons.injEq, true_and]
      at heq
    obtain ⟨rfl, -, htail⟩ := hleft.append_cons_inj htest' hclear.1.1 rfl rfl heq
    have hquestion : ' ' ∉ "?".toList := by decide
    obtain ⟨rfl, hoperand⟩ := operator_append_inj hop hquestion htail
    obtain ⟨-, hcolon, -⟩ := hright.append_cons_inj hthen' hclear.1.2 rfl rfl hoperand
    cases hcolon
  | unary | index | member => cases hatom

theorem comparable_conditional {condition thenValue elseValue : Expr} (htest : condition.Unique)
    (hthen : thenValue.Unique) (helse : elseValue.Unique) :
    (Expr.conditional condition thenValue elseValue).Comparable := by
  refine comparable_of_atom fun hoperation hclear hatom _ _ heq => ?_
  cases hoperation with
  | ident hname' => exact absurd heq.symm (hname'.ne_paren _ _)
  | binary hleft' hop' hright' =>
    rw [isClear, Bool.and_eq_true] at hclear
    simp only [operationChars, List.cons_append, List.append_assoc, List.cons.injEq, true_and]
      at heq
    obtain ⟨rfl, -, htail⟩ := htest.append_cons_inj hleft' hclear.1 rfl rfl heq
    have hquestion : ' ' ∉ "?".toList := by decide
    obtain ⟨rfl, hoperand⟩ := operator_append_inj hquestion hop' htail
    obtain ⟨-, hcolon, -⟩ := hthen.append_cons_inj hright' hclear.2 rfl rfl hoperand
    cases hcolon
  | conditional htest' hthen' helse' =>
    rw [isClear, Bool.and_eq_true, Bool.and_eq_true] at hclear
    simp only [operationChars, List.cons_append, List.append_assoc, List.cons.injEq, true_and]
      at heq
    obtain ⟨rfl, -, hfirst⟩ := htest.append_cons_inj htest' hclear.1.1 rfl rfl heq
    simp only [List.cons.injEq, true_and] at hfirst
    obtain ⟨rfl, -, hsecond⟩ := hthen.append_cons_inj hthen' hclear.1.2 rfl rfl hfirst
    simp only [List.cons.injEq, true_and] at hsecond
    obtain ⟨rfl, -⟩ := helse.append_cons_inj helse' hclear.2 rfl rfl hsecond
    rfl
  | unary | index | member => cases hatom

theorem comparable_member {object : Expr} {field : String} (hfield : IsPlainName field)
    (hobject : object.Comparable) : (Expr.member object field).Comparable := by
  intro e' rest rest' he' hclear' hbare' hrest hrest' heq
  simp only [operationChars, List.append_assoc, List.cons_append] at heq
  rcases hobject he' hclear' hbare' (followsName_cons rfl _) hrest' heq with h | h
  · cases h with
    | refl => exact .inr (.member (.refl _))
    | member h =>
      -- The first member behind the object is the same on both sides.
      cases h.isOperation he' with
      | member _ hfield' =>
      obtain ⟨tail, hchars, htail⟩ := h.exists_follows hrest'
      simp only [hchars, operationChars, List.append_assoc, List.cons_append,
        List.append_cancel_left_eq, List.cons.injEq, true_and] at heq
      obtain ⟨rfl, -⟩ := hfield.append_inj hfield' hrest htail heq
      exact .inl h
    | index h =>
      obtain ⟨tail, hchars, -⟩ := h.exists_follows hrest'
      simp [hchars, operationChars] at heq
  · exact .inr (h.trans (.member (.refl _)))

theorem comparable_index {base position : Expr} (hbase : base.Comparable)
    (hposition : position.Unique) : (Expr.index base position).Comparable := by
  intro e' rest rest' he' hclear' hbare' hrest hrest' heq
  simp only [operationChars, List.append_assoc, List.cons_append] at heq
  rcases hbase he' hclear' hbare' (followsName_cons rfl _) hrest' heq with h | h
  · cases h with
    | refl => exact .inr (.index (.refl _))
    | member h =>
      obtain ⟨tail, hchars, -⟩ := h.exists_follows hrest'
      simp [hchars, operationChars] at heq
    | index h =>
      have hclear := h.isClear hclear'
      rw [isClear, Bool.and_eq_true] at hclear
      cases h.isOperation he' with
      | index _ hposition' =>
      obtain ⟨tail, hchars, -⟩ := h.exists_follows hrest'
      simp only [hchars, operationChars, List.append_assoc, List.cons_append,
        List.append_cancel_left_eq, List.cons.injEq, true_and] at heq
      obtain ⟨rfl, -⟩ := hposition.append_cons_inj hposition' hclear.2 rfl rfl heq
      exact .inl h
  · exact .inr (h.trans (.index (.refl _)))

/-! ### From comparable to unique

If one operation extends another, what stands behind the shorter one begins with a dot or a bracket.
A text that may follow an operation does not, so neither is longer. -/

/-- What follows shows where an operation without a prefix operator ends. -/
theorem eq_of_extends {rest rest' : List Char} (h : Extends e whole)
    (hrest : FollowsOperation rest)
    (heq : e.operationChars ++ rest = whole.operationChars ++ rest') :
    e = whole ∧ rest = rest' := by
  obtain ⟨tail, hchars, htail⟩ := h.exists_tail
  rw [hchars, List.append_assoc, List.append_cancel_left_eq] at heq
  rcases htail with ⟨rfl, rfl⟩ | htail | htail
  · exact ⟨rfl, heq⟩
  · have hdot := hrest '.' (by rw [heq, List.head?_append, htail]; rfl)
    cases hdot
  · have hbracket := hrest '[' (by rw [heq, List.head?_append, htail]; rfl)
    cases hbracket

theorem Comparable.unique (h : e.Comparable) (he : e.IsOperation) (hclear : e.isClear = true)
    (hbare : e.isPrefixed = false) : e.Unique := by
  intro e' rest rest' he' hclear' hrest hrest' heq
  cases hbare' : e'.isPrefixed with
  | false =>
    rcases h he' hclear' hbare' hrest.followsName hrest'.followsName heq with h | h
    · exact eq_of_extends h hrest heq
    · obtain ⟨rfl, rfl⟩ := eq_of_extends h hrest' heq.symm
      exact ⟨rfl, rfl⟩
  | true =>
    cases he' with
    | unary hop' _ =>
      rw [operationChars, List.append_assoc] at heq
      exact absurd heq (he.ne_prefixOperator hclear hbare hop' _ _)
    | _ => cases hbare'

theorem unique_unary {op : String} {operand : Expr} (hop : op ∈ prefixOperators)
    (hoperand : operand.IsOperation) (hclear : (Expr.unary op operand).isClear = true)
    (h : operand.Unique) : (Expr.unary op operand).Unique := by
  have hminus : ∀ {op : String} {operand : Expr}, operand.IsOperation →
      (Expr.unary op operand).isClear = true → ∀ rest : List Char,
      op = "-" → (operand.operationChars ++ rest).head? ≠ some '-' := by
    intro op operand hoperand hclear rest hop
    rw [isClear, Bool.and_eq_true, hop, beq_self_eq_true, Bool.true_and, Bool.not_eq_true']
      at hclear
    exact hoperand.head?_ne_minus hclear.1 hclear.2 rest
  intro e' rest rest' he' hclear' hrest hrest' heq
  rw [operationChars, List.append_assoc] at heq
  cases hbare' : e'.isPrefixed with
  | false => exact absurd heq.symm (he'.ne_prefixOperator hclear' hbare' hop _ _)
  | true =>
    cases he' with
    | unary hop' hoperand' =>
      rw [operationChars, List.append_assoc] at heq
      obtain ⟨rfl, hoperands⟩ := prefixOperator_append_inj hop hop' (hminus hoperand hclear _)
        (hminus hoperand' hclear' _) heq
      rw [isClear, Bool.and_eq_true] at hclear'
      obtain ⟨rfl, hrests⟩ := h hoperand' hclear'.1 hrest hrest' hoperands
      exact ⟨rfl, hrests⟩
    | _ => cases hbare'

/-- Clear operations are uniquely readable. -/
theorem IsOperation.comparable_and_unique (he : e.IsOperation) (hclear : e.isClear = true) :
    (e.isPrefixed = false → e.Comparable) ∧ e.Unique := by
  -- The two go together: an index needs the second one for the position.
  have hboth : ∀ {e : Expr}, e.IsOperation → e.isClear = true → e.isPrefixed = false →
      e.Comparable → (e.isPrefixed = false → e.Comparable) ∧ e.Unique :=
    fun he hclear hbare h => ⟨fun _ => h, h.unique he hclear hbare⟩
  induction he with
  | ident hname => exact hboth (.ident hname) hclear rfl (comparable_ident hname)
  | unary hop hoperand ih =>
    have hparts := hclear
    rw [isClear, Bool.and_eq_true] at hparts
    refine ⟨fun hbare => ?_, unique_unary hop hoperand hclear (ih hparts.1).2⟩
    cases hbare
  | binary hleft hop hright ihleft ihright =>
    have hparts := hclear
    rw [isClear, Bool.and_eq_true] at hparts
    exact hboth (.binary hleft hop hright) hclear rfl
      (comparable_binary hop (ihleft hparts.1).2 (ihright hparts.2).2)
  | conditional htest hthen helse ihtest ihthen ihelse =>
    have hparts := hclear
    rw [isClear, Bool.and_eq_true, Bool.and_eq_true] at hparts
    exact hboth (.conditional htest hthen helse) hclear rfl
      (comparable_conditional (ihtest hparts.1.1).2 (ihthen hparts.1.2).2 (ihelse hparts.2).2)
  | index hbase hposition ihbase ihposition =>
    have hparts := hclear
    rw [isClear, Bool.and_eq_true, Bool.and_eq_true, Bool.not_eq_true'] at hparts
    exact hboth (.index hbase hposition) hclear rfl
      (comparable_index ((ihbase hparts.1.2).1 hparts.1.1) (ihposition hparts.2).2)
  | member hobject hfield ih =>
    have hparts := hclear
    rw [isClear, Bool.and_eq_true, Bool.not_eq_true'] at hparts
    exact hboth (.member hobject hfield) hclear rfl
      (comparable_member hfield ((ih hparts.2).1 hparts.1))

/-- **Operations have the same text exactly if they have the same reading.** -/
theorem IsOperation.operationChars_eq_iff {e' : Expr} (he : e.IsOperation) (he' : e'.IsOperation) :
    e.operationChars = e'.operationChars ↔ e.reading = e'.reading := by
  obtain ⟨hoperation, hclear, hchars⟩ := he.isReadingOf_reading
  obtain ⟨hoperation', hclear', hchars'⟩ := he'.isReadingOf_reading
  rw [← hchars, ← hchars']
  constructor
  · intro h
    exact ((hoperation.comparable_and_unique hclear).2 hoperation' hclear' followsOperation_nil
      followsOperation_nil (congrArg (· ++ []) h)).1
  · intro h
    rw [h]

/-! ## The target text of an operation

For operations the lowering does nothing but write them down, provided that no name is read through
a pointer and no member is a constant. -/

end Expr

/-- No member of an expression is a constant of the schema. -/
def Env.ReadsNoConstant (env : Env) (e : Expr) : Prop :=
  ∀ object field, Expr.member object field ∈ e.nodes → constant? env object field = none

namespace Env

variable {env : Env} {e e' : Expr}

theorem ReadsNoConstant.of_mem_parts {part : Expr} (h : env.ReadsNoConstant e)
    (hpart : part ∈ e.parts) : env.ReadsNoConstant part :=
  fun object field hmem => h object field (Expr.mem_nodes_iff.2 (.inr ⟨part, hpart, hmem⟩))

theorem pure_plain_eq {text : String} {chars : List Char} (h : text.toList = chars) :
    (pure (.plain text) : Lowered Code) = pure (.plain (String.ofList chars)) := by
  rw [← h, String.ofList_toList]

theorem lower_of_isOperation (hrefs : ∀ name, env.scope.isReference name = false)
    (he : e.IsOperation) (hconstants : env.ReadsNoConstant e) :
    env.lower e = pure (.plain (String.ofList e.operationChars)) := by
  induction he with
  | @ident name hname =>
    rw [lower, Scope.read, hrefs name]
    exact pure_plain_eq rfl
  | @unary op operand hop _ ih =>
    rw [lower, ih (hconstants.of_mem_parts (by simp [Expr.parts])), pure_bind]
    exact pure_plain_eq (by simp [Code.value, Expr.operationChars])
  | @binary left right op hleft hop hright ihleft ihright =>
    rw [lower, binaryCode, if_neg Bool.false_ne_true,
      ihleft (hconstants.of_mem_parts (by simp [Expr.parts])),
      ihright (hconstants.of_mem_parts (by simp [Expr.parts]))]
    exact pure_plain_eq (by simp [Code.value, Expr.operationChars])
  | @conditional condition thenValue elseValue _ _ _ ihtest ihthen ihelse =>
    rw [lower, ihtest (hconstants.of_mem_parts (by simp [Expr.parts])),
      ihthen (hconstants.of_mem_parts (by simp [Expr.parts])),
      ihelse (hconstants.of_mem_parts (by simp [Expr.parts]))]
    exact pure_plain_eq (by simp [Code.value, Expr.operationChars])
  | @index base position _ _ ihbase ihposition =>
    rw [lower, ihbase (hconstants.of_mem_parts (by simp [Expr.parts])),
      ihposition (hconstants.of_mem_parts (by simp [Expr.parts]))]
    exact pure_plain_eq (by simp [Code.value, Expr.operationChars])
  | @member object field _ _ ih =>
    have hconstant : constant? env object field = none :=
      hconstants object field (Expr.mem_nodes_self _)
    rw [lower, memberText]
    simp only [hconstant, ih (hconstants.of_mem_parts (by simp [Expr.parts]))]
    exact pure_plain_eq (by simp [Code.value, Expr.operationChars])

theorem result_exprText_of_isOperation (hrefs : ∀ name, env.scope.isReference name = false)
    (he : e.IsOperation) (hconstants : env.ReadsNoConstant e) :
    (env.exprText e).result = .ok (String.ofList e.operationChars) := by
  rw [exprText, coded, Coded.value, lower_of_isOperation hrefs he hconstants]
  rfl

/-- **The text of an operation shows what is read in it, and no more.**  Where no name is read
through a pointer and no member is a constant, two operations have the same text if and only if
they have the same reading.  An operation is its own reading if and only if it is clear, so two
clear operations with the same text are equal. -/
theorem exprText_eq_iff_reading_eq (hrefs : ∀ name, env.scope.isReference name = false)
    (he : e.IsOperation) (he' : e'.IsOperation) (hconstants : env.ReadsNoConstant e)
    (hconstants' : env.ReadsNoConstant e') :
    ∃ text text', (env.exprText e).result = .ok text ∧ (env.exprText e').result = .ok text' ∧
      (text = text' ↔ e.reading = e'.reading) ∧
      (e.reading = e ↔ e.isClear = true) ∧
      (e.isClear = true → e'.isClear = true → text = text' → e = e') := by
  have htexts : String.ofList e.operationChars = String.ofList e'.operationChars ↔
      e.reading = e'.reading := by
    rw [← he.operationChars_eq_iff he', ← String.toList_inj, String.toList_ofList,
      String.toList_ofList]
  refine ⟨_, _, result_exprText_of_isOperation hrefs he hconstants,
    result_exprText_of_isOperation hrefs he' hconstants', htexts, he.reading_eq_self_iff, ?_⟩
  intro hclear hclear' h
  rw [← he.reading_of_isClear hclear, ← he'.reading_of_isClear hclear', htexts.1 h]

end Env

/-- A member of the second alternative and a member of the whole condition have different texts. -/
theorem exprText_eq_iff_reading_eq_member :
    let env : Env := ⟨Scope.ofComponent "" "App" ∅, Schema.empty, .default⟩
    let ofValue : Expr :=
      .conditional (.ident "x") (.unary "-" (.ident "a")) (.member (.ident "b") "n")
    let ofWhole : Expr :=
      .member (.conditional (.ident "x") (.unary "-" (.ident "a")) (.ident "b")) "n"
    ofValue.IsOperation ∧ ofWhole.IsOperation ∧ env.ReadsNoConstant ofValue ∧
      env.ReadsNoConstant ofWhole ∧ ofValue.isClear = true ∧ ofWhole.isClear = true ∧
      ∃ text text', (env.exprText ofValue).result = .ok text ∧
        (env.exprText ofWhole).result = .ok text' ∧ text ≠ text' := by
  intro env ofValue ofWhole
  have hvalue : ofValue.IsOperation :=
    .conditional (.ident (by decide)) (.unary (by decide) (.ident (by decide)))
      (.member (.ident (by decide)) (by decide))
  have hwhole : ofWhole.IsOperation :=
    .member (.conditional (.ident (by decide)) (.unary (by decide) (.ident (by decide)))
      (.ident (by decide))) (by decide)
  have hconstants : env.ReadsNoConstant ofValue := by
    intro object field hmem
    simp only [ofValue, Expr.nodes, List.mem_cons, List.mem_append, List.not_mem_nil, reduceCtorEq,
      Expr.member.injEq, or_false, false_or] at hmem
    obtain ⟨rfl, rfl⟩ := hmem
    rfl
  have hconstants' : env.ReadsNoConstant ofWhole := by
    intro object field hmem
    simp only [ofWhole, Expr.nodes, List.mem_cons, List.mem_append, List.not_mem_nil, reduceCtorEq,
      Expr.member.injEq, or_false] at hmem
    obtain ⟨rfl, rfl⟩ := hmem
    rfl
  obtain ⟨text, text', htext, htext', -, -, hclear⟩ :=
    Env.exprText_eq_iff_reading_eq (fun _ => rfl) hvalue hwhole hconstants hconstants'
  refine ⟨hvalue, hwhole, hconstants, hconstants', rfl, rfl, text, text', htext, htext', ?_⟩
  intro heq
  have hsame := hclear rfl rfl heq
  simp [ofValue, ofWhole] at hsame

/-- Two minus signs in a row are the text of a decrement. -/
theorem double_minus_reads_decrement :
    let env : Env := ⟨Scope.ofComponent "" "App" ∅, Schema.empty, .default⟩
    let negated : Expr := .unary "-" (.unary "-" (.ident "x"))
    let decremented : Expr := .unary "--" (.ident "x")
    negated ≠ decremented ∧ (env.exprText negated).result.toOption = some "--x" ∧
      (env.exprText decremented).result.toOption = some "--x" := by
  intro env negated decremented
  refine ⟨fun heq => ?_, by decide +kernel, by decide +kernel⟩
  simp [negated, decremented] at heq

end UiLowering
