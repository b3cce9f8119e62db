import UiLowering.Proofs.Alike
import UiLowering.Proofs.Target.Guarded

/-!
# How often a write names its target

A write to an element or a member is put together from fixed text and the codes of its parts.  The
*form* of the write says where the codes go, and it does not depend on them: a simple write has the
form `t = v;`, and a compound one is rewritten to `t = t op v;`.  So the code of each part of the
target, and with it whatever the code does when it is run, is there once in a simple write and twice
in a compound one (`slotWrite_target_copies`).

A copy is a place of the form.  In the text the code of a part can begin at other places too, inside
the code of the value for instance.  `Text.occurrences` counts them all.  There are no others if the
code has a character of its own (`Form.occurrences_fill`).
-/

set_option autoImplicit false

namespace UiLowering

/-! ## Occurrences

Counting the places where a word begins is monotone in the text, but the places of a concatenation
are not the sum of those of its parts, since a word may lie across the joint.  A character that the
word has once bounds them from above. -/

namespace Text

variable {word text : List Char} {c : Char}

/-- The number of places of a text at which a word begins. -/
def occurrences (word : List Char) : List Char → Nat
  | [] => 0
  | c :: text => (if word.isPrefixOf (c :: text) then 1 else 0) + occurrences word text

theorem occurrences_le_append (word first text : List Char) :
    occurrences word text ≤ occurrences word (first ++ text) := by
  induction first with
  | nil => exact Nat.le_refl _
  | cons c first ih => exact Nat.le_add_left_of_le ih

/-- A word in front of a text is one place more. -/
theorem occurrences_lt_append (h : word ≠ []) (text : List Char) :
    occurrences word text < occurrences word (word ++ text) := by
  obtain ⟨c, word, rfl⟩ := List.exists_cons_of_ne_nil h
  have hfirst : (c :: word).isPrefixOf (c :: (word ++ text)) = true :=
    List.isPrefixOf_iff_prefix.2 (List.prefix_append (c :: word) text)
  rw [List.cons_append, occurrences, if_pos hfirst, Nat.add_comm]
  exact Nat.lt_succ_of_le (occurrences_le_append (c :: word) word text)

theorem occurrences_le_count_drop (before after text : List Char) :
    occurrences (before ++ c :: after) text ≤ (text.drop before.length).count c := by
  induction text with
  | nil => exact Nat.zero_le _
  | cons d text ih =>
    -- The place that is left out on the right is the one of the character in the first occurrence.
    have hdrop : (d :: text).drop before.length =
        (d :: text)[before.length]?.toList ++ text.drop before.length := by
      cases before.length with
      | zero => rfl
      | succ k => exact List.drop_eq_getElem?_toList_append
    rw [occurrences, hdrop, List.count_append]
    refine Nat.add_le_add ?_ ih
    split
    · rename_i hfirst
      obtain ⟨rest, hrest⟩ := List.isPrefixOf_iff_prefix.1 hfirst
      simp [← hrest]
    · exact Nat.zero_le _

/-- A word begins at most as often as one of its characters stands in the text. -/
theorem occurrences_le_count (h : c ∈ word) (text : List Char) :
    occurrences word text ≤ text.count c := by
  obtain ⟨before, after, rfl⟩ := List.append_of_mem h
  exact Nat.le_trans (occurrences_le_count_drop before after text)
    ((List.drop_sublist _ _).count_le _)

end Text

/-! ## Forms

A form tells the code of a part from fixed text that happens to be the same.  Filling it in is a
fold over its stretches, so lengths, counts and copies are computed stretch by stretch. -/

/-- The parts of a write to an element or a member: what the target belongs to, the position in it,
and the value. -/
inductive WritePart where
  | base
  | position
  | value
deriving DecidableEq

/-- A stretch of a text: fixed, or the code of a part. -/
inductive Stretch where
  | fixed (text : String)
  | code (part : WritePart)
deriving DecidableEq

/-- The text of a stretch, given the codes of the parts. -/
def Stretch.text (codes : WritePart → String) : Stretch → String
  | .fixed text => text
  | .code part => codes part

namespace Form

variable {codes : WritePart → String} {part : WritePart} {c : Char}

/-- The text of a form. -/
def fill (codes : WritePart → String) : List Stretch → String
  | [] => ""
  | stretch :: form => stretch.text codes ++ fill codes form

/-- The number of places for the code of a part. -/
def copies (part : WritePart) (form : List Stretch) : Nat := form.count (.code part)

/-- A character that the code of a part has once, and that is nowhere else. -/
def Marks (codes : WritePart → String) (part : WritePart) (c : Char) (form : List Stretch) : Prop :=
  (codes part).toList.count c = 1 ∧
    ∀ stretch ∈ form, stretch ≠ .code part → c ∉ (stretch.text codes).toList

instance (codes : WritePart → String) (part : WritePart) (c : Char) (form : List Stretch) :
    Decidable (Marks codes part c form) :=
  inferInstanceAs (Decidable (_ ∧ ∀ stretch ∈ form, stretch ≠ .code part → c ∉ _))

theorem fill_append (codes : WritePart → String) (first second : List Stretch) :
    fill codes (first ++ second) = fill codes first ++ fill codes second := by
  induction first with
  | nil => exact String.empty_append.symm
  | cons stretch first ih => rw [List.cons_append, fill, fill, ih, String.append_assoc]

theorem copies_le_occurrences (h : codes part ≠ "") (form : List Stretch) :
    copies part form ≤ Text.occurrences (codes part).toList (fill codes form).toList := by
  induction form with
  | nil => exact Nat.zero_le _
  | cons stretch form ih =>
    rw [fill, String.toList_append]
    by_cases hstretch : stretch = .code part
    · subst hstretch
      have hword : (codes part).toList ≠ [] := by simpa using h
      rw [copies, List.count_cons_self]
      exact Nat.succ_le_of_lt (Nat.lt_of_le_of_lt ih (Text.occurrences_lt_append hword _))
    · rw [copies, List.count_cons_of_ne hstretch]
      exact Nat.le_trans ih (Text.occurrences_le_append _ _ _)

theorem count_fill {form : List Stretch} (h : Marks codes part c form) :
    (fill codes form).toList.count c = copies part form := by
  obtain ⟨honce, hothers⟩ := h
  induction form with
  | nil => rfl
  | cons stretch form ih =>
    have hform := ih fun other hother => hothers other (List.mem_cons_of_mem _ hother)
    rw [fill, String.toList_append, List.count_append, hform]
    by_cases hstretch : stretch = .code part
    · subst hstretch
      rw [Stretch.text, honce, copies, copies, List.count_cons_self, Nat.add_comm]
    · rw [List.count_eq_zero.2 (hothers stretch List.mem_cons_self hstretch), Nat.zero_add, copies,
        copies, List.count_cons_of_ne hstretch]

/-- The code of a part that has a character of its own begins at its copies only. -/
theorem occurrences_fill {form : List Stretch} (h : Marks codes part c form) :
    Text.occurrences (codes part).toList (fill codes form).toList = copies part form := by
  have hmem : c ∈ (codes part).toList := List.count_pos_iff.1 (h.1 ▸ Nat.one_pos)
  have hne : codes part ≠ "" := by
    intro hempty
    rw [hempty] at hmem
    cases hmem
  have hle := Text.occurrences_le_count hmem (fill codes form).toList
  rw [count_fill h] at hle
  exact Nat.le_antisymm hle (copies_le_occurrences hne form)

/-- The form of an assignment, by an operator if there is one. -/
def assign (target value : List Stretch) : Option String → List Stretch
  | some op =>
    target ++ .fixed " = " :: (target ++ .fixed " " :: .fixed op :: .fixed " " :: (value ++
      [.fixed ";\n"]))
  | none => target ++ .fixed " = " :: (value ++ [.fixed ";\n"])

theorem fill_assign (codes : WritePart → String) (target value : List Stretch)
    (op : Option String) :
    fill codes (assign target value op) =
      assignText (fill codes target) (fill codes value) op := by
  cases op with
  | none => simp [assign, assignText, fill_append, fill, Stretch.text, String.append_assoc]
  | some op => simp [assign, assignText, fill_append, fill, Stretch.text, String.append_assoc]

theorem copies_append (part : WritePart) (first second : List Stretch) :
    copies part (first ++ second) = copies part first + copies part second :=
  List.count_append

theorem copies_fixed_cons (part : WritePart) (text : String) (form : List Stretch) :
    copies part (.fixed text :: form) = copies part form :=
  List.count_cons_of_ne (by simp)

theorem copies_assign (part : WritePart) (target value : List Stretch) (op : Option String) :
    copies part (assign target value op) =
      (if op.isSome then 2 else 1) * copies part target + copies part value := by
  have hnil : copies part [] = 0 := rfl
  cases op with
  | none =>
    simp only [assign, copies_append, copies_fixed_cons, hnil, Option.isSome_none,
      Bool.false_eq_true, if_false]
    omega
  | some op =>
    simp only [assign, copies_append, copies_fixed_cons, hnil, Option.isSome_some, if_true]
    omega

end Form

/-! ## Writes to an element or a member

Both kinds of writes are assignments to a target with one or two parts.  On a bound collection the
code that keeps the view in step comes behind the write.  It uses the codes of the target again, but
only to look the element up once it has been written, and it is not part of the form. -/

/-- A write to an element or to a member. -/
inductive SlotWrite where
  | element (assignment : IndexAssignment)
  | member (assignment : MemberAssignment)

namespace SlotWrite

variable {w : SlotWrite} {env : Env} {loops : LoopTable} {codes : WritePart → String}
  {part : WritePart} {text : String}

/-- The write as a statement. -/
def stmt : SlotWrite → Stmt
  | element a => .assignIndex a
  | member a => .assignMember a

/-- The expression of a part; a member has no position. -/
def part? : SlotWrite → WritePart → Option Expr
  | element a, .base => some a.array
  | element a, .position => some a.position
  | element a, .value => some a.value
  | member a, .base => some a.object
  | member _, .position => none
  | member a, .value => some a.value

/-- The parts of the target. -/
def targets : SlotWrite → List WritePart
  | element _ => [.base, .position]
  | member _ => [.base]

/-- The form of the target. -/
def target : SlotWrite → List Stretch
  | element _ => [.code .base, .fixed "[", .code .position, .fixed "]"]
  | member a => [.code .base, .fixed ".", .fixed a.field]

/-- The operator of a compound write. -/
def op : SlotWrite → Option String
  | element a => a.compoundOp.map compoundOperator
  | member a => a.compoundOp.map compoundOperator

/-- Whether the value is moved out of where it was. -/
def isMove : SlotWrite → Bool
  | element a => a.isMove
  | member a => a.isMove

/-- The bound collection that is written to. -/
def bound? (loops : LoopTable) : SlotWrite → Option BoundCollection
  | element a => Env.boundTo? loops a.array
  | member _ => none

/-- The form of the value. -/
def value (w : SlotWrite) : List Stretch :=
  if w.isMove then [.fixed "webcc::move(", .code .value, .fixed ")"] else [.code .value]

/-- The form of the write. -/
def form (w : SlotWrite) : List Stretch := Form.assign w.target w.value w.op

/-- How often the target is named: a compound write reads it before it writes it. -/
def times (w : SlotWrite) : Nat := if w.op.isSome then 2 else 1

/-- The parts of the write have the given codes. -/
def CodedBy (w : SlotWrite) (env : Env) (codes : WritePart → String) : Prop :=
  ∀ part e, w.part? part = some e → (env.exprText e).result = .ok (codes part)

theorem copies_form (h : part ∈ w.targets) : Form.copies part w.form = w.times := by
  have htarget : Form.copies part w.target = 1 := by
    cases w with
    | element a =>
      obtain rfl | rfl : part = .base ∨ part = .position := by simpa [targets] using h
      · rfl
      · rfl
    | member a =>
      obtain rfl : part = .base := by simpa [targets] using h
      rfl
  have hvalue : Form.copies part w.value = 0 := by
    have hne : part ≠ .value := by
      rintro rfl
      cases w <;> simp [targets] at h
    rw [value]
    split <;> simp [Form.copies, hne.symm]
  rw [form, Form.copies_assign, htarget, hvalue, Nat.mul_one, Nat.add_zero, times]

theorem fill_value (w : SlotWrite) (codes : WritePart → String) :
    Form.fill codes w.value = movedIf w.isMove (codes .value) := by
  rw [value, movedIf]
  split <;> simp [Form.fill, Stretch.text, moved, String.append_assoc]

theorem fill_form (w : SlotWrite) (codes : WritePart → String) :
    Form.fill codes w.form =
      assignText (Form.fill codes w.target) (movedIf w.isMove (codes .value)) w.op := by
  rw [form, Form.fill_assign, fill_value]

/-! ### The text of a write

The lowering gives the form, filled with the codes of the parts.  If one of the parts has no code,
there is no text, and since the parts are lowered one after another, the converse holds as well. -/

/-- What follows the write to a bound collection, to keep its view in step. -/
def viewText (w : SlotWrite) (loops : LoopTable) (codes : WritePart → String) : String :=
  match w.bound? loops with
  | some info => ViewStep.relocateText (codes .base) info.parent (codes .position)
  | none => ""

theorem result_indexAssignmentText {a : IndexAssignment} (h : (element a).CodedBy env codes) :
    (env.indexAssignmentText loops a).result =
      .ok (Form.fill codes (element a).form ++ (element a).viewText loops codes) := by
  have hslot : Form.fill codes (element a).target =
      codes .base ++ "[" ++ codes .position ++ "]" := by
    simp [target, Form.fill, Stretch.text, String.append_assoc]
  rw [Env.indexAssignmentText, Lowered.result_bind_of_ok (h .base _ rfl),
    Lowered.result_bind_of_ok (h .position _ rfl), Lowered.result_bind_of_ok (h .value _ rfl),
    fill_form, hslot, viewText, bound?]
  cases Env.boundTo? loops a.array with
  | none => exact congrArg Except.ok String.append_empty.symm
  | some info => exact congrArg (fun rest => Except.ok (_ ++ rest)) String.append_empty

theorem result_memberAssignmentText {a : MemberAssignment} (h : (member a).CodedBy env codes) :
    (env.memberAssignmentText a).result = .ok (Form.fill codes (member a).form) := by
  have hslot : Form.fill codes (member a).target = codes .base ++ "." ++ a.field := by
    simp [target, Form.fill, Stretch.text, String.append_assoc]
  rw [Env.memberAssignmentText, Lowered.result_bind_of_ok (h .base _ rfl),
    Lowered.result_bind_of_ok (h .value _ rfl), fill_form, hslot]
  rfl

/-- A write whose parts have codes has the text of its form, and what the view needs behind it. -/
theorem result_stmtText (h : w.CodedBy env codes) :
    (env.stmtText loops w.stmt).result =
      .ok (Form.fill codes w.form ++ w.viewText loops codes) := by
  cases w with
  | element a =>
    rw [stmt, Env.stmtText]
    exact result_indexAssignmentText h
  | member a =>
    rw [stmt, Env.stmtText, result_memberAssignmentText h]
    exact congrArg Except.ok String.append_empty.symm

/-- The parts of a write that has a text have codes. -/
theorem exists_codedBy (h : (env.stmtText loops w.stmt).result = .ok text) :
    ∃ codes, w.CodedBy env codes := by
  cases w with
  | element a =>
    rw [stmt, Env.stmtText, Env.indexAssignmentText] at h
    obtain ⟨base, hbase, hrest⟩ := Lowered.result_bind_eq_ok_iff.1 h
    obtain ⟨position, hposition, hlast⟩ := Lowered.result_bind_eq_ok_iff.1 hrest
    obtain ⟨value, hvalue, -⟩ := Lowered.result_bind_eq_ok_iff.1 hlast
    refine ⟨fun part => part.casesOn base position value, fun part e hpart => ?_⟩
    cases part <;> cases hpart
    · exact hbase
    · exact hposition
    · exact hvalue
  | member a =>
    rw [stmt, Env.stmtText, Env.memberAssignmentText] at h
    obtain ⟨base, hbase, hrest⟩ := Lowered.result_bind_eq_ok_iff.1 h
    obtain ⟨value, hvalue, -⟩ := Lowered.result_bind_eq_ok_iff.1 hrest
    refine ⟨fun part => part.casesOn base "" value, fun part e hpart => ?_⟩
    cases part <;> cases hpart
    · exact hbase
    · exact hvalue

/-- **Copies of the target.**  A write to an element or a member has a text exactly if its parts
have codes.  The text is that of its form (on a bound collection it begins with it), in which the
code of each part of the target has one place if the write is simple, and two if it is compound.  So
a code that is not empty begins at one or two places at least, and at no others if it has a
character of its own. -/
theorem slotWrite_target_copies (w : SlotWrite) (env : Env) (loops : LoopTable) :
    ((∃ text, (env.stmtText loops w.stmt).result = .ok text) ↔ ∃ codes, w.CodedBy env codes) ∧
    ∀ codes text, w.CodedBy env codes → (env.stmtText loops w.stmt).result = .ok text →
      (∃ view, text = Form.fill codes w.form ++ view ∧ (w.bound? loops = none → view = "")) ∧
      ∀ part ∈ w.targets, Form.copies part w.form = w.times ∧
        (codes part ≠ "" → w.times ≤
          Text.occurrences (codes part).toList (Form.fill codes w.form).toList) ∧
        ∀ c, Form.Marks codes part c w.form →
          Text.occurrences (codes part).toList (Form.fill codes w.form).toList = w.times := by
  constructor
  · constructor
    · rintro ⟨text, htext⟩
      exact exists_codedBy htext
    · rintro ⟨codes, hcodes⟩
      exact ⟨_, result_stmtText hcodes⟩
  · intro codes text hcodes htext
    rw [result_stmtText hcodes, Except.ok.injEq] at htext
    refine ⟨⟨w.viewText loops codes, htext.symm, fun hbound => by rw [viewText, hbound]⟩,
      fun part hpart => ⟨copies_form hpart, fun hne => ?_, fun c hmark => ?_⟩⟩
    · rw [← copies_form hpart]
      exact Form.copies_le_occurrences hne w.form
    · rw [← copies_form hpart]
      exact Form.occurrences_fill hmark

/-- The write of `2` to the next cell, by an operator if there is one. -/
def nextCell (op : Option String) : SlotWrite :=
  .element ⟨.ident "cells", .trailing "++" (.ident "i"), .int 2, op, false⟩

/-- The codes of its parts. -/
def nextCodes : WritePart → String
  | .base => "cells"
  | .position => "i++"
  | .value => "2"

theorem codedBy_nextCell (op : Option String) : (nextCell op).CodedBy .bare nextCodes := by
  intro part e hpart
  cases part <;> cases hpart <;> rfl

/-- The simple write counts up once. -/
theorem slotWrite_target_copies_next :
    (nextCell none).CodedBy .bare nextCodes ∧
      (Env.bare.stmtText ∅ (nextCell none).stmt).result = .ok "cells[i++] = 2;\n" ∧
      Text.occurrences "i++".toList "cells[i++] = 2;\n".toList = 1 := by
  have hcodes := codedBy_nextCell none
  have htext : (Env.bare.stmtText ∅ (nextCell none).stmt).result = .ok "cells[i++] = 2;\n" := by rfl
  have hcopies := (slotWrite_target_copies (nextCell none) .bare ∅).2 nextCodes _ hcodes htext
  exact ⟨hcodes, htext, (hcopies.2 .position (by decide)).2.2 'i' (by decide)⟩

/-- The compound write counts up twice, and it reads another cell than the one it writes. -/
theorem compound_target_evaluated_twice :
    (Env.bare.stmtText ∅ (nextCell (some "+=")).stmt).result =
        .ok "cells[i++] = cells[i++] + 2;\n" ∧
      Text.occurrences "i++".toList "cells[i++] = cells[i++] + 2;\n".toList = 2 :=
  ⟨by rfl, by decide⟩

end SlotWrite

end UiLowering
