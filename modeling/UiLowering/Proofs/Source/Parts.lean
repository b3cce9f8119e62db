import UiLowering.Proofs.Nodes

/-!
# The parts of an expression

The parts of an expression are the expressions that stand directly in it.  Its nodes are the
expression itself and the nodes of its parts (`Expr.mem_nodes_iff`), and what holds of an expression
whenever it holds of its parts holds of every expression (`Expr.partInduction`).
-/

set_option autoImplicit false

namespace UiLowering

/-- The expressions that stand directly in a pattern. -/
def Pattern.parts : Pattern Expr → List Expr
  | .literal value => [value]
  | .enumValue _ => []
  | .record _ fields => fields.flatMap fun field => field.value.toList

namespace Expr

/-- The expressions that stand directly in an expression. -/
def parts : Expr → List Expr
  | .int _ | .float _ | .bool _ | .str _ | .ident _ | .enumValue _ => []
  | .binary left _ right _ => [left, right]
  | .unary _ operand | .trailing _ operand | .reference operand | .move operand => [operand]
  | .conditional condition thenValue elseValue => [condition, thenValue, elseValue]
  | .call ⟨_, args, _⟩ | .construct _ args => args.map Arg.value
  | .member object _ => [object]
  | .index base position => [base, position]
  | .array ⟨elements, _⟩ => elements
  | .fill value count => [value, count]
  | .record ⟨_, fields⟩ => fields.map FieldInit.value
  | .select ⟨subject, arms, otherwise, _⟩ =>
    subject :: (arms.flatMap fun arm => arm.body :: arm.pattern.parts) ++ otherwise.toList

variable {e part node : Expr}

/-! ## Induction on the parts

A part is smaller than the expression it stands in, also where lists and records lie between the
two.  So one induction serves all forms of expressions, and a proof by it says nothing about the
lists in between. -/

theorem sizeOf_lt_of_mem_args {args : List (Arg Expr)} (h : part ∈ args.map Arg.value) :
    sizeOf part < sizeOf args := by
  obtain ⟨⟨name, value, byReference, byMove⟩, harg, rfl⟩ := List.mem_map.1 h
  have hargs := List.sizeOf_lt_of_mem harg
  simp only [Arg.mk.sizeOf_spec] at hargs
  dsimp only
  omega

theorem sizeOf_lt_of_mem_patternParts {pattern : Pattern Expr} (h : part ∈ pattern.parts) :
    sizeOf part < sizeOf pattern := by
  cases pattern with
  | literal value =>
    rw [List.mem_singleton.1 h]
    simp only [Pattern.literal.sizeOf_spec]
    omega
  | enumValue ref => cases h
  | record typeName fields =>
    obtain ⟨⟨name, value⟩, hfield, hpart⟩ := List.mem_flatMap.1 h
    obtain rfl : value = some part := Option.mem_toList.1 hpart
    have hfields := List.sizeOf_lt_of_mem hfield
    simp only [FieldPattern.mk.sizeOf_spec, Option.some.sizeOf_spec] at hfields
    simp only [Pattern.record.sizeOf_spec]
    omega

/-- A part is smaller than the expression it stands in. -/
theorem sizeOf_lt_of_mem_parts (h : part ∈ e.parts) : sizeOf part < sizeOf e := by
  cases e with
  | call call =>
    obtain ⟨name, args, line⟩ := call
    have hargs : sizeOf part < sizeOf args := sizeOf_lt_of_mem_args h
    simp only [call.sizeOf_spec, Call.mk.sizeOf_spec]
    omega
  | construct component args =>
    have hargs := sizeOf_lt_of_mem_args h
    simp only [construct.sizeOf_spec]
    omega
  | array literal =>
    obtain ⟨elements, elementType⟩ := literal
    have helements : sizeOf part < sizeOf elements := List.sizeOf_lt_of_mem h
    simp only [array.sizeOf_spec, ArrayLit.mk.sizeOf_spec]
    omega
  | record literal =>
    obtain ⟨typeName, fields⟩ := literal
    obtain ⟨⟨name, value⟩, hfield, rfl⟩ := List.mem_map.1 h
    have hfields := List.sizeOf_lt_of_mem hfield
    simp only [FieldInit.mk.sizeOf_spec] at hfields
    simp only [record.sizeOf_spec, RecordLit.mk.sizeOf_spec]
    omega
  | select choice =>
    obtain ⟨subject, arms, otherwise, line⟩ := choice
    simp only [parts, List.cons_append, List.mem_cons, List.mem_append, List.mem_flatMap,
      Option.mem_toList] at h
    simp only [select.sizeOf_spec, Match.mk.sizeOf_spec]
    rcases h with rfl | ⟨⟨pattern, body⟩, harm, hpart⟩ | hpart
    · omega
    · have harms := List.sizeOf_lt_of_mem harm
      simp only [Arm.mk.sizeOf_spec] at harms
      rcases hpart with rfl | hpattern
      · omega
      · have hvalue : sizeOf part < sizeOf pattern := sizeOf_lt_of_mem_patternParts hpattern
        omega
    · obtain rfl : otherwise = some part := hpart
      simp only [Option.some.sizeOf_spec]
      omega
  | _ =>
    simp only [parts, List.mem_cons, List.not_mem_nil, or_false] at h
    try rcases h with rfl | rfl | rfl
    all_goals simp <;> omega

/-- The step to an expression may use the statement for its parts. -/
@[elab_as_elim]
theorem partInduction {motive : Expr → Prop}
    (step : ∀ e : Expr, (∀ part ∈ e.parts, motive part) → motive e) (e : Expr) : motive e := by
  induction hsize : sizeOf e using Nat.strongRecOn generalizing e with
  | ind size ih =>
    refine step e fun part hpart => ih (sizeOf part) ?_ part rfl
    rw [← hsize]
    exact sizeOf_lt_of_mem_parts hpart

/-! ## Nodes of lists of parts

The nodes are collected by a recursion with a case for each kind of list.  Each list of nodes is the
nodes of the expressions in the list, so that a statement about nodes can be proved from the parts
alone. -/

theorem listNodes_eq_flatMap (es : List Expr) : listNodes es = es.flatMap nodes := by
  induction es with
  | nil => rfl
  | cons e es ih => rw [listNodes, ih, List.flatMap_cons]

theorem optionNodes_eq_flatMap (e : Option Expr) : optionNodes e = e.toList.flatMap nodes := by
  cases e with
  | none => rfl
  | some e => simp [optionNodes]

theorem argNodes_eq_flatMap (args : List (Arg Expr)) :
    argNodes args = (args.map Arg.value).flatMap nodes := by
  induction args with
  | nil => rfl
  | cons arg args ih => rw [argNodes, ih, List.map_cons, List.flatMap_cons]

theorem fieldNodes_eq_flatMap (fields : List (FieldInit Expr)) :
    fieldNodes fields = (fields.map FieldInit.value).flatMap nodes := by
  induction fields with
  | nil => rfl
  | cons field fields ih => rw [fieldNodes, ih, List.map_cons, List.flatMap_cons]

theorem patternNodes_eq_flatMap (pattern : Pattern Expr) :
    patternNodes pattern = pattern.parts.flatMap nodes := by
  have hfields (fields : List (FieldPattern Expr)) : fieldPatternNodes fields =
      (fields.flatMap fun field => field.value.toList).flatMap nodes := by
    induction fields with
    | nil => rfl
    | cons field fields ih =>
      rw [fieldPatternNodes, ih, optionNodes_eq_flatMap, List.flatMap_cons, List.flatMap_append]
  cases pattern with
  | literal value => simp [patternNodes, Pattern.parts]
  | enumValue ref => rfl
  | record typeName fields => rw [patternNodes, hfields, Pattern.parts]

theorem mem_armNodes {arms : List (Arm Expr)} :
    node ∈ armNodes arms ↔
      node ∈ (arms.flatMap fun arm => arm.body :: arm.pattern.parts).flatMap nodes := by
  induction arms with
  | nil => exact Iff.rfl
  | cons arm arms ih =>
    have hswap : node ∈ patternNodes arm.pattern ++ arm.body.nodes ↔
        node ∈ (arm.body :: arm.pattern.parts).flatMap nodes := by
      rw [patternNodes_eq_flatMap, List.flatMap_cons, List.mem_append, List.mem_append, or_comm]
    rw [armNodes, List.mem_append, hswap, ih, ← List.mem_append, ← List.flatMap_append]
    exact Iff.rfl

/-- The nodes of an expression are the expression and the nodes of its parts. -/
theorem mem_nodes_iff : node ∈ e.nodes ↔ node = e ∨ ∃ part ∈ e.parts, node ∈ part.nodes := by
  rw [← List.mem_flatMap]
  cases e with
  | call call => rw [nodes, List.mem_cons, argNodes_eq_flatMap, parts]
  | construct component args => rw [nodes, List.mem_cons, argNodes_eq_flatMap, parts]
  | array literal => rw [nodes, List.mem_cons, listNodes_eq_flatMap, parts]
  | record literal => rw [nodes, List.mem_cons, fieldNodes_eq_flatMap, parts]
  | select choice =>
    rw [nodes, List.mem_cons, parts, List.flatMap_append, List.flatMap_cons,
      List.mem_append, List.mem_append, mem_armNodes, optionNodes_eq_flatMap, List.mem_append,
      List.mem_append]
  | _ => simp [nodes, parts]

theorem mem_nodes_self (e : Expr) : e ∈ e.nodes := mem_nodes_iff.2 (.inl rfl)

theorem mem_nodes_of_mem_parts (h : part ∈ e.parts) : part ∈ e.nodes :=
  mem_nodes_iff.2 (.inr ⟨part, h, part.mem_nodes_self⟩)

/-- The nodes of a node are nodes. -/
theorem mem_nodes_trans (hpart : part ∈ e.nodes) (hnode : node ∈ part.nodes) : node ∈ e.nodes := by
  induction e using partInduction with
  | step e ih =>
    rcases mem_nodes_iff.1 hpart with rfl | ⟨child, hchild, hmem⟩
    · exact hnode
    · exact mem_nodes_iff.2 (.inr ⟨child, hchild, ih child hchild hmem⟩)

end Expr

end UiLowering
