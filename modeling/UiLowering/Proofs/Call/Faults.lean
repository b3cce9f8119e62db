import UiLowering.Proofs.Call.Callback

/-!
# What can fail in the lowering of an expression

Types and names are always lowered.  So if the parts of a node can only fail in a certain way, then
so can the node, a call excepted, which may also be refused for its callbacks.  `faults_lower` puts
this together: whatever holds of the refusals of all calls in an expression holds of its fault.

`P` stands for whatever is to be proved of the fault.  Keeping it open costs nothing and saves a
second induction: with the property that a certain call is refused the theorem says where a fault
comes from, and with one that never holds it says that there is none.
-/

set_option autoImplicit false

namespace UiLowering

variable {P : Fault → Prop}

/-! ## Types and parts

A property `P` of faults is fixed throughout.  Type names always have a text, so they contribute
nothing, and a part is passed on with the property of its own code. -/

theorem Env.faults_typeText (env : Env) (name : String) : (env.typeText name).Faults P :=
  Lowered.faults_of_ok rfl

theorem Env.faults_enumText (env : Env) (component : Option String)
    (enumName valueName : String) : (env.enumText component enumName valueName).Faults P :=
  (env.faults_typeText _).map

theorem Env.faults_castResult (env : Env) (returnType code : String) :
    (env.castResult returnType code).Faults P :=
  (env.faults_typeText returnType).map

theorem Lowered.Faults.plain {text : Lowered String} (h : text.Faults P) : text.plain.Faults P :=
  h.map

/-- A part whose code can only fail in a certain way. -/
def Coded.Faults (P : Fault → Prop) (part : Coded) : Prop := part.code.Faults P

namespace Coded.Faults

variable {part : Coded}

theorem value (h : part.Faults P) : part.value.Faults P := Lowered.Faults.map h

theorem appends (h : part.Faults P) : part.appends.Faults P := Lowered.Faults.map h

end Coded.Faults

/-! ## Arguments

An argument is lowered for the parameter it stands for, as a value or as a callback.  None of the
forms adds a fault of its own. -/

theorem Arg.faults_text {arg : Arg Coded} (h : arg.value.Faults P) : arg.text.Faults P :=
  h.value.map

theorem Arg.faults_callbackText (env : Env) {arg : Arg Coded} (h : arg.value.Faults P) :
    (arg.callbackText env).Faults P := by
  unfold Arg.callbackText
  split
  · split
    · exact Lowered.faults_pure _
    · exact h.value
  · exact h.value

theorem Arg.faults_textFor (env : Env) (param : Option ApiParam) {arg : Arg Coded}
    (h : arg.value.Faults P) : (arg.textFor env param).Faults P := by
  unfold Arg.textFor
  split
  · exact faults_callbackText env h
  · exact faults_text h

theorem faults_argTexts {args : List (Arg Coded)} (h : ∀ arg ∈ args, arg.value.Faults P) :
    (argTexts args).Faults P := by
  refine Lowered.faults_all (List.forall_mem_map.2 ?_)
  exact fun arg harg => Arg.faults_text (h arg harg)

theorem faults_argTextsFor (env : Env) (params : List ApiParam) {args : List (Arg Coded)}
    (h : ∀ arg ∈ args, arg.value.Faults P) :
    (Lowered.all (argTextsFor env params args)).Faults P := by
  refine Lowered.faults_all ?_
  induction args generalizing params with
  | nil => simp [argTextsFor]
  | cons arg args ih =>
    obtain ⟨harg, hargs⟩ := List.forall_mem_cons.1 h
    cases params with
    | nil =>
      rw [argTextsFor]
      exact List.forall_mem_cons.2 ⟨Arg.faults_text harg, ih [] hargs⟩
    | cons param params =>
      rw [argTextsFor]
      exact List.forall_mem_cons.2 ⟨Arg.faults_textFor env _ harg, ih params hargs⟩

/-! ## Calls

Every way of a call lowers some of the arguments and puts text around them.  The check of the
callbacks is the one place where a call fails by itself, and `RefusedBy` carries what is known about
it. -/

theorem faults_functionCode (env : Env) (callee returnType : String) (leading : List String)
    (params : List ApiParam) {args : List (Arg Coded)} (h : ∀ arg ∈ args, arg.value.Faults P) :
    (functionCode env callee returnType leading params args).Faults P := by
  unfold functionCode
  dsimp only
  split
  · exact (faults_argTextsFor env params h).bind fun _ => env.faults_castResult _ _
  · rename_i chain after hsplit
    have hbefore : ∀ arg ∈ args.takeWhile fun arg => !arg.value.source.needsFormatter,
        arg.value.Faults P :=
      fun arg harg => h arg ((List.takeWhile_sublist _).subset harg)
    have hrest : ∀ arg ∈ chain :: after, arg.value.Faults P := by
      rw [← hsplit]
      exact fun arg harg => h arg ((List.dropWhile_sublist _).subset harg)
    obtain ⟨hchain, hafter⟩ := List.forall_mem_cons.1 hrest
    exact (faults_argTextsFor env _ hbefore).bind fun _ =>
      (faults_argTextsFor env _ hafter).bind fun _ => hchain.appends.map

theorem faults_logCode {arg : Arg Coded} (h : arg.value.Faults P) : (logCode arg).Faults P := by
  unfold logCode
  split
  · exact h.appends.map
  · exact (Arg.faults_text h).map

theorem faults_intrinsicCode (env : Env) (key : String) {args : List (Arg Coded)}
    (h : ∀ arg ∈ args, arg.value.Faults P) : (intrinsicCode env key args).Faults P := by
  unfold intrinsicCode
  split
  · exact Lowered.faults_pure _
  · exact (Arg.faults_text (h _ List.mem_cons_self)).map
  · exact (Arg.faults_text (h _ List.mem_cons_self)).map
  · exact (Arg.faults_text (h _ List.mem_cons_self)).map
  · exact (Arg.faults_text (h _ List.mem_cons_self)).map
  · exact faults_logCode (h _ List.mem_cons_self)
  · exact (Arg.faults_callbackText env (h _ List.mem_cons_self)).map
  · exact (Lowered.faults_note _).map

/-- A call with a receiver fails with an argument or at the check. -/
theorem faults_routeCode (env : Env) {call : Call Coded} (receiver method : String) {route : Route}
    (hargs : ∀ arg ∈ call.args, arg.value.Faults P)
    (hcheck : ∀ callee, route.callee? = some callee →
      (checkCallbacks call callee.params).Faults P) :
    (routeCode env call receiver method route).Faults P := by
  cases route with
  | enumSize => exact (env.faults_typeText receiver).map
  | shortcut shortcut => exact (faults_argTexts hargs).map
  | intrinsic found =>
    refine (hcheck _ rfl).bind fun _ => ?_
    refine (faults_intrinsicCode env found.mappingValue hargs).bind fun code => ?_
    dsimp only
    split
    · exact (Lowered.faults_note _).map
    · exact Lowered.faults_pure code
  | staticTemplate found => exact (hcheck _ rfl).bind fun _ => (faults_argTexts hargs).map
  | valueTemplate found => exact (hcheck _ rfl).bind fun _ => (faults_argTexts hargs).map
  | function found space function passesReceiver =>
    have hparams : (if passesReceiver then found.params.drop 1 else found.params) =
        Callee.params ⟨found, if passesReceiver then 1 else 0⟩ := by
      cases passesReceiver <;> rfl
    rw [routeCode, hparams]
    exact (hcheck _ rfl).bind fun _ => faults_functionCode env _ _ _ _ hargs
  | unknownStatic =>
    exact (Lowered.faults_note _).bind fun _ => (faults_argTexts hargs).bind fun _ =>
      (env.faults_typeText receiver).map
  | unknownMember =>
    exact (Lowered.faults_note _).bind fun _ => (faults_argTexts hargs).map

theorem faults_plainCode (env : Env) {call : Call Coded}
    (hargs : ∀ arg ∈ call.args, arg.value.Faults P)
    (hcheck : ∀ found, globalFunction? env call = some found →
      (checkCallbacks call found.method.params).Faults P) :
    (plainCode env call).Faults P := by
  unfold plainCode
  split
  · rename_i found hfound
    exact (Lowered.faults_note _).bind fun _ => (hcheck found hfound).bind fun _ =>
      (faults_argTextsFor env _ hargs).bind fun _ => env.faults_castResult _ _
  · split
    · exact (env.faults_typeText _).bind fun _ => (faults_argTexts hargs).map
    · exact (Lowered.faults_pure _).bind fun _ => (faults_argTexts hargs).map

/-- What holds of the refusals of a node by itself: only calls are refused. -/
def Expr.RefusedBy (P : Fault → Prop) (env : Env) (node : Expr) : Prop :=
  ∀ call, node = .call call → ∀ callee param, env.callee? call = some callee →
    callee.TakesByValue call param → P (.callbackByValue call.name param.name call.line)

theorem Env.faults_callCode (env : Env) {call : Call Expr}
    (hargs : ∀ arg ∈ (env.codedCall call).args, arg.value.Faults P)
    (hcall : Expr.RefusedBy P env (.call call)) :
    (callCode env (env.codedCall call)).Faults P := by
  have hcheck : ∀ callee, env.callee? call = some callee →
      (checkCallbacks (env.codedCall call) callee.params).Faults P :=
    fun callee hcallee =>
      Callee.faults_checkCallbacks fun param => hcall call rfl callee param hcallee
  unfold callee? at hcheck
  unfold callCode
  have hname : (env.codedCall call).name = call.name := rfl
  have hlength : (env.codedCall call).args.length = call.args.length := List.length_map _
  rw [hname, hlength]
  split
  · rename_i receiver method hsplit
    simp only [hsplit] at hcheck
    exact faults_routeCode env receiver method hargs hcheck
  · rename_i hsplit
    simp only [hsplit] at hcheck
    refine faults_plainCode env hargs fun found hfound => ?_
    exact hcheck ⟨found.method, 0⟩ (Option.map_eq_some_iff.2 ⟨found, hfound, rfl⟩)

/-! ## Literals and matches

These nodes lower their parts in order and stop at the first fault.  The arms of a match are lowered
even where an earlier arm makes them unreachable, so all of them count. -/

theorem faults_binaryCode (isChain : Bool) (op : String) {left right : Coded}
    (hleft : left.Faults P) (hright : right.Faults P) :
    (binaryCode isChain op left right).Faults P := by
  unfold binaryCode
  split
  · exact hleft.appends.bind fun _ => hright.appends.map
  · exact hleft.value.bind fun _ => hright.value.map

theorem faults_memberText (env : Env) {object : Coded} (field : String) (h : object.Faults P) :
    (memberText env object field).Faults P := by
  unfold memberText
  split
  · exact Lowered.faults_pure _
  · exact h.value.map

theorem faults_arrayText {elements : List Coded} (h : ∀ part ∈ elements, part.Faults P) :
    (arrayText elements).Faults P := by
  refine Lowered.Faults.map (Lowered.faults_all (List.forall_mem_map.2 ?_))
  exact fun part hpart => (h part hpart).value

theorem faults_fillText {value : Coded} (count : Expr) (h : value.Faults P) :
    (fillText value count).Faults P := by
  refine h.value.bind fun code => ?_
  split
  · split
    · exact Lowered.faults_pure _
    · exact (Lowered.faults_note _).map
  · exact (Lowered.faults_note _).map

theorem faults_recordText (env : Env) (typeName : Option String) {fields : List (FieldInit Coded)}
    (h : ∀ field ∈ fields, field.value.Faults P) : (recordText env typeName fields).Faults P := by
  have hinits : (Lowered.all (fields.map fieldText)).Faults P := by
    refine Lowered.faults_all (List.forall_mem_map.2 ?_)
    exact fun field hfield => (h field hfield).value.map
  refine hinits.bind fun _ => ?_
  split
  · exact (env.faults_typeText _).map
  · exact (Lowered.faults_pure _).map

theorem faults_constructText (env : Env) (component : String) {args : List (Arg Coded)}
    (h : ∀ arg ∈ args, arg.value.Faults P) : (constructText env component args).Faults P := by
  have hargs : (Lowered.all (args.map constructorArg)).Faults P := by
    refine Lowered.faults_all (List.forall_mem_map.2 ?_)
    exact fun arg harg => (h arg harg).value.map
  refine (env.faults_typeText component).bind fun _ => hargs.bind fun _ => ?_
  split
  · exact Lowered.faults_pure _
  · exact Lowered.faults_pure _

/-- A pattern whose parts can only fail in a certain way. -/
def Pattern.Faults (P : Fault → Prop) : Pattern Coded → Prop
  | .literal part => part.Faults P
  | .enumValue _ => True
  | .record _ fields => ∀ field ∈ fields, ∀ part ∈ field.value, part.Faults P

theorem faults_patternCode (env : Env) {pattern : Pattern Coded} (h : pattern.Faults P) :
    (patternCode env pattern).Faults P := by
  cases pattern with
  | literal part => exact Lowered.Faults.map (Coded.Faults.value h)
  | enumValue ref => exact (env.faults_enumText _ _ _).map
  | record typeName fields =>
    refine Lowered.Faults.map (Lowered.faults_all fun x hx => ?_)
    obtain ⟨field, hfield, hcondition⟩ := List.mem_filterMap.1 hx
    obtain ⟨part, hpart, rfl⟩ := Option.map_eq_some_iff.1 hcondition
    exact (h field hfield part hpart).value.map

theorem faults_armBranches (env : Env) (line : UInt32) (i : Nat) {arms : List (Arm Coded)}
    (h : ∀ arm ∈ arms, arm.pattern.Faults P ∧ arm.body.Faults P) :
    (armBranches env line i arms).Faults P := by
  have hdropped (arms : List (Arm Coded)) (i : Nat) : (noteDropped line i arms).Faults P := by
    induction arms generalizing i with
    | nil => exact Lowered.faults_pure ()
    | cons arm arms ih => exact (Lowered.faults_note _).bind fun _ => ih (i + 1)
  induction arms generalizing i with
  | nil => exact Lowered.faults_pure _
  | cons arm arms ih =>
    obtain ⟨⟨hpattern, hbody⟩, harms⟩ := List.forall_mem_cons.1 h
    have hbranch : (armBranch env arm).Faults P :=
      hbody.value.bind fun _ => (faults_patternCode env hpattern).map
    refine hbranch.bind fun branch => ?_
    split
    · exact (hdropped arms (i + 1)).map
    · exact (ih (i + 1) harms).map

theorem faults_otherwiseBranches (line : UInt32) (closed : Bool) {otherwise : Option Coded}
    (h : ∀ part ∈ otherwise, part.Faults P) :
    (otherwiseBranches line closed otherwise).Faults P := by
  unfold otherwiseBranches
  split
  · split
    · exact (Lowered.faults_note _).map
    · exact (h _ rfl).value.map
  · split
    · exact Lowered.faults_pure _
    · exact (Lowered.faults_note _).map

theorem faults_matchText (env : Env) {choice : Match Coded} (hsubject : choice.subject.Faults P)
    (harms : ∀ arm ∈ choice.arms, arm.pattern.Faults P ∧ arm.body.Faults P)
    (hotherwise : ∀ part ∈ choice.otherwise, part.Faults P) : (matchText env choice).Faults P := by
  have hchain : (matchChain env choice).Faults P :=
    (faults_armBranches env choice.line 0 harms).bind fun found =>
      (faults_otherwiseBranches choice.line found.2 hotherwise).bind fun _ => hsubject.value.map
  exact hchain.map

/-! ## The tree

The recursion is that of `Env.lower`, with one statement for each kind of list in a node.  The
hypothesis is about all nodes and is handed down along `Expr.nodes`. -/

namespace Env

open UiLowering.Expr

variable {env : Env}

mutual

/-- **What holds of the refusals of all calls in an expression holds of its fault.**  The induction
is on the expression, and a call is the only node at which something is used of it. -/
theorem faults_lower : (e : Expr) → Each (RefusedBy P env) e.nodes → (env.lower e).Faults P
  | .int value, _ => by
    rw [lower]
    exact Lowered.faults_pure _
  | .float value, _ => by
    rw [lower]
    exact Lowered.faults_pure _
  | .bool value, _ => by
    rw [lower]
    exact Lowered.faults_pure _
  | .str raw, _ => by
    rw [lower]
    exact Lowered.faults_pure _
  | .ident name, _ => by
    rw [lower]
    exact Lowered.faults_pure _
  | .binary left op right _, h => by
    rw [nodes] at h
    rw [lower]
    exact faults_binaryCode _ op (faults_lower left h.tail.left) (faults_lower right h.tail.right)
  | .unary op operand, h => by
    rw [nodes] at h
    rw [lower]
    exact (faults_lower operand h.tail).map
  | .trailing op operand, h => by
    rw [nodes] at h
    rw [lower]
    exact (faults_lower operand h.tail).map
  | .conditional condition thenValue elseValue, h => by
    rw [nodes] at h
    rw [lower]
    exact (faults_lower condition h.tail.left.left).bind fun _ =>
      (faults_lower thenValue h.tail.left.right).bind fun _ =>
        (faults_lower elseValue h.tail.right).map
  | .call ⟨name, args, line⟩, h => by
    rw [nodes] at h
    have hargs := faults_lowerArgs args h.tail
    rw [lower]
    rw [lowerArgs_eq_map] at hargs ⊢
    have hcall : (callCode env (env.codedCall ⟨name, args, line⟩)).Faults P :=
      env.faults_callCode hargs h.head
    exact hcall.plain
  | .member object field, h => by
    rw [nodes] at h
    rw [lower]
    exact Lowered.Faults.plain (faults_memberText env field (faults_lower object h.tail))
  | .index base position, h => by
    rw [nodes] at h
    rw [lower]
    exact (faults_lower base h.tail.left).bind fun _ => (faults_lower position h.tail.right).map
  | .array ⟨elements, _⟩, h => by
    rw [nodes] at h
    rw [lower]
    exact (faults_arrayText (faults_lowerList elements h.tail)).plain
  | .fill value count, h => by
    rw [nodes] at h
    rw [lower]
    exact Lowered.Faults.plain (faults_fillText count (faults_lower value h.tail.left))
  | .record ⟨typeName, fields⟩, h => by
    rw [nodes] at h
    rw [lower]
    exact (faults_recordText env typeName (faults_lowerFields fields h.tail)).plain
  | .enumValue ref, _ => by
    rw [lower]
    exact (env.faults_enumText _ _ _).plain
  | .construct component args, h => by
    rw [nodes] at h
    rw [lower]
    exact (faults_constructText env component (faults_lowerArgs args h.tail)).plain
  | .select ⟨subject, arms, otherwise, line⟩, h => by
    rw [nodes] at h
    rw [lower]
    refine (faults_matchText env ?_ ?_ ?_).plain
    · exact faults_lower subject h.tail.left.left
    · exact faults_lowerArms arms h.tail.left.right
    · exact faults_lowerOption otherwise h.tail.right
  | .reference operand, h => by
    rw [nodes] at h
    rw [lower]
    exact (faults_lower operand h.tail).map
  | .move operand, h => by
    rw [nodes] at h
    rw [lower]
    exact (faults_lower operand h.tail).map

theorem faults_lowerList : (es : List Expr) → Each (RefusedBy P env) (listNodes es) →
    ∀ part ∈ env.lowerList es, part.Faults P
  | [], _ => by
    rw [lowerList]
    exact fun part hpart => absurd hpart List.not_mem_nil
  | e :: es, h => by
    rw [listNodes] at h
    rw [lowerList]
    exact List.forall_mem_cons.2 ⟨faults_lower e h.left, faults_lowerList es h.right⟩

theorem faults_lowerOption : (e : Option Expr) → Each (RefusedBy P env) (optionNodes e) →
    ∀ part ∈ env.lowerOption e, part.Faults P
  | none, _ => by
    rw [lowerOption]
    exact fun part hpart => nomatch hpart
  | some e, h => by
    rw [optionNodes] at h
    rw [lowerOption]
    intro part hpart
    cases hpart
    exact faults_lower e h

theorem faults_lowerArgs : (args : List (Arg Expr)) → Each (RefusedBy P env) (argNodes args) →
    ∀ arg ∈ env.lowerArgs args, arg.value.Faults P
  | [], _ => by
    rw [lowerArgs]
    exact fun part hpart => absurd hpart List.not_mem_nil
  | ⟨_, value, _, _⟩ :: args, h => by
    rw [argNodes] at h
    rw [lowerArgs]
    exact List.forall_mem_cons.2 ⟨faults_lower value h.left, faults_lowerArgs args h.right⟩

theorem faults_lowerFields : (fields : List (FieldInit Expr)) →
    Each (RefusedBy P env) (fieldNodes fields) →
      ∀ field ∈ env.lowerFields fields, field.value.Faults P
  | [], _ => by
    rw [lowerFields]
    exact fun part hpart => absurd hpart List.not_mem_nil
  | ⟨_, value⟩ :: fields, h => by
    rw [fieldNodes] at h
    rw [lowerFields]
    exact List.forall_mem_cons.2 ⟨faults_lower value h.left, faults_lowerFields fields h.right⟩

theorem faults_lowerPattern : (pattern : Pattern Expr) →
    Each (RefusedBy P env) (patternNodes pattern) → (env.lowerPattern pattern).Faults P
  | .literal value, h => by
    rw [patternNodes] at h
    rw [lowerPattern]
    exact faults_lower value h
  | .enumValue ref, _ => by
    rw [lowerPattern]
    trivial
  | .record _ fields, h => by
    rw [patternNodes] at h
    rw [lowerPattern]
    exact faults_lowerFieldPatterns fields h

theorem faults_lowerFieldPatterns : (fields : List (FieldPattern Expr)) →
    Each (RefusedBy P env) (fieldPatternNodes fields) →
      ∀ field ∈ env.lowerFieldPatterns fields, ∀ part ∈ field.value, part.Faults P
  | [], _ => by
    rw [lowerFieldPatterns]
    exact fun part hpart => absurd hpart List.not_mem_nil
  | ⟨_, value⟩ :: fields, h => by
    rw [fieldPatternNodes] at h
    rw [lowerFieldPatterns]
    exact List.forall_mem_cons.2
      ⟨faults_lowerOption value h.left, faults_lowerFieldPatterns fields h.right⟩

theorem faults_lowerArms : (arms : List (Arm Expr)) → Each (RefusedBy P env) (armNodes arms) →
    ∀ arm ∈ env.lowerArms arms, arm.pattern.Faults P ∧ arm.body.Faults P
  | [], _ => by
    rw [lowerArms]
    exact fun part hpart => absurd hpart List.not_mem_nil
  | ⟨pattern, body⟩ :: arms, h => by
    rw [armNodes] at h
    rw [lowerArms]
    exact List.forall_mem_cons.2
      ⟨⟨faults_lowerPattern pattern h.left.left, faults_lower body h.left.right⟩,
        faults_lowerArms arms h.right⟩

end

theorem faults_exprText {e : Expr} (h : Each (RefusedBy P env) e.nodes) :
    (env.exprText e).Faults P :=
  Coded.Faults.value (faults_lower e h)

end Env

end UiLowering
