import UiLowering.Lower.Expr
import UiLowering.Proofs.Nodes
import UiLowering.Proofs.Target.CallText

/-!
# The texts of expressions are terms

`Expr.IsTidy` says of the texts that a node itself brings into the code that they are free of
brackets, quotes and semicolons.  Types may have the brackets of arrays, and an expression in a
string literal may have any brackets and quotes it closes.  The code of a tree of such nodes is
sound: the value of an expression is a term, and its appends close their brackets
(`Env.yields_lower`).

The conclusion has two halves because a part of a node may be used in two ways.  As a value it can
become the beginning of a statement, the operand of an operator or a condition, and all three need a
term.  As something that is appended to the buffer it is a sequence of statements inside a block,
where only the brackets count.

`Lowered.Yields P` says that a result, if there is one, has the property `P`.  With it the lemmas
can be stated for the functions of the lowering as they are, and a bind of lowerings becomes the
application of two lemmas.  Which expressions have a result is another matter (`faults_lower`).
-/

set_option autoImplicit false

namespace UiLowering

open Target

/-! ## Tidy trees

The texts in a tree are not checked by the lowering, and with brackets in the name of a variable
nothing can be said about the output.  `IsTidy` is asked of each node for its own texts, so the
condition on a tree is one on the list of its nodes. -/

/-- The names of a value of an enumeration. -/
structure EnumRef.IsTidy (ref : EnumRef) : Prop where
  enumName : IsTypeName ref.enumName
  valueName : Quiet ref.valueName.toList
  component : ∀ name ∈ ref.component, IsTypeName name

/-- The names in a pattern. -/
def Pattern.IsTidy {ε : Type} : Pattern ε → Prop
  | .literal _ => True
  | .enumValue ref => ref.IsTidy
  | .record _ fields => ∀ field ∈ fields, Quiet field.name.toList

/-- The texts that a node brings into the code, apart from its parts. -/
def Expr.IsTidy : Expr → Prop
  | .str raw => ∀ source ∈ Expr.holes raw, Even [] source.toList
  | .ident name => Quiet name.toList
  | .binary _ op _ _ => Quiet op.toList
  | .unary op _ => Quiet op.toList
  | .trailing op _ => Quiet op.toList ∧ ∀ c ∈ op.toList, Text.isAsciiWord c = false
  | .call c => Quiet c.name.toList
  | .member _ field => Quiet field.toList
  | .record literal =>
    (∀ name ∈ literal.typeName, IsTypeName name) ∧ ∀ field ∈ literal.fields, Quiet field.name.toList
  | .enumValue ref => ref.IsTidy
  | .construct component args =>
    IsTypeName component ∧ ∀ arg ∈ args, ∀ name ∈ arg.name, Quiet name.toList
  | .select choice => ∀ arm ∈ choice.arms, arm.pattern.IsTidy
  | _ => True

/-- All nodes in a list are tidy. -/
def Expr.AllTidy (nodes : List Expr) : Prop := Each IsTidy nodes

/-! ## String literals

The plain text of a literal is quoted and may have any characters.  Its holes are taken over as
code: a path of names is quiet, and everything else has to close its own brackets. -/

theorem quiet_of_completesPath {fresh : Bool} {cs : List Char}
    (h : Text.completesPath fresh cs = true) : Quiet cs := by
  induction cs generalizing fresh with
  | nil => exact fun c hc => absurd hc List.not_mem_nil
  | cons c cs ih =>
    rw [Text.completesPath] at h
    split at h
    · obtain ⟨hc, hcs⟩ := Bool.and_eq_true_iff.1 h
      exact List.forall_mem_cons.2 ⟨isQuiet_of_class (by decide) hc, ih hcs⟩
    · split at h
      · rename_i hdot
        rw [beq_iff_eq.1 hdot]
        exact List.forall_mem_cons.2 ⟨rfl, ih h⟩
      · obtain ⟨hc, hcs⟩ := Bool.and_eq_true_iff.1 h
        exact List.forall_mem_cons.2 ⟨isQuiet_of_class (by decide) hc, ih hcs⟩

theorem quiet_of_isNamePath {path : String} (h : Text.isNamePath path = true) :
    Quiet path.toList := by
  rw [Text.isNamePath] at h
  exact quiet_of_completesPath h

theorem Env.even_literalParts (env : Env) {raw : String}
    (h : ∀ source ∈ Expr.holes raw, Even [] source.toList) :
    ∀ part ∈ env.literalParts raw, Even [] part.toList := by
  intro part hpart
  obtain ⟨piece, hpiece, rfl⟩ := List.mem_map.1 hpart
  cases piece with
  | text content => exact (even_quote _).body
  | hole source =>
    have hsource : Even [] (String.ofList source).toList :=
      h _ (List.mem_map.2 ⟨.hole source, List.mem_filter.2 ⟨hpiece, rfl⟩, rfl⟩)
    change Even [] (env.interpolated (String.ofList source)).toList
    unfold Env.interpolated
    dsimp only
    split
    · rename_i hpath
      exact env.scope.even_readPath (quiet_of_isNamePath hpath)
    · exact hsource

theorem Code.isSound_literal {raw : String} {parts : List String}
    (h : ∀ part ∈ parts, Even [] part.toList) : (Code.literal raw parts).IsSound := by
  constructor
  · rw [Code.value]
    split
    · exact isTerm_call "webcc::string::concat" rfl (isCallee_of_even rfl) (even_join rfl h)
    · exact isTerm_of_even (even_quote _)
  · refine even_concat fun t ht => ?_
    obtain ⟨part, hpart, rfl⟩ := List.mem_map.1 ht
    exact even_appendCode (h part hpart)

/-! ## Nodes over the code of their parts

Each lemma takes the codes of the parts as given and says that the text of one kind of node is a
term.  None of them looks at the tree. -/

theorem Lowered.yields_plain {text : Lowered String} (h : text.Yields IsTerm) :
    text.plain.Yields Code.IsSound :=
  h.bind fun _ ht => Lowered.yields_pure (Code.isSound_plain ht)

theorem yields_binaryCode (isChain : Bool) {op : String} {left right : Coded}
    (hop : Quiet op.toList) (hleft : left.IsSound) (hright : right.IsSound) :
    (binaryCode isChain op left right).Yields Code.IsSound := by
  unfold binaryCode
  split
  · refine hleft.appends.bind fun first hfirst => ?_
    refine hright.appends.bind fun second hsecond => Lowered.yields_pure ?_
    exact Code.isSound_chain (hfirst.text hsecond)
  · refine hleft.value.bind fun first hfirst => ?_
    refine hright.value.bind fun second hsecond => Lowered.yields_pure ?_
    have hbody : Even [] (first ++ " " ++ op ++ " " ++ second).toList :=
      Even.text (Even.text (Even.text (Even.text hfirst.body rfl) hop.even.body) rfl) hsecond.body
    have hterm := isTerm_enclosed hbody
    simp only [← String.append_assoc] at hterm
    exact Code.isSound_plain hterm

theorem yields_memberText {env : Env} (henv : env.IsTidy) {object : Coded} {field : String}
    (hobject : object.IsSound) (hfield : Quiet field.toList) :
    (memberText env object field).Yields IsTerm := by
  unfold memberText
  split
  · rename_i literal hliteral
    refine Lowered.yields_pure (isTerm_of_even (Quiet.even ?_))
    unfold constant? at hliteral
    split at hliteral
    · split at hliteral
      · obtain ⟨method, hmethod, rfl⟩ := Option.map_eq_some_iff.1 hliteral
        exact henv.schema.quiet
          (Schema.hasMethod_of_mem_methodsNamed (List.mem_of_find?_eq_some hmethod))
      · cases hliteral
    · cases hliteral
  · refine hobject.value.bind fun code hcode => Lowered.yields_pure ?_
    exact hcode.member hfield

theorem isTerm_braced_join {codes : List String} (h : ∀ t ∈ codes, Even [] t.toList) :
    IsTerm (braced (Text.join ", " codes)) :=
  isTerm_block (even_join rfl h)

theorem yields_arrayText {elements : List Coded} (h : ∀ part ∈ elements, part.IsSound) :
    (arrayText elements).Yields IsTerm := by
  have hvalues : ∀ x ∈ elements.map Coded.value, x.Yields IsTerm := by
    intro x hx
    obtain ⟨part, hpart, rfl⟩ := List.mem_map.1 hx
    exact (h part hpart).value
  refine (Lowered.yields_all hvalues).bind fun codes hcodes => Lowered.yields_pure ?_
  exact isTerm_braced_join fun t ht => (hcodes.2 t ht).body

theorem yields_fillText {value : Coded} (count : Expr) (h : value.IsSound) :
    (fillText value count).Yields IsTerm := by
  refine h.value.bind fun code hcode => ?_
  have hone : IsTerm (braced code) := isTerm_block hcode.body
  split
  · split
    · refine Lowered.yields_pure (isTerm_braced_join fun t ht => ?_)
      rw [List.eq_of_mem_replicate ht]
      exact hcode.body
    · exact (Lowered.yields_true _).bind fun _ _ => Lowered.yields_pure hone
  · exact (Lowered.yields_true _).bind fun _ _ => Lowered.yields_pure hone

theorem even_initText {name code : String} (hname : Quiet name.toList) (h : Even [] code.toList) :
    Even [] (initText name code).toList :=
  Even.text (Even.text (Even.text rfl hname.even.body) rfl) h

/-- A field of a record literal that can be lowered. -/
structure FieldInit.IsSound (field : FieldInit Coded) : Prop where
  name : Quiet field.name.toList
  value : field.value.IsSound

theorem FieldInit.IsSound.yields_fieldText {field : FieldInit Coded} (h : field.IsSound) :
    (fieldText field).Yields fun t => Even [] t.toList :=
  h.value.value.bind fun _ hcode => Lowered.yields_pure (even_initText h.name hcode.body)

theorem yields_recordText {env : Env} (henv : env.IsTidy) {typeName : Option String}
    {fields : List (FieldInit Coded)} (htype : ∀ name ∈ typeName, IsTypeName name)
    (h : ∀ field ∈ fields, field.IsSound) : (recordText env typeName fields).Yields IsTerm := by
  have hinits : ∀ x ∈ fields.map fieldText, x.Yields fun t => Even [] t.toList := by
    intro x hx
    obtain ⟨field, hfield, rfl⟩ := List.mem_map.1 hx
    exact (h field hfield).yields_fieldText
  refine (Lowered.yields_all hinits).bind fun inits hinits => ?_
  have hjoin : Even [] (Text.join ", " inits).toList := even_join rfl hinits.2
  cases typeName with
  | none => exact Lowered.yields_pure (isTerm_braced Even.nil hjoin)
  | some name =>
    refine (Env.isTypeName_typeText henv (htype name rfl)).bind fun text htext => ?_
    exact Lowered.yields_pure (isTerm_braced htext hjoin)

theorem yields_constructorArg {arg : Arg Coded} (h : arg.IsSound) :
    (constructorArg arg).Yields fun t => Even [] t.toList := by
  refine h.value.value.bind fun code hcode => Lowered.yields_pure ?_
  split
  · exact Even.text rfl hcode.body
  · exact hcode.body

theorem yields_constructText {env : Env} (henv : env.IsTidy) {component : String}
    {args : List (Arg Coded)} (htype : IsTypeName component)
    (hnames : ∀ arg ∈ args, ∀ name ∈ arg.name, Quiet name.toList)
    (h : ∀ arg ∈ args, arg.IsSound) : (constructText env component args).Yields IsTerm := by
  have hargs : ∀ x ∈ args.map constructorArg, x.Yields fun t => Even [] t.toList := by
    intro x hx
    obtain ⟨arg, harg, rfl⟩ := List.mem_map.1 hx
    exact yields_constructorArg (h arg harg)
  refine (Env.isTypeName_typeText henv htype).bind fun text htext => ?_
  refine (Lowered.yields_all hargs).bind fun codes hcodes => ?_
  split
  · refine Lowered.yields_pure (isTerm_braced htext (even_join rfl fun t ht => ?_))
    obtain ⟨i, hi, rfl⟩ := List.mem_iff_getElem.1 ht
    have hlt : i < args.length := by
      rw [List.length_zipWith] at hi
      exact Nat.lt_of_lt_of_le hi (Nat.min_le_left _ _)
    rw [List.getElem_zipWith]
    refine even_initText ?_ (hcodes.2 _ (List.getElem_mem _))
    cases hname : (args[i]).name with
    | none => exact fun c hc => absurd hc List.not_mem_nil
    | some name => exact hnames _ (List.getElem_mem _) name hname
  · exact Lowered.yields_pure (isTerm_applied (isCallee_of_even htext) hcodes.2)

theorem Env.yields_enumText {env : Env} (henv : env.IsTidy) {ref : EnumRef} (h : ref.IsTidy) :
    (env.enumText ref.component ref.enumName ref.valueName).Yields IsTerm := by
  have htext {source : String} (hsource : IsTypeName source) : Lowered.Yields IsTerm (do
      let typeText ← env.typeText source
      return typeText ++ "::" ++ ref.valueName) := by
    refine (Env.isTypeName_typeText henv hsource).bind fun text htext => Lowered.yields_pure ?_
    exact isTerm_of_even (Even.text (Even.text htext rfl) h.valueName.even)
  cases howner : ref.component with
  | none => exact htext h.enumName
  | some owner => exact htext (Even.text (Even.text (h.component owner howner) rfl) h.enumName)

/-! ## Matches

A match becomes a function that is called on the spot, with its branches in a block.  There the
conditions and the bodies need only be even. -/

/-- The texts of a branch close their brackets. -/
structure Branch.IsSound (branch : Branch) : Prop where
  condition : ∀ code ∈ branch.condition, Even [] code.toList
  bindings : ∀ code ∈ branch.bindings, Even [] code.toList
  body : Even [] branch.body.toList

theorem Branch.IsSound.render {branch : Branch} (h : branch.IsSound) :
    Even [] branch.render.toList := by
  have hblock : Even [] (braced (" " ++ Text.concat branch.bindings ++ "return " ++ branch.body ++
      "; ")).toList :=
    even_braced (Even.text (Even.text (Even.text (Even.text rfl (even_concat h.bindings)) rfl)
      h.body) rfl)
  unfold Branch.render
  split
  · rename_i code hcode
    have hhead : Even [] ("if (" ++ code ++ ") ").toList :=
      Walks.text (Walks.text (q := ⟨1, .code⟩) rfl (h.condition code hcode).inside) rfl
    exact hhead.text hblock
  · exact hblock

theorem MatchChain.isTerm_render {chain : MatchChain} (trap : Bool)
    (hsubject : Even [] chain.subject.toList) (h : ∀ branch ∈ chain.branches, branch.IsSound) :
    IsTerm (chain.render trap) := by
  have hbranches : Even [] (Text.join " else " (chain.branches.map Branch.render)).toList := by
    refine even_join rfl fun t ht => ?_
    obtain ⟨branch, hbranch, rfl⟩ := List.mem_map.1 ht
    exact (h branch hbranch).render
  have htrap :
      Even [] (if trap && chain.hasGap then " __builtin_unreachable();" else "").toList := by
    split
    · rfl
    · exact Even.nil
  exact isTerm_lambda (Even.text (Even.text (Even.text (Even.text (Even.text rfl hsubject) rfl)
    hbranches) htrap) rfl)

/-- A pattern that can be lowered. -/
def Pattern.IsSound : Pattern Coded → Prop
  | .literal part => part.IsSound
  | .enumValue ref => ref.IsTidy
  | .record _ fields =>
    ∀ field ∈ fields, Quiet field.name.toList ∧ ∀ part ∈ field.value, part.IsSound

/-- An arm that can be lowered. -/
structure Arm.IsSound (arm : Arm Coded) : Prop where
  pattern : arm.pattern.IsSound
  body : arm.body.IsSound

theorem yields_patternCode {env : Env} (henv : env.IsTidy) {pattern : Pattern Coded}
    (h : pattern.IsSound) :
    (patternCode env pattern).Yields fun found =>
      (∀ code ∈ found.1, Even [] code.toList) ∧ ∀ code ∈ found.2, Even [] code.toList := by
  have hcompare {code : String} (hcode : IsTerm code) :
      (∀ t ∈ some ("_m == " ++ code), Even [] t.toList) ∧ ∀ t ∈ ([] : List String),
        Even [] t.toList := by
    refine ⟨fun t ht => ?_, fun t ht => absurd ht List.not_mem_nil⟩
    cases ht
    exact Even.text rfl hcode.body
  cases pattern with
  | literal part =>
    exact h.value.bind fun code hcode => Lowered.yields_pure (hcompare hcode)
  | enumValue ref =>
    exact (Env.yields_enumText henv h).bind fun code hcode => Lowered.yields_pure (hcompare hcode)
  | record typeName fields =>
    have hconditions : ∀ x ∈ fields.filterMap fieldCondition?,
        x.Yields fun t => Even [] t.toList := by
      intro x hx
      obtain ⟨field, hfield, hsome⟩ := List.mem_filterMap.1 hx
      obtain ⟨part, hpart, rfl⟩ := Option.map_eq_some_iff.1 hsome
      obtain ⟨hname, hvalue⟩ := h field hfield
      refine (hvalue part hpart).value.bind fun code hcode => Lowered.yields_pure ?_
      exact Even.text (Even.text (Even.text rfl hname.even.body) rfl) hcode.body
    refine (Lowered.yields_all hconditions).bind fun conditions hcodes => Lowered.yields_pure ?_
    constructor
    · intro t ht
      dsimp only at ht
      split at ht
      · cases ht
      · cases ht
        exact even_join rfl hcodes.2
    · intro t ht
      obtain ⟨field, hfield, hsome⟩ := List.mem_filterMap.1 ht
      have hname := (h field hfield).1.even.body
      unfold fieldBinding? at hsome
      split at hsome
      · cases hsome
        exact Even.text (Even.text (Even.text (Even.text rfl hname) rfl) hname) rfl
      · cases hsome

theorem yields_armBranch {env : Env} (henv : env.IsTidy) {arm : Arm Coded} (h : arm.IsSound) :
    (armBranch env arm).Yields Branch.IsSound := by
  refine h.body.value.bind fun body hbody => ?_
  refine (yields_patternCode henv h.pattern).bind fun found hfound => ?_
  exact Lowered.yields_pure ⟨hfound.1, hfound.2, hbody.body⟩

theorem yields_armBranches {env : Env} (henv : env.IsTidy) (line : UInt32) (i : Nat)
    {arms : List (Arm Coded)} (h : ∀ arm ∈ arms, arm.IsSound) :
    (armBranches env line i arms).Yields fun found => ∀ branch ∈ found.1, branch.IsSound := by
  induction arms generalizing i with
  | nil => exact Lowered.yields_pure fun branch hbranch => absurd hbranch List.not_mem_nil
  | cons arm arms ih =>
    rw [armBranches]
    refine (yields_armBranch henv (h arm List.mem_cons_self)).bind fun branch hbranch => ?_
    split
    · refine (Lowered.yields_true _).bind fun _ _ => Lowered.yields_pure ?_
      exact List.forall_mem_singleton.2 hbranch
    · have harms := fun other hother => h other (List.mem_cons_of_mem arm hother)
      refine (ih (i + 1) harms).bind fun found hfound => Lowered.yields_pure ?_
      exact List.forall_mem_cons.2 ⟨hbranch, hfound⟩

theorem yields_otherwiseBranches (line : UInt32) (closed : Bool) {otherwise : Option Coded}
    (h : ∀ part ∈ otherwise, part.IsSound) :
    (otherwiseBranches line closed otherwise).Yields fun branches =>
      ∀ branch ∈ branches, branch.IsSound := by
  have hnone : ∀ branch ∈ ([] : List Branch), branch.IsSound :=
    fun branch hbranch => absurd hbranch List.not_mem_nil
  unfold otherwiseBranches
  split
  · rename_i part
    split
    · exact (Lowered.yields_true _).bind fun _ _ => Lowered.yields_pure hnone
    · refine (h part rfl).value.bind fun body hbody => Lowered.yields_pure ?_
      refine List.forall_mem_singleton.2 ⟨fun t ht => ?_, fun t ht => ?_, hbody.body⟩
      · cases ht
      · exact absurd ht List.not_mem_nil
  · split
    · exact Lowered.yields_pure hnone
    · exact (Lowered.yields_true _).bind fun _ _ => Lowered.yields_pure hnone

theorem yields_matchText {env : Env} (henv : env.IsTidy) {choice : Match Coded}
    (hsubject : choice.subject.IsSound) (harms : ∀ arm ∈ choice.arms, arm.IsSound)
    (hotherwise : ∀ part ∈ choice.otherwise, part.IsSound) :
    (matchText env choice).Yields IsTerm := by
  have hchain : (matchChain env choice).Yields fun chain =>
      Even [] chain.subject.toList ∧ ∀ branch ∈ chain.branches, branch.IsSound := by
    refine (yields_armBranches henv choice.line 0 harms).bind fun found hfound => ?_
    refine (yields_otherwiseBranches choice.line found.2 hotherwise).bind fun others hothers => ?_
    refine hsubject.value.bind fun subject hcode => Lowered.yields_pure ⟨hcode.body, ?_⟩
    exact List.forall_mem_append.2 ⟨hfound, hothers⟩
  exact hchain.bind fun chain hsound =>
    Lowered.yields_pure (MatchChain.isTerm_render _ hsound.1 hsound.2)

/-! ## The tree

One theorem for each kind of list of parts, along the recursion of `Env.lower`.  The hypothesis on
the nodes is split in the same way. -/

namespace Env

open UiLowering.Expr

variable {env : Env}

/-- Lowering keeps the names of the arguments. -/
theorem forall_name_lowerArgs {P : String → Prop} (env : Env) {args : List (Arg Expr)}
    (h : ∀ arg ∈ args, ∀ name ∈ arg.name, P name) :
    ∀ arg ∈ env.lowerArgs args, ∀ name ∈ arg.name, P name := by
  induction args with
  | nil =>
    rw [lowerArgs]
    exact fun arg harg => absurd harg List.not_mem_nil
  | cons arg args ih =>
    rw [lowerArgs]
    obtain ⟨harg, hargs⟩ := List.forall_mem_cons.1 h
    exact List.forall_mem_cons.2 ⟨harg, ih hargs⟩

mutual

/-- **The code of a tidy expression is sound.**  The induction is on the expression: each node is
lowered by one of the functions above from the code of its parts. -/
theorem yields_lower (henv : env.IsTidy) :
    (e : Expr) → AllTidy e.nodes → (env.lower e).Yields Code.IsSound
  | .int value, _ => by
    rw [lower]
    exact Lowered.yields_pure (Code.isSound_plain (isTerm_of_even (quiet_toString_int _).even))
  | .float value, _ => by
    rw [lower]
    exact Lowered.yields_pure (Code.isSound_plain (isTerm_of_even (quiet_floatText _).even))
  | .bool value, _ => by
    rw [lower]
    refine Lowered.yields_pure (Code.isSound_plain (isTerm_of_even (Quiet.even ?_)))
    cases value <;> decide
  | .str raw, h => by
    rw [nodes] at h
    rw [lower]
    exact Lowered.yields_pure (Code.isSound_literal (env.even_literalParts h.head))
  | .ident name, h => by
    rw [nodes] at h
    rw [lower]
    exact Lowered.yields_pure (Code.isSound_plain (env.scope.isTerm_read h.head))
  | .binary left op right _, h => by
    rw [nodes] at h
    rw [lower]
    exact yields_binaryCode _ h.head (yields_lower henv left h.tail.left)
      (yields_lower henv right h.tail.right)
  | .unary op operand, h => by
    rw [nodes] at h
    rw [lower]
    refine (yields_lower henv operand h.tail).bind fun code hcode => Lowered.yields_pure ?_
    exact Code.isSound_plain (hcode.value.append_left h.head)
  | .trailing op operand, h => by
    rw [nodes] at h
    rw [lower]
    refine (yields_lower henv operand h.tail).bind fun code hcode => Lowered.yields_pure ?_
    exact Code.isSound_plain (hcode.value.append_operator h.head.1 h.head.2)
  | .conditional condition thenValue elseValue, h => by
    rw [nodes] at h
    rw [lower]
    refine (yields_lower henv condition h.tail.left.left).bind fun test htest => ?_
    refine (yields_lower henv thenValue h.tail.left.right).bind fun first hfirst => ?_
    refine (yields_lower henv elseValue h.tail.right).bind fun second hsecond =>
      Lowered.yields_pure (Code.isSound_plain ?_)
    have hbody : Even [] (test.value ++ " ? " ++ first.value ++ " : " ++ second.value).toList :=
      Even.text (Even.text (Even.text (Even.text htest.value.body rfl) hfirst.value.body) rfl)
        hsecond.value.body
    have hterm := isTerm_enclosed hbody
    simp only [← String.append_assoc] at hterm
    exact hterm
  | .call ⟨name, args, line⟩, h => by
    rw [nodes] at h
    rw [lower]
    have hname : Quiet name.toList := h.head
    have hargs := sound_lowerArgs henv args h.tail
    exact Lowered.yields_plain (yields_callCode henv hname hargs)
  | .member object field, h => by
    rw [nodes] at h
    rw [lower]
    exact Lowered.yields_plain
      (yields_memberText henv (yields_lower henv object h.tail) h.head)
  | .index base position, h => by
    rw [nodes] at h
    rw [lower]
    refine (yields_lower henv base h.tail.left).bind fun array harray => ?_
    refine (yields_lower henv position h.tail.right).bind fun index hindex =>
      Lowered.yields_pure (Code.isSound_plain ?_)
    exact harray.value.index hindex.value.body
  | .array ⟨elements, _⟩, h => by
    rw [nodes] at h
    rw [lower]
    exact Lowered.yields_plain (yields_arrayText (sound_lowerList henv elements h.tail))
  | .fill value count, h => by
    rw [nodes] at h
    rw [lower]
    exact Lowered.yields_plain (yields_fillText count (yields_lower henv value h.tail.left))
  | .record ⟨typeName, fields⟩, h => by
    rw [nodes] at h
    rw [lower]
    obtain ⟨htype, hnames⟩ := h.head
    exact Lowered.yields_plain
      (yields_recordText henv htype (sound_lowerFields henv fields hnames h.tail))
  | .enumValue ref, h => by
    rw [nodes] at h
    rw [lower]
    exact Lowered.yields_plain (yields_enumText henv h.head)
  | .construct component args, h => by
    rw [nodes] at h
    rw [lower]
    obtain ⟨htype, hnames⟩ := h.head
    refine Lowered.yields_plain
      (yields_constructText henv htype ?_ (sound_lowerArgs henv args h.tail))
    exact forall_name_lowerArgs (P := fun name => Quiet name.toList) env hnames
  | .select ⟨subject, arms, otherwise, line⟩, h => by
    rw [nodes] at h
    rw [lower]
    refine Lowered.yields_plain (yields_matchText henv ?_ ?_ ?_)
    · exact yields_lower henv subject h.tail.left.left
    · exact sound_lowerArms henv arms h.head h.tail.left.right
    · exact sound_lowerOption henv otherwise h.tail.right
  | .reference operand, h => by
    rw [nodes] at h
    rw [lower]
    exact (yields_lower henv operand h.tail).bind fun code hcode =>
      Lowered.yields_pure (Code.isSound_plain hcode.value)
  | .move operand, h => by
    rw [nodes] at h
    rw [lower]
    exact (yields_lower henv operand h.tail).bind fun code hcode =>
      Lowered.yields_pure (Code.isSound_plain (isTerm_moved hcode.value.body))

theorem sound_lowerList (henv : env.IsTidy) :
    (es : List Expr) → AllTidy (listNodes es) → ∀ part ∈ env.lowerList es, part.IsSound
  | [], _ => by
    rw [lowerList]
    exact fun part hpart => absurd hpart List.not_mem_nil
  | e :: es, h => by
    rw [listNodes] at h
    rw [lowerList]
    exact List.forall_mem_cons.2
      ⟨yields_lower henv e h.left, sound_lowerList henv es h.right⟩

theorem sound_lowerOption (henv : env.IsTidy) :
    (e : Option Expr) → AllTidy (optionNodes e) → ∀ part ∈ env.lowerOption e, part.IsSound
  | none, _ => by
    rw [lowerOption]
    exact fun part hpart => nomatch hpart
  | some e, h => by
    rw [optionNodes] at h
    rw [lowerOption]
    intro part hpart
    cases hpart
    exact yields_lower henv e h

theorem sound_lowerArgs (henv : env.IsTidy) :
    (args : List (Arg Expr)) → AllTidy (argNodes args) → ∀ arg ∈ env.lowerArgs args, arg.IsSound
  | [], _ => by
    rw [lowerArgs]
    exact fun part hpart => absurd hpart List.not_mem_nil
  | ⟨_, value, _, _⟩ :: args, h => by
    rw [argNodes] at h
    rw [lowerArgs]
    refine List.forall_mem_cons.2 ⟨⟨yields_lower henv value h.left, ?_⟩,
      sound_lowerArgs henv args h.right⟩
    rintro name rfl
    exact h.head

theorem sound_lowerFields (henv : env.IsTidy) :
    (fields : List (FieldInit Expr)) → (∀ field ∈ fields, Quiet field.name.toList) →
      AllTidy (fieldNodes fields) → ∀ field ∈ env.lowerFields fields, field.IsSound
  | [], _, _ => by
    rw [lowerFields]
    exact fun part hpart => absurd hpart List.not_mem_nil
  | ⟨_, value⟩ :: fields, hnames, h => by
    rw [fieldNodes] at h
    rw [lowerFields]
    obtain ⟨hname, hnames⟩ := List.forall_mem_cons.1 hnames
    exact List.forall_mem_cons.2 ⟨⟨hname, yields_lower henv value h.left⟩,
      sound_lowerFields henv fields hnames h.right⟩

theorem sound_lowerPattern (henv : env.IsTidy) :
    (pattern : Pattern Expr) → pattern.IsTidy → AllTidy (patternNodes pattern) →
      (env.lowerPattern pattern).IsSound
  | .literal value, _, h => by
    rw [patternNodes] at h
    rw [lowerPattern]
    exact yields_lower henv value h
  | .enumValue ref, hpattern, _ => by
    rw [lowerPattern]
    exact hpattern
  | .record _ fields, hpattern, h => by
    rw [patternNodes] at h
    rw [lowerPattern]
    exact sound_lowerFieldPatterns henv fields hpattern h

theorem sound_lowerFieldPatterns (henv : env.IsTidy) :
    (fields : List (FieldPattern Expr)) → (∀ field ∈ fields, Quiet field.name.toList) →
      AllTidy (fieldPatternNodes fields) → ∀ field ∈ env.lowerFieldPatterns fields,
        Quiet field.name.toList ∧ ∀ part ∈ field.value, part.IsSound
  | [], _, _ => by
    rw [lowerFieldPatterns]
    exact fun part hpart => absurd hpart List.not_mem_nil
  | ⟨_, value⟩ :: fields, hnames, h => by
    rw [fieldPatternNodes] at h
    rw [lowerFieldPatterns]
    obtain ⟨hname, hnames⟩ := List.forall_mem_cons.1 hnames
    exact List.forall_mem_cons.2 ⟨⟨hname, sound_lowerOption henv value h.left⟩,
      sound_lowerFieldPatterns henv fields hnames h.right⟩

theorem sound_lowerArms (henv : env.IsTidy) :
    (arms : List (Arm Expr)) → (∀ arm ∈ arms, arm.pattern.IsTidy) → AllTidy (armNodes arms) →
      ∀ arm ∈ env.lowerArms arms, arm.IsSound
  | [], _, _ => by
    rw [lowerArms]
    exact fun part hpart => absurd hpart List.not_mem_nil
  | ⟨pattern, body⟩ :: arms, hpatterns, h => by
    rw [armNodes] at h
    rw [lowerArms]
    obtain ⟨hpattern, hpatterns⟩ := List.forall_mem_cons.1 hpatterns
    exact List.forall_mem_cons.2
      ⟨⟨sound_lowerPattern henv pattern hpattern h.left.left, yields_lower henv body h.left.right⟩,
        sound_lowerArms henv arms hpatterns h.right⟩

end

theorem yields_exprText (henv : env.IsTidy) {e : Expr} (h : AllTidy e.nodes) :
    (env.exprText e).Yields IsTerm :=
  Coded.IsSound.value (show (env.coded e).IsSound from yields_lower henv e h)

end Env

end UiLowering
