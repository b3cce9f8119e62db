import UiLowering.Proofs.Alike
import UiLowering.Proofs.Nodes
import UiLowering.Proofs.Scope.Receiver

/-!
# Expressions that are spelled out

An expression is lowered in two scopes side by side: as it is where some names are read through a
pointer, and spelled out where every name is read as it is.  Both lowerings give the same text, or
both fail (`lower_spellOut`).  This is what it means that an occurrence is written as the reading
says: in the second scope a name is written as it stands in the tree.

The induction carries what a node asks of its parts: the same texts, a name in the one part where
there is one in the other, and whether the part needs the formatter.

Spelling out cannot be replaced by a substitution in the target text.  There a name and a part of a
string constant look alike, and a name that was read through a pointer could be found a second time
inside the parentheses it got.  In the tree each occurrence has its place, and what is written for
it is seen by writing the tree in a scope that changes nothing.

What the two lowerings have in common is `Lowered.Alike`: equal values or two faults.  Equality
would be too much to ask.  A fault names the call that is refused, with its receiver as it is
written, and so do some of the notices; on the other side the receiver is spelled out.

The way of a call is not compared again here; `Scope.Receiver` has done so.  What remains for a call
is to see that the arguments follow each other and that the receiver is read, named or left out on
both sides.
-/

set_option autoImplicit false

namespace UiLowering

open Lowered (Alike alike_pure alike_refl alike_note alike_all alike_all_map)

/-! ## Parts of a node

A node does not only use the texts of its parts.  An argument that is a bare name may stand for a
method, and a call may be written another way if a part needs the formatter.  `Coded.Follows`
collects what is asked.  The codes themselves need not be equal: that of a literal keeps its raw
text, which changes when the paths in it are spelled out. -/

/-- Two codes have the same texts. -/
structure Code.SameTexts (code other : Code) : Prop where
  value : code.value = other.value
  appends : code.appends = other.appends

/-- The name that an expression consists of. -/
def Expr.asName? : Expr → Option String
  | .ident name => some name
  | _ => none

/-- A part of a node, and the same part spelled out. -/
structure Coded.Follows (scope : Scope) (part other : Coded) : Prop where
  name : other.source.asName? = part.source.asName?.map scope.read
  simple : ∀ name ∈ part.source.asName?, Text.IsSimple name
  formatter : other.source.needsFormatter = part.source.needsFormatter
  code : part.code.Alike Code.SameTexts other.code

namespace Coded.Follows

variable {scope : Scope} {part other : Coded}

theorem valueAlike (h : part.Follows scope other) : part.value.Alike Eq other.value :=
  h.code.bind fun _ _ htexts => alike_pure htexts.value

theorem appendsAlike (h : part.Follows scope other) : part.appends.Alike Eq other.appends :=
  h.code.bind fun _ _ htexts => alike_pure htexts.appends

end Coded.Follows

/-- An argument, and the same argument spelled out. -/
structure Arg.Follows (scope : Scope) (arg other : Arg Coded) : Prop where
  name : other.name = arg.name
  byReference : other.byReference = arg.byReference
  byMove : other.byMove = arg.byMove
  value : arg.value.Follows scope other.value

variable {a b : Scope} {schema : Schema} {options : Options}

/-! ## Arguments

An argument that names a method of the component is replaced by a function that forwards to it.  So
it matters that a name spelled out names the same method, or none, as before.  All other forms of
arguments are put together from texts, and texts that are alike stay so under whatever is done with
both (`Lowered.Alike`). -/

namespace Arg

variable {arg other : Arg Coded}

theorem Follows.textAlike (h : arg.Follows a other) : arg.text.Alike Eq other.text :=
  h.value.valueAlike.bind_eq fun code => alike_pure (by rw [h.byMove])

/-- The function that stands for an argument which names a method of the component. -/
def forwarder? (scope : Scope) (arg : Arg Coded) : Option String :=
  arg.value.source.asName?.bind fun name => (scope.arityOf? name).map (forwarder name)

theorem callbackText_eq_elim (env : Env) (arg : Arg Coded) :
    arg.callbackText env = (arg.forwarder? env.scope).elim arg.value.value pure := by
  unfold callbackText forwarder?
  cases arg.value.source with
  | ident name => cases harity : env.scope.arityOf? name <;> simp [Expr.asName?, harity]
  | _ => rfl

theorem Follows.forwarder?_eq (hscope : a.SpelledBy b) (h : arg.Follows a other) :
    other.forwarder? b = arg.forwarder? a := by
  rw [forwarder?, forwarder?, h.value.name]
  cases hname : arg.value.source.asName? with
  | none => rfl
  | some name =>
    have hsimple := h.value.simple name hname
    simp only [Option.map_some, Option.bind_some, hscope.arity name hsimple]
    cases hreference : a.isReference name with
    | true => rw [hscope.noMethod name hreference]; rfl
    | false => rw [Scope.read_of_not_isReference hreference]

theorem Follows.callbackTextAlike (hscope : a.SpelledBy b) (h : arg.Follows a other) :
    (arg.callbackText ⟨a, schema, options⟩).Alike Eq (other.callbackText ⟨b, schema, options⟩) := by
  rw [callbackText_eq_elim, callbackText_eq_elim, h.forwarder?_eq hscope]
  cases arg.forwarder? a with
  | none => exact h.value.valueAlike
  | some code => exact alike_refl _

theorem Follows.textForAlike (hscope : a.SpelledBy b) (h : arg.Follows a other)
    (param : Option ApiParam) :
    (arg.textFor ⟨a, schema, options⟩ param).Alike Eq
      (other.textFor ⟨b, schema, options⟩ param) := by
  unfold textFor
  split
  · exact h.callbackTextAlike hscope
  · exact h.textAlike

end Arg

section Calls

variable {args others : List (Arg Coded)}

theorem argTexts_alike (h : List.Forall₂ (Arg.Follows a) args others) :
    (argTexts args).Alike Eq (argTexts others) :=
  alike_all_map h fun _ _ harg => harg.textAlike

theorem argTextsFor_alike (hscope : a.SpelledBy b) (h : List.Forall₂ (Arg.Follows a) args others)
    (params : List ApiParam) :
    (Lowered.all (argTextsFor ⟨a, schema, options⟩ params args)).Alike Eq
      (Lowered.all (argTextsFor ⟨b, schema, options⟩ params others)) := by
  refine alike_all ?_
  induction h generalizing params with
  | nil => simp [argTextsFor]
  | cons harg _ ih =>
    cases params with
    | nil => exact .cons harg.textAlike (ih [])
    | cons param params => exact .cons (harg.textForAlike hscope _) (ih params)

theorem refusedCallback?_eq (h : List.Forall₂ (Arg.Follows a) args others)
    (params : List ApiParam) : refusedCallback? params others = refusedCallback? params args := by
  unfold refusedCallback?
  induction h generalizing params with
  | nil => rfl
  | cons harg _ ih =>
    cases params with
    | nil => rfl
    | cons param params => simp only [List.zip_cons_cons, List.findSome?_cons, harg.byReference, ih]

theorem checkCallbacks_alike {call other : Call Coded}
    (h : List.Forall₂ (Arg.Follows a) call.args other.args) (params : List ApiParam) :
    (checkCallbacks call params).Alike Eq (checkCallbacks other params) := by
  unfold checkCallbacks
  rw [refusedCallback?_eq h]
  cases refusedCallback? params call.args with
  | none => exact alike_refl _
  | some param => exact .error rfl rfl

/-- What stands before the first argument that needs the formatter, and what stands from it on. -/
theorem forall₂_beforeFormatter (h : List.Forall₂ (Arg.Follows a) args others) :
    List.Forall₂ (Arg.Follows a)
        (args.takeWhile fun arg => !arg.value.source.needsFormatter)
        (others.takeWhile fun arg => !arg.value.source.needsFormatter) ∧
      List.Forall₂ (Arg.Follows a)
        (args.dropWhile fun arg => !arg.value.source.needsFormatter)
        (others.dropWhile fun arg => !arg.value.source.needsFormatter) := by
  induction h with
  | nil => exact ⟨.nil, .nil⟩
  | cons harg hargs ih =>
    simp only [List.takeWhile_cons, List.dropWhile_cons, harg.value.formatter]
    split
    · exact ⟨.cons harg ih.1, ih.2⟩
    · exact ⟨.nil, .cons harg hargs⟩

/-! ### Calls

A call of a function splits its arguments at the first one that needs the formatter, and a generator
writes code around them.  All of this is decided by what `Arg.Follows` keeps. -/

theorem functionCode_alike (hscope : a.SpelledBy b)
    (h : List.Forall₂ (Arg.Follows a) args others) (callee returnType : String)
    (leading : List String) (params : List ApiParam) :
    (functionCode ⟨a, schema, options⟩ callee returnType leading params args).Alike Eq
      (functionCode ⟨b, schema, options⟩ callee returnType leading params others) := by
  obtain ⟨hbefore, hrest⟩ := forall₂_beforeFormatter h
  have hlength := hbefore.length_eq
  unfold functionCode
  dsimp only
  generalize (args.dropWhile fun arg => !arg.value.source.needsFormatter) = rest at hrest ⊢
  generalize (others.dropWhile fun arg => !arg.value.source.needsFormatter) = rest' at hrest ⊢
  cases hrest with
  | nil =>
    refine (argTextsFor_alike hscope h params).bind_eq fun codes => ?_
    rw [Env.castResult_eq hscope.agree]
  | cons hchain hafter =>
    rw [hlength]
    refine (argTextsFor_alike hscope hbefore params).bind_eq fun head => ?_
    refine (argTextsFor_alike hscope hafter _).bind_eq fun tail => ?_
    exact hchain.value.appendsAlike.bind_eq fun appends => alike_refl _

theorem logCode_alike {arg other : Arg Coded} (h : arg.Follows a other) :
    (logCode arg).Alike Eq (logCode other) := by
  unfold logCode
  rw [h.value.formatter]
  split
  · exact h.value.appendsAlike.bind_eq fun appends => alike_refl _
  · exact h.textAlike.bind_eq fun code => alike_refl _

theorem intrinsicCode_alike (hscope : a.SpelledBy b)
    (h : List.Forall₂ (Arg.Follows a) args others) (key : String) :
    (intrinsicCode ⟨a, schema, options⟩ key args).Alike Eq
      (intrinsicCode ⟨b, schema, options⟩ key others) := by
  unfold intrinsicCode
  split
  · cases h
    exact alike_refl _
  · obtain _ | ⟨harg, ⟨⟩⟩ := h
    exact harg.textAlike.bind_eq fun code => alike_refl _
  · obtain _ | ⟨harg, ⟨⟩⟩ := h
    exact harg.textAlike.bind_eq fun code => alike_refl _
  · obtain _ | ⟨harg, ⟨⟩⟩ := h
    exact harg.textAlike.bind_eq fun code => alike_refl _
  · obtain _ | ⟨harg, ⟨⟩⟩ := h
    exact harg.textAlike.bind_eq fun code => alike_refl _
  · obtain _ | ⟨harg, ⟨⟩⟩ := h
    exact logCode_alike harg
  · obtain _ | ⟨harg, ⟨⟩⟩ := h
    exact (harg.callbackTextAlike hscope).bind_eq fun code => alike_refl _
  · rename_i hnone hrandom hseeded hdown hup hlog hframe
    -- There are as many arguments on the other side, so no other case fits them either.
    split
    · cases h
      exact (hnone rfl rfl).elim
    · obtain _ | ⟨_, ⟨⟩⟩ := h
      exact (hrandom _ rfl rfl).elim
    · obtain _ | ⟨_, ⟨⟩⟩ := h
      exact (hseeded _ rfl rfl).elim
    · obtain _ | ⟨_, ⟨⟩⟩ := h
      exact (hdown _ rfl rfl).elim
    · obtain _ | ⟨_, ⟨⟩⟩ := h
      exact (hup _ rfl rfl).elim
    · obtain _ | ⟨_, ⟨⟩⟩ := h
      exact (hlog _ rfl rfl).elim
    · obtain _ | ⟨_, ⟨⟩⟩ := h
      exact (hframe _ rfl rfl).elim
    · exact (alike_note _ _).bind_eq fun _ => alike_refl _

/-! ### Calls with a receiver

Here the receiver comes in as a text.  The hypothesis says of it what
`SpelledBy.spelledPath_of_select` provides: where the way reads the receiver, the other side has
what reads it, and where the way names a type, the other side has the same name. -/

/-- A call with a receiver.  The way says what has to be known about the receiver on the other
side. -/
theorem routeCode_alike (hscope : a.SpelledBy b) {call other : Call Coded}
    (h : List.Forall₂ (Arg.Follows a) call.args other.args) {receiver receiver' : String}
    (method : String) (route : Route)
    (hreads : route.readsReceiver = true → receiver' = a.readPath receiver)
    (hnames : route.namesType = true → receiver' = receiver) :
    (routeCode ⟨a, schema, options⟩ call receiver method route).Alike Eq
      (routeCode ⟨b, schema, options⟩ other receiver' method route) := by
  have hread (hroute : route.readsReceiver = true) : b.readPath receiver' = a.readPath receiver :=
    (hscope.readPath receiver').trans (hreads hroute)
  cases route with
  | enumSize =>
    rw [routeCode, routeCode, hnames rfl, Env.typeText_eq hscope.agree]
  | shortcut shortcut =>
    simp only [routeCode, hread rfl]
    exact (argTexts_alike h).bind_eq fun codes => alike_refl _
  | intrinsic found =>
    refine (checkCallbacks_alike h _).bind_eq fun _ => ?_
    refine (intrinsicCode_alike hscope h _).bind_eq fun code => ?_
    dsimp only
    split
    · exact (alike_note _ _).bind_eq fun _ => alike_refl _
    · exact alike_refl _
  | staticTemplate found =>
    rw [hnames rfl]
    exact (checkCallbacks_alike h _).bind_eq fun _ =>
      (argTexts_alike h).bind_eq fun codes => alike_refl _
  | valueTemplate found =>
    simp only [routeCode, hread rfl]
    exact (checkCallbacks_alike h _).bind_eq fun _ =>
      (argTexts_alike h).bind_eq fun codes => alike_refl _
  | function found space function passesReceiver =>
    have hleading : (if passesReceiver then [b.readPath receiver'] else []) =
        if passesReceiver then [a.readPath receiver] else [] := by
      cases passesReceiver with
      | false => rfl
      | true => rw [hread rfl]
    simp only [routeCode, hleading]
    exact (checkCallbacks_alike h _).bind_eq fun _ => functionCode_alike hscope h _ _ _ _
  | unknownStatic =>
    rw [hnames rfl]
    refine (alike_note _ _).bind_eq fun _ => (argTexts_alike h).bind_eq fun codes => ?_
    rw [Env.typeText_eq hscope.agree]
  | unknownMember =>
    simp only [routeCode, hread rfl]
    exact (alike_note _ _).bind_eq fun _ => (argTexts_alike h).bind_eq fun codes => alike_refl _

theorem plainCode_alike (hscope : a.SpelledBy b) {call other : Call Coded}
    (hname : other.name = call.name) (h : List.Forall₂ (Arg.Follows a) call.args other.args) :
    (plainCode ⟨a, schema, options⟩ call).Alike Eq (plainCode ⟨b, schema, options⟩ other) := by
  have hglobal : globalFunction? ⟨b, schema, options⟩ other =
      globalFunction? ⟨a, schema, options⟩ call := by
    simp only [globalFunction?, hname, hscope.agree.arityOf?_eq, h.length_eq]
  unfold plainCode
  rw [hglobal]
  split
  · refine (alike_note _ _).bind_eq fun _ => (checkCallbacks_alike h _).bind_eq fun _ => ?_
    refine (argTextsFor_alike hscope h _).bind_eq fun codes => ?_
    rw [Env.castResult_eq hscope.agree]
  · rw [hname, Env.typeText_eq hscope.agree]
    split
    · exact (alike_refl _).bind_eq fun name => (argTexts_alike h).bind_eq fun codes => alike_refl _
    · exact (alike_refl _).bind_eq fun name => (argTexts_alike h).bind_eq fun codes => alike_refl _

/-- The first name of the receiver of a call is simple if the occurrences of the call are. -/
theorem isSimple_rootOf {bound : List String} {name receiver method : String}
    (hsplit : splitReceiver name = some (receiver, method))
    (hsimple : ∀ o ∈ receiverOccurrences bound name, Text.IsSimple o.name) :
    Text.IsSimple (Text.rootOf receiver) := by
  rw [receiverOccurrences, hsplit] at hsimple
  exact hsimple ⟨Text.rootOf receiver, .receiver receiver, bound⟩ List.mem_cons_self

/-- A name is cut where it was cut before its receiver was spelled out. -/
theorem splitReceiver_spelledCall {reading : Reading} {bound : List String}
    {name receiver method : String} (h : splitReceiver name = some (receiver, method)) :
    splitReceiver (reading.spelledCall bound name) =
      some (reading.spelledPath bound (.receiver receiver) receiver, method) := by
  obtain ⟨-, hmethod, hreceiver, hempty⟩ := splitReceiver_eq_some_iff.1 h
  rw [Reading.spelledCall, h]
  refine splitReceiver_eq_some_iff.2 ⟨rfl, hmethod, fun hnil => hreceiver ?_, hempty⟩
  rw [Reading.spelledPath, ← String.toList_inj, String.toList_append] at hnil
  obtain ⟨hroot, hrest⟩ := List.append_eq_nil_iff.1 hnil
  rw [Reading.spelled] at hroot
  split at hroot
  · rw [Text.toList_dereferenced] at hroot
    cases hroot
  · rw [← Text.rootOf_append_restOf receiver, ← String.toList_inj, String.toList_append, hrest]
    exact congrArg (· ++ []) hroot

theorem callCode_alike (hscope : a.SpelledBy b) {name : String} {args others : List (Arg Coded)}
    (h : List.Forall₂ (Arg.Follows a) args others) (line : UInt32) (bound : List String)
    (hsimple : ∀ o ∈ receiverOccurrences bound name, Text.IsSimple o.name) :
    (callCode ⟨a, schema, options⟩ ⟨name, args, line⟩).Alike Eq
      (callCode ⟨b, schema, options⟩ ⟨a.reading.spelledCall bound name, others, line⟩) := by
  unfold callCode
  cases hsplit : splitReceiver name with
  | none =>
    have hsame : a.reading.spelledCall bound name = name := by rw [Reading.spelledCall, hsplit]
    simp only [hsame, hsplit]
    exact plainCode_alike hscope rfl h
  | some parts =>
    obtain ⟨receiver, method⟩ := parts
    have hroot : Text.IsSimple (Text.rootOf receiver) := isSimple_rootOf hsplit hsimple
    simp only [splitReceiver_spelledCall hsplit, ← h.length_eq,
      Route.select_of_sameReceiver (hscope.sameReceiver hroot bound)]
    obtain ⟨hreads, hnames⟩ := hscope.spelledPath_of_select hroot bound method args.length
    exact routeCode_alike hscope h method _ hreads hnames

end Calls

/-! ## Literals

The holes of a literal are cut out of its text and read as paths when it is lowered, in the one
scope with the path as it stands and in the other with the path spelled out.  In front of a hole and
behind it nothing changes.  Sources that are no paths are passed on as they are. -/

section Literals

variable {bound : List String}

theorem interpolated_spelledHole (hscope : a.SpelledBy b) (source : List Char) :
    (Env.mk b schema options).interpolated
        (String.ofList (a.reading.spelledHole bound source)) =
      (Env.mk a schema options).interpolated (String.ofList source) := by
  by_cases hpath : Text.isNamePath (Text.trim (String.ofList source)) = true
  · have hread : a.reading.spelledPath bound .hole (Text.trim (String.ofList source)) =
        a.readPath (Text.trim (String.ofList source)) :=
      Scope.spelledPath_reading rfl _ bound
    have htext : String.ofList (a.reading.spelledHole bound source) =
        a.readPath (Text.trim (String.ofList source)) := by
      simp only [Reading.spelledHole, hpath, if_true, String.ofList_toList, hread]
    have htrim : Text.trim (a.readPath (Text.trim (String.ofList source))) =
        a.readPath (Text.trim (String.ofList source)) := by
      rw [← hread]
      exact Text.trim_of_not_blank fun c hc => Reading.not_isBlank_of_mem_spelledPath hpath hc
    -- Once spelled out, the source is read as it is, whether or not it still is a path.
    rw [htext]
    simp only [Env.interpolated, htrim, hpath, if_true, hscope.readPath, ite_self]
  · have htext : a.reading.spelledHole bound source = source := by
      simp only [Reading.spelledHole, hpath, if_false, Bool.false_eq_true]
    rw [htext]
    simp only [Env.interpolated, hpath, if_false, Bool.false_eq_true]

theorem hasHole_spelledLiteral {reading : Reading} (raw : String) :
    Literal.hasHole (reading.spelledLiteral bound raw) = Literal.hasHole raw := by
  rw [Literal.hasHole, Literal.hasHole, Reading.pieces_spelledLiteral, List.any_map]
  refine congrArg (Literal.pieces raw).any (funext fun piece => ?_)
  cases piece <;> simp only [Function.comp_apply, Piece.mapHole, Piece.isHole]

theorem literalParts_spelledLiteral (hscope : a.SpelledBy b) (raw : String) :
    (Env.mk b schema options).literalParts (a.reading.spelledLiteral bound raw) =
      (Env.mk a schema options).literalParts raw := by
  rw [Env.literalParts, Env.literalParts, Reading.pieces_spelledLiteral, List.map_map]
  refine List.map_congr_left fun piece _ => ?_
  cases piece with
  | text content => rfl
  | hole source =>
    simp only [Function.comp_apply, Piece.mapHole, Env.pieceText]
    exact interpolated_spelledHole hscope source

/-- A literal without holes is not changed. -/
theorem plainText_spelledLiteral {reading : Reading} {raw : String}
    (h : Literal.hasHole raw = false) :
    Literal.plainText (reading.spelledLiteral bound raw) = Literal.plainText raw := by
  have hpieces : Literal.pieces (reading.spelledLiteral bound raw) = Literal.pieces raw := by
    rw [Literal.hasHole, List.any_eq_false] at h
    have hsame : ∀ piece ∈ Literal.pieces raw,
        Piece.mapHole (reading.spelledHole bound) piece = piece := by
      intro piece hpiece
      cases piece with
      | text content => rfl
      | hole source => exact absurd rfl (h _ hpiece)
    rw [Reading.pieces_spelledLiteral, List.map_congr_left hsame, List.map_id']
  rw [Literal.plainText, Literal.plainText, hpieces]

theorem sameTexts_literal (hscope : a.SpelledBy b) (raw : String) :
    (Code.literal raw ((Env.mk a schema options).literalParts raw)).SameTexts
      (.literal (a.reading.spelledLiteral bound raw)
        ((Env.mk b schema options).literalParts (a.reading.spelledLiteral bound raw))) := by
  constructor
  · rw [Code.value, Code.value, hasHole_spelledLiteral, literalParts_spelledLiteral hscope]
    split
    · rfl
    · rename_i hhole
      rw [plainText_spelledLiteral (Bool.not_eq_true _ ▸ hhole)]
  · rw [Code.appends, Code.appends, literalParts_spelledLiteral hscope]

end Literals

/-! ## Operations, members and literals of composite types

These nodes put the texts of their parts together and ask for little else.  The exceptions are the
owner of a member, which may be the name of a type and then leads to a constant, and the count of a
fill, which counts only if it is a number in the source. -/

section Nodes

theorem plain_alike {text other : Lowered String} (h : text.Alike Eq other) :
    text.plain.Alike Code.SameTexts other.plain :=
  h.bind_eq fun _ => alike_pure ⟨rfl, rfl⟩

variable {part other left left' right right' : Coded}

theorem binaryCode_alike (isChain : Bool) (op : String) (hleft : left.Follows a left')
    (hright : right.Follows a right') :
    (binaryCode isChain op left right).Alike Code.SameTexts
      (binaryCode isChain op left' right') := by
  unfold binaryCode
  split
  · exact hleft.appendsAlike.bind_eq fun _ =>
      hright.appendsAlike.bind_eq fun _ => alike_pure ⟨rfl, rfl⟩
  · exact hleft.valueAlike.bind_eq fun _ =>
      hright.valueAlike.bind_eq fun _ => alike_pure ⟨rfl, rfl⟩

theorem constant?_eq_bind (env : Env) (object : Expr) (field : String) :
    constant? env object field = object.asName?.bind fun name =>
      if env.isStaticReceiver name then
        ((env.schema.methodsNamed name field).find? fun method =>
          method.isShared && method.isConstant).map (·.mappingValue)
      else none := by
  cases object <;> rfl

theorem constant?_eq (hscope : a.SpelledBy b) (h : part.Follows a other) (field : String) :
    constant? ⟨b, schema, options⟩ other.source field =
      constant? ⟨a, schema, options⟩ part.source field := by
  rw [constant?_eq_bind, constant?_eq_bind, h.name]
  cases hname : part.source.asName? with
  | none => rfl
  | some name =>
    have hsame : Env.SameReceiver ⟨a, schema, options⟩ ⟨b, schema, options⟩ name (a.read name) :=
      hscope.sameReceiver_read (h.simple name hname)
    simp only [Option.map_some, Option.bind_some, hsame.isStatic]
    split
    · rename_i hstatic
      rw [hsame.named hstatic]
    · rfl

theorem memberText_alike (hscope : a.SpelledBy b) (h : part.Follows a other) (field : String) :
    (memberText ⟨a, schema, options⟩ part field).Alike Eq
      (memberText ⟨b, schema, options⟩ other field) := by
  unfold memberText
  rw [constant?_eq hscope h]
  split
  · exact alike_refl _
  · exact h.valueAlike.bind_eq fun code => alike_refl _

theorem arrayText_alike {elements others : List Coded}
    (h : List.Forall₂ (Coded.Follows a) elements others) :
    (arrayText elements).Alike Eq (arrayText others) := by
  have hcodes : (Lowered.all (elements.map Coded.value)).Alike Eq
      (Lowered.all (others.map Coded.value)) :=
    alike_all_map h fun _ _ helement => helement.valueAlike
  exact hcodes.bind_eq fun codes => alike_refl _

/-- A count is written as a number on both sides or on neither. -/
theorem fillText_alike (h : part.Follows a other) (reading : Reading) (bound : List String)
    (count : Expr) :
    (fillText part count).Alike Eq (fillText other (count.spellOut reading bound)) := by
  refine h.valueAlike.bind_eq fun code => ?_
  cases count with
  | int n => rw [Expr.spellOut]
  | _ => rw [Expr.spellOut]

/-- A field of a record literal, and the same field spelled out. -/
def FieldInit.Follows (scope : Scope) (field other : FieldInit Coded) : Prop :=
  other.name = field.name ∧ field.value.Follows scope other.value

theorem recordText_alike (hscope : a.SpelledBy b) (typeName : Option String)
    {fields others : List (FieldInit Coded)}
    (h : List.Forall₂ (FieldInit.Follows a) fields others) :
    (recordText ⟨a, schema, options⟩ typeName fields).Alike Eq
      (recordText ⟨b, schema, options⟩ typeName others) := by
  have hinits : (Lowered.all (fields.map fieldText)).Alike Eq
      (Lowered.all (others.map fieldText)) :=
    alike_all_map h fun field other hfield =>
      hfield.2.valueAlike.bind_eq fun code => alike_pure (by rw [hfield.1])
  refine hinits.bind_eq fun inits => ?_
  cases typeName with
  | none => exact alike_refl _
  | some name => simp only [Env.typeText_eq hscope.agree]; exact alike_refl _

theorem argNames_eq {args others : List (Arg Coded)}
    (h : List.Forall₂ (Arg.Follows a) args others) : others.map (·.name) = args.map (·.name) := by
  induction h with
  | nil => rfl
  | cons harg _ ih => rw [List.map_cons, List.map_cons, harg.name, ih]

theorem constructText_alike (hscope : a.SpelledBy b) (component : String)
    {args others : List (Arg Coded)} (h : List.Forall₂ (Arg.Follows a) args others) :
    (constructText ⟨a, schema, options⟩ component args).Alike Eq
      (constructText ⟨b, schema, options⟩ component others) := by
  have hcodes : (Lowered.all (args.map constructorArg)).Alike Eq
      (Lowered.all (others.map constructorArg)) :=
    alike_all_map h fun arg other harg =>
      harg.value.valueAlike.bind_eq fun code => alike_pure (by rw [harg.byReference])
  -- Of the arguments themselves only the names are used.
  have hall (args : List (Arg Coded)) :
      args.all (·.name.isSome) = (args.map (·.name)).all (·.isSome) := by
    rw [List.all_map]
    rfl
  have hzip (args : List (Arg Coded)) (codes : List String) :
      args.zipWith (fun arg code => initText (arg.name.getD "") code) codes =
        (args.map (·.name)).zipWith (fun name code => initText (name.getD "") code) codes := by
    rw [List.zipWith_map_left]
  have hempty (args : List (Arg Coded)) : args.isEmpty = (args.map (·.name)).isEmpty :=
    List.isEmpty_map.symm
  unfold constructText
  rw [Env.typeText_eq hscope.agree]
  refine (alike_refl _).bind_eq fun typeText => hcodes.bind_eq fun codes => ?_
  simp only [hall, hzip, hempty, argNames_eq h]
  split
  · exact alike_refl _
  · exact alike_refl _

end Nodes

/-! ## Matches

The names that a pattern binds are fields and no occurrences, so a pattern spelled out binds the
same names.  The branches are then built from texts that are alike, and arms are dropped on both
sides together. -/

section Matches

/-- A field of a pattern, and the same field spelled out. -/
def FieldPattern.Follows (scope : Scope) (field other : FieldPattern Coded) : Prop :=
  other.name = field.name ∧ Option.Rel (Coded.Follows scope) field.value other.value

/-- A pattern, and the same pattern spelled out. -/
inductive Pattern.Follows (scope : Scope) : Pattern Coded → Pattern Coded → Prop where
  | literal {part other : Coded} : part.Follows scope other →
      Follows scope (.literal part) (.literal other)
  | enumValue (ref : EnumRef) : Follows scope (.enumValue ref) (.enumValue ref)
  | record (typeName : Option String) {fields others : List (FieldPattern Coded)} :
      List.Forall₂ (FieldPattern.Follows scope) fields others →
        Follows scope (.record typeName fields) (.record typeName others)

/-- An arm, and the same arm spelled out. -/
structure Arm.Follows (scope : Scope) (arm other : Arm Coded) : Prop where
  pattern : arm.pattern.Follows scope other.pattern
  body : arm.body.Follows scope other.body

theorem fieldConditions_alike {fields others : List (FieldPattern Coded)}
    (h : List.Forall₂ (FieldPattern.Follows a) fields others) :
    List.Forall₂ (Alike Eq) (fields.filterMap fieldCondition?)
      (others.filterMap fieldCondition?) := by
  induction h with
  | nil => exact .nil
  | @cons field other _ _ hfield _ ih =>
    obtain ⟨hname, hvalue⟩ := hfield
    obtain ⟨name, value⟩ := field
    obtain ⟨name', value'⟩ := other
    obtain rfl : name' = name := hname
    cases hvalue with
    | none => exact ih
    | some hpart => exact .cons (hpart.valueAlike.bind_eq fun code => alike_refl _) ih

theorem fieldBindings_eq {fields others : List (FieldPattern Coded)}
    (h : List.Forall₂ (FieldPattern.Follows a) fields others) :
    others.filterMap fieldBinding? = fields.filterMap fieldBinding? := by
  induction h with
  | nil => rfl
  | @cons field other _ _ hfield _ ih =>
    obtain ⟨hname, hvalue⟩ := hfield
    obtain ⟨name, value⟩ := field
    obtain ⟨name', value'⟩ := other
    obtain rfl : name' = name := hname
    have hfirst : fieldBinding? ⟨name', value'⟩ = fieldBinding? ⟨name', value⟩ := by
      cases hvalue <;> rfl
    rw [List.filterMap_cons, List.filterMap_cons, hfirst, ih]

theorem patternCode_alike (hscope : a.SpelledBy b) {pattern other : Pattern Coded}
    (h : pattern.Follows a other) :
    (patternCode ⟨a, schema, options⟩ pattern).Alike Eq
      (patternCode ⟨b, schema, options⟩ other) := by
  cases h with
  | literal hpart => exact hpart.valueAlike.bind_eq fun code => alike_refl _
  | enumValue ref => rw [patternCode, patternCode, Env.enumText_eq hscope.agree]
  | record typeName hfields =>
    refine (alike_all (fieldConditions_alike hfields)).bind_eq fun conditions => ?_
    rw [fieldBindings_eq hfields]

theorem noteDropped_alike (line : UInt32) (i : Nat) {arms others : List (Arm Coded)}
    (h : List.Forall₂ (Arm.Follows a) arms others) :
    (noteDropped line i arms).Alike Eq (noteDropped line i others) := by
  induction h generalizing i with
  | nil => exact alike_refl _
  | cons _ _ ih => exact (alike_note _ _).bind_eq fun _ => ih (i + 1)

theorem armBranches_alike (hscope : a.SpelledBy b) (line : UInt32) (i : Nat)
    {arms others : List (Arm Coded)} (h : List.Forall₂ (Arm.Follows a) arms others) :
    (armBranches ⟨a, schema, options⟩ line i arms).Alike Eq
      (armBranches ⟨b, schema, options⟩ line i others) := by
  induction h generalizing i with
  | nil => exact alike_refl _
  | @cons arm other _ _ harm harms ih =>
    have hbranch : (armBranch ⟨a, schema, options⟩ arm).Alike Eq
        (armBranch ⟨b, schema, options⟩ other) :=
      harm.body.valueAlike.bind_eq fun body =>
        (patternCode_alike hscope harm.pattern).bind_eq fun found => alike_refl _
    refine hbranch.bind_eq fun branch => ?_
    split
    · exact (noteDropped_alike line (i + 1) harms).bind_eq fun _ => alike_refl _
    · exact (ih (i + 1)).bind_eq fun found => alike_refl _

theorem otherwiseBranches_alike (line : UInt32) (closed : Bool) {otherwise other : Option Coded}
    (h : Option.Rel (Coded.Follows a) otherwise other) :
    (otherwiseBranches line closed otherwise).Alike Eq (otherwiseBranches line closed other) := by
  cases h with
  | none => exact alike_refl _
  | some hpart =>
    unfold otherwiseBranches
    dsimp only
    split
    · exact alike_refl _
    · exact hpart.valueAlike.bind_eq fun body => alike_refl _

theorem matchText_alike (hscope : a.SpelledBy b) {choice other : Match Coded}
    (hline : other.line = choice.line) (hsubject : choice.subject.Follows a other.subject)
    (harms : List.Forall₂ (Arm.Follows a) choice.arms other.arms)
    (hotherwise : Option.Rel (Coded.Follows a) choice.otherwise other.otherwise) :
    (matchText ⟨a, schema, options⟩ choice).Alike Eq
      (matchText ⟨b, schema, options⟩ other) := by
  have hchain : (matchChain ⟨a, schema, options⟩ choice).Alike Eq
      (matchChain ⟨b, schema, options⟩ other) := by
    unfold matchChain
    rw [hline]
    refine (armBranches_alike hscope choice.line 0 harms).bind_eq fun found => ?_
    refine (otherwiseBranches_alike choice.line found.2 hotherwise).bind_eq fun others => ?_
    exact hsubject.valueAlike.bind_eq fun subject => alike_refl _
  exact hchain.bind_eq fun chain => alike_refl _

end Matches

/-! ## The tree

The recursion is that of `Env.lower`, with one theorem for each kind of list of parts.  In each case
the parts follow by induction, and one of the lemmas above says what the node makes of them.  Names
have to be simple, because the first name of a path is found by its dots. -/

namespace Expr

variable {reading : Reading} {bound : List String}

theorem asName?_spellOut (e : Expr) (bound : List String) :
    (e.spellOut a.reading bound).asName? = e.asName?.map a.read := by
  cases e with
  | ident name => rw [spellOut, Scope.spelled_reading rfl]; rfl
  | _ => rw [spellOut]; rfl

theorem needsFormatter_spellOut (e : Expr) :
    (e.spellOut reading bound).needsFormatter = e.needsFormatter := by
  cases e with
  | str raw => simp only [spellOut, needsFormatter, hasHole_spelledLiteral]
  | _ => simp only [spellOut, needsFormatter, isChain]

/-- All names that occur are simple. -/
def NamesSimple (occurrences : List Occurrence) : Prop :=
  Each (fun o => Text.IsSimple o.name) occurrences

/-- An expression whose code is right is right as a part of a node. -/
theorem follows_spellOut {e : Expr} (hsimple : NamesSimple (e.occurrences bound))
    (h : ((Env.mk a schema options).lower e).Alike Code.SameTexts
      ((Env.mk b schema options).lower (e.spellOut a.reading bound))) :
    Coded.Follows a ⟨e, (Env.mk a schema options).lower e⟩
      ⟨e.spellOut a.reading bound,
        (Env.mk b schema options).lower (e.spellOut a.reading bound)⟩ where
  name := asName?_spellOut e bound
  simple name hname := by
    cases e with
    | ident found =>
      obtain rfl : found = name := Option.some.inj hname
      rw [occurrences] at hsimple
      exact hsimple.head
    | _ => cases hname
  formatter := needsFormatter_spellOut e
  code := h

end Expr

namespace Env

open UiLowering.Expr

mutual

/-- **The occurrences of an expression are written as the reading of the scope says.** -/
theorem lower_spellOut (hscope : a.SpelledBy b) (bound : List String) :
    (e : Expr) → NamesSimple (e.occurrences bound) →
      ((Env.mk a schema options).lower e).Alike Code.SameTexts
        ((Env.mk b schema options).lower (e.spellOut a.reading bound))
  | .int value, _ => by rw [spellOut, lower, lower]; exact alike_pure ⟨rfl, rfl⟩
  | .float value, _ => by rw [spellOut, lower, lower]; exact alike_pure ⟨rfl, rfl⟩
  | .bool value, _ => by rw [spellOut, lower, lower]; exact alike_pure ⟨rfl, rfl⟩
  | .str raw, _ => by
    rw [spellOut, lower, lower]
    exact alike_pure (sameTexts_literal hscope raw)
  | .ident name, _ => by
    rw [spellOut, lower, lower, Scope.spelled_reading rfl, hscope.read]
    exact alike_pure ⟨rfl, rfl⟩
  | .binary left op right _, hsimple => by
    rw [occurrences] at hsimple
    rw [spellOut, lower, lower]
    exact binaryCode_alike _ op
      (follows_spellOut hsimple.left (lower_spellOut hscope bound left hsimple.left))
      (follows_spellOut hsimple.right (lower_spellOut hscope bound right hsimple.right))
  | .unary op operand, hsimple => by
    rw [occurrences] at hsimple
    rw [spellOut, lower, lower]
    refine (lower_spellOut hscope bound operand hsimple).bind fun code other h => ?_
    exact alike_pure (h.value ▸ ⟨rfl, rfl⟩)
  | .trailing op operand, hsimple => by
    rw [occurrences] at hsimple
    rw [spellOut, lower, lower]
    refine (lower_spellOut hscope bound operand hsimple).bind fun code other h => ?_
    exact alike_pure (h.value ▸ ⟨rfl, rfl⟩)
  | .conditional condition thenValue elseValue, hsimple => by
    rw [occurrences] at hsimple
    rw [spellOut, lower, lower]
    refine (lower_spellOut hscope bound condition hsimple.left.left).bind fun _ _ htest => ?_
    refine (lower_spellOut hscope bound thenValue hsimple.left.right).bind fun _ _ hfirst => ?_
    refine (lower_spellOut hscope bound elseValue hsimple.right).bind fun _ _ hsecond => ?_
    exact alike_pure (htest.value ▸ hfirst.value ▸ hsecond.value ▸ ⟨rfl, rfl⟩)
  | .call ⟨name, args, line⟩, hsimple => by
    rw [occurrences] at hsimple
    rw [spellOut, lower, lower]
    exact plain_alike (callCode_alike hscope (lowerArgs_spellOut hscope bound args hsimple.right)
      line bound hsimple.left)
  | .member object field, hsimple => by
    rw [occurrences] at hsimple
    rw [spellOut, lower, lower]
    exact plain_alike (memberText_alike hscope
      (follows_spellOut hsimple (lower_spellOut hscope bound object hsimple)) field)
  | .index base position, hsimple => by
    rw [occurrences] at hsimple
    rw [spellOut, lower, lower]
    refine (lower_spellOut hscope bound base hsimple.left).bind fun _ _ harray => ?_
    refine (lower_spellOut hscope bound position hsimple.right).bind fun _ _ hindex => ?_
    exact alike_pure (harray.value ▸ hindex.value ▸ ⟨rfl, rfl⟩)
  | .array ⟨elements, _⟩, hsimple => by
    rw [occurrences] at hsimple
    rw [spellOut, lower, lower]
    exact plain_alike (arrayText_alike (lowerList_spellOut hscope bound elements hsimple))
  | .fill value count, hsimple => by
    rw [occurrences] at hsimple
    rw [spellOut, lower, lower]
    exact plain_alike (fillText_alike (follows_spellOut hsimple.left
      (lower_spellOut hscope bound value hsimple.left)) a.reading bound count)
  | .record ⟨typeName, fields⟩, hsimple => by
    rw [occurrences] at hsimple
    rw [spellOut, lower, lower]
    exact plain_alike (recordText_alike hscope typeName
      (lowerFields_spellOut hscope bound fields hsimple))
  | .enumValue ref, _ => by
    rw [spellOut, lower, lower, enumText_eq hscope.agree]
    exact plain_alike (alike_refl _)
  | .construct component args, hsimple => by
    rw [occurrences] at hsimple
    rw [spellOut, lower, lower]
    exact plain_alike (constructText_alike hscope component
      (lowerArgs_spellOut hscope bound args hsimple))
  | .select ⟨subject, arms, otherwise, line⟩, hsimple => by
    rw [occurrences] at hsimple
    rw [spellOut, lower, lower]
    exact plain_alike (matchText_alike hscope rfl
      (follows_spellOut hsimple.left.left (lower_spellOut hscope bound subject hsimple.left.left))
      (lowerArms_spellOut hscope bound arms hsimple.left.right)
      (lowerOption_spellOut hscope bound otherwise hsimple.right))
  | .reference operand, hsimple => by
    rw [occurrences] at hsimple
    rw [spellOut, lower, lower]
    refine (lower_spellOut hscope bound operand hsimple).bind fun code other h => ?_
    exact alike_pure (h.value ▸ ⟨rfl, rfl⟩)
  | .move operand, hsimple => by
    rw [occurrences] at hsimple
    rw [spellOut, lower, lower]
    refine (lower_spellOut hscope bound operand hsimple).bind fun code other h => ?_
    exact alike_pure (h.value ▸ ⟨rfl, rfl⟩)

theorem lowerList_spellOut (hscope : a.SpelledBy b) (bound : List String) :
    (es : List Expr) → NamesSimple (listOccurrences bound es) →
      List.Forall₂ (Coded.Follows a) ((Env.mk a schema options).lowerList es)
        ((Env.mk b schema options).lowerList (spellOutList a.reading bound es))
  | [], _ => by rw [spellOutList, lowerList, lowerList]; exact .nil
  | e :: es, hsimple => by
    rw [listOccurrences] at hsimple
    rw [spellOutList, lowerList, lowerList]
    exact .cons (follows_spellOut hsimple.left (lower_spellOut hscope bound e hsimple.left))
      (lowerList_spellOut hscope bound es hsimple.right)

theorem lowerOption_spellOut (hscope : a.SpelledBy b) (bound : List String) :
    (e : Option Expr) → NamesSimple (Expr.optionOccurrences bound e) →
      Option.Rel (Coded.Follows a) ((Env.mk a schema options).lowerOption e)
        ((Env.mk b schema options).lowerOption (spellOutOption a.reading bound e))
  | none, _ => by rw [spellOutOption, lowerOption, lowerOption]; exact .none
  | some e, hsimple => by
    rw [optionOccurrences] at hsimple
    rw [spellOutOption, lowerOption, lowerOption]
    exact .some (follows_spellOut hsimple (lower_spellOut hscope bound e hsimple))

theorem lowerArgs_spellOut (hscope : a.SpelledBy b) (bound : List String) :
    (args : List (Arg Expr)) → NamesSimple (argOccurrences bound args) →
      List.Forall₂ (Arg.Follows a) ((Env.mk a schema options).lowerArgs args)
        ((Env.mk b schema options).lowerArgs (spellOutArgs a.reading bound args))
  | [], _ => by rw [spellOutArgs, lowerArgs, lowerArgs]; exact .nil
  | ⟨_, value, _, _⟩ :: args, hsimple => by
    rw [argOccurrences] at hsimple
    rw [spellOutArgs, lowerArgs, lowerArgs]
    have hvalue := follows_spellOut hsimple.left (lower_spellOut hscope bound value hsimple.left)
    exact .cons ⟨rfl, rfl, rfl, hvalue⟩ (lowerArgs_spellOut hscope bound args hsimple.right)

theorem lowerFields_spellOut (hscope : a.SpelledBy b) (bound : List String) :
    (fields : List (FieldInit Expr)) → NamesSimple (fieldOccurrences bound fields) →
      List.Forall₂ (FieldInit.Follows a) ((Env.mk a schema options).lowerFields fields)
        ((Env.mk b schema options).lowerFields (spellOutFields a.reading bound fields))
  | [], _ => by rw [spellOutFields, lowerFields, lowerFields]; exact .nil
  | ⟨_, value⟩ :: fields, hsimple => by
    rw [fieldOccurrences] at hsimple
    rw [spellOutFields, lowerFields, lowerFields]
    have hvalue := follows_spellOut hsimple.left (lower_spellOut hscope bound value hsimple.left)
    exact .cons ⟨rfl, hvalue⟩ (lowerFields_spellOut hscope bound fields hsimple.right)

theorem lowerPattern_spellOut (hscope : a.SpelledBy b) (bound : List String) :
    (pattern : Pattern Expr) → NamesSimple (patternOccurrences bound pattern) →
      ((Env.mk a schema options).lowerPattern pattern).Follows a
        ((Env.mk b schema options).lowerPattern (spellOutPattern a.reading bound pattern))
  | .literal value, hsimple => by
    rw [patternOccurrences] at hsimple
    rw [spellOutPattern, lowerPattern, lowerPattern]
    exact .literal (follows_spellOut hsimple (lower_spellOut hscope bound value hsimple))
  | .enumValue ref, _ => by
    rw [spellOutPattern, lowerPattern, lowerPattern]
    exact .enumValue ref
  | .record typeName fields, hsimple => by
    rw [patternOccurrences] at hsimple
    rw [spellOutPattern, lowerPattern, lowerPattern]
    exact .record typeName (lowerFieldPatterns_spellOut hscope bound fields hsimple)

theorem lowerFieldPatterns_spellOut (hscope : a.SpelledBy b) (bound : List String) :
    (fields : List (FieldPattern Expr)) → NamesSimple (fieldPatternOccurrences bound fields) →
      List.Forall₂ (FieldPattern.Follows a) ((Env.mk a schema options).lowerFieldPatterns fields)
        ((Env.mk b schema options).lowerFieldPatterns
          (spellOutFieldPatterns a.reading bound fields))
  | [], _ => by rw [spellOutFieldPatterns, lowerFieldPatterns, lowerFieldPatterns]; exact .nil
  | ⟨_, value⟩ :: fields, hsimple => by
    rw [fieldPatternOccurrences] at hsimple
    rw [spellOutFieldPatterns, lowerFieldPatterns, lowerFieldPatterns]
    exact .cons ⟨rfl, lowerOption_spellOut hscope bound value hsimple.left⟩
      (lowerFieldPatterns_spellOut hscope bound fields hsimple.right)

theorem lowerArms_spellOut (hscope : a.SpelledBy b) (bound : List String) :
    (arms : List (Arm Expr)) → NamesSimple (armOccurrences bound arms) →
      List.Forall₂ (Arm.Follows a) ((Env.mk a schema options).lowerArms arms)
        ((Env.mk b schema options).lowerArms (spellOutArms a.reading bound arms))
  | [], _ => by rw [spellOutArms, lowerArms, lowerArms]; exact .nil
  | ⟨pattern, body⟩ :: arms, hsimple => by
    rw [armOccurrences] at hsimple
    rw [spellOutArms, lowerArms, lowerArms]
    -- The fields that the pattern binds are around the body, but make no difference to the scope.
    have hbody := follows_spellOut hsimple.left.right
      (lower_spellOut hscope (pattern.boundNames ++ bound) body hsimple.left.right)
    exact .cons ⟨lowerPattern_spellOut hscope bound pattern hsimple.left.left, hbody⟩
      (lowerArms_spellOut hscope bound arms hsimple.right)

end

theorem exprText_spellOut (hscope : a.SpelledBy b) {bound : List String} {e : Expr}
    (hsimple : NamesSimple (e.occurrences bound)) :
    ((Env.mk a schema options).exprText e).Alike Eq
      ((Env.mk b schema options).exprText (e.spellOut a.reading bound)) :=
  (follows_spellOut hsimple (lower_spellOut hscope bound e hsimple)).valueAlike

end Env

end UiLowering
