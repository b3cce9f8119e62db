import Mathlib.Data.List.TakeWhile
import UiLowering.Effect.Reads
import UiLowering.Lower.Expr
import UiLowering.Proofs.Text.Identifier

/-!
# Scopes that agree on some names

The lowering consults the entries of a scope for a symbol in three ways: where it was declared, what
its type is, and whether it is read through a pointer.  This file follows these three questions up
to the code of a single node.  Two scopes that hold the same entries for the names in `known`, and
for all names with dots, give a node the same code whenever the name it asks about is known: the
name itself for an identifier, the receiver for the way a call goes, the first name of a path.

Types, enumerations and the arity of methods are not symbols, and the scopes have these in common.
-/

set_option autoImplicit false

namespace UiLowering

/-- Two scopes hold the same entries for a symbol. -/
structure Scope.SameAt (a b : Scope) (name : String) : Prop where
  members : a.members[name]? = b.members[name]?
  locals : a.locals[name]? = b.locals[name]?
  references : a.references.contains name = b.references.contains name

/-- Two scopes differ at most in their entries for symbols without dots outside `known`. -/
structure Scope.AgreeOn (a b : Scope) (known : String → Prop) : Prop where
  component : a.component = b.component
  module : a.module = b.module
  localTypes : a.localTypes = b.localTypes
  globalTypes : a.globalTypes = b.globalTypes
  arities : a.arities = b.arities
  symbols : ∀ name, '.' ∈ name.toList ∨ known name → a.SameAt b name

/-! ## Symbols

The three questions about a symbol are answered from its entries, so scopes with the same entries
give the same answers.  A path is read through its first name; taken as a whole it is a name with
dots, which no method declares. -/

namespace Scope

variable {a b : Scope} {known : String → Prop} {name : String}

theorem SameAt.kindOf?_eq (h : a.SameAt b name) : a.kindOf? name = b.kindOf? name := by
  simp only [kindOf?, ← Std.ExtTreeMap.isSome_getElem?_eq_contains, h.members, h.locals]

theorem SameAt.typeOf?_eq (h : a.SameAt b name) : a.typeOf? name = b.typeOf? name := by
  rw [typeOf?, typeOf?, h.kindOf?_eq, h.members, h.locals]

theorem SameAt.read_eq (h : a.SameAt b name) : a.read name = b.read name := by
  rw [read, read, isReference, isReference, h.references, h.kindOf?_eq]

/-- A path is read from its first name on. -/
theorem readPath_eq_of_root {path : String} (h : a.SameAt b (Text.rootOf path)) :
    a.readPath path = b.readPath path := by
  have hread : a.read (Text.rootOf path) = b.read (Text.rootOf path) := h.read_eq
  unfold readPath Text.cutFirst Text.cutFirstChars
  rw [Text.rootOf] at hread
  cases hrest : path.toList.dropWhile (· != '.') with
  | nil =>
    have hpath : path.toList.takeWhile (· != '.') = path.toList := by
      have hsplit := List.takeWhile_append_dropWhile (p := (· != '.')) (l := path.toList)
      rwa [hrest, List.append_nil] at hsplit
    rw [hpath, String.ofList_toList] at hread
    exact hread
  | cons _ after =>
    simp only [Option.map_some, Text.ofCharsPair, hread]

/-- The entries of a path as a whole are the same if those of its first name are. -/
theorem AgreeOn.sameAt_of_rootOf (h : a.AgreeOn b known) {path : String}
    (hroot : known (Text.rootOf path)) : a.SameAt b path := by
  by_cases hdot : '.' ∈ path.toList
  · exact h.symbols path (Or.inl hdot)
  · have hpath : path.toList.takeWhile (· != '.') = path.toList :=
      List.takeWhile_eq_self_iff.2 fun c hc => by
        simp only [bne_iff_ne, ne_eq]
        rintro rfl
        exact hdot hc
    rw [Text.rootOf, hpath, String.ofList_toList] at hroot
    exact h.symbols path (Or.inr hroot)

theorem AgreeOn.arityOf?_eq (h : a.AgreeOn b known) (name : String) :
    a.arityOf? name = b.arityOf? name := by
  rw [arityOf?, arityOf?, h.arities]

end Scope

/-! ## Types

Type names are resolved without a look at the symbols. -/

namespace TypeName

variable {a b : Scope} {known : String → Prop}

theorem namedStep_eq (h : a.AgreeOn b known) (schema : Schema) (name : String) :
    namedStep a schema name = namedStep b schema name := by
  unfold namedStep Scope.isLocalType Scope.isGlobalType
  rw [h.component, h.module, h.localTypes, h.globalTypes]

theorem form?_eq (h : a.AgreeOn b known) (schema : Schema) (fuel : Nat) (name : String) :
    form? a schema fuel name = form? b schema fuel name := by
  induction fuel generalizing name with
  | zero => rfl
  | succ fuel ih => simp only [form?, step, namedStep_eq h, ih]

theorem resolve_eq (h : a.AgreeOn b known) (schema : Schema) (name : String) :
    resolve a schema name = resolve b schema name := by
  rw [resolve, resolve, form?_eq h]

theorem elementForm?_eq (h : a.AgreeOn b known) (schema : Schema) (name : String) :
    elementForm? a schema name = elementForm? b schema name := by
  rw [elementForm?, elementForm?, funext (resolve_eq h schema)]

end TypeName

namespace Env

variable {a b : Scope} {known : String → Prop} {schema : Schema} {options : Options}

theorem typeText_eq (h : a.AgreeOn b known) (name : String) :
    (Env.mk a schema options).typeText name = (Env.mk b schema options).typeText name := by
  rw [typeText, typeText, TypeName.resolve_eq h]

theorem enumText_eq (h : a.AgreeOn b known) (component : Option String)
    (enumName valueName : String) :
    (Env.mk a schema options).enumText component enumName valueName =
      (Env.mk b schema options).enumText component enumName valueName := by
  simp only [enumText, typeText_eq h]

theorem castResult_eq (h : a.AgreeOn b known) (returnType code : String) :
    (Env.mk a schema options).castResult returnType code =
      (Env.mk b schema options).castResult returnType code := by
  simp only [castResult, typeText_eq h]

/-! ## String literals

An expression in a literal is read like a name or a path if it is one, and otherwise copied as it
is. -/

theorem interpolated_eq (h : a.AgreeOn b known) {source : String}
    (hnames : ∀ name ∈ Text.identifiers source, known name) :
    (Env.mk a schema options).interpolated source =
      (Env.mk b schema options).interpolated source := by
  simp only [interpolated]
  split
  · rename_i hpath
    exact Scope.readPath_eq_of_root
      (h.symbols _ (Or.inr (hnames _ (Text.rootOf_mem_identifiers hpath))))
  · rfl

theorem literalParts_eq (h : a.AgreeOn b known) {raw : String}
    (hnames : ∀ name ∈ (Expr.str raw).ownNames, known name) :
    (Env.mk a schema options).literalParts raw = (Env.mk b schema options).literalParts raw := by
  rw [literalParts, literalParts]
  refine List.map_congr_left fun piece hpiece => ?_
  cases piece with
  | text content => rfl
  | hole source =>
    rw [pieceText, pieceText]
    refine interpolated_eq h fun name hname => hnames name ?_
    rw [Expr.ownNames, Expr.holes]
    refine List.mem_flatMap.2 ⟨String.ofList source, List.mem_map.2 ⟨.hole source, ?_, rfl⟩, hname⟩
    exact List.mem_filter.2 ⟨hpiece, rfl⟩

/-! ## Receivers

The receiver decides the way of a call, by its declared type or by being none.  Nothing else in the
scope is asked. -/

theorem isStaticReceiver_eq {receiver : String} (h : a.SameAt b receiver) :
    (Env.mk a schema options).isStaticReceiver receiver =
      (Env.mk b schema options).isStaticReceiver receiver := by
  rw [isStaticReceiver, isStaticReceiver, h.kindOf?_eq]

theorem receiverType?_eq {receiver : String} (h : a.SameAt b receiver) :
    (Env.mk a schema options).receiverType? receiver =
      (Env.mk b schema options).receiverType? receiver := by
  rw [receiverType?, receiverType?, h.typeOf?_eq]

end Env

section Calls

variable {a b : Scope} {known : String → Prop} {schema : Schema} {options : Options}

theorem Route.owner?_eq {receiver : String} (h : a.SameAt b receiver) :
    Route.owner? (Env.mk a schema options) receiver =
      Route.owner? (Env.mk b schema options) receiver := by
  rw [Route.owner?, Route.owner?, Env.isStaticReceiver_eq h, Env.receiverType?_eq h]

theorem Route.viaFunction?_eq {receiver : String} (h : a.SameAt b receiver) (method : String)
    (argc : Nat) :
    Route.viaFunction? (Env.mk a schema options) receiver method argc =
      Route.viaFunction? (Env.mk b schema options) receiver method argc := by
  -- A candidate is tried against the schema alone.
  have hpasses : (Env.mk a schema options).passesReceiver =
      (Env.mk b schema options).passesReceiver := rfl
  have hchosen : Route.chosen? (Env.mk a schema options) receiver method argc =
      Route.chosen? (Env.mk b schema options) receiver method argc := by
    simp only [Route.chosen?, Route.candidates, Route.owner?_eq h, Env.isStaticReceiver_eq h,
      hpasses]
  rw [Route.viaFunction?, Route.viaFunction?, Route.owner?_eq h, hchosen]

/-- The way of a call depends on what is known about its receiver, and on nothing else in the
scope. -/
theorem Route.select_eq {receiver : String} (h : a.SameAt b receiver) (method : String)
    (argc : Nat) :
    Route.select (Env.mk a schema options) receiver method argc =
      Route.select (Env.mk b schema options) receiver method argc := by
  have hfamily : (Env.mk a schema options).familyOf? receiver =
      (Env.mk b schema options).familyOf? receiver := by
    rw [Env.familyOf?, Env.familyOf?, Env.receiverType?_eq h]
  simp only [Route.select, Route.viaShortcut?, Route.viaStatic?, Route.viaValueTemplate?,
    Route.templateFamilies, hfamily, Route.viaFunction?_eq h, Env.isStaticReceiver_eq h,
    Env.receiverType?_eq h]

/-! ## Calls

Behind the decision on the way, the scope is asked for the receiver once more where it is written
down, and for the arity of a method that is passed as a callback. -/

theorem Arg.callbackText_eq (h : a.AgreeOn b known) (arg : Arg Coded) :
    arg.callbackText (Env.mk a schema options) = arg.callbackText (Env.mk b schema options) := by
  unfold Arg.callbackText
  simp only [h.arityOf?_eq]

theorem argTextsFor_eq (h : a.AgreeOn b known) (params : List ApiParam) (args : List (Arg Coded)) :
    argTextsFor (Env.mk a schema options) params args =
      argTextsFor (Env.mk b schema options) params args := by
  induction args generalizing params with
  | nil => rfl
  | cons arg args ih =>
    cases params with
    | nil => rw [argTextsFor, argTextsFor, ih]
    | cons param params =>
      rw [argTextsFor, argTextsFor, ih, Arg.textFor, Arg.textFor, Arg.callbackText_eq h]

theorem functionCode_eq (h : a.AgreeOn b known) (callee returnType : String)
    (leading : List String) (params : List ApiParam) (args : List (Arg Coded)) :
    functionCode (Env.mk a schema options) callee returnType leading params args =
      functionCode (Env.mk b schema options) callee returnType leading params args := by
  simp only [functionCode, argTextsFor_eq h, Env.castResult_eq h]

theorem intrinsicCode_eq (h : a.AgreeOn b known) (key : String) (args : List (Arg Coded)) :
    intrinsicCode (Env.mk a schema options) key args =
      intrinsicCode (Env.mk b schema options) key args := by
  unfold intrinsicCode
  simp only [Arg.callbackText_eq h]

theorem routeCode_eq (h : a.AgreeOn b known) (call : Call Coded) {receiver : String}
    (hroot : a.SameAt b (Text.rootOf receiver)) (method : String) (route : Route) :
    routeCode (Env.mk a schema options) call receiver method route =
      routeCode (Env.mk b schema options) call receiver method route := by
  cases route <;>
    simp only [routeCode, Env.typeText_eq h, intrinsicCode_eq h, functionCode_eq h,
      Scope.readPath_eq_of_root hroot]

theorem plainCode_eq (h : a.AgreeOn b known) (call : Call Coded) :
    plainCode (Env.mk a schema options) call = plainCode (Env.mk b schema options) call := by
  simp only [plainCode, globalFunction?, globalCode, h.arityOf?_eq, argTextsFor_eq h,
    Env.castResult_eq h, Env.typeText_eq h]

/-- A call looks at the first name of its receiver, which is a name it reads. -/
theorem callCode_eq (h : a.AgreeOn b known) (call : Call Coded)
    (hknown : ∀ receiver method, splitReceiver call.name = some (receiver, method) →
      known (Text.rootOf receiver)) :
    callCode (Env.mk a schema options) call = callCode (Env.mk b schema options) call := by
  unfold callCode
  cases hname : splitReceiver call.name with
  | none => exact plainCode_eq h call
  | some parts =>
    obtain ⟨receiver, method⟩ := parts
    have hroot : a.SameAt b (Text.rootOf receiver) :=
      h.symbols _ (Or.inr (hknown receiver method hname))
    have hreceiver : a.SameAt b receiver := h.sameAt_of_rootOf (hknown receiver method hname)
    simp only [Route.select_eq hreceiver]
    exact routeCode_eq h call hroot method _

end Calls

/-! ## Members, literals and matches

Here the scope is asked for names of types only, and for the first name of a member access. -/

section Nodes

variable {a b : Scope} {known : String → Prop} {schema : Schema} {options : Options}

theorem memberText_eq (h : a.AgreeOn b known) (object : Coded) (field : String)
    (hknown : ∀ name, object.source = .ident name → known name) :
    memberText (Env.mk a schema options) object field =
      memberText (Env.mk b schema options) object field := by
  have hconstant : constant? (Env.mk a schema options) object.source field =
      constant? (Env.mk b schema options) object.source field := by
    unfold constant?
    split
    · rename_i name hsource
      rw [Env.isStaticReceiver_eq (h.symbols name (Or.inr (hknown name hsource)))]
    · rfl
  rw [memberText, memberText, hconstant]

theorem recordText_eq (h : a.AgreeOn b known) (typeName : Option String)
    (fields : List (FieldInit Coded)) :
    recordText (Env.mk a schema options) typeName fields =
      recordText (Env.mk b schema options) typeName fields := by
  simp only [recordText, Env.typeText_eq h]

theorem constructText_eq (h : a.AgreeOn b known) (component : String) (args : List (Arg Coded)) :
    constructText (Env.mk a schema options) component args =
      constructText (Env.mk b schema options) component args := by
  simp only [constructText, Env.typeText_eq h]

theorem armBranch_eq (h : a.AgreeOn b known) (arm : Arm Coded) :
    armBranch (Env.mk a schema options) arm = armBranch (Env.mk b schema options) arm := by
  have hpattern : patternCode (Env.mk a schema options) arm.pattern =
      patternCode (Env.mk b schema options) arm.pattern := by
    cases arm.pattern <;> simp only [patternCode, Env.enumText_eq h]
  rw [armBranch, armBranch, hpattern]

theorem armBranches_eq (h : a.AgreeOn b known) (line : UInt32) (i : Nat)
    (arms : List (Arm Coded)) :
    armBranches (Env.mk a schema options) line i arms =
      armBranches (Env.mk b schema options) line i arms := by
  induction arms generalizing i with
  | nil => rfl
  | cons arm arms ih => rw [armBranches, armBranches, armBranch_eq h, ih]

theorem matchText_eq (h : a.AgreeOn b known) (choice : Match Coded) :
    matchText (Env.mk a schema options) choice = matchText (Env.mk b schema options) choice := by
  simp only [matchText, matchChain, armBranches_eq h]

end Nodes

end UiLowering
