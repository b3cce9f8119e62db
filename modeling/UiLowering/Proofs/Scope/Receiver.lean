import UiLowering.Proofs.Call.Route
import UiLowering.Proofs.Effect.Agree
import UiLowering.Proofs.Scope.Occurrence

/-!
# Receivers that are spelled out

A scope reads some names through a pointer.  Another scope that knows the same symbols by the texts
that read them, and has nothing to read through a pointer, sends a call the same way if the receiver
is spelled out (`select_of_sameReceiver`).  The way says what becomes of the receiver: it is read,
it is taken for the name of a type, or it does not appear.  No way does both of the first two.

`Env.SameReceiver` is meant to be the complete list of what `Route.select` asks about its receiver,
so that no later proof has to look at the ways again.  Three kinds of receivers have to be shown to
satisfy it: a name that is spelled out, a path whose first name is, and the path of a type, which
stays as it is.  For the first two it is used that a text with a star in it does not begin with a
capital and names no type.
-/

set_option autoImplicit false

namespace UiLowering

/-- Whether a path is the receiver of a call and taken for the path of a type, by its capital. -/
def Site.isType : Site → Bool
  | .receiver path => path.toList.contains '.' && Text.startsUpper path
  | .name | .target | .hole => false

/-- The reading of a scope: a name is read through a pointer where the scope says so, unless it
begins the path of a type. -/
def Scope.reading (scope : Scope) : Reading :=
  fun occurrence => scope.isReference occurrence.name && !occurrence.site.isType

namespace Scope

/-- The scope `b` knows the symbols of `a` by the texts that read them, and reads every name as it
is. -/
structure SpelledBy (a b : Scope) : Prop where
  agree : a.AgreeOn b fun _ => False
  read : ∀ name, b.read name = name
  kind : ∀ name, Text.IsSimple name → b.kindOf? (a.read name) = a.kindOf? name
  type : ∀ name, Text.IsSimple name → b.typeOf? (a.read name) = a.typeOf? name
  arity : ∀ name, Text.IsSimple name → b.arityOf? (a.read name) = a.arityOf? name
  dotted : ∀ name, '.' ∈ name.toList → a.kindOf? name = none
  declared : ∀ name, a.isReference name = true → (a.kindOf? name).isSome = true
  noMethod : ∀ name, a.isReference name = true → a.arityOf? name = none

variable {a b : Scope}

theorem readPath_eq (scope : Scope) (path : String) :
    scope.readPath path = scope.read (Text.rootOf path) ++ Text.restOf path := by
  unfold readPath Text.cutFirst Text.cutFirstChars
  rw [Text.rootOf, Text.restOf]
  cases hrest : path.toList.dropWhile (· != '.') with
  | nil =>
    have hpath : path.toList.takeWhile (· != '.') = path.toList := by
      have hsplit := List.takeWhile_append_dropWhile (p := (· != '.')) (l := path.toList)
      rwa [hrest, List.append_nil] at hsplit
    rw [hpath, String.ofList_toList]
    exact String.append_empty.symm
  | cons c after =>
    have hc : c = '.' := by
      have hhead := List.head?_dropWhile_not (· != '.') path.toList
      rw [hrest] at hhead
      simpa using hhead
    simp only [Option.map_some, Text.ofCharsPair]
    rw [String.append_assoc, hc, ← String.toList_inj]
    simp [String.toList_append]

theorem SpelledBy.readPath (h : a.SpelledBy b) (path : String) : b.readPath path = path := by
  rw [readPath_eq, h.read, Text.rootOf_append_restOf]

theorem spelled_reading {site : Site} (hsite : site.isType = false) (name : String)
    (bound : List String) : a.reading.spelled ⟨name, site, bound⟩ = a.read name := by
  rw [Reading.spelled, read, reading, hsite, Bool.not_false, Bool.and_true]
  rfl

theorem spelledPath_reading {site : Site} (hsite : site.isType = false) (path : String)
    (bound : List String) : a.reading.spelledPath bound site path = a.readPath path := by
  rw [Reading.spelledPath, spelled_reading hsite, readPath_eq]

/-- The path of a type stays as it is. -/
theorem spelledPath_of_isType {site : Site} (hsite : site.isType = true) (path : String)
    (bound : List String) : a.reading.spelledPath bound site path = path := by
  rw [Reading.spelledPath, Reading.spelled, reading, hsite, Bool.not_true, Bool.and_false,
    if_neg Bool.false_ne_true, Text.rootOf_append_restOf]

end Scope

/-! ## What a call asks about its receiver

A call does not look at its receiver as a text until its way has been chosen.  Before that it asks
whether it is a type, which type it has and whether it is known as a value.  The answers are listed
in `SameReceiver`, and the way follows from them. -/

/-- What a call asks about its receiver has the same answers for another receiver in another
environment, and a receiver that is a type is named there as well. -/
structure Env.SameReceiver (env env' : Env) (receiver receiver' : String) : Prop where
  path : (receiver'.toList.contains '.' && Text.startsUpper receiver') =
    (receiver.toList.contains '.' && Text.startsUpper receiver)
  isStatic : env'.isStaticReceiver receiver' = env.isStaticReceiver receiver
  type : env'.receiverType? receiver' = env.receiverType? receiver
  named : env.isStaticReceiver receiver = true → receiver' = receiver

namespace Route

variable {a b : Scope} {schema : Schema} {options : Options} {receiver receiver' : String}

theorem owner?_of_sameReceiver
    (h : Env.SameReceiver ⟨a, schema, options⟩ ⟨b, schema, options⟩ receiver receiver') :
    owner? ⟨b, schema, options⟩ receiver' = owner? ⟨a, schema, options⟩ receiver := by
  rw [owner?, owner?, h.isStatic, h.type]
  split
  · rename_i hstatic
    rw [h.named hstatic]
  · rfl

theorem viaFunction?_of_sameReceiver
    (h : Env.SameReceiver ⟨a, schema, options⟩ ⟨b, schema, options⟩ receiver receiver')
    (method : String) (argc : Nat) :
    viaFunction? ⟨b, schema, options⟩ receiver' method argc =
      viaFunction? ⟨a, schema, options⟩ receiver method argc := by
  have hpasses : (Env.mk b schema options).passesReceiver =
      (Env.mk a schema options).passesReceiver := rfl
  have hchosen : chosen? ⟨b, schema, options⟩ receiver' method argc =
      chosen? ⟨a, schema, options⟩ receiver method argc := by
    simp only [chosen?, candidates, owner?_of_sameReceiver h, h.isStatic, hpasses]
  rw [viaFunction?, viaFunction?, owner?_of_sameReceiver h, hchosen]

/-- The way of a call is decided by the answers about its receiver. -/
theorem select_of_sameReceiver
    (h : Env.SameReceiver ⟨a, schema, options⟩ ⟨b, schema, options⟩ receiver receiver')
    (method : String) (argc : Nat) :
    select ⟨b, schema, options⟩ receiver' method argc =
      select ⟨a, schema, options⟩ receiver method argc := by
  have hfamily : (Env.mk b schema options).familyOf? receiver' =
      (Env.mk a schema options).familyOf? receiver := by
    rw [Env.familyOf?, Env.familyOf?, h.type]
  have hstatic : viaStatic? ⟨b, schema, options⟩ receiver' method argc =
      viaStatic? ⟨a, schema, options⟩ receiver method argc := by
    rw [viaStatic?, viaStatic?, h.isStatic]
    split
    · rename_i hstatic
      rw [h.named hstatic]
    · rfl
  simp only [select, viaShortcut?, viaValueTemplate?, templateFamilies, hfamily, hstatic,
    viaFunction?_of_sameReceiver h, h.isStatic, h.type, Bool.and_assoc, h.path]

/-! ## What becomes of the receiver

A receiver that is taken for a type must not be spelled out, and one that is read has to be.  The
same text could be meant both ways, so it matters that each way says which one it takes. -/

/-- Whether the receiver is read on this way. -/
def readsReceiver : Route → Bool
  | .shortcut _ | .valueTemplate _ | .unknownMember => true
  | .function _ _ _ passesReceiver => passesReceiver
  | .enumSize | .intrinsic _ | .staticTemplate _ | .unknownStatic => false

/-- Whether the receiver is taken for the name of a type on this way. -/
def namesType : Route → Bool
  | .enumSize | .staticTemplate _ | .unknownStatic => true
  | .shortcut _ | .valueTemplate _ | .unknownMember | .function .. | .intrinsic _ => false

variable {env : Env} {method : String} {argc : Nat} {route : Route}

theorem not_isStaticReceiver_of_receiverType? {typeName : String}
    (h : env.receiverType? receiver = some typeName) : env.isStaticReceiver receiver = false := by
  have hkind : (env.scope.kindOf? receiver).isSome = true := by
    rw [Env.receiverType?] at h
    obtain ⟨-, h⟩ := Option.ite_none_left_eq_some.1 h
    obtain ⟨found, hfound, -⟩ := Option.map_eq_some_iff.1 h
    unfold Scope.typeOf? at hfound
    split at hfound
    · rename_i hkind
      rw [hkind]
      rfl
    · rename_i hkind
      rw [hkind]
      rfl
    · cases hfound
  rw [Env.isStaticReceiver, Option.isNone_eq_false_iff.2 hkind, Bool.and_false]

theorem viaShortcut?_spec (h : viaShortcut? env receiver method argc = some route) :
    env.isStaticReceiver receiver = false ∧ route.namesType = false := by
  obtain ⟨family, hfamily, hroute⟩ := Option.bind_eq_some_iff.1 h
  obtain ⟨shortcut, -, rfl⟩ := Option.map_eq_some_iff.1 hroute
  obtain ⟨typeName, htype, -⟩ := Option.bind_eq_some_iff.1 hfamily
  exact ⟨not_isStaticReceiver_of_receiverType? htype, rfl⟩

theorem viaStatic?_spec (h : viaStatic? env receiver method argc = some route) :
    env.isStaticReceiver receiver = true ∧ route.readsReceiver = false := by
  obtain ⟨hstatic, h⟩ := Option.ite_none_right_eq_some.1 h
  obtain ⟨found, -, hroute⟩ := List.exists_of_findSome?_eq_some h
  refine ⟨hstatic, ?_⟩
  unfold staticRoute? at hroute
  split at hroute
  · obtain ⟨-, hroute⟩ := Option.ite_none_right_eq_some.1 hroute
    cases hroute
    rfl
  · obtain ⟨-, hroute⟩ := Option.ite_none_right_eq_some.1 hroute
    cases hroute
    rfl
  · cases hroute

theorem viaValueTemplate?_spec (h : viaValueTemplate? env receiver method argc = some route) :
    env.isStaticReceiver receiver = false ∧ route.namesType = false := by
  obtain ⟨hstatic, h⟩ := Option.ite_none_left_eq_some.1 h
  obtain ⟨family, -, hroute⟩ := List.exists_of_findSome?_eq_some h
  refine ⟨Bool.not_eq_true _ ▸ hstatic, ?_⟩
  split at hroute
  · obtain ⟨-, hroute⟩ := Option.ite_none_right_eq_some.1 hroute
    cases hroute
    rfl
  · cases hroute

theorem viaFunction?_spec (h : viaFunction? env receiver method argc = some route) :
    (route.readsReceiver = true → env.isStaticReceiver receiver = false) ∧
      route.namesType = false := by
  obtain ⟨-, h⟩ := Option.ite_none_left_eq_some.1 h
  obtain ⟨⟨choice, passes⟩, hchoice, h⟩ := Option.bind_eq_some_iff.1 h
  obtain ⟨target, -, h⟩ := Option.bind_eq_some_iff.1 h
  cases h
  refine ⟨fun hpasses => ?_, rfl⟩
  -- A type is never passed as first argument.
  rw [← Bool.not_eq_true]
  intro hstatic
  have hpasses : passes = true := hpasses
  subst hpasses
  simp only [chosen?, hstatic, if_true] at hchoice
  obtain ⟨-, hchoice⟩ := Option.ite_none_right_eq_some.1 hchoice
  obtain ⟨found, -, hfound⟩ := Option.map_eq_some_iff.1 hchoice
  cases hfound

/-- A receiver that is read is no type, and one that is taken for a type is one, or begins with a
capital like the path of a type. -/
theorem select_spec (env : Env) (receiver method : String) (argc : Nat) :
    ((select env receiver method argc).readsReceiver = true →
        env.isStaticReceiver receiver = false) ∧
      ((select env receiver method argc).namesType = true →
        env.isStaticReceiver receiver = true ∨ (Site.receiver receiver).isType = true) := by
  unfold select
  split
  · rename_i hsize
    refine ⟨fun h => absurd h Bool.false_ne_true, fun _ => Or.inr ?_⟩
    simp only [Bool.and_eq_true] at hsize
    rw [Site.isType, hsize.1.2, hsize.2]
    rfl
  · split
    · rename_i route hroute
      obtain ⟨hstatic, htype⟩ := viaShortcut?_spec hroute
      exact ⟨fun _ => hstatic, fun h => absurd (htype.symm.trans h) Bool.false_ne_true⟩
    · split
      · rename_i route hroute
        obtain ⟨hstatic, hreads⟩ := viaStatic?_spec hroute
        exact ⟨fun h => absurd (hreads.symm.trans h) Bool.false_ne_true, fun _ => Or.inl hstatic⟩
      · split
        · rename_i route hroute
          obtain ⟨hstatic, htype⟩ := viaValueTemplate?_spec hroute
          exact ⟨fun _ => hstatic, fun h => absurd (htype.symm.trans h) Bool.false_ne_true⟩
        · split
          · rename_i route hroute
            obtain ⟨hreads, htype⟩ := viaFunction?_spec hroute
            exact ⟨hreads, fun h => absurd (htype.symm.trans h) Bool.false_ne_true⟩
          · split
            · rename_i hstatic
              exact ⟨fun h => absurd h Bool.false_ne_true, fun _ => Or.inl hstatic⟩
            · rename_i hstatic
              exact ⟨fun _ => Bool.not_eq_true _ ▸ hstatic, fun h => absurd h Bool.false_ne_true⟩

end Route

/-! ## Receivers that are spelled out

A receiver has one of three forms: a name, a path behind a name, or the path of a type.  For each of
them the questions are answered in the scope without pointers as they were before. -/

namespace Scope

theorem not_startsUpper_dereferenced (name rest : String) :
    Text.startsUpper (Text.dereferenced name ++ rest) = false := by
  rw [Text.startsUpper, String.toList_append, Text.toList_dereferenced]
  rfl

theorem read_of_isReference {scope : Scope} {name : String} (h : scope.isReference name = true) :
    scope.read name = Text.dereferenced name := by
  rw [read, if_pos h, Text.dereferenced]

theorem read_of_not_isReference {scope : Scope} {name : String}
    (h : scope.isReference name = false) : scope.read name = name := by
  rw [read, h, if_neg Bool.false_ne_true]

/-- A text that reads a name holds the dots that the name holds. -/
theorem dot_mem_read_iff {scope : Scope} {name : String} :
    '.' ∈ (scope.read name).toList ↔ '.' ∈ name.toList := by
  rw [read]
  split
  · rw [← Text.dereferenced, Text.toList_dereferenced]
    simp
  · rfl

variable {a b : Scope} {schema : Schema} {options : Options} {receiver : String}

/-- Spelled out, a receiver without dots is known as before. -/
theorem SpelledBy.sameReceiver_read (h : a.SpelledBy b) (hsimple : Text.IsSimple receiver) :
    Env.SameReceiver ⟨a, schema, options⟩ ⟨b, schema, options⟩ receiver (a.read receiver) := by
  have hread : '.' ∉ (a.read receiver).toList := fun hdot => hsimple.1 (dot_mem_read_iff.1 hdot)
  cases hreference : a.isReference receiver with
  | true =>
    have hkind : (a.kindOf? receiver).isNone = false :=
      Option.isNone_eq_false_iff.2 (h.declared receiver hreference)
    have hstatic : (Env.mk a schema options).isStaticReceiver receiver = false := by
      rw [Env.isStaticReceiver, hkind, Bool.and_false]
    constructor
    · simp [hread, hsimple.1]
    · rw [hstatic, Env.isStaticReceiver, h.kind receiver hsimple, hkind, Bool.and_false]
    · simp [Env.receiverType?, hread, hsimple.1, h.type receiver hsimple]
    · intro hstatic'
      rw [hstatic] at hstatic'
      cases hstatic'
  | false =>
    have hsame := read_of_not_isReference hreference
    have hkind := h.kind receiver hsimple
    have htype := h.type receiver hsimple
    rw [hsame] at hkind htype ⊢
    constructor
    · rfl
    · rw [Env.isStaticReceiver, Env.isStaticReceiver, hkind]
    · rw [Env.receiverType?, Env.receiverType?, htype]
    · exact fun _ => rfl

/-- Spelled out, a path that is not taken for a type is not taken for one either. -/
theorem sameReceiver_readPath (hdot : '.' ∈ receiver.toList)
    (hupper : Text.startsUpper receiver = false) :
    Env.SameReceiver ⟨a, schema, options⟩ ⟨b, schema, options⟩ receiver (a.readPath receiver) := by
  have hdot' : '.' ∈ (a.readPath receiver).toList := by
    rw [readPath_eq, String.toList_append, List.mem_append, dot_mem_read_iff, ← List.mem_append,
      ← String.toList_append, Text.rootOf_append_restOf]
    exact hdot
  have hupper' : Text.startsUpper (a.readPath receiver) = false := by
    rw [readPath_eq]
    cases hreference : a.isReference (Text.rootOf receiver) with
    | true => rw [read_of_isReference hreference, not_startsUpper_dereferenced]
    | false => rw [read_of_not_isReference hreference, Text.rootOf_append_restOf, hupper]
  constructor
  · rw [hupper, hupper', Bool.and_false, Bool.and_false]
  · rw [Env.isStaticReceiver, Env.isStaticReceiver, hupper, hupper', Bool.false_and,
      Bool.false_and]
  · rw [Env.receiverType?, Env.receiverType?, if_pos (by simpa using hdot'),
      if_pos (by simpa using hdot)]
  · intro hstatic
    rw [Env.isStaticReceiver, hupper, Bool.false_and] at hstatic
    cases hstatic

/-- The path of a type is known as before. -/
theorem SpelledBy.sameReceiver_self (h : a.SpelledBy b) (hdot : '.' ∈ receiver.toList) :
    Env.SameReceiver ⟨a, schema, options⟩ ⟨b, schema, options⟩ receiver receiver where
  path := rfl
  isStatic := (Env.isStaticReceiver_eq (h.agree.symbols receiver (Or.inl hdot))).symm
  type := (Env.receiverType?_eq (h.agree.symbols receiver (Or.inl hdot))).symm
  named := fun _ => rfl

/-- A path holds its dots behind its first name. -/
theorem dot_mem_restOf {path : String} (h : '.' ∈ path.toList) :
    '.' ∈ (Text.restOf path).toList := by
  rw [← Text.rootOf_append_restOf path, String.toList_append, List.mem_append] at h
  rcases h with h | h
  · exact absurd h (Text.rootOf_eq_iff.1 rfl).1
  · exact h

theorem rootOf_eq_self {path : String} (h : '.' ∉ path.toList) : Text.rootOf path = path :=
  Text.rootOf_eq_iff.2 ⟨h, "", Or.inl rfl, String.append_empty.symm⟩

/-- Whatever a call asks about its receiver, it gets the same answers if the receiver is spelled
out. -/
theorem SpelledBy.sameReceiver (h : a.SpelledBy b) (hroot : Text.IsSimple (Text.rootOf receiver))
    (bound : List String) :
    Env.SameReceiver ⟨a, schema, options⟩ ⟨b, schema, options⟩ receiver
      (a.reading.spelledPath bound (.receiver receiver) receiver) := by
  by_cases hdot : '.' ∈ receiver.toList
  · cases hupper : Text.startsUpper receiver with
    | true =>
      rw [spelledPath_of_isType (by simp [Site.isType, hdot, hupper])]
      exact h.sameReceiver_self hdot
    | false =>
      rw [spelledPath_reading (by simp [Site.isType, hupper])]
      exact sameReceiver_readPath hdot hupper
  · rw [spelledPath_reading (by simp [Site.isType, hdot]), Env.readPath_of_not_mem a hdot]
    rw [rootOf_eq_self hdot] at hroot
    exact h.sameReceiver_read hroot

/-- What becomes of the receiver on the way of a call: where it is read, the spelled-out receiver is
what reads it, and where it is taken for a type, it is the receiver itself. -/
theorem SpelledBy.spelledPath_of_select (h : a.SpelledBy b)
    (hroot : Text.IsSimple (Text.rootOf receiver)) (bound : List String) (method : String)
    (argc : Nat) :
    ((Route.select ⟨a, schema, options⟩ receiver method argc).readsReceiver = true →
        a.reading.spelledPath bound (.receiver receiver) receiver = a.readPath receiver) ∧
      ((Route.select ⟨a, schema, options⟩ receiver method argc).namesType = true →
        a.reading.spelledPath bound (.receiver receiver) receiver = receiver) := by
  obtain ⟨hreads, hnames⟩ := Route.select_spec ⟨a, schema, options⟩ receiver method argc
  constructor
  · intro hroute
    refine spelledPath_reading ?_ receiver bound
    rw [← Bool.not_eq_true]
    intro htype
    -- A path is no symbol, so one that begins with a capital is a type.
    rw [Site.isType, Bool.and_eq_true, List.contains_iff_mem] at htype
    have hstatic := hreads hroute
    rw [Env.isStaticReceiver, htype.2, h.dotted receiver htype.1] at hstatic
    cases hstatic
  · intro hroute
    rcases hnames hroute with hstatic | htype
    · exact (h.sameReceiver hroot bound).named hstatic
    · exact spelledPath_of_isType htype receiver bound

end Scope

end UiLowering
