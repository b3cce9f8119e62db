import UiLowering.Proofs.Scope.Hole
import UiLowering.Proofs.Text.Identifier
import UiLowering.Proofs.Text.Trim
import UiLowering.Proofs.TypeName.Plain
import UiLowering.Source.Definition

/-!
# The occurrences of names in a method

A variable occurs in the body of a method as a name, as the target of an assignment, as the first
name of a receiver, or as the first name of a path inside a string literal.  `occurrences` lists
these places from left to right, each with the names that are bound around it: by the parameters of
the method, the declarations before it in the same block or in a block around it, the loops around
it, and the fields that the pattern of its arm binds.

A reading chooses some of the occurrences.  `spellOut` writes the chosen ones as what reads them
through a pointer, and leaves the rest of the tree as it is.  Two readings spell a tree out alike if
and only if they agree on its occurrences.

The definitions are long because the tree has many kinds of nodes, but each clause does one of three
things: it collects from the parts, it adds an occurrence, or it adds bound names for the parts
behind it.  The two recursions have to agree on the bound names clause by clause, and this is what
the last section proves: it would fail if the one bound a name where the other does not.

A path inside a string literal is an occurrence like any other, although the tree has only the raw
text of the literal.  It is found by cutting the literal into its pieces, and spelled out by writing
the pieces again.
-/

set_option autoImplicit false

namespace UiLowering

/-! ## Names and paths

Paths are kept as texts in the receivers of calls and in literals.  To spell one out its first name
is cut off at the first dot.  A name with a dot or a parenthesis in it would make this ambiguous,
hence `IsSimple`. -/

namespace Text

/-- A name without dots and parentheses. -/
def IsSimple (name : String) : Prop := '.' ∉ name.toList ∧ '(' ∉ name.toList

instance : DecidablePred IsSimple := fun name =>
  inferInstanceAs (Decidable ('.' ∉ name.toList ∧ '(' ∉ name.toList))

/-- What stands behind the first name of a path. -/
def restOf (path : String) : String := String.ofList (path.toList.dropWhile (· != '.'))

theorem rootOf_append_restOf (path : String) : rootOf path ++ restOf path = path := by
  rw [← String.toList_inj, String.toList_append, rootOf, restOf, String.toList_ofList,
    String.toList_ofList, List.takeWhile_append_dropWhile]

/-- A name, read through a pointer. -/
def dereferenced (name : String) : String := "(*" ++ name ++ ")"

theorem toList_dereferenced (name : String) :
    (dereferenced name).toList = '(' :: '*' :: (name.toList ++ [')']) := by
  simp [dereferenced, String.toList_append]

theorem dereferenced_inj {first second : String} :
    dereferenced first = dereferenced second ↔ first = second := by
  rw [← String.toList_inj, toList_dereferenced, toList_dereferenced, ← String.toList_inj]
  simp

theorem dereferenced_ne (name : String) : dereferenced name ≠ name := by
  intro h
  have hlength : (dereferenced name).toList.length = name.toList.length := by rw [h]
  rw [toList_dereferenced, List.length_cons, List.length_cons, List.length_append,
    List.length_singleton] at hlength
  omega

/-- A name path consists of word characters and dots. -/
theorem mem_of_isNamePath {path : String} (h : isNamePath path = true) {c : Char}
    (hc : c ∈ path.toList) : isAsciiWord c = true ∨ c = '.' := by
  have hpath (cs : List Char) (fresh : Bool) (h : completesPath fresh cs = true) :
      ∀ c ∈ cs, isAsciiWord c = true ∨ c = '.' := by
    induction cs generalizing fresh with
    | nil => simp
    | cons first cs ih =>
      rw [completesPath] at h
      by_cases hfresh : fresh = true
      · rw [if_pos hfresh, Bool.and_eq_true] at h
        exact List.forall_mem_cons.2 ⟨Or.inl (isAsciiWord_of_isNameStart h.1), ih false h.2⟩
      · rw [if_neg hfresh] at h
        by_cases hdot : first = '.'
        · rw [if_pos (by simpa using hdot)] at h
          exact List.forall_mem_cons.2 ⟨Or.inr hdot, ih true h⟩
        · rw [if_neg (by simpa using hdot), Bool.and_eq_true] at h
          exact List.forall_mem_cons.2 ⟨Or.inl h.1, ih false h.2⟩
  exact hpath path.toList true h c hc

end Text

/-- Where a name stands. -/
inductive Site where
  | name
  | target
  | receiver (path : String)
  | hole
deriving DecidableEq

/-- A place where a name stands, with the names that are bound around it. -/
structure Occurrence where
  name : String
  site : Site
  bound : List String

/-- A choice of the occurrences that are read through a pointer. -/
abbrev Reading := Occurrence → Bool

namespace Reading

variable (reading other : Reading) (bound : List String)

/-- An occurrence as it is read. -/
def spelled (occurrence : Occurrence) : String :=
  if reading occurrence then Text.dereferenced occurrence.name else occurrence.name

/-- A path whose first name is spelled out. -/
def spelledPath (site : Site) (path : String) : String :=
  reading.spelled ⟨Text.rootOf path, site, bound⟩ ++ Text.restOf path

/-- The name of a call, with the first name of the receiver spelled out. -/
def spelledCall (name : String) : String :=
  match splitReceiver name with
  | some (receiver, method) =>
    reading.spelledPath bound (.receiver receiver) receiver ++ "." ++ method
  | none => name

/-- The source in a hole.  A path is spelled out, without the blanks around it; everything else
stays as it is. -/
def spelledHole (source : List Char) : List Char :=
  let path := Text.trim (String.ofList source)
  if Text.isNamePath path then (reading.spelledPath bound .hole path).toList else source

/-- A raw literal with its holes spelled out. -/
def spelledLiteral (raw : String) : String :=
  String.ofList (Piece.mapHoles (reading.spelledHole bound) raw.toList)

variable {reading other : Reading} {bound : List String}

theorem spelled_eq_iff {occurrence : Occurrence} :
    reading.spelled occurrence = other.spelled occurrence ↔
      reading occurrence = other occurrence := by
  have hne := Text.dereferenced_ne occurrence.name
  rw [spelled, spelled]
  cases reading occurrence <;> cases other occurrence <;> simp [hne, hne.symm]

theorem spelledPath_eq_iff {site : Site} {path : String} :
    reading.spelledPath bound site path = other.spelledPath bound site path ↔
      reading ⟨Text.rootOf path, site, bound⟩ = other ⟨Text.rootOf path, site, bound⟩ := by
  rw [spelledPath, spelledPath, ← String.toList_inj, String.toList_append, String.toList_append,
    List.append_cancel_right_eq, String.toList_inj, spelled_eq_iff]

end Reading

/-! ## Trees

Two recursions over the tree with the same shape: one lists the occurrences, the other rewrites
them.  Both carry the names that are bound around a node, which grow at declarations, loops and
patterns. -/

/-- The occurrence that begins the receiver of a call. -/
def receiverOccurrences (bound : List String) (name : String) : List Occurrence :=
  (splitReceiver name).toList.map fun (receiver, _) =>
    ⟨Text.rootOf receiver, .receiver receiver, bound⟩

/-- The occurrence in a piece of a literal. -/
def Piece.occurrence? (bound : List String) : Piece → Option Occurrence
  | .text _ => none
  | .hole source =>
    let path := Text.trim (String.ofList source)
    if Text.isNamePath path then some ⟨Text.rootOf path, .hole, bound⟩ else none

/-- The fields that a pattern binds. -/
def Pattern.boundNames {ε : Type} : Pattern ε → List String
  | .literal _ => []
  | .enumValue _ => []
  | .record _ fields => (fields.filter (·.value.isNone)).map (·.name)

namespace Expr

mutual

/-- The occurrences of names in an expression. -/
def occurrences (bound : List String) : Expr → List Occurrence
  | .int _ => []
  | .float _ => []
  | .bool _ => []
  | .str raw => (Literal.pieces raw).filterMap (Piece.occurrence? bound)
  | .ident name => [⟨name, .name, bound⟩]
  | .binary left _ right _ => left.occurrences bound ++ right.occurrences bound
  | .unary _ operand => operand.occurrences bound
  | .trailing _ operand => operand.occurrences bound
  | .conditional condition thenValue elseValue =>
    condition.occurrences bound ++ thenValue.occurrences bound ++ elseValue.occurrences bound
  | .call ⟨name, args, _⟩ => receiverOccurrences bound name ++ argOccurrences bound args
  | .member object _ => object.occurrences bound
  | .index base position => base.occurrences bound ++ position.occurrences bound
  | .array ⟨elements, _⟩ => listOccurrences bound elements
  | .fill value count => value.occurrences bound ++ count.occurrences bound
  | .record ⟨_, fields⟩ => fieldOccurrences bound fields
  | .enumValue _ => []
  | .construct _ args => argOccurrences bound args
  | .select ⟨subject, arms, otherwise, _⟩ =>
    subject.occurrences bound ++ armOccurrences bound arms ++ optionOccurrences bound otherwise
  | .reference operand => operand.occurrences bound
  | .move operand => operand.occurrences bound

/-- The occurrences in several expressions. -/
def listOccurrences (bound : List String) : List Expr → List Occurrence
  | [] => []
  | e :: es => e.occurrences bound ++ listOccurrences bound es

/-- The occurrences in an expression that may be missing. -/
def optionOccurrences (bound : List String) : Option Expr → List Occurrence
  | none => []
  | some e => e.occurrences bound

/-- The occurrences in arguments. -/
def argOccurrences (bound : List String) : List (Arg Expr) → List Occurrence
  | [] => []
  | ⟨_, value, _, _⟩ :: args => value.occurrences bound ++ argOccurrences bound args

/-- The occurrences in the fields of a record literal. -/
def fieldOccurrences (bound : List String) : List (FieldInit Expr) → List Occurrence
  | [] => []
  | ⟨_, value⟩ :: fields => value.occurrences bound ++ fieldOccurrences bound fields

/-- The occurrences in a pattern. -/
def patternOccurrences (bound : List String) : Pattern Expr → List Occurrence
  | .literal value => value.occurrences bound
  | .enumValue _ => []
  | .record _ fields => fieldPatternOccurrences bound fields

/-- The occurrences in the fields of a record pattern. -/
def fieldPatternOccurrences (bound : List String) : List (FieldPattern Expr) → List Occurrence
  | [] => []
  | ⟨_, value⟩ :: fields => optionOccurrences bound value ++ fieldPatternOccurrences bound fields

/-- The occurrences in the arms of a match.  The body of an arm sees what its pattern binds. -/
def armOccurrences (bound : List String) : List (Arm Expr) → List Occurrence
  | [] => []
  | ⟨pattern, body⟩ :: arms =>
    patternOccurrences bound pattern ++ body.occurrences (pattern.boundNames ++ bound) ++
      armOccurrences bound arms

end

mutual

/-- An expression with the chosen occurrences spelled out. -/
def spellOut (reading : Reading) (bound : List String) : Expr → Expr
  | .int value => .int value
  | .float value => .float value
  | .bool value => .bool value
  | .str raw => .str (reading.spelledLiteral bound raw)
  | .ident name => .ident (reading.spelled ⟨name, .name, bound⟩)
  | .binary left op right chain =>
    .binary (left.spellOut reading bound) op (right.spellOut reading bound) chain
  | .unary op operand => .unary op (operand.spellOut reading bound)
  | .trailing op operand => .trailing op (operand.spellOut reading bound)
  | .conditional condition thenValue elseValue =>
    .conditional (condition.spellOut reading bound) (thenValue.spellOut reading bound)
      (elseValue.spellOut reading bound)
  | .call ⟨name, args, line⟩ =>
    .call ⟨reading.spelledCall bound name, spellOutArgs reading bound args, line⟩
  | .member object field => .member (object.spellOut reading bound) field
  | .index base position => .index (base.spellOut reading bound) (position.spellOut reading bound)
  | .array ⟨elements, elementType⟩ => .array ⟨spellOutList reading bound elements, elementType⟩
  | .fill value count => .fill (value.spellOut reading bound) (count.spellOut reading bound)
  | .record ⟨typeName, fields⟩ => .record ⟨typeName, spellOutFields reading bound fields⟩
  | .enumValue ref => .enumValue ref
  | .construct component args => .construct component (spellOutArgs reading bound args)
  | .select ⟨subject, arms, otherwise, line⟩ =>
    .select ⟨subject.spellOut reading bound, spellOutArms reading bound arms,
      spellOutOption reading bound otherwise, line⟩
  | .reference operand => .reference (operand.spellOut reading bound)
  | .move operand => .move (operand.spellOut reading bound)

/-- Several expressions spelled out. -/
def spellOutList (reading : Reading) (bound : List String) : List Expr → List Expr
  | [] => []
  | e :: es => e.spellOut reading bound :: spellOutList reading bound es

/-- An expression that may be missing, spelled out. -/
def spellOutOption (reading : Reading) (bound : List String) : Option Expr → Option Expr
  | none => none
  | some e => some (e.spellOut reading bound)

/-- Arguments spelled out. -/
def spellOutArgs (reading : Reading) (bound : List String) : List (Arg Expr) → List (Arg Expr)
  | [] => []
  | ⟨name, value, byReference, byMove⟩ :: args =>
    ⟨name, value.spellOut reading bound, byReference, byMove⟩ :: spellOutArgs reading bound args

/-- The fields of a record literal spelled out. -/
def spellOutFields (reading : Reading) (bound : List String) :
    List (FieldInit Expr) → List (FieldInit Expr)
  | [] => []
  | ⟨name, value⟩ :: fields =>
    ⟨name, value.spellOut reading bound⟩ :: spellOutFields reading bound fields

/-- A pattern spelled out. -/
def spellOutPattern (reading : Reading) (bound : List String) : Pattern Expr → Pattern Expr
  | .literal value => .literal (value.spellOut reading bound)
  | .enumValue ref => .enumValue ref
  | .record typeName fields => .record typeName (spellOutFieldPatterns reading bound fields)

/-- The fields of a record pattern spelled out. -/
def spellOutFieldPatterns (reading : Reading) (bound : List String) :
    List (FieldPattern Expr) → List (FieldPattern Expr)
  | [] => []
  | ⟨name, value⟩ :: fields =>
    ⟨name, spellOutOption reading bound value⟩ :: spellOutFieldPatterns reading bound fields

/-- The arms of a match spelled out. -/
def spellOutArms (reading : Reading) (bound : List String) : List (Arm Expr) → List (Arm Expr)
  | [] => []
  | ⟨pattern, body⟩ :: arms =>
    ⟨spellOutPattern reading bound pattern, body.spellOut reading (pattern.boundNames ++ bound)⟩ ::
      spellOutArms reading bound arms

end

end Expr

namespace Stmt

/-- The names that a statement binds in the statements behind it. -/
def boundNames : Stmt → List String
  | .declare decl => [decl.name]
  | _ => []

mutual

/-- The occurrences of names in a statement.  What a loop binds is seen in its body. -/
def occurrences (bound : List String) : Stmt → List Occurrence
  | .declare decl => Expr.optionOccurrences bound decl.initializer
  | .assign a => ⟨a.name, .target, bound⟩ :: a.value.occurrences bound
  | .assignIndex a =>
    a.array.occurrences bound ++ a.position.occurrences bound ++ a.value.occurrences bound
  | .assignMember a => a.object.occurrences bound ++ a.value.occurrences bound
  | .ret value => Expr.optionOccurrences bound value
  | .evaluate e => e.occurrences bound
  | .block body => bodyOccurrences bound body
  | .branch condition thenBranch elseBranch =>
    condition.occurrences bound ++ thenBranch.occurrences bound ++
      optionOccurrences bound elseBranch
  | .forRange counter first limit body =>
    first.occurrences bound ++ limit.occurrences bound ++ body.occurrences (counter :: bound)
  | .forEach item items body => items.occurrences bound ++ body.occurrences (item :: bound)

/-- The occurrences in the statements of a body. -/
def bodyOccurrences (bound : List String) : List Stmt → List Occurrence
  | [] => []
  | stmt :: body => stmt.occurrences bound ++ bodyOccurrences (stmt.boundNames ++ bound) body

/-- The occurrences in a statement that may be missing. -/
def optionOccurrences (bound : List String) : Option Stmt → List Occurrence
  | none => []
  | some stmt => stmt.occurrences bound

end

mutual

/-- A statement with the chosen occurrences spelled out. -/
def spellOut (reading : Reading) (bound : List String) : Stmt → Stmt
  | .declare decl =>
    .declare { decl with initializer := Expr.spellOutOption reading bound decl.initializer }
  | .assign a =>
    .assign { a with
      name := reading.spelled ⟨a.name, .target, bound⟩
      value := a.value.spellOut reading bound }
  | .assignIndex a =>
    .assignIndex { a with
      array := a.array.spellOut reading bound
      position := a.position.spellOut reading bound
      value := a.value.spellOut reading bound }
  | .assignMember a =>
    .assignMember { a with
      object := a.object.spellOut reading bound
      value := a.value.spellOut reading bound }
  | .ret value => .ret (Expr.spellOutOption reading bound value)
  | .evaluate e => .evaluate (e.spellOut reading bound)
  | .block body => .block (spellOutBody reading bound body)
  | .branch condition thenBranch elseBranch =>
    .branch (condition.spellOut reading bound) (thenBranch.spellOut reading bound)
      (spellOutOption reading bound elseBranch)
  | .forRange counter first limit body =>
    .forRange counter (first.spellOut reading bound) (limit.spellOut reading bound)
      (body.spellOut reading (counter :: bound))
  | .forEach item items body =>
    .forEach item (items.spellOut reading bound) (body.spellOut reading (item :: bound))

/-- The statements of a body spelled out. -/
def spellOutBody (reading : Reading) (bound : List String) : List Stmt → List Stmt
  | [] => []
  | stmt :: body =>
    stmt.spellOut reading bound :: spellOutBody reading (stmt.boundNames ++ bound) body

/-- A statement that may be missing, spelled out. -/
def spellOutOption (reading : Reading) (bound : List String) : Option Stmt → Option Stmt
  | none => none
  | some stmt => some (stmt.spellOut reading bound)

end

end Stmt

namespace Method

/-- The names of the parameters of a method, which are bound in its whole body. -/
def paramNames (method : Method) : List String := method.params.map (·.name)

/-- The occurrences of names in the body of a method. -/
def occurrences (method : Method) : List Occurrence :=
  Stmt.bodyOccurrences method.paramNames method.body

/-- A method with the chosen occurrences in its body spelled out. -/
def spellOut (method : Method) (reading : Reading) : Method :=
  { method with body := Stmt.spellOutBody reading method.paramNames method.body }

end Method

/-! ## Literals

A raw literal is a text that is cut into pieces when it is lowered.  To spell it out it is cut, and
its pieces are written again.  What was put into a hole must not open or close one, or the literal
would be cut elsewhere the next time. -/

namespace Reading

variable {reading other : Reading} {bound : List String}

theorem trim_ofList (cs : List Char) :
    Text.trim (String.ofList cs) = String.ofList (Text.trimChars cs) := by
  rw [Text.trim, String.toList_ofList]

/-- A path in a hole, spelled out, consists of word characters, dots, parentheses and a star. -/
theorem mem_spelledPath {path : String} (h : Text.isNamePath path = true) {site : Site} {c : Char}
    (hc : c ∈ (reading.spelledPath bound site path).toList) :
    Text.isAsciiWord c = true ∨ c = '.' ∨ c = '(' ∨ c = '*' ∨ c = ')' := by
  have hpath {c : Char} (hc : c ∈ (Text.rootOf path ++ Text.restOf path).toList) :
      Text.isAsciiWord c = true ∨ c = '.' := by
    rw [Text.rootOf_append_restOf] at hc
    exact Text.mem_of_isNamePath h hc
  rw [String.toList_append] at hpath
  rw [spelledPath, String.toList_append, List.mem_append, spelled] at hc
  rcases hc with hc | hc
  · split at hc
    · rw [Text.toList_dereferenced] at hc
      simp only [List.mem_cons, List.mem_append, List.not_mem_nil, or_false] at hc
      rcases hc with hc | hc | hc | hc
      · simp [hc]
      · simp [hc]
      · rcases hpath (List.mem_append_left _ hc) with h | h <;> simp [h]
      · simp [hc]
    · rcases hpath (List.mem_append_left _ hc) with h | h <;> simp [h]
  · rcases hpath (List.mem_append_right _ hc) with h | h <;> simp [h]

theorem not_isBlank_of_mem_spelledPath {path : String} (h : Text.isNamePath path = true)
    {site : Site} {c : Char} (hc : c ∈ (reading.spelledPath bound site path).toList) :
    Text.isBlank c = false := by
  rcases mem_spelledPath h hc with hword | rfl | rfl | rfl | rfl
  · rw [← Bool.not_eq_true]
    intro hblank
    rw [Text.not_isAsciiWord_of_isBlank hblank] at hword
    cases hword
  all_goals rfl

/-- A path is not empty, and it stays so. -/
theorem spelledPath_ne_empty {path : String} (h : Text.isNamePath path = true) (site : Site) :
    (reading.spelledPath bound site path).toList ≠ [] := by
  intro hnil
  rw [spelledPath, String.toList_append, List.append_eq_nil_iff, spelled] at hnil
  obtain ⟨hroot, hrest⟩ := hnil
  split at hroot
  · rw [Text.toList_dereferenced] at hroot
    cases hroot
  · have hpath : path.toList = [] := by
      rw [← Text.rootOf_append_restOf path, String.toList_append, hrest, hroot]
      rfl
    rw [Text.isNamePath, hpath] at h
    cases h

theorem pieces_spelledLiteral (raw : String) :
    Literal.pieces (reading.spelledLiteral bound raw) =
      (Literal.pieces raw).map (Piece.mapHole (reading.spelledHole bound)) := by
  rw [Literal.pieces, spelledLiteral, String.toList_ofList]
  refine Piece.ofChars_mapHoles (fun cs hcs => ?_) (fun cs => ?_) (fun cs => ?_) raw.toList
  · rw [spelledHole]
    split
    · rename_i hpath
      intro hbrace
      have hchar := mem_spelledPath hpath hbrace
      revert hchar
      decide
    · exact hcs
  · simp only [spelledHole, trim_ofList, Text.trimChars_trimChars]
    split
    · rename_i hpath
      exact Text.trimChars_of_not_blank fun c hc => not_isBlank_of_mem_spelledPath hpath hc
    · rfl
  · rw [spelledHole]
    split
    · rename_i hpath
      have hcs : cs ≠ [] := by
        rintro rfl
        cases hpath
      rw [List.isEmpty_eq_false_iff.2 (spelledPath_ne_empty hpath _),
        List.isEmpty_eq_false_iff.2 hcs]
    · rfl

theorem spelledHole_eq_iff {source : List Char} :
    reading.spelledHole bound source = other.spelledHole bound source ↔
      ∀ o ∈ Piece.occurrence? bound (.hole source), reading o = other o := by
  simp only [spelledHole, Piece.occurrence?]
  by_cases hpath : Text.isNamePath (Text.trim (String.ofList source)) = true
  · rw [if_pos hpath, if_pos hpath, if_pos hpath, String.toList_inj, spelledPath_eq_iff]
    simp
  · rw [if_neg hpath, if_neg hpath, if_neg hpath]
    simp

theorem spelledLiteral_eq_iff {raw : String} :
    reading.spelledLiteral bound raw = other.spelledLiteral bound raw ↔
      ∀ o ∈ (Literal.pieces raw).filterMap (Piece.occurrence? bound), reading o = other o := by
  constructor
  · intro h o ho
    have hpieces := congrArg Literal.pieces h
    rw [pieces_spelledLiteral, pieces_spelledLiteral] at hpieces
    obtain ⟨piece, hpiece, hoccurrence⟩ := List.mem_filterMap.1 ho
    cases piece with
    | text content => cases hoccurrence
    | hole source =>
      have hhole := List.map_inj_left.1 hpieces _ hpiece
      exact spelledHole_eq_iff.1 (Piece.hole.inj hhole) o hoccurrence
  · intro h
    rw [spelledLiteral, spelledLiteral, String.ofList_inj]
    -- The text between the braces is spelled out like the source in the hole, which is trimmed.
    have htrimmed (inner : List Char) :
        reading.spelledHole bound (Text.trimChars inner) =
          other.spelledHole bound (Text.trimChars inner) →
        reading.spelledHole bound inner = other.spelledHole bound inner := by
      simp only [spelledHole_eq_iff, Piece.occurrence?, trim_ofList, Text.trimChars_trimChars]
      exact id
    refine Piece.mapHoles_congr (fun inner hempty => htrimmed inner ?_) fun inner hmem =>
      htrimmed inner (spelledHole_eq_iff.2 fun o ho => h o ?_)
    · rw [List.isEmpty_iff.1 hempty]
      rfl
    · exact List.mem_filterMap.2 ⟨_, hmem, ho⟩

theorem spelledCall_eq_iff {name : String} :
    reading.spelledCall bound name = other.spelledCall bound name ↔
      ∀ o ∈ receiverOccurrences bound name, reading o = other o := by
  rw [spelledCall, spelledCall, receiverOccurrences]
  cases splitReceiver name with
  | none => simp
  | some parts =>
    obtain ⟨receiver, method⟩ := parts
    simp only [Option.toList_some, List.map_cons, List.map_nil, List.mem_singleton, forall_eq]
    rw [← spelledPath_eq_iff, ← String.toList_inj, Text.toList_dotted, Text.toList_dotted,
      List.append_cancel_right_eq, String.toList_inj]

end Reading

/-! ## Readings that agree

Spelling out changes every chosen occurrence to another text, since the name alone is never what
reads it through a pointer.  So trees that are spelled out alike tell the readings apart at each
occurrence.  The proof follows the two recursions. -/

section Agreement

variable {reading other : Reading}

namespace Expr

mutual

/-- Two readings spell an expression out alike exactly if they agree on its occurrences. -/
theorem spellOut_eq_iff (bound : List String) :
    (e : Expr) → (e.spellOut reading bound = e.spellOut other bound ↔
      ∀ o ∈ e.occurrences bound, reading o = other o)
  | .int _ | .float _ | .bool _ | .enumValue _ => by
    simp only [spellOut, occurrences, List.not_mem_nil, false_implies, implies_true]
  | .str raw => by
    simp only [spellOut, occurrences, Expr.str.injEq, Reading.spelledLiteral_eq_iff]
  | .ident name => by
    simp only [spellOut, occurrences, Expr.ident.injEq, Reading.spelled_eq_iff,
      List.mem_singleton, forall_eq]
  | .binary left op right _ => by
    simp only [spellOut, occurrences, Expr.binary.injEq, true_and, and_true, List.forall_mem_append,
      spellOut_eq_iff bound left, spellOut_eq_iff bound right]
  | .unary op operand => by
    simp only [spellOut, occurrences, Expr.unary.injEq, true_and, spellOut_eq_iff bound operand]
  | .trailing op operand => by
    simp only [spellOut, occurrences, Expr.trailing.injEq, true_and,
      spellOut_eq_iff bound operand]
  | .conditional condition thenValue elseValue => by
    simp only [spellOut, occurrences, Expr.conditional.injEq, List.forall_mem_append,
      spellOut_eq_iff bound condition, spellOut_eq_iff bound thenValue,
      spellOut_eq_iff bound elseValue, and_assoc]
  | .call ⟨name, args, line⟩ => by
    simp only [spellOut, occurrences, Expr.call.injEq, Call.mk.injEq, and_true,
      List.forall_mem_append, Reading.spelledCall_eq_iff, spellOutArgs_eq_iff bound args]
  | .member object field => by
    simp only [spellOut, occurrences, Expr.member.injEq, and_true, spellOut_eq_iff bound object]
  | .index base position => by
    simp only [spellOut, occurrences, Expr.index.injEq, List.forall_mem_append,
      spellOut_eq_iff bound base, spellOut_eq_iff bound position]
  | .array ⟨elements, _⟩ => by
    simp only [spellOut, occurrences, Expr.array.injEq, ArrayLit.mk.injEq, and_true,
      spellOutList_eq_iff bound elements]
  | .fill value count => by
    simp only [spellOut, occurrences, Expr.fill.injEq, List.forall_mem_append,
      spellOut_eq_iff bound value, spellOut_eq_iff bound count]
  | .record ⟨_, fields⟩ => by
    simp only [spellOut, occurrences, Expr.record.injEq, RecordLit.mk.injEq, true_and,
      spellOutFields_eq_iff bound fields]
  | .construct _ args => by
    simp only [spellOut, occurrences, Expr.construct.injEq, true_and,
      spellOutArgs_eq_iff bound args]
  | .select ⟨subject, arms, otherwise, _⟩ => by
    simp only [spellOut, occurrences, Expr.select.injEq, Match.mk.injEq, and_true,
      List.forall_mem_append, spellOut_eq_iff bound subject, spellOutArms_eq_iff bound arms,
      spellOutOption_eq_iff bound otherwise, and_assoc]
  | .reference operand => by
    simp only [spellOut, occurrences, Expr.reference.injEq, spellOut_eq_iff bound operand]
  | .move operand => by
    simp only [spellOut, occurrences, Expr.move.injEq, spellOut_eq_iff bound operand]

theorem spellOutList_eq_iff (bound : List String) :
    (es : List Expr) → (spellOutList reading bound es = spellOutList other bound es ↔
      ∀ o ∈ listOccurrences bound es, reading o = other o)
  | [] => by simp only [spellOutList, listOccurrences, List.not_mem_nil, false_implies,
      implies_true]
  | e :: es => by
    simp only [spellOutList, listOccurrences, List.cons.injEq, List.forall_mem_append,
      spellOut_eq_iff bound e, spellOutList_eq_iff bound es]

theorem spellOutOption_eq_iff (bound : List String) :
    (e : Option Expr) → (spellOutOption reading bound e = spellOutOption other bound e ↔
      ∀ o ∈ optionOccurrences bound e, reading o = other o)
  | none => by simp only [spellOutOption, optionOccurrences, List.not_mem_nil, false_implies,
      implies_true]
  | some e => by
    simp only [spellOutOption, optionOccurrences, Option.some.injEq, spellOut_eq_iff bound e]

theorem spellOutArgs_eq_iff (bound : List String) :
    (args : List (Arg Expr)) → (spellOutArgs reading bound args = spellOutArgs other bound args ↔
      ∀ o ∈ argOccurrences bound args, reading o = other o)
  | [] => by simp only [spellOutArgs, argOccurrences, List.not_mem_nil, false_implies,
      implies_true]
  | ⟨_, value, _, _⟩ :: args => by
    simp only [spellOutArgs, argOccurrences, List.cons.injEq, Arg.mk.injEq, true_and, and_true,
      List.forall_mem_append, spellOut_eq_iff bound value, spellOutArgs_eq_iff bound args]

theorem spellOutFields_eq_iff (bound : List String) :
    (fields : List (FieldInit Expr)) →
      (spellOutFields reading bound fields = spellOutFields other bound fields ↔
        ∀ o ∈ fieldOccurrences bound fields, reading o = other o)
  | [] => by simp only [spellOutFields, fieldOccurrences, List.not_mem_nil, false_implies,
      implies_true]
  | ⟨_, value⟩ :: fields => by
    simp only [spellOutFields, fieldOccurrences, List.cons.injEq, FieldInit.mk.injEq, true_and,
      List.forall_mem_append, spellOut_eq_iff bound value, spellOutFields_eq_iff bound fields]

theorem spellOutPattern_eq_iff (bound : List String) :
    (pattern : Pattern Expr) →
      (spellOutPattern reading bound pattern = spellOutPattern other bound pattern ↔
        ∀ o ∈ patternOccurrences bound pattern, reading o = other o)
  | .literal value => by
    simp only [spellOutPattern, patternOccurrences, Pattern.literal.injEq,
      spellOut_eq_iff bound value]
  | .enumValue _ => by
    simp only [spellOutPattern, patternOccurrences, List.not_mem_nil, false_implies, implies_true]
  | .record _ fields => by
    simp only [spellOutPattern, patternOccurrences, Pattern.record.injEq, true_and,
      spellOutFieldPatterns_eq_iff bound fields]

theorem spellOutFieldPatterns_eq_iff (bound : List String) :
    (fields : List (FieldPattern Expr)) →
      (spellOutFieldPatterns reading bound fields = spellOutFieldPatterns other bound fields ↔
        ∀ o ∈ fieldPatternOccurrences bound fields, reading o = other o)
  | [] => by simp only [spellOutFieldPatterns, fieldPatternOccurrences, List.not_mem_nil,
      false_implies, implies_true]
  | ⟨_, value⟩ :: fields => by
    simp only [spellOutFieldPatterns, fieldPatternOccurrences, List.cons.injEq,
      FieldPattern.mk.injEq, true_and, List.forall_mem_append, spellOutOption_eq_iff bound value,
      spellOutFieldPatterns_eq_iff bound fields]

theorem spellOutArms_eq_iff (bound : List String) :
    (arms : List (Arm Expr)) → (spellOutArms reading bound arms = spellOutArms other bound arms ↔
      ∀ o ∈ armOccurrences bound arms, reading o = other o)
  | [] => by simp only [spellOutArms, armOccurrences, List.not_mem_nil, false_implies,
      implies_true]
  | ⟨pattern, body⟩ :: arms => by
    simp only [spellOutArms, armOccurrences, List.cons.injEq, Arm.mk.injEq,
      List.forall_mem_append, spellOutPattern_eq_iff bound pattern,
      spellOut_eq_iff (pattern.boundNames ++ bound) body, spellOutArms_eq_iff bound arms]

end

end Expr

namespace Stmt

mutual

theorem spellOut_eq_iff (bound : List String) :
    (stmt : Stmt) → (stmt.spellOut reading bound = stmt.spellOut other bound ↔
      ∀ o ∈ stmt.occurrences bound, reading o = other o)
  | .declare decl => by
    simp only [spellOut, occurrences, Stmt.declare.injEq, VarDecl.mk.injEq, true_and, and_true,
      Expr.spellOutOption_eq_iff]
  | .assign a => by
    simp only [spellOut, occurrences, Stmt.assign.injEq, Assignment.mk.injEq, and_true,
      List.forall_mem_cons, Reading.spelled_eq_iff, Expr.spellOut_eq_iff]
  | .assignIndex a => by
    simp only [spellOut, occurrences, Stmt.assignIndex.injEq, IndexAssignment.mk.injEq, and_true,
      List.forall_mem_append, Expr.spellOut_eq_iff, and_assoc]
  | .assignMember a => by
    simp only [spellOut, occurrences, Stmt.assignMember.injEq, MemberAssignment.mk.injEq,
      true_and, and_true, List.forall_mem_append, Expr.spellOut_eq_iff]
  | .ret value => by
    simp only [spellOut, occurrences, Stmt.ret.injEq, Expr.spellOutOption_eq_iff]
  | .evaluate e => by
    simp only [spellOut, occurrences, Stmt.evaluate.injEq, Expr.spellOut_eq_iff]
  | .block body => by
    simp only [spellOut, occurrences, Stmt.block.injEq, spellOutBody_eq_iff bound body]
  | .branch condition thenBranch elseBranch => by
    simp only [spellOut, occurrences, Stmt.branch.injEq, List.forall_mem_append,
      Expr.spellOut_eq_iff, spellOut_eq_iff bound thenBranch,
      spellOutOption_eq_iff bound elseBranch, and_assoc]
  | .forRange counter first limit body => by
    simp only [spellOut, occurrences, Stmt.forRange.injEq, true_and, List.forall_mem_append,
      Expr.spellOut_eq_iff, spellOut_eq_iff (counter :: bound) body, and_assoc]
  | .forEach item items body => by
    simp only [spellOut, occurrences, Stmt.forEach.injEq, true_and, List.forall_mem_append,
      Expr.spellOut_eq_iff, spellOut_eq_iff (item :: bound) body]

/-- Two readings spell a body out alike exactly if they agree on its occurrences. -/
theorem spellOutBody_eq_iff (bound : List String) :
    (body : List Stmt) → (spellOutBody reading bound body = spellOutBody other bound body ↔
      ∀ o ∈ bodyOccurrences bound body, reading o = other o)
  | [] => by simp only [spellOutBody, bodyOccurrences, List.not_mem_nil, false_implies,
      implies_true]
  | stmt :: body => by
    simp only [spellOutBody, bodyOccurrences, List.cons.injEq, List.forall_mem_append,
      spellOut_eq_iff bound stmt, spellOutBody_eq_iff (stmt.boundNames ++ bound) body]

theorem spellOutOption_eq_iff (bound : List String) :
    (stmt : Option Stmt) → (spellOutOption reading bound stmt = spellOutOption other bound stmt ↔
      ∀ o ∈ optionOccurrences bound stmt, reading o = other o)
  | none => by simp only [spellOutOption, optionOccurrences, List.not_mem_nil, false_implies,
      implies_true]
  | some stmt => by
    simp only [spellOutOption, optionOccurrences, Option.some.injEq, spellOut_eq_iff bound stmt]

end

end Stmt

end Agreement

end UiLowering
