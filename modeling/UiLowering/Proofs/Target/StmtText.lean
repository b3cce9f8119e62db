import UiLowering.Proofs.Effect.BoundWrite
import UiLowering.Proofs.Target.ExprText
import UiLowering.Proofs.Target.ViewText

/-!
# The texts of statements

A statement that contains no others and writes to no bound collection is one statement in target
text, with two kinds of exceptions.  The declaration of an array of copies whose number is known
only when the program runs is two: the array is declared first and filled then.  And a statement
that begins with the text of an expression in braces ends behind the braces, since what stands
there is read as a block; a formatter block is meant as one.

All lemmas have the form that a text is `Settled b`, where `b` is computed from the statement.  So
nothing has to be said twice, for the single statements and for the others.  What has to be found in
each case is the shape of the text: where it begins, where its semicolon stands, and that everything
between is even.
-/

set_option autoImplicit false

namespace UiLowering

open Target

/-- Whether a variable is declared first and filled by a statement of its own. -/
def VarDecl.isFilledLater (decl : VarDecl) : Bool :=
  match decl.initializer with
  | some (.fill _ (.int _)) => false
  | some (.fill _ _) => true
  | _ => false

/-- Whether a text begins with no brace, so that a statement that begins with it goes on behind
it. -/
def opensNoBlock (code : String) : Bool := (blockRest? code.toList).isNone

/-- Whether the text of an expression, as a statement, is one: it begins with no brace, or it is a
formatter block and nothing else. -/
def isSingleCode (code : String) : Bool :=
  match blockRest? code.toList with
  | none => true
  | some rest => Text.startsWith "\x7b webcc::formatter" code && rest.all Text.isBlank

/-- Whether the text of an expression satisfies a test.  An expression without a text passes. -/
def Env.passes (env : Env) (test : String → Bool) (e : Expr) : Bool :=
  match (env.exprText e).result with
  | .ok code => test code
  | .error _ => true

/-! ## Declarations

The text of a type and the name of the variable come first, so a declaration never begins with a
brace.  It is one statement, unless the array is filled by a second one. -/

section Declarations

variable {env : Env}

namespace TypeName

theorem isTypeName_of_elementName? {name element : String} (h : IsTypeName name)
    (helement : elementName? name = some element) : IsTypeName element := by
  unfold elementName? at helement
  split at helement
  · rename_i found hfound
    cases helement
    exact h.trim.dropEnd? hfound rfl (by decide)
  · obtain ⟨⟨found, size⟩, hfound, rfl⟩ := Option.map_eq_some_iff.1 helement
    obtain ⟨hname, hsize, -⟩ := fixedArray?_eq_some_iff.1 hfound
    exact IsTypeName.of_sizedName (hname ▸ h.trim) (quiet_of_isSize hsize)

end TypeName

theorem isTerm_movedIf (isMove : Bool) {code : String} (h : IsTerm code) :
    IsTerm (movedIf isMove code) := by
  cases isMove with
  | false => exact h
  | true => exact isTerm_moved h.body

/-! ### Shapes of declarations

The three shapes that a declaration can have.  In each of them the type and the name stand in front,
and what comes behind is a value, a value in braces or nothing. -/

/-- A declaration without a value. -/
theorem settled_declaration {head : String} (hhead : IsTypeName head) :
    Settled true (head ++ ";") := by
  have heven : Even [';', '{', '('] (head.toList.dropWhile Text.isBlank) :=
    even_dropWhile_isBlank (by decide) hhead
  exact settled_semicolon hhead.body
    ⟨0, stands_clause (hhead.weaken (by decide)) (isHeaded_of_even heven)⟩

/-- A declaration with a value. -/
theorem settled_definition {head code : String} (hhead : IsTypeName head)
    (hnot : ∃ c ∈ head.toList, Text.isBlank c = false) (hcode : Even [';'] code.toList) :
    Settled true (head ++ " = " ++ code ++ ";") := by
  have hchars :
      (head ++ " = " ++ code).toList = head.toList ++ [' '] ++ '=' :: ' ' :: code.toList := by
    simp only [String.toList_append, List.append_assoc]
    rfl
  have heven : Even [';'] (head ++ " = " ++ code).toList :=
    Even.text (Even.text (hhead.weaken (by decide)) rfl) hcode
  obtain ⟨c, hc, hblank⟩ := hnot
  refine settled_semicolon heven.body ?_
  rw [hchars] at heven ⊢
  exact settles_of_head (hhead.append rfl) ⟨c, List.mem_append_left _ hc, hblank⟩ (by decide) heven

/-- A declaration with a value in braces. -/
theorem settled_initialization {head code : String} (hhead : IsTypeName head)
    (hnot : ∃ c ∈ head.toList, Text.isBlank c = false) (hcode : Even [] code.toList) :
    Settled true (head ++ braced code ++ ";") := by
  have hchars : (head ++ braced code).toList = head.toList ++ '{' :: (code.toList ++ ['}']) := by
    simp only [braced, String.toList_append, List.append_assoc]
    rfl
  have heven : Even [';'] (head.toList ++ '{' :: (code.toList ++ ['}'])) :=
    (hhead.weaken (by decide)).append (Even.group rfl (by decide) rfl hcode)
  refine settled_semicolon ?_ ?_
  · rw [hchars]
    exact heven.body
  · rw [hchars]
    exact settles_of_head hhead hnot (by decide) heven

theorem even_referenceMark {stops : List Char} (hstops : Loud stops)
    (isReference : Bool) : Even stops (Env.referenceMark isReference).toList := by
  refine Quiet.even_of ?_ hstops
  cases isReference <;> decide

theorem isTypeName_head {typeText name : String} (isReference : Bool) (htype : IsTypeName typeText)
    (hname : IsVariable name) :
    IsTypeName (typeText ++ Env.referenceMark isReference ++ " " ++ name) :=
  Even.text (Even.text (Even.text htype (even_referenceMark (by decide) _)) rfl) hname.quiet.even

theorem IsVariable.exists_not_blank_append {name : String} (h : IsVariable name) (s : String) :
    ∃ c ∈ (s ++ name).toList, Text.isBlank c = false := by
  obtain ⟨c, hc, hblank⟩ := h.not_blank
  refine ⟨c, ?_, hblank⟩
  rw [String.toList_append]
  exact List.mem_append_right _ hc

theorem isTypeName_modifier (isMutable : Bool) :
    IsTypeName (if isMutable then "" else "const ") := by
  cases isMutable <;> rfl

theorem Env.yields_initialized (henv : env.IsTidy) {head : String} {initializer : Option Expr}
    (isMove isHandle : Bool) (hhead : IsTypeName head)
    (hnot : ∃ c ∈ head.toList, Text.isBlank c = false) :
    (∀ e ∈ initializer, Expr.AllTidy e.nodes) →
      Lowered.Yields (Settled true) (match initializer with
        | some value => do
          let code ← env.exprText value
          let code := movedIf isMove code
          return head ++ (if isHandle then braced code else " = " ++ code) ++ ";"
        | none => return head ++ ";") := by
  intro hinit
  cases initializer with
  | none => exact Lowered.yields_pure (settled_declaration hhead)
  | some value =>
    refine (yields_exprText henv (hinit value rfl)).bind fun code hcode => Lowered.yields_pure ?_
    have hmoved : IsTerm (movedIf isMove code) := isTerm_movedIf _ hcode
    cases isHandle with
    | true => exact settled_initialization hhead hnot hmoved.body
    | false =>
      rw [if_neg Bool.false_ne_true, ← String.append_assoc]
      exact settled_definition hhead hnot hmoved.even

theorem Env.yields_plainDeclText (henv : env.IsTidy) {decl : VarDecl}
    (htype : IsTypeName decl.typeName) (hname : IsVariable decl.name)
    (hinit : ∀ e ∈ decl.initializer, Expr.AllTidy e.nodes) :
    (env.plainDeclText decl).Yields (Settled true) := by
  refine (isTypeName_typeText henv htype).bind fun typeText htext => ?_
  refine yields_initialized henv decl.isMove _ ?_ (hname.exists_not_blank_append _) hinit
  exact isTypeName_head decl.isReference (Even.text (isTypeName_modifier _) htext) hname

/-! ### Arrays

An array literal is told its type before it is lowered, so the tidiness of the literal has to
survive that.  An array of copies whose number is not known is the one declaration that is two
statements. -/

/-- An expected type that is the name of one leaves tidy expressions tidy. -/
theorem Expr.AllTidy.withExpectedTypes {typeName : String} (htype : IsTypeName typeName)
    {es : List Expr} (h : AllTidy (listNodes es)) :
    AllTidy (listNodes (withExpectedTypes typeName es)) := by
  refine each_withExpectedTypes ⟨fun hname hrecord => ⟨fun name hmem => ?_, hrecord.2⟩,
    fun _ => trivial, fun hname hinner => hname.dropEnd? hinner rfl (by decide)⟩ htype es h
  cases hmem
  exact hname

theorem Env.yields_arrayDeclText (henv : env.IsTidy) {decl : VarDecl} {element : String}
    {literal : ArrayLit Expr} (htype : IsTypeName element) (hname : IsVariable decl.name)
    (hliteral : Expr.AllTidy (Expr.listNodes literal.elements)) :
    (env.arrayDeclText decl element literal).Yields (Settled true) := by
  refine (isTypeName_typeText henv htype).bind fun elementText htext => ?_
  have helements := sound_lowerList henv _ (Expr.AllTidy.withExpectedTypes htype hliteral)
  refine (yields_arrayText helements).bind fun code hcode => Lowered.yields_pure ?_
  refine settled_definition (isTypeName_head _ ?_ hname) (hname.exists_not_blank_append _)
    hcode.even
  split
  · exact Even.text (Even.text rfl htext) rfl
  · exact Even.text (Even.text (Even.text (Even.text rfl htext) rfl)
      (quiet_toString_nat _).even) rfl

/-- A variable that is declared first and filled then is two statements. -/
theorem settled_filled {declared name value : String} (h : Settled true (declared ++ ";"))
    (hname : IsVariable name) (hvalue : Even [] value.toList) :
    Settled false (declared ++ "; " ++ name ++ ".fill(" ++ value ++ ");") := by
  have hsplit : declared ++ "; " ++ name ++ ".fill(" ++ value ++ ");" =
      declared ++ ";" ++ (" " ++ name ++ ".fill(" ++ value ++ ");") := by
    rw [show "; " = ";" ++ " " from rfl]
    simp only [String.append_assoc]
  have hspace : Even [] (" " ++ name).toList := Even.text rfl hname.quiet.even.body
  have hchars : (" " ++ name ++ ".fill(" ++ value ++ ");").toList =
      ' ' :: name.toList ++ ['.'] ++ ("fill(" ++ value ++ ");").toList := by
    simp only [String.toList_append, List.append_assoc]
    rfl
  have hrest : ∃ c ∈ ("fill(" ++ value ++ ");").toList, Text.isBlank c = false := by
    refine ⟨'f', ?_, rfl⟩
    simp [String.toList_append]
  rw [hsplit]
  refine h.append_of_chars (even_between (Walks.text hspace rfl) hvalue rfl) hchars hrest
    fun k => ?_
  rw [List.append_assoc]
  exact elsePart?_append hname.not_blank hname.not_else (by decide) k

theorem Env.yields_fillDeclText (henv : env.IsTidy) {decl : VarDecl} {value count : Expr}
    (htype : IsTypeName decl.typeName) (hname : IsVariable decl.name)
    (hvalue : Expr.AllTidy value.nodes) (hcount : Expr.AllTidy count.nodes) :
    (env.fillDeclText decl value count).Yields fun t =>
      ((∃ n, count = .int n) → Settled true t) ∧ ((∀ n, count ≠ .int n) → Settled false t) := by
  unfold fillDeclText
  extract_lets rest
  have hrest (element : String) (htext : IsTypeName element) : (rest element).Yields fun t =>
      ((∃ n, count = .int n) → Settled true t) ∧ ((∀ n, count ≠ .int n) → Settled false t) := by
    refine (yields_exprText henv hvalue).bind fun valueCode hcode => ?_
    split
    · rename_i n
      refine Lowered.yields_pure
        ⟨fun _ => settled_definition ?_ (hname.exists_not_blank_append _) ?_,
          fun hne => absurd rfl (hne n)⟩
      · exact Even.text (Even.text (Even.text (Even.text (Even.text (Even.text
          (isTypeName_modifier _) rfl) htext) rfl) (quiet_toString_nat _).even) rfl)
          hname.quiet.even
      · refine (isTerm_braced_join fun t ht => ?_).even
        rw [List.eq_of_mem_replicate ht]
        exact hcode.body
    · rename_i hne
      refine (yields_exprText henv hcount).bind fun countCode hcount => Lowered.yields_pure ?_
      refine ⟨fun ⟨n, hn⟩ => absurd hn (hne n), fun _ => settled_filled ?_ hname hcode.body⟩
      have heven : Even [';'] ("webcc::array<" ++ element ++ ", " ++ countCode ++ "> " ++
          decl.name).toList :=
        Even.text (Even.text (Even.text (Even.text (Even.text rfl (htext.weaken (by decide))) rfl)
          hcount.even) rfl) (hname.quiet.even.weaken (by decide))
      refine settled_semicolon heven.body ?_
      have hchars : ("webcc::array<" ++ element ++ ", " ++ countCode ++ "> " ++ decl.name).toList =
          "webcc::array".toList ++
            '<' :: (element ++ ", " ++ countCode ++ "> " ++ decl.name).toList := by
        simp only [String.toList_append, List.append_assoc]
        rfl
      rw [hchars] at heven ⊢
      exact settles_of_head rfl ⟨'w', List.mem_cons_self, rfl⟩ (by decide) heven
  split
  · rename_i form hform
    obtain ⟨element, helement, rfl⟩ := Option.map_eq_some_iff.1 hform
    exact (isTypeName_typeText henv (TypeName.isTypeName_of_elementName? htype helement)).bind hrest
  · exact (isTypeName_typeText henv htype).bind hrest

theorem VarDecl.isFilledLater_eq_true {decl : VarDecl} {value count : Expr}
    (h : decl.initializer = some (.fill value count)) (hne : ∀ n, count ≠ .int n) :
    decl.isFilledLater = true := by
  unfold isFilledLater
  rw [h]
  cases count with
  | int n => exact absurd rfl (hne n)
  | _ => rfl

theorem Env.yields_declText (henv : env.IsTidy) {decl : VarDecl} (htype : IsTypeName decl.typeName)
    (hname : IsVariable decl.name) (hinit : ∀ e ∈ decl.initializer, Expr.AllTidy e.nodes) :
    (env.declText decl).Yields (Settled (!decl.isFilledLater)) := by
  have hplain := yields_plainDeclText henv htype hname hinit
  unfold declText
  split
  · rename_i value count hvalue
    have hfill := hinit _ hvalue
    rw [Expr.nodes] at hfill
    refine (yields_fillDeclText henv htype hname hfill.tail.left hfill.tail.right).mono
      fun t ht => ?_
    by_cases hcount : ∃ n, count = .int n
    · obtain ⟨n, rfl⟩ := hcount
      have hlater : decl.isFilledLater = false := by
        rw [VarDecl.isFilledLater, hvalue]
      rw [hlater]
      exact ht.1 ⟨n, rfl⟩
    · have hne : ∀ n, count ≠ .int n := fun n hn => hcount ⟨n, hn⟩
      rw [VarDecl.isFilledLater_eq_true hvalue hne]
      exact ht.2 hne
  · rename_i literal hvalue
    have hliteral := hinit _ hvalue
    rw [Expr.nodes] at hliteral
    have hlater : decl.isFilledLater = false := by
      rw [VarDecl.isFilledLater, hvalue]
    rw [hlater]
    split
    · rename_i element helement
      exact yields_arrayDeclText henv (htype.trim.dropEnd? helement rfl (by decide)) hname
        hliteral.tail
    · exact hplain
  · rename_i hfill harray
    have hlater : decl.isFilledLater = false := by
      unfold VarDecl.isFilledLater
      split
      · rfl
      · rename_i value count _ hvalue
        exact absurd hvalue (hfill value count)
      · rfl
    rw [hlater]
    exact hplain

end Declarations

/-! ## Assignments

An assignment to a variable begins with a name.  One to an element or a member begins with the text
of an expression, and goes on in a way that keeps the expression from being a statement of its
own. -/

/-- An assignment to an element or a member of what an expression stands for.  The continuation of
the expression's text begins with the index or the member. -/
theorem settled_assignText {t x value : String} {op : Option String} (ht : IsTerm t)
    (hx : Even [';'] x.toList) (hhead : ∃ c k, x.toList = c :: k ∧ (c = '[' ∨ c = '.'))
    (hvalue : Even [';'] value.toList) (hop : ∀ code ∈ op, Quiet code.toList) :
    Settled (blockRest? t.toList).isNone (assignText (t ++ x) value op) := by
  -- Both forms are the text, the index or member, and a text that a semicolon may follow.
  suffices hform : ∀ after : String, Even [';'] after.toList →
      Settled (blockRest? t.toList).isNone (t ++ x ++ after ++ ";\n") by
    cases op with
    | none =>
      have hafter : Even [';'] (" = " ++ value).toList := Even.text rfl hvalue
      have hsettled := hform _ hafter
      rwa [← String.append_assoc] at hsettled
    | some code =>
      have hcode : Even [';'] code.toList := (hop code rfl).even.weaken (by decide)
      have hafter : Even [';'] (" = " ++ (t ++ x) ++ " " ++ code ++ " " ++ value).toList :=
        Even.text (Even.text (Even.text (Even.text (Even.text rfl (ht.even.text hx)) rfl) hcode)
          rfl) hvalue
      have hsettled := hform _ hafter
      rw [assignText]
      simp only [← String.append_assoc] at hsettled ⊢
      exact hsettled
  intro after hafter
  have heven : Even [';'] (x ++ after).toList := hx.text hafter
  have hcontinuation : IsContinuation (x ++ after).toList := by
    refine ⟨heven, fun d hd => ?_⟩
    obtain ⟨c, k, hchars, hc⟩ := hhead
    rw [String.toList_append, hchars] at hd
    cases hd
    exact hc.imp_right Or.inl
  refine settled_clause ((ht.even.text hx).text hafter).body ?_
  rw [String.append_assoc, String.toList_append]
  exact ht.tame.settles hcontinuation

theorem settled_elementText {t index value : String} {op : Option String} (ht : IsTerm t)
    (hindex : Even [] index.toList) (hvalue : Even [';'] value.toList)
    (hop : ∀ code ∈ op, Quiet code.toList) :
    Settled (blockRest? t.toList).isNone (assignText (t ++ "[" ++ index ++ "]") value op) := by
  have hassoc : t ++ "[" ++ index ++ "]" = t ++ ("[" ++ index ++ "]") := by
    simp only [String.append_assoc]
  have hchars : ("[" ++ index ++ "]").toList = '[' :: (index.toList ++ [']']) := by
    simp only [String.toList_append, List.append_assoc]
    rfl
  have hgroup : Even [';'] ("[" ++ index ++ "]").toList := by
    rw [hchars]
    exact Even.group rfl (by decide) rfl hindex
  rw [hassoc]
  exact settled_assignText ht hgroup ⟨'[', _, hchars, Or.inl rfl⟩ hvalue hop

theorem Scope.firstChar?_read_ne (scope : Scope) {name : String} (h : Quiet name.toList) :
    firstChar? (scope.read name).toList ≠ some '{' := by
  unfold read
  split
  · simp only [String.toList_append, List.append_assoc]
    simp [firstChar?, Text.isBlank]
  · exact h.firstChar?_ne rfl

theorem Scope.settled_assignment (scope : Scope) {name value : String} (h : Quiet name.toList)
    (hvalue : Even [';'] value.toList) :
    Settled true (assignText (scope.read name) value none) := by
  have hterm := scope.isTerm_read h
  have hcontinuation : IsContinuation ("= " ++ value).toList := by
    refine ⟨Even.text rfl hvalue, fun c hc => ?_⟩
    rw [String.toList_append] at hc
    cases hc
    exact Or.inr (Or.inr rfl)
  have htame : Tame ((scope.read name).toList ++ [' ']) :=
    hterm.tame.append_right rfl (by decide)
  have hfirst : firstChar? ((scope.read name).toList ++ [' ']) ≠ some '{' :=
    firstChar?_append_ne (scope.firstChar?_read_ne h) (by decide)
  have hchars : (scope.read name ++ " = " ++ value).toList =
      (scope.read name).toList ++ [' '] ++ ("= " ++ value).toList := by
    simp only [String.toList_append, List.append_assoc]
    rfl
  have heven : Even [';'] (scope.read name ++ " = " ++ value).toList :=
    Even.text (Even.text hterm.even rfl) hvalue
  refine settled_clause heven.body ?_
  rw [hchars]
  exact htame.exists_stands hfirst hcontinuation

/-! ## Expressions as statements

The text of the expression is all there is, so whether it begins with a brace decides.  A formatter
block is a block on purpose and gets no semicolon. -/

theorem settled_expression {code : String} (h : IsTerm code) :
    Settled (isSingleCode code)
      (if Text.startsWith "\x7b webcc::formatter" code then code ++ "\n" else code ++ ";\n") := by
  have hclause : Settled (blockRest? code.toList).isNone (code ++ ";\n") := by
    refine settled_clause h.body ?_
    have hsettles := h.tame.settles IsContinuation.nil
    rwa [List.append_nil] at hsettles
  unfold isSingleCode
  rcases h.tame.block_cases with ⟨hfirst, hrest⟩ | ⟨p, b, s, hcode, hp, hb, hs, helse, hrest⟩
  · rw [hrest] at hclause ⊢
    have hstart : Text.startsWith "\x7b webcc::formatter" code = false := by
      rw [← Bool.not_eq_true]
      intro hstart
      obtain ⟨rest, hprefix⟩ := List.isPrefixOf_iff_prefix.1 hstart
      rw [← hprefix] at hfirst
      exact hfirst rfl
    rw [hstart]
    exact hclause
  · rw [hrest] at hclause ⊢
    cases hstart : Text.startsWith "\x7b webcc::formatter" code with
    | false => exact hclause
    | true =>
      -- No semicolon is added, so what stands behind the block decides.
      refine Settled.line ⟨h.body, ?_⟩
      change Settles (s.all Text.isBlank) _
      rcases blank_or_not s with hblank | hnot
      · have hall : s.all Text.isBlank = true := List.all_eq_true.2 hblank
        rw [hcode, List.append_cons, trimEndChars_append_of_blank hblank, trimEndChars_concat _ rfl,
          List.append_assoc, hall]
        exact ⟨0, (stands_block hb rfl).blanks hp⟩
      · have hall : s.all Text.isBlank = false := by
          obtain ⟨c, hc, hblank⟩ := hnot
          exact List.all_eq_false.2 ⟨c, hc, by rw [hblank]; exact Bool.false_ne_true⟩
        rw [hcode, List.append_cons, trimEndChars_append_of_not_blank hnot, ← List.append_cons,
          hall]
        refine breaks_of_block hp hb (exists_mem_trimEndChars hnot) ?_
        rwa [firstChar?_trimEndChars hnot]

/-! ## Statements without parts

The tests on texts, `Env.passes`, are decided by the text that the lowering gives.  An expression
without a text passes any test, since then the statement has no text either. -/

namespace Env

variable {env : Env}

theorem passes_of_result {test : String → Bool} {e : Expr} {code : String}
    (h : (env.exprText e).result = .ok code) : env.passes test e = test code := by
  rw [passes, h]

/-- The text of a tidy expression is a term, and the tests on it are decided by it. -/
theorem yields_exprText_passes (henv : env.IsTidy) {e : Expr} (h : Expr.AllTidy e.nodes)
    (test : String → Bool) :
    (env.exprText e).Yields fun code => IsTerm code ∧ env.passes test e = test code :=
  fun code hcode => ⟨yields_exprText henv h code hcode, passes_of_result hcode⟩

theorem yields_assignedText (henv : env.IsTidy) {targetType : Option String} {code : String}
    (htype : ∀ name ∈ targetType, IsTypeName name) (hcode : IsTerm code) :
    (env.assignedText targetType code).Yields fun t => Even [';'] t.toList := by
  unfold assignedText
  split
  · rename_i typeName
    split
    · refine (isTypeName_typeText henv (htype typeName rfl)).bind fun typeText htext => ?_
      have hhead : Walks [';'] .start (typeText ++ "((int32_t)").toList ⟨1, .code⟩ :=
        Walks.text (htext.weaken (by decide)) rfl
      exact Lowered.yields_pure (Walks.text (Walks.text hhead hcode.even.inside) rfl)
    · exact Lowered.yields_pure hcode.even
  · exact Lowered.yields_pure hcode.even

theorem yields_reassignValue (henv : env.IsTidy) {a : Assignment}
    (htype : ∀ name ∈ a.targetType, IsTypeName name) (hvalue : Expr.AllTidy a.value.nodes) :
    (env.reassignValue a).Yields fun t => Even [';'] t.toList :=
  (yields_exprText henv hvalue).bind fun _ hcode =>
    yields_assignedText henv htype (isTerm_movedIf a.isMove hcode)

theorem quiet_compoundOperator {op : String} (h : Quiet op.toList) :
    Quiet (compoundOperator op).toList := by
  unfold compoundOperator
  split
  · rename_i base hbase
    split
    · exact h
    · refine h.of_subset ?_
      rw [toList_of_dropEnd? hbase]
      exact List.subset_append_left _ _
  · exact h

theorem forall_compoundOperator {op : Option String} (h : ∀ code ∈ op, Quiet code.toList) :
    ∀ code ∈ op.map compoundOperator, Quiet code.toList := by
  intro code hcode
  obtain ⟨given, hgiven, rfl⟩ := Option.map_eq_some_iff.1 hcode
  exact quiet_compoundOperator (h given hgiven)

theorem yields_assignmentText (henv : env.IsTidy) {a : Assignment} (hname : Quiet a.name.toList)
    (htype : ∀ name ∈ a.targetType, IsTypeName name) (hvalue : Expr.AllTidy a.value.nodes) :
    (env.assignmentText ∅ a).Yields (Settled true) := by
  rw [assignmentText]
  simp only [Std.ExtTreeMap.getElem?_empty]
  refine (yields_exprText henv hvalue).bind fun code hcode => ?_
  refine (yields_assignedText henv htype (isTerm_movedIf a.isMove hcode)).bind
    fun value hvalue => ?_
  exact Lowered.yields_pure (env.scope.settled_assignment hname hvalue)

theorem yields_indexAssignmentText (henv : env.IsTidy) {a : IndexAssignment}
    (harray : Expr.AllTidy a.array.nodes) (hposition : Expr.AllTidy a.position.nodes)
    (hvalue : Expr.AllTidy a.value.nodes) (hop : ∀ op ∈ a.compoundOp, Quiet op.toList) :
    (env.indexAssignmentText ∅ a).Yields (Settled (env.passes opensNoBlock a.array)) := by
  rw [indexAssignmentText, boundTo?_empty]
  refine (yields_exprText_passes henv harray opensNoBlock).bind fun target htarget => ?_
  refine (yields_exprText henv hposition).bind fun index hindex => ?_
  refine (yields_exprText henv hvalue).bind fun code hcode => Lowered.yields_pure ?_
  rw [htarget.2]
  exact settled_elementText htarget.1 hindex.body (isTerm_movedIf a.isMove hcode).even
    (forall_compoundOperator hop)

theorem yields_memberAssignmentText (henv : env.IsTidy) {a : MemberAssignment}
    (hobject : Expr.AllTidy a.object.nodes) (hfield : Quiet a.field.toList)
    (hvalue : Expr.AllTidy a.value.nodes) (hop : ∀ op ∈ a.compoundOp, Quiet op.toList) :
    (env.memberAssignmentText a).Yields (Settled (env.passes opensNoBlock a.object)) := by
  refine (yields_exprText_passes henv hobject opensNoBlock).bind fun object hobject => ?_
  refine (yields_exprText henv hvalue).bind fun code hcode => Lowered.yields_pure ?_
  have hmember : Even [';'] ("." ++ a.field).toList :=
    Even.text rfl (hfield.even.weaken (by decide))
  rw [hobject.2, String.append_assoc]
  exact settled_assignText hobject.1 hmember ⟨'.', _, String.toList_append, Or.inr rfl⟩
    (isTerm_movedIf a.isMove hcode).even (forall_compoundOperator hop)

theorem settled_return {code : String} (h : Even [';'] code.toList) :
    Settled true ("return" ++ code ++ ";\n") := by
  have heven : Even [';'] ("return" ++ code).toList := Even.text rfl h
  have hchars : ("return" ++ code).toList = "retur".toList ++ 'n' :: code.toList :=
    String.toList_append
  refine settled_clause heven.body ?_
  rw [hchars] at heven ⊢
  exact settles_of_head rfl ⟨'r', List.mem_cons_self, rfl⟩ (by decide) heven

theorem yields_plainStatementText (henv : env.IsTidy) {e : Expr} (h : Expr.AllTidy e.nodes) :
    (env.plainStatementText e).Yields (Settled (env.passes isSingleCode e)) := by
  refine (yields_exprText_passes henv h isSingleCode).bind fun code hcode => ?_
  rw [hcode.2]
  exact Lowered.yields_pure (settled_expression hcode.1)

theorem expressionText_empty (e : Expr) : env.expressionText ∅ e = env.plainStatementText e := by
  cases e with
  | call call => rw [expressionText, collectionCall?_empty]
  | _ => rfl

end Env

end UiLowering
