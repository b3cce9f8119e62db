import UiLowering.Proofs.Component.Isolation
import UiLowering.Proofs.Component.Scope
import UiLowering.Proofs.Scope.Body

/-!
# Which names are read through a pointer

A component stores the parameters that it takes by reference as pointers.  In its methods such a
parameter is read through the pointer, `(*n)`, unless the method declares the name `n` itself: as a
parameter, a variable or the counter of a loop.  It does not matter where in the method the
declaration stands.  The variables of loops over collections and the fields that patterns bind are
no declarations in this sense, and a path that begins with a capital is taken for a type.

What an occurrence of a name is written as is said by spelling it out: the text of a method is that
of the method with the occurrences spelled out, in a scope where every name is written as it stands
in the tree.

The scope of a method is that of its component with the parameters and all declarations of the
method as locals.  A local hides a reference of the same name, and since the scope is made before
the body is lowered, it does so from the first statement on.  `methodReading` says this on the
source, and `lexicalReading` is what one would expect from the places of the declarations.  The main
result states both and says exactly when they come to the same; `dereferenced_out_of_scope` shows
each way in which they can differ.

Two conditions are asked of the names.  They have to be simple, so that `(*n)` cannot be mistaken
for a name that was there before.  And no reference may have the name of a method, since a bare name
of a method is not read but forwarded to.
-/

set_option autoImplicit false

namespace UiLowering

/-! ## Scopes without pointers

To say that the tree itself shows what is written, there has to be a scope in which `(*n)` is an
ordinary name.  Such a scope is made by adding an entry under this text for each reference.  A
simple name has no parentheses, so the new entries cannot take the place of any that are there. -/

namespace NameMap

variable {α : Type}

/-- The entries of some names, under the texts that read the names through a pointer. -/
def referenceEntries (table : NameMap α) (references : NameSet) : List (String × α) :=
  references.toList.filterMap fun name =>
    table[name]?.map fun value => (Text.dereferenced name, value)

/-- A table in which the entries of some names stand under the texts that read the names through a
pointer as well. -/
def withReferences (table : NameMap α) (references : NameSet) : NameMap α :=
  ofEntries (table.toList ++ table.referenceEntries references)

variable {table : NameMap α} {references : NameSet} {name : String}

theorem mem_referenceEntries {value : α} :
    (name, value) ∈ table.referenceEntries references ↔
      ∃ reference ∈ references, table[reference]? = some value ∧
        Text.dereferenced reference = name := by
  simp only [referenceEntries, List.mem_filterMap, Option.map_eq_some_iff, Prod.mk.injEq,
    Std.ExtTreeSet.mem_toList]
  constructor
  · rintro ⟨reference, hreference, found, hfound, hname, rfl⟩
    exact ⟨reference, hreference, hfound, hname⟩
  · rintro ⟨reference, hreference, hfound, hname⟩
    exact ⟨reference, hreference, value, hfound, hname, rfl⟩

theorem getElem?_withReferences :
    (table.withReferences references)[name]? =
      (last? (table.referenceEntries references) name).or table[name]? := by
  have htable : last? table.toList name = table[name]? := by
    rw [← getElem?_ofEntries, ofEntries_toList]
  rw [withReferences, getElem?_ofEntries, last?_append, htable]

theorem getElem?_withReferences_of_ne
    (h : ∀ reference ∈ references, Text.dereferenced reference ≠ name) :
    (table.withReferences references)[name]? = table[name]? := by
  rw [getElem?_withReferences]
  cases hlast : last? (table.referenceEntries references) name with
  | none => rfl
  | some value =>
    obtain ⟨reference, hreference, -, hname⟩ :=
      mem_referenceEntries.1 (mem_of_last?_eq_some hlast)
    exact absurd hname (h reference hreference)

theorem getElem?_withReferences_dereferenced (h : name ∈ references)
    (htable : table[Text.dereferenced name]? = none) :
    (table.withReferences references)[Text.dereferenced name]? = table[name]? := by
  rw [getElem?_withReferences, htable, Option.or_none]
  have hentry {value : α}
      (hlast : last? (table.referenceEntries references) (Text.dereferenced name) = some value) :
      table[name]? = some value := by
    obtain ⟨reference, -, hvalue, hname⟩ := mem_referenceEntries.1 (mem_of_last?_eq_some hlast)
    rwa [Text.dereferenced_inj.1 hname] at hvalue
  refine Option.ext fun value => ⟨hentry, fun hvalue => ?_⟩
  have hmem := mem_referenceEntries.2 ⟨name, h, hvalue, rfl⟩
  obtain ⟨found, hfound⟩ := Option.isSome_iff_exists.1
    (isSome_last?_iff.2 (List.mem_map_of_mem (f := Prod.fst) hmem))
  rw [hfound, ← hvalue, hentry hfound]

end NameMap

namespace Scope

/-- A scope that reads every name as it is.  What it read through a pointer it knows as a member
under the text that reads it. -/
def withoutPointers (scope : Scope) : Scope :=
  { scope with
    members := scope.members.withReferences scope.references
    references := ∅ }

/-! ### Looking up a name

Simple names and the texts that read them through a pointer have nothing in common, so each lookup
in the scope without pointers falls into one of two cases.  What is left is to go through the
questions that are asked of a scope. -/

/-- The symbols of a scope have simple names, and what is read through a pointer is a member and no
method. -/
structure HasSimpleSymbols (scope : Scope) : Prop where
  members : ∀ name ∈ scope.members, Text.IsSimple name
  locals : ∀ name ∈ scope.locals, Text.IsSimple name
  methods : ∀ name ∈ scope.arities, Text.IsSimple name
  references : ∀ name ∈ scope.references, name ∈ scope.members ∧ name ∉ scope.arities

variable {scope : Scope} {name : String}

theorem not_isSimple_dereferenced (name : String) : ¬Text.IsSimple (Text.dereferenced name) := by
  intro h
  rw [Text.IsSimple, Text.toList_dereferenced] at h
  exact h.2 List.mem_cons_self

theorem kindOf?_eq_methodLocal_iff :
    scope.kindOf? name = some .methodLocal ↔ name ∈ scope.locals := by
  rw [← Std.ExtTreeMap.contains_iff_mem, kindOf?]
  split
  · rename_i hlocal
    exact ⟨fun _ => hlocal, fun _ => rfl⟩
  · rename_i hlocal
    refine ⟨fun h => ?_, fun h => absurd h hlocal⟩
    split at h <;> cases h

theorem mem_references_of_isReference (h : scope.isReference name = true) :
    name ∈ scope.references ∧ name ∉ scope.locals := by
  rw [isReference, Bool.and_eq_true, bne_iff_ne, Std.ExtTreeSet.contains_iff_mem] at h
  exact ⟨h.1, fun hlocal => h.2 (kindOf?_eq_methodLocal_iff.2 hlocal)⟩

/-- A table of simple names has no entry under a text that reads a name through a pointer. -/
theorem getElem?_dereferenced {α : Type} {table : NameMap α}
    (h : ∀ name ∈ table, Text.IsSimple name) (name : String) :
    table[Text.dereferenced name]? = none :=
  Std.ExtTreeMap.getElem?_eq_none fun hmem => not_isSimple_dereferenced name (h _ hmem)

/-- A table with the entries of the references added is looked up like the table itself, by the text
that reads the name. -/
theorem getElem?_withReferences_read {α : Type} {table : NameMap α}
    (h : ∀ name ∈ table, Text.IsSimple name) (hname : Text.IsSimple name) :
    (table.withReferences scope.references)[scope.read name]? = table[name]? := by
  cases hreference : scope.isReference name with
  | true =>
    rw [read_of_isReference hreference]
    exact NameMap.getElem?_withReferences_dereferenced (mem_references_of_isReference hreference).1
      (getElem?_dereferenced h name)
  | false =>
    rw [read_of_not_isReference hreference]
    refine NameMap.getElem?_withReferences_of_ne fun reference _ heq => ?_
    exact not_isSimple_dereferenced reference (heq ▸ hname)

/-- A path has an entry neither in a table of simple names nor among those added to it. -/
theorem getElem?_withReferences_of_dot {α : Type} {table : NameMap α}
    (h : ∀ name ∈ table, Text.IsSimple name)
    (hreferences : ∀ name ∈ scope.references, Text.IsSimple name) (hdot : '.' ∈ name.toList) :
    table[name]? = none ∧ (table.withReferences scope.references)[name]? = none := by
  have hnone : table[name]? = none :=
    Std.ExtTreeMap.getElem?_eq_none fun hmem => (h name hmem).1 hdot
  refine ⟨hnone, ?_⟩
  rw [NameMap.getElem?_withReferences_of_ne, hnone]
  rintro reference hreference rfl
  rw [Text.toList_dereferenced] at hdot
  exact (hreferences reference hreference).1 (by simpa using hdot)

namespace HasSimpleSymbols

theorem simple_of_reference (h : scope.HasSimpleSymbols) (hname : name ∈ scope.references) :
    Text.IsSimple name :=
  h.members name (h.references name hname).1

theorem locals_read (h : scope.HasSimpleSymbols) :
    scope.locals[scope.read name]? = scope.locals[name]? := by
  cases hreference : scope.isReference name with
  | true =>
    rw [read_of_isReference hreference, getElem?_dereferenced h.locals,
      Std.ExtTreeMap.getElem?_eq_none (mem_references_of_isReference hreference).2]
  | false => rw [read_of_not_isReference hreference]

theorem kindOf?_eq_none (h : scope.HasSimpleSymbols) (hdot : '.' ∈ name.toList) :
    scope.kindOf? name = none := by
  rw [kindOf?, if_neg, if_neg]
  · exact fun hmem => (h.members name (Std.ExtTreeMap.contains_iff_mem.1 hmem)).1 hdot
  · exact fun hmem => (h.locals name (Std.ExtTreeMap.contains_iff_mem.1 hmem)).1 hdot

/-- Nothing is known under a path, with or without pointers. -/
theorem agreeOn_withoutPointers (h : scope.HasSimpleSymbols) :
    scope.AgreeOn scope.withoutPointers fun _ => False := by
  refine ⟨rfl, rfl, rfl, rfl, rfl, fun name hname => ?_⟩
  have hdot : '.' ∈ name.toList := hname.resolve_right id
  obtain ⟨hnone, hnone'⟩ :=
    getElem?_withReferences_of_dot h.members (fun _ => h.simple_of_reference) hdot
  have hreference : scope.references.contains name = false := by
    rw [← Bool.not_eq_true, Std.ExtTreeSet.contains_iff_mem]
    exact fun hmem => (h.simple_of_reference hmem).1 hdot
  refine ⟨hnone.trans hnone'.symm, rfl, ?_⟩
  rw [hreference]
  simp [withoutPointers]

theorem members_read (h : scope.HasSimpleSymbols) (hname : Text.IsSimple name) :
    scope.withoutPointers.members[scope.read name]? = scope.members[name]? :=
  getElem?_withReferences_read h.members hname

theorem kindOf?_read (h : scope.HasSimpleSymbols) (hname : Text.IsSimple name) :
    scope.withoutPointers.kindOf? (scope.read name) = scope.kindOf? name := by
  have hlocals : scope.withoutPointers.locals[scope.read name]? = scope.locals[name]? :=
    h.locals_read
  simp only [kindOf?, ← Std.ExtTreeMap.isSome_getElem?_eq_contains, h.members_read hname, hlocals]

theorem arityOf?_eq_none (h : scope.HasSimpleSymbols) (hname : scope.isReference name = true) :
    scope.arityOf? name = none :=
  Std.ExtTreeMap.getElem?_eq_none (h.references name (mem_references_of_isReference hname).1).2

/-- The scope without pointers knows the symbols by the texts that read them. -/
theorem spelledBy_withoutPointers (h : scope.HasSimpleSymbols) :
    scope.SpelledBy scope.withoutPointers where
  agree := h.agreeOn_withoutPointers
  read name := by
    rw [read, isReference]
    simp [withoutPointers]
  kind name hname := h.kindOf?_read hname
  type name hname := by
    have hlocals : scope.withoutPointers.locals[scope.read name]? = scope.locals[name]? :=
      h.locals_read
    rw [typeOf?, typeOf?, h.kindOf?_read hname, h.members_read hname, hlocals]
  arity name hname := by
    cases hreference : scope.isReference name with
    | true =>
      rw [h.arityOf?_eq_none hreference, read_of_isReference hreference]
      exact getElem?_dereferenced h.methods name
    | false => rw [read_of_not_isReference hreference]; rfl
  dotted name hdot := h.kindOf?_eq_none hdot
  declared name hreference := by
    obtain ⟨hname, -⟩ := mem_references_of_isReference hreference
    rw [kindOf?]
    split
    · rfl
    · rw [if_pos (Std.ExtTreeMap.contains_iff_mem.2 (h.references name hname).1)]
      rfl
  noMethod name hreference := h.arityOf?_eq_none hreference

end HasSimpleSymbols

end Scope

/-! ## Readings

A method reads its names by what it declares anywhere; a place reads them by what is bound around
it. -/

namespace Component

variable {component : Component} {shared : NameSet} {name : String}

/-- How a method reads its names.  An occurrence is read through a pointer if it names a reference
of the component that is declared nowhere in the method, unless it begins the path of a type. -/
def methodReading (component : Component) (method : Method) : Reading := fun occurrence =>
  component.referenceNames.contains occurrence.name &&
    !(method.symbols.map (·.1)).contains occurrence.name && !occurrence.site.isType

/-- How names are read by the place where they stand.  An occurrence is read through a pointer if it
names a reference of the component, unless the name is bound around it. -/
def lexicalReading (component : Component) : Reading := fun occurrence =>
  component.referenceNames.contains occurrence.name && !occurrence.bound.contains occurrence.name

variable {schema : Schema} {options : Options} {method : Method}

theorem methodReading_iff {o : Occurrence} :
    component.methodReading method o = true ↔ o.name ∈ component.referenceNames ∧
      o.name ∉ method.symbols.map (·.1) ∧ ¬o.site.isType = true := by
  rw [methodReading, Bool.and_eq_true, Bool.and_eq_true, Bool.not_eq_true', Bool.not_eq_true',
    ← Bool.not_eq_true, ← Bool.not_eq_true, List.contains_iff_mem, List.contains_iff_mem, and_assoc]

theorem lexicalReading_iff {o : Occurrence} :
    component.lexicalReading o = true ↔
      o.name ∈ component.referenceNames ∧ o.name ∉ o.bound := by
  rw [lexicalReading, Bool.and_eq_true, Bool.not_eq_true', ← Bool.not_eq_true,
    List.contains_iff_mem, List.contains_iff_mem]

theorem mem_locals_within (env : Env) :
    name ∈ (env.within method).scope.locals ↔ name ∈ method.symbols.map (·.1) := by
  rw [← NameMap.isSome_last?_iff, ← NameMap.getElem?_ofEntries,
    Std.ExtTreeMap.isSome_getElem?_iff_mem]
  rfl

/-- The scope of a method reads its names as the method does. -/
theorem reading_within :
    ((component.envOf schema shared options).within method).scope.reading =
      component.methodReading method := by
  funext occurrence
  set env := component.envOf schema shared options
  have hreference : (env.within method).scope.references.contains occurrence.name =
      component.referenceNames.contains occurrence.name := by
    rw [Bool.eq_iff_iff, Std.ExtTreeSet.contains_iff_mem, List.contains_iff_mem]
    exact mem_references_scopeOf
  have hlocal : ((env.within method).scope.kindOf? occurrence.name != some .methodLocal) =
      !(method.symbols.map (·.1)).contains occurrence.name := by
    rw [Bool.eq_iff_iff, bne_iff_ne, Bool.not_eq_true', ← Bool.not_eq_true, List.contains_iff_mem,
      ← mem_locals_within env, ← Scope.kindOf?_eq_methodLocal_iff]
  rw [Scope.reading, methodReading, Scope.isReference, hreference, hlocal]

/-! ## Methods

What a method declares is collected from its whole body before it is lowered.  This is why the
reading of a method looks at no bound names and differs from that by place where a declaration is
not in scope. -/

/-- The names that a component declares, and those that one of its methods declares or uses. -/
def namesAround (component : Component) (method : Method) : List String :=
  component.params.map (·.name) ++ component.state.map (·.name) ++
    component.methods.map (·.name) ++ component.loops.keys ++ method.symbols.map (·.1) ++
    method.occurrences.map (·.name)

theorem hasSimpleSymbols_within
    (hnames : ∀ name ∈ component.namesAround method, Text.IsSimple name)
    (hmethods : ∀ name ∈ component.referenceNames, name ∉ component.methods.map (·.name)) :
    ((component.envOf schema shared options).within method).scope.HasSimpleSymbols := by
  simp only [namesAround, List.forall_mem_append] at hnames
  obtain ⟨⟨⟨⟨⟨hparams, hstate⟩, hmethod⟩, -⟩, hsymbols⟩, -⟩ := hnames
  constructor
  · intro name hname
    exact (mem_members_scopeOf.1 hname).elim (hparams name) (hstate name)
  · intro name hname
    exact hsymbols name ((mem_locals_within _).1 hname)
  · intro name hname
    exact hmethod name (mem_arities_scopeOf.1 hname)
  · intro name hname
    have hreference := mem_references_scopeOf.1 hname
    refine ⟨mem_members_scopeOf.2 (Or.inl ?_), fun harity =>
      hmethods name hreference (mem_arities_scopeOf.1 harity)⟩
    obtain ⟨param, hparam, hname⟩ := List.mem_map.1 hreference
    exact List.mem_map.2 ⟨param, List.mem_of_mem_filter hparam, hname⟩

theorem spelledBy_loops
    (hnames : ∀ name ∈ component.namesAround method, Text.IsSimple name) {scope : Scope}
    (hscope : scope.HasSimpleSymbols) :
    LoopTable.SpelledBy scope component.loops
      (component.loops.withReferences scope.references) := by
  simp only [namesAround, List.forall_mem_append] at hnames
  obtain ⟨⟨⟨-, hloops⟩, -⟩, -⟩ := hnames
  have hkeys : ∀ name ∈ component.loops, Text.IsSimple name :=
    fun name hname => hloops name (Std.ExtTreeMap.mem_keys.2 hname)
  constructor
  · exact fun name hname => Scope.getElem?_withReferences_read hkeys hname
  · exact fun name hdot => Scope.getElem?_withReferences_of_dot hkeys
      (fun _ => hscope.simple_of_reference) hdot

/-- The method reads as the place of each occurrence says exactly if no declaration counts where it
is not in scope, and every binding is a declaration. -/
theorem spellOut_methodReading_eq_iff :
    method.spellOut (component.methodReading method) = method.spellOut component.lexicalReading ↔
      ∀ o ∈ method.occurrences, o.name ∈ component.referenceNames →
        (o.name ∈ o.bound ↔ o.name ∈ method.symbols.map (·.1) ∨ o.site.isType = true) := by
  rw [Method.spellOut, Method.spellOut, Method.mk.injEq]
  simp only [true_and, and_true, Stmt.spellOutBody_eq_iff, Method.occurrences]
  refine forall₂_congr fun o _ => ?_
  rw [Bool.eq_iff_iff, methodReading_iff, lexicalReading_iff]
  tauto

/-- **A reference is read through its pointer unless the method declares its name.**  The names of a
component and of one of its methods are simple, and no method has the name of a reference.

* In the scope without pointers every name is written as it stands in the tree.
* There the method with its occurrences spelled out has the text that the method has in its
  component: an occurrence is written `(*n)` if `n` is a parameter that the component takes by
  reference, the method declares `n` nowhere, and the occurrence does not begin a path that is taken
  for a type.
* That text is the one in every output of the component.
* By the place where it stands, an occurrence would be written `(*n)` if `n` is such a parameter and
  is not bound around it.  Both come to the same exactly if for each occurrence of the name of a
  reference the name is bound around it where the method declares it anywhere or the occurrence
  begins the path of a type, and only there. -/
theorem dereferenced_unless_declared (component : Component) (schema : Schema) (shared : NameSet)
    (options : Options) (method : Method) (hmethod : method ∈ component.methods)
    (hnames : ∀ name ∈ component.namesAround method, Text.IsSimple name)
    (hmethods : ∀ name ∈ component.referenceNames, name ∉ component.methods.map (·.name)) :
    let env := (component.envOf schema shared options).within method
    let plain : Env := { env with scope := env.scope.withoutPointers }
    let loops := component.loops.withReferences env.scope.references
    let spelled := method.spellOut (component.methodReading method)
    (∀ name, plain.scope.read name = name) ∧
    (∀ text, (env.methodText component.loops method "").result = .ok text ↔
      (plain.methodText loops spelled "").result = .ok text) ∧
    (∀ output, (component.lower schema shared options).result = .ok output →
      ∃ text, ⟨method.name, .method, text⟩ ∈ output.fragments ∧
        (plain.methodText loops spelled "").result = .ok text) ∧
    (spelled = method.spellOut component.lexicalReading ↔
      ∀ o ∈ method.occurrences, o.name ∈ component.referenceNames →
        (o.name ∈ o.bound ↔ o.name ∈ method.symbols.map (·.1) ∨ o.site.isType = true)) := by
  intro env plain loops spelled
  have hscope : env.scope.HasSimpleSymbols := hasSimpleSymbols_within hnames hmethods
  have hspelled := hscope.spelledBy_withoutPointers
  have hoccurrences : Expr.NamesSimple method.occurrences := fun o ho =>
    hnames o.name (List.mem_append_right _ (List.mem_map_of_mem ho))
  have htext : (env.methodText component.loops method "").Alike Eq
      (plain.methodText loops spelled "") := by
    have hreading : component.methodReading method = env.scope.reading := reading_within.symm
    rw [show spelled = method.spellOut env.scope.reading from
      congrArg method.spellOut hreading]
    exact Env.methodText_spellOut hspelled (spelledBy_loops hnames hscope) method "" hoccurrences
  refine ⟨hspelled.read, fun text => htext.result_eq_ok_iff, fun output houtput => ?_,
    spellOut_methodReading_eq_iff⟩
  -- An output has a fragment for every method, with the text of the method in its scope.
  obtain ⟨-, hfragments, -⟩ := result_lower_iff.1 houtput
  have hmem : ownFragment (component.envOf schema shared options) component.loops method ∈
      component.ownFragments (component.envOf schema shared options) :=
    List.mem_append_right _ (List.mem_map_of_mem hmethod)
  obtain ⟨found, hfound, hresult⟩ := Lowered.exists_value_of_mem hfragments hmem
  obtain ⟨text, hmethodText, hfragment⟩ := Lowered.result_bind_eq_ok_iff.1 hresult
  refine ⟨text, ?_, htext.result_eq_ok_iff.1 hmethodText⟩
  rw [Except.ok.inj hfragment]
  exact hfound

/-- A method that assigns, calls, interpolates and returns the reference `title`, and declares
another name. -/
theorem dereferenced_unless_declared_heading :
    let heading : Method :=
      ⟨"heading", "string", [⟨"int", "step", false, false⟩],
        [.assign ⟨"title", .str "\x7btitle.size\x7d of \x7bstep\x7d", none, false⟩,
          .evaluate (.call ⟨"title.trim", [], 1⟩), .ret (some (.ident "title"))], false⟩
    let component : Component :=
      ⟨"App", "", [], [], [⟨"string", "title", none, false, true, false⟩], [], [heading], ∅⟩
    let env := (component.envOf Schema.empty ∅ .default).within heading
    let plain : Env := { env with scope := env.scope.withoutPointers }
    let loops := component.loops.withReferences env.scope.references
    heading ∈ component.methods ∧
      (∀ name ∈ component.namesAround heading, Text.IsSimple name) ∧
      (∀ name ∈ component.referenceNames, name ∉ component.methods.map (·.name)) ∧
      ∃ output text, (component.lower Schema.empty ∅ .default).result = .ok output ∧
        ⟨"heading", .method, text⟩ ∈ output.fragments ∧
        (plain.methodText loops (heading.spellOut (component.methodReading heading)) "").result =
          .ok text ∧
        heading.spellOut (component.methodReading heading) =
          heading.spellOut component.lexicalReading := by
  intro heading component env plain loops
  have hmethod : heading ∈ component.methods := List.mem_cons_self
  have hnames : ∀ name ∈ component.namesAround heading, Text.IsSimple name := by
    decide +kernel
  have hmethods : ∀ name ∈ component.referenceNames, name ∉ component.methods.map (·.name) := by
    decide
  obtain ⟨output, houtput⟩ := Lowered.exists_ok_of_isOk
    (show (component.lower Schema.empty ∅ .default).result.isOk = true by decide +kernel)
  obtain ⟨-, -, htexts, hlexical⟩ := dereferenced_unless_declared component Schema.empty ∅ .default
    heading hmethod hnames hmethods
  obtain ⟨text, hfragment, htext⟩ := htexts output houtput
  refine ⟨hmethod, hnames, hmethods, output, text, houtput, hfragment, htext, hlexical.2 ?_⟩
  decide +kernel

/-- Three methods of a component that takes `n` by reference.  In `each` and `field` the name is
bound around its occurrence, by a loop over a collection and by a pattern, and it is still read
through the pointer; in `later` it is not bound any more, and yet it is not. -/
theorem dereferenced_out_of_scope :
    let each : Method :=
      ⟨"each", "void", [],
        [.forEach "n" (.ident "xs")
          (.evaluate (.call ⟨"use", [.positional (.ident "n")], 1⟩))], false⟩
    let field : Method :=
      ⟨"field", "int", [],
        [.ret (some (.select ⟨.ident "p", [⟨.record none [⟨"n", none⟩], .ident "n"⟩], none, 1⟩))],
        false⟩
    let later : Method :=
      ⟨"later", "int", [],
        [.block [.declare (.plain "int" "n" (some (.int 1)))], .ret (some (.ident "n"))], false⟩
    let component : Component :=
      ⟨"App", "", [], [], [⟨"int", "n", none, false, true, false⟩], [], [each, field, later], ∅⟩
    ((component.lower Schema.empty ∅ .default).result.toOption.map fun output =>
        output.fragments.map (·.code)) =
      some ["int32_t* n = nullptr;",
        "void each() \x7b\nfor (auto& n : xs) use((*n));\n\x7d\n",
        "int32_t field() \x7b\nreturn ([&]() \x7b const auto& _m = p; \x7b " ++
          "const auto& n = _m.n; return (*n); \x7d \x7d());\n\x7d\n",
        "int32_t later() \x7b\n\x7b\nconst int32_t n = 1;\n\x7d\nreturn n;\n\x7d\n"] ∧
    (each.occurrences.map fun o => (o.name, o.bound.contains o.name, component.lexicalReading o)) =
      [("xs", false, false), ("n", true, false)] ∧
    (field.occurrences.map fun o => (o.name, o.bound.contains o.name, component.lexicalReading o)) =
      [("p", false, false), ("n", true, false)] ∧
    (later.occurrences.map fun o => (o.name, o.bound.contains o.name, component.lexicalReading o)) =
      [("n", false, true)] := by
  decide +kernel

end Component

end UiLowering
