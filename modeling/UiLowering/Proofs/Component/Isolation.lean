import UiLowering.Component.Lower
import UiLowering.Proofs.Lowered
import UiLowering.Proofs.Names

/-!
# Methods do not see each other

One scope goes through all methods of a component, and every method leaves its parameters and its
variables in it.  This file shows that nothing of it reaches the next method: the fragment of a
method is the one that it has by itself, in the scope of the component with no locals but its own
(`methodFragments_eq`).  A component is therefore lowered part by part (`result_lower_iff`), and
what is done to one method concerns the others only through its name and the number of its
parameters, which they need to know to pass it on as a callback.
-/

set_option autoImplicit false

namespace UiLowering

/-! ## One method after another

A method enters the scope with its parameters and its variables and leaves them there.  The next
method forgets all locals before it declares its own, so each fragment can be computed in the scope
of the component. -/

theorem Scope.foldl_declareLocal (entries : List (String × String)) (scope : Scope) :
    entries.foldl (fun scope (name, typeName) => scope.declareLocal name typeName) scope =
      { scope with
        locals := entries.foldl (fun table (name, typeName) => table.insert name typeName)
          scope.locals } := by
  induction entries generalizing scope with
  | nil => rfl
  | cons entry entries ih =>
    rw [List.foldl_cons, ih]
    rfl

/-- The surroundings of a method by itself: those of its component, with the symbols of the method
as the only locals. -/
def Env.within (env : Env) (method : Method) : Env :=
  { env with scope := { env.scope with locals := NameMap.ofEntries method.symbols } }

/-- What the other methods of its component know about a method: its name and the number of its
parameters. -/
def Method.signature (method : Method) : String × Nat := (method.name, method.params.length)

theorem Scope.foldl_declareMethod (methods : List Method) (scope : Scope) :
    methods.foldl (fun scope method => scope.declareMethod method.name method.params.length)
        scope =
      { scope with
        arities := (methods.map Method.signature).foldl
          (fun table (name, arity) => table.insert name arity) scope.arities } := by
  induction methods generalizing scope with
  | nil => rfl
  | cons method methods ih =>
    rw [List.foldl_cons, ih]
    rfl

namespace Component

theorem methodScope_eq (scope : Scope) (method : Method) :
    methodScope scope method = { scope with locals := NameMap.ofEntries method.symbols } :=
  Scope.foldl_declareLocal method.symbols scope.enterMethod

/-- The fragment of a method by itself. -/
def ownFragment (env : Env) (loops : LoopTable) (method : Method) : Lowered Fragment :=
  fragment method.name .method ((env.within method).methodText loops method "")

/-- What a method leaves in the scope does not reach the fragment of another. -/
theorem ownFragment_methodScope (env : Env) (loops : LoopTable) (before : Method) :
    ownFragment { env with scope := methodScope env.scope before } loops =
      ownFragment env loops := by
  rw [methodScope_eq]
  rfl

/-- Methods that hand the scope on are lowered as each of them by itself. -/
theorem methodFragments_eq (env : Env) (loops : LoopTable) (methods : List Method) :
    methodFragments env loops methods = Lowered.all (methods.map (ownFragment env loops)) := by
  induction methods generalizing env with
  | nil => rfl
  | cons method methods ih =>
    rw [methodFragments, ih, ownFragment_methodScope, methodScope_eq, List.map_cons, Lowered.all]
    rfl

/-! ## Part by part

With the methods independent of each other a component is the list of its parts, each lowered in the
same surroundings.  It succeeds if all of them do. -/

/-- The surroundings of the members of a component. -/
def envOf (component : Component) (schema : Schema) (globalTypes : NameSet) (options : Options) :
    Env :=
  ⟨component.scopeOf globalTypes, schema, options⟩

/-- The fragments of all parts of a component, each lowered by itself. -/
def ownFragments (component : Component) (env : Env) : List (Lowered Fragment) :=
  component.memberFragments env ++ component.methods.map (ownFragment env component.loops)

theorem ownFragments_eq_append {component : Component} {before after : List Method}
    {method : Method} (hmethods : component.methods = before ++ method :: after) (env : Env) :
    component.ownFragments env =
      (component.memberFragments env ++ before.map (ownFragment env component.loops)) ++
        ownFragment env component.loops method ::
          after.map (ownFragment env component.loops) := by
  rw [ownFragments, hmethods, List.map_append, List.map_cons, List.append_assoc]

/-- A component is lowered if each of its parts is, and then to the fragments of its parts. -/
theorem result_lower_iff {component : Component} {schema : Schema} {globalTypes : NameSet}
    {options : Options} {output : Output} :
    (component.lower schema globalTypes options).result = .ok output ↔
      output.component = component.qualifiedName ∧
      (component.ownFragments (component.envOf schema globalTypes options)).map (·.result) =
        output.fragments.map .ok ∧
      output.modifications = component.modifications schema := by
  obtain ⟨name, fragments, modifications⟩ := output
  simp only [lower, methodFragments_eq, Lowered.result_bind_eq_ok_iff, Lowered.result_pure,
    Lowered.result_all_eq_ok_iff, ownFragments, List.map_append, envOf]
  constructor
  · rintro ⟨_, _, members, hmembers, methods, hmethods, houtput⟩
    obtain ⟨rfl, rfl, rfl⟩ := Output.mk.inj (Except.ok.inj houtput)
    exact ⟨rfl, by rw [hmembers, hmethods, List.map_append], rfl⟩
  · rintro ⟨rfl, hfragments, rfl⟩
    obtain ⟨members, methods, rfl, hmembers, hmethods⟩ :=
      List.map_eq_append_iff.1 hfragments.symm
    exact ⟨(), rfl, members, hmembers.symm, methods, hmethods.symm, rfl⟩

/-! ## What the others know about a method

A method is known to the others by its name and its number of parameters, which the scope keeps for
callbacks.  Two lists of methods with the same signatures give the same surroundings. -/

/-- A component with other methods. -/
def withMethods (component : Component) (methods : List Method) : Component :=
  { component with methods := methods }

section Methods

variable {component : Component} {schema : Schema} {globalTypes : NameSet} {options : Options}

/-- The scope of a component takes the signatures of its methods and nothing else from them. -/
theorem envOf_withMethods {methods : List Method}
    (h : ∀ table : NameMap Nat,
      (methods.map Method.signature).foldl
          (fun table (key, value) => table.insert key value) table =
        (component.methods.map Method.signature).foldl
          (fun table (key, value) => table.insert key value) table) :
    (component.withMethods methods).envOf schema globalTypes options =
      component.envOf schema globalTypes options := by
  have hscope (methods : List Method) := Scope.foldl_declareMethod methods
    ((component.withMethods []).scopeOf globalTypes)
  have heq : (component.withMethods methods).scopeOf globalTypes =
      component.scopeOf globalTypes := by
    refine (hscope methods).trans (Eq.trans ?_ (hscope component.methods).symm)
    rw [h]
  rw [envOf, envOf, heq]

theorem envOf_eq_of_signatures {methods : List Method}
    (h : methods.map Method.signature = component.methods.map Method.signature) :
    (component.withMethods methods).envOf schema globalTypes options =
      component.envOf schema globalTypes options :=
  envOf_withMethods fun table => by rw [h]

theorem envOf_eq_of_perm {methods : List Method} (hperm : component.methods.Perm methods)
    (hnames : (component.methods.map (·.name)).Nodup) :
    (component.withMethods methods).envOf schema globalTypes options =
      component.envOf schema globalTypes options := by
  have hkeys : ((component.methods.map Method.signature).map (·.1)).Nodup := by
    rw [List.map_map]
    exact hnames
  exact envOf_withMethods fun table =>
    (NameMap.foldl_insert_eq_of_perm (hperm.map Method.signature) hkeys table).symm

/-! ## Another body for one method

The signature stays, so the surroundings stay, and all other parts with them.  In the table of
changes the last method of a name holds the entry, which is why a later method of the same name
matters. -/

variable {before after : List Method} {method other : Method} {output replaced : Output}

theorem envOf_replace (hmethods : component.methods = before ++ method :: after)
    (hsignature : other.signature = method.signature) :
    (component.withMethods (before ++ other :: after)).envOf schema globalTypes options =
      component.envOf schema globalTypes options := by
  refine envOf_eq_of_signatures ?_
  rw [hmethods, List.map_append, List.map_append, List.map_cons, List.map_cons, hsignature]

/-- With another body a method has another fragment, and the fragments around it stay. -/
theorem fragments_replace (hmethods : component.methods = before ++ method :: after)
    (hsignature : other.signature = method.signature)
    (h : (component.lower schema globalTypes options).result = .ok output)
    (h' : ((component.withMethods (before ++ other :: after)).lower schema globalTypes
      options).result = .ok replaced) :
    ∃ front old new back,
      front.length = (component.memberFragments
        (component.envOf schema globalTypes options)).length + before.length ∧
      output.fragments = front ++ old :: back ∧ replaced.fragments = front ++ new :: back := by
  obtain ⟨-, hold, -⟩ := result_lower_iff.1 h
  obtain ⟨-, hnew, -⟩ := result_lower_iff.1 h'
  rw [envOf_replace hmethods hsignature] at hnew
  rw [ownFragments_eq_append hmethods] at hold
  rw [ownFragments_eq_append rfl] at hnew
  obtain ⟨front, old, back, hfragments, hfront, -, hback⟩ :=
    Lowered.exists_value_of_append_cons hold
  obtain ⟨front', new, back', hreplaced, hfront', -, hback'⟩ :=
    Lowered.exists_value_of_append_cons hnew
  -- The same parts stand before the method and behind it.
  obtain rfl : front = front' := Lowered.eq_of_map_ok_eq (hfront.symm.trans hfront')
  obtain rfl : back = back' := Lowered.eq_of_map_ok_eq (hback.symm.trans hback')
  have hlength : front.length = (component.memberFragments
      (component.envOf schema globalTypes options)).length + before.length := by
    simpa using (congrArg List.length hfront).symm
  exact ⟨front, old, new, back, hlength, hfragments, hreplaced⟩

/-- The entry of a method in the table of what methods change. -/
def writesEntry (schema : Schema) (loops : LoopTable) (method : Method) : String × NameSet :=
  (method.name, method.writes schema loops)

theorem getElem?_modifications (hmethods : component.methods = before ++ method :: after)
    {name : String} :
    (component.modifications schema)[name]? =
      ((NameMap.last? (after.map (writesEntry schema component.loops)) name).or
        (if method.name = name then some (method.writes schema component.loops) else none)).or
        (NameMap.last? (before.map (writesEntry schema component.loops)) name) := by
  have hentries : component.modifications schema =
      NameMap.ofEntries (component.methods.map (writesEntry schema component.loops)) := rfl
  rw [hentries, NameMap.getElem?_ofEntries, hmethods, List.map_append, List.map_cons,
    ← List.singleton_append, NameMap.last?_append, NameMap.last?_append, NameMap.last?_singleton]
  rfl

/-- With another body a method changes its own entry, and that only if no later method has its
name. -/
theorem modifications_replace (hmethods : component.methods = before ++ method :: after)
    (hname : other.name = method.name) {name : String}
    (h : name ≠ method.name ∨ name ∈ after.map (·.name)) :
    ((component.withMethods (before ++ other :: after)).modifications schema)[name]? =
      (component.modifications schema)[name]? := by
  rw [getElem?_modifications hmethods, getElem?_modifications rfl, hname]
  rcases h with hne | hlater
  · rw [if_neg hne.symm, if_neg hne.symm]
    rfl
  · have hsome : (NameMap.last? (after.map (writesEntry schema component.loops)) name).isSome := by
      rw [NameMap.isSome_last?_iff, List.map_map]
      exact hlater
    obtain ⟨found, hfound⟩ := Option.isSome_iff_exists.1 hsome
    change (Option.or (NameMap.last? (after.map (writesEntry schema component.loops)) name)
      _).or _ = _
    rw [hfound]
    rfl

/-! ## Another order of the methods

The surroundings do not depend on the order of the signatures as long as the names differ, and then
each fragment moves with its method. -/

theorem modifications_perm {methods : List Method} (hperm : component.methods.Perm methods)
    (hnames : (component.methods.map (·.name)).Nodup) :
    (component.withMethods methods).modifications schema = component.modifications schema := by
  have hkeys : ((component.methods.map (writesEntry schema component.loops)).map (·.1)).Nodup := by
    rw [List.map_map]
    exact hnames
  exact (NameMap.foldl_insert_eq_of_perm (hperm.map _) hkeys ∅).symm

/-- Methods in another order have their fragments in that order. -/
theorem lower_perm {methods : List Method} (hperm : component.methods.Perm methods)
    (hnames : (component.methods.map (·.name)).Nodup)
    (h : (component.lower schema globalTypes options).result = .ok output) :
    ∃ members own permuted,
      ((component.withMethods methods).lower schema globalTypes options).result = .ok permuted ∧
      permuted.component = output.component ∧
      permuted.modifications = output.modifications ∧
      output.fragments = members ++ component.methods.map own ∧
      permuted.fragments = members ++ methods.map own := by
  obtain ⟨hname, hfragments, hmodifications⟩ := result_lower_iff.1 h
  rw [ownFragments, List.map_append] at hfragments
  obtain ⟨members, rest, houtput, hmembers, hrest⟩ := List.map_eq_append_iff.1 hfragments.symm
  let env := component.envOf schema globalTypes options
  let own (method : Method) : Fragment :=
    (ownFragment env component.loops method).result.toOption.getD ⟨method.name, .method, ""⟩
  have hown : ∀ method ∈ component.methods,
      (ownFragment env component.loops method).result = .ok (own method) := by
    intro method hmethod
    have hmem : (ownFragment env component.loops method).result ∈ rest.map .ok := by
      rw [hrest]
      exact List.mem_map_of_mem (List.mem_map_of_mem hmethod)
    obtain ⟨found, -, hfound⟩ := List.mem_map.1 hmem
    simp only [own, ← hfound]
    rfl
  have hvalues (methods : List Method) (hsub : ∀ method ∈ methods, method ∈ component.methods) :
      (methods.map (ownFragment env component.loops)).map (·.result) =
        (methods.map own).map .ok := by
    rw [List.map_map, List.map_map]
    exact List.map_congr_left fun method hmethod => hown method (hsub method hmethod)
  have hmethods : rest = component.methods.map own :=
    Lowered.eq_of_map_ok_eq (hrest.trans (hvalues component.methods fun _ h => h))
  refine ⟨members, own, ⟨output.component, members ++ methods.map own, output.modifications⟩, ?_,
    rfl, rfl, hmethods ▸ houtput, rfl⟩
  refine result_lower_iff.2 ⟨hname, ?_, ?_⟩
  · rw [envOf_eq_of_perm hperm hnames, ownFragments, List.map_append, List.map_append, hmembers]
    refine congrArg _ (hvalues methods fun method hmethod => ?_)
    exact hperm.mem_iff.2 hmethod
  · exact hmodifications.trans (modifications_perm hperm hnames).symm

end Methods

/-- **Methods do not leak into each other.**  Take a component that can be lowered.

* Each of its fragments is the one that its part has by itself.  For a record, an enumeration, a
  parameter or a variable that is the one in the scope of the component.  For a method it is the one
  in the same scope with the symbols of the method as locals, of which the last of a name counts.
* Whatever one method is replaced by, if name and number of parameters stay and the component can
  still be lowered, all other fragments stay, and what other methods change stays as well.  (The
  entry of a name belongs to the last method of that name.)
* If the names of the methods differ, they may be put in any order.  Their fragments are put in the
  same order, and the table of what they change stays. -/
theorem methods_isolated (component : Component) (schema : Schema) (globalTypes : NameSet)
    (options : Options) (output : Output)
    (h : (component.lower schema globalTypes options).result = .ok output) :
    ((component.ownFragments (component.envOf schema globalTypes options)).map (·.result) =
        output.fragments.map .ok ∧
      ∀ method name,
        ((component.envOf schema globalTypes options).within method).scope.locals[name]? =
          NameMap.last? method.symbols name) ∧
    (∀ before method after other replaced,
      component.methods = before ++ method :: after → other.signature = method.signature →
      ((component.withMethods (before ++ other :: after)).lower schema globalTypes
        options).result = .ok replaced →
      (∃ front old new back,
        front.length = (component.memberFragments
          (component.envOf schema globalTypes options)).length + before.length ∧
        output.fragments = front ++ old :: back ∧ replaced.fragments = front ++ new :: back) ∧
      ∀ name, name ≠ method.name ∨ name ∈ after.map (·.name) →
        replaced.modifications[name]? = output.modifications[name]?) ∧
    ∀ methods, component.methods.Perm methods → (component.methods.map (·.name)).Nodup →
      ∃ members own permuted,
        ((component.withMethods methods).lower schema globalTypes options).result =
          .ok permuted ∧
        permuted.component = output.component ∧
        permuted.modifications = output.modifications ∧
        output.fragments = members ++ component.methods.map own ∧
        permuted.fragments = members ++ methods.map own := by
  obtain ⟨-, hfragments, hmodifications⟩ := result_lower_iff.1 h
  refine ⟨⟨hfragments, fun method name => NameMap.getElem?_ofEntries⟩, ?_, ?_⟩
  · intro before method after other replaced hmethods hsignature hreplaced
    refine ⟨fragments_replace hmethods hsignature h hreplaced, fun name hname => ?_⟩
    obtain ⟨-, -, hwrites⟩ := result_lower_iff.1 hreplaced
    have hsame : other.name = method.name := congrArg Prod.fst hsignature
    rw [hwrites, hmodifications, modifications_replace hmethods hsame hname]
  · intro methods hperm hnames
    exact lower_perm hperm hnames h

/-- The parameter `n` of the component is read through a pointer, and in `first` a parameter hides
it.  What else `first` may be, and whichever of the two comes first, `second` keeps its fragment and
its entry. -/
theorem methods_isolated_shadow :
    let first : Method :=
      ⟨"first", "int", [⟨"int", "n", false, false⟩], [.ret (some (.ident "n"))], false⟩
    let other : Method :=
      ⟨"first", "void", [⟨"int", "k", true, false⟩], [.assign ⟨"n", .ident "k", none, false⟩],
        false⟩
    let second : Method := ⟨"second", "int", [], [.ret (some (.ident "n"))], false⟩
    let component : Component :=
      ⟨"App", "", [], [], [⟨"int", "n", none, false, true, false⟩], [], [first, second], ∅⟩
    other.signature = first.signature ∧ (component.methods.map (·.name)).Nodup ∧
      ∃ output replaced permuted,
        (component.lower Schema.empty ∅ .default).result = .ok output ∧
        ((component.withMethods [other, second]).lower Schema.empty ∅ .default).result =
          .ok replaced ∧
        ((component.withMethods [second, first]).lower Schema.empty ∅ .default).result =
          .ok permuted ∧
        (∃ front old new back, front.length = 1 ∧ output.fragments = front ++ old :: back ∧
          replaced.fragments = front ++ new :: back) ∧
        replaced.modifications["second"]? = output.modifications["second"]? ∧
        (∃ (members : List Fragment) (own : Method → Fragment),
          output.fragments = members ++ [own first, own second] ∧
          permuted.fragments = members ++ [own second, own first]) ∧
        permuted.modifications = output.modifications := by
  intro first other second component
  have hsignature : other.signature = first.signature := rfl
  have hnames : (component.methods.map (·.name)).Nodup := by decide
  obtain ⟨output, houtput⟩ := Lowered.exists_ok_of_isOk
    (show (component.lower Schema.empty ∅ .default).result.isOk = true by decide +kernel)
  obtain ⟨replaced, hreplaced⟩ := Lowered.exists_ok_of_isOk
    (show ((component.withMethods [other, second]).lower Schema.empty ∅
      .default).result.isOk = true by decide +kernel)
  obtain ⟨-, hreplace, hpermute⟩ :=
    methods_isolated component Schema.empty ∅ .default output houtput
  obtain ⟨hfragments, hentry⟩ :=
    hreplace [] first [second] other replaced rfl hsignature hreplaced
  obtain ⟨members, own, permuted, hpermuted, -, hsame, hown, hown'⟩ :=
    hpermute [second, first] (List.Perm.swap second first []) hnames
  exact ⟨hsignature, hnames, output, replaced, permuted, houtput, hreplaced, hpermuted, hfragments,
    hentry "second" (Or.inl (by decide)), ⟨members, own, hown, hown'⟩, hsame⟩

end Component

end UiLowering
