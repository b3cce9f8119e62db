import UiLowering.Call.Emit
import UiLowering.Effect.Reads
import UiLowering.Proofs.Call.Selected
import UiLowering.Proofs.Target.Term
import UiLowering.Proofs.Target.TypeText
import UiLowering.Proofs.Text.Cut

/-!
# The texts of calls

Every way in which a call is lowered gives a term, if the codes of its arguments are terms.  The
texts of the arguments stand in parentheses, where anything may stand that closes its own brackets;
in front of them there is a name, the text of a type, or a receiver.

The hypotheses on names are those of `Env.IsTidy`, and here they are used: the text of a call is
made of a receiver from the source, a name from the schema and the texts of arguments, and any of
them could bring along a bracket that closes the call.  That the shortcuts of collections and texts
have brackets of their own is the one exception, and it is handled for the whole table at once.
-/

set_option autoImplicit false

namespace UiLowering

open Target

/-! ## Code

A part may be used by its value or by its appends, and both texts have to be in order.  A value is a
term, since it may begin a statement or be a condition; appends only stand inside the block of the
formatter. -/

/-- The code of an expression: its value is a term, and the statements that append it to the
formatter's buffer close their brackets. -/
structure Code.IsSound (code : Code) : Prop where
  value : IsTerm code.value
  appends : Even [] code.appends.toList

/-- The code of a part, if it has any, is the code of an expression. -/
def Coded.IsSound (part : Coded) : Prop := part.code.Yields Code.IsSound

theorem Coded.IsSound.value {part : Coded} (h : part.IsSound) : part.value.Yields IsTerm :=
  Lowered.Yields.bind h fun _ hcode => Lowered.yields_pure hcode.value

theorem Coded.IsSound.appends {part : Coded} (h : part.IsSound) :
    part.appends.Yields fun t => Even [] t.toList :=
  Lowered.Yields.bind h fun _ hcode => Lowered.yields_pure hcode.appends

/-- A call whose opening parenthesis belongs to the constant text in front of its arguments. -/
theorem isTerm_call (callee : String) {head u : String}
    (hhead : head.toList = callee.toList ++ ['(']) (hcallee : IsCallee callee.toList)
    (hu : Even [] u.toList) : IsTerm (head ++ u ++ ")") := by
  have hopen : callee ++ "(" = head := by
    rw [← String.toList_inj, String.toList_append, hhead]
    rfl
  rw [← hopen]
  exact hcallee.isTerm hu

theorem even_appendCode {code : String} (h : Even [] code.toList) :
    Even [] (appendCode code).toList :=
  Walks.text (Walks.text (q := ⟨1, .code⟩) rfl h.inside) rfl

theorem even_braced {code : String} (h : Even [] code.toList) : Even [] (braced code).toList :=
  Walks.text (Walks.text (q := ⟨1, .code⟩) rfl h.inside) rfl

/-- A function that is called on the spot. -/
theorem isTerm_lambda {body : String} (h : Even [] body.toList) :
    IsTerm ("([&]() " ++ braced body ++ "())") := by
  have hhead : "([&]() ".toList = '(' :: "[&]() ".toList := rfl
  have htail : "())".toList = "()".toList ++ [')'] := rfl
  have hcode : Even [] ("[&]() " ++ braced body ++ "()").toList :=
    Even.text (Even.text rfl (even_braced h)) rfl
  refine isTerm_of_chars ?_ hcode
  simp only [String.toList_append, hhead, htail, List.append_assoc, List.cons_append]

theorem isTerm_formatterValue {appends : String} (h : Even [] appends.toList) :
    IsTerm (formatterValue appends) :=
  isTerm_lambda (Even.text (Even.text (Even.text (Even.text rfl rfl) rfl) h) rfl)

/-- A statement that uses the text of the buffer as an argument. -/
theorem isTerm_formatterBlock {appends before after : String} (h : Even [] appends.toList)
    (hbefore : Walks [] .start before.toList ⟨1, .code⟩)
    (hafter : Walks [] ⟨1, .code⟩ after.toList .start) :
    IsTerm (formatterBlock appends before after) := by
  have hbody : Even [] (" " ++ formatterDecl ++ " " ++ appends ++ before ++ "_fmt.c_str()" ++
      after ++ "; ").toList :=
    Walks.text (Walks.text (Walks.text (Walks.text (Walks.text (Even.text (Even.text rfl rfl) rfl)
      h) hbefore) rfl) hafter) rfl
  exact isTerm_block hbody

theorem Code.isSound_plain {text : String} (h : IsTerm text) : (Code.plain text).IsSound :=
  ⟨h, even_appendCode h.body⟩

theorem Code.isSound_chain {appends : String} (h : Even [] appends.toList) :
    (Code.chain appends).IsSound :=
  ⟨isTerm_formatterValue h, h⟩

/-! ## Names taken apart

The receiver and the name of a method are cut out of one text, and so are the space and the name of
a function.  What is cut out of a text has no characters that the text has not. -/

theorem subset_of_cutFirstChars {sep : Char} {cs a b : List Char}
    (h : Text.cutFirstChars sep cs = some (a, b)) : a ⊆ cs ∧ b ⊆ cs := by
  unfold Text.cutFirstChars at h
  split at h
  · cases h
  · rename_i after hafter
    cases h
    refine ⟨(List.takeWhile_sublist _).subset, fun c hc => ?_⟩
    refine (List.dropWhile_sublist (· != sep)).subset ?_
    rw [hafter]
    exact List.mem_cons_of_mem _ hc

theorem quiet_of_cutFirst {sep : Char} {s a b : String} (hs : Quiet s.toList)
    (h : Text.cutFirst sep s = some (a, b)) : Quiet a.toList ∧ Quiet b.toList := by
  obtain ⟨⟨x, y⟩, hcut, hpair⟩ := Option.map_eq_some_iff.1 h
  cases hpair
  obtain ⟨hx, hy⟩ := subset_of_cutFirstChars hcut
  rw [String.toList_ofList, String.toList_ofList]
  exact ⟨hs.of_subset hx, hs.of_subset hy⟩

theorem quiet_of_splitReceiver {name receiver method : String} (hname : Quiet name.toList)
    (h : splitReceiver name = some (receiver, method)) :
    Quiet receiver.toList ∧ Quiet method.toList := by
  obtain ⟨hcut, -⟩ := Option.filter_eq_some_iff.1 h
  obtain ⟨⟨x, y⟩, hlast, hpair⟩ := Option.map_eq_some_iff.1 hcut
  cases hpair
  obtain ⟨⟨u, v⟩, hfirst, hpair⟩ := Option.map_eq_some_iff.1 hlast
  cases hpair
  obtain ⟨hu, hv⟩ := subset_of_cutFirstChars hfirst
  rw [String.toList_ofList, String.toList_ofList]
  constructor
  · exact fun c hc => hname c (List.mem_reverse.1 (hv (List.mem_reverse.1 hc)))
  · exact fun c hc => hname c (List.mem_reverse.1 (hu (List.mem_reverse.1 hc)))

theorem subset_of_cutColonsChars {cs a b : List Char}
    (h : Text.cutColonsChars cs = some (a, b)) : a ⊆ cs ∧ b ⊆ cs := by
  rw [Text.eq_append_of_cutColonsChars h]
  exact ⟨List.subset_append_left _ _, fun c hc =>
    List.mem_append_right _ (List.mem_cons_of_mem _ (List.mem_cons_of_mem _ hc))⟩

theorem subset_of_target? {method : ApiMethod} {space function : String}
    (h : method.target? = some (space, function)) :
    space.toList ⊆ method.mappingValue.toList ∧ function.toList ⊆ method.mappingValue.toList := by
  unfold ApiMethod.target? at h
  split at h
  · obtain ⟨hcut, -⟩ := Option.filter_eq_some_iff.1 h
    obtain ⟨⟨x, y⟩, hcolons, hpair⟩ := Option.map_eq_some_iff.1 hcut
    cases hpair
    rw [String.toList_ofList, String.toList_ofList]
    exact subset_of_cutColonsChars hcolons
  · cases h

theorem quiet_of_target? {method : ApiMethod} {space function : String}
    (hmethod : Quiet method.mappingValue.toList) (h : method.target? = some (space, function)) :
    Quiet space.toList ∧ Quiet function.toList :=
  ⟨hmethod.of_subset (subset_of_target? h).1, hmethod.of_subset (subset_of_target? h).2⟩

/-! ## Names as they are read

A name that is read through a pointer gets parentheses and a star.  It is still a term, and may
still stand in front of the arguments of a call. -/

namespace Scope

variable (scope : Scope)

theorem isTerm_read {name : String} (h : Quiet name.toList) : IsTerm (scope.read name) := by
  unfold read
  split
  · refine isTerm_of_chars (b := '*' :: name.toList) ?_ (Even.append (a := ['*']) rfl h.even.body)
    simp only [String.toList_append]
    rfl
  · exact isTerm_of_even h.even

theorem isCallee_read {name : String} (h : Quiet name.toList) :
    IsCallee (scope.read name).toList := by
  unfold read
  split
  · have hgroup : IsCallee ('(' :: ('*' :: name.toList) ++ ')' :: []) :=
      isCallee_group_append (Quiet.append (a := ['*']) (by decide) h) Even.nil
    simp only [String.toList_append]
    exact hgroup
  · exact isCallee_of_even h.even

theorem isCallee_readPath {path : String} (h : Quiet path.toList) :
    IsCallee (scope.readPath path).toList := by
  unfold readPath
  split
  · rename_i root rest hcut
    obtain ⟨hroot, hrest⟩ := quiet_of_cutFirst h hcut
    have hafter : Quiet ("." ++ rest).toList := Quiet.text (by decide) hrest
    rw [String.append_assoc, String.toList_append]
    exact (scope.isCallee_read hroot).append hafter
  · exact scope.isCallee_read h

theorem even_readPath {path : String} (h : Quiet path.toList) :
    Even [] (scope.readPath path).toList :=
  (scope.isCallee_readPath h).1.body

end Scope

/-! ## Arguments

An argument has three forms: as it is, moved, or as a function that forwards to a method.  All of
them close their brackets, and nothing else is asked inside the parentheses of a call. -/

theorem isTerm_moved {code : String} (h : Even [] code.toList) : IsTerm (moved code) :=
  isTerm_call "webcc::move" rfl (isCallee_of_even rfl) h

theorem Arg.yields_text {arg : Arg Coded} (h : arg.value.IsSound) :
    arg.text.Yields fun t => Even [] t.toList := by
  refine h.value.bind fun code hcode => Lowered.yields_pure ?_
  split
  · exact (isTerm_moved hcode.body).body
  · exact hcode.body

theorem Arg.even_forwarder {method : String} (arity : Nat) (h : Quiet method.toList) :
    Even [] (Arg.forwarder method arity).toList := by
  have hname (i : Nat) : Quiet ("_a" ++ toString i).toList :=
    Quiet.text (by decide) (quiet_toString_nat i)
  have hnames : ∀ t ∈ (List.range arity).map fun i => "_a" ++ toString i, Even [] t.toList := by
    intro t ht
    obtain ⟨i, -, rfl⟩ := List.mem_map.1 ht
    exact (hname i).even.body
  have hparams : ∀ t ∈ ((List.range arity).map fun i => "_a" ++ toString i).map ("auto " ++ ·),
      Even [] t.toList := by
    intro t ht
    obtain ⟨u, hu, rfl⟩ := List.mem_map.1 ht
    exact Even.text rfl (hnames u hu)
  have hcall : Even [] (" " ++ method).toList := Even.text rfl h.even.body
  have hargs : Even [] (Text.join ", " _).toList := even_join rfl hnames
  have hbody : Even [] (" " ++ method ++ "(" ++
      Text.join ", " ((List.range arity).map fun i => "_a" ++ toString i) ++ "); ").toList :=
    Walks.text (Walks.text (Walks.text (r := ⟨1, .code⟩) hcall rfl) hargs.inside) rfl
  have hlist : Even [] (Text.join ", " _).toList := even_join rfl hparams
  have hhead : Even [] ("[this](" ++ Text.join ", " _ ++ ") ").toList :=
    Walks.text (Walks.text (q := ⟨1, .code⟩) rfl hlist.inside) rfl
  exact hhead.text (even_braced hbody)

/-- An argument that can be lowered: its code is sound, and it is named without brackets. -/
structure Arg.IsSound (arg : Arg Coded) : Prop where
  value : arg.value.IsSound
  quiet : ∀ name, arg.value.source = .ident name → Quiet name.toList

theorem Arg.IsSound.yields_callbackText {arg : Arg Coded} (h : arg.IsSound) (env : Env) :
    (arg.callbackText env).Yields fun t => Even [] t.toList := by
  have hvalue : arg.value.value.Yields fun t => Even [] t.toList :=
    h.value.value.mono fun _ ht => ht.body
  unfold Arg.callbackText
  split
  · rename_i name hname
    split
    · exact Lowered.yields_pure (even_forwarder _ (h.quiet name hname))
    · exact hvalue
  · exact hvalue

theorem yields_argTexts {args : List (Arg Coded)} (h : ∀ arg ∈ args, arg.IsSound) :
    (argTexts args).Yields fun codes =>
      codes.length = args.length ∧ ∀ t ∈ codes, Even [] t.toList := by
  have htexts : ∀ x ∈ args.map Arg.text, x.Yields fun t => Even [] t.toList := by
    intro x hx
    obtain ⟨arg, harg, rfl⟩ := List.mem_map.1 hx
    exact Arg.yields_text (h arg harg).value
  have hall := Lowered.yields_all htexts
  rwa [List.length_map] at hall

theorem yields_argTextsFor {args : List (Arg Coded)} (env : Env) (params : List ApiParam)
    (h : ∀ arg ∈ args, arg.IsSound) :
    (Lowered.all (argTextsFor env params args)).Yields fun codes =>
      ∀ t ∈ codes, Even [] t.toList := by
  refine (Lowered.yields_all ?_).mono fun codes hcodes => hcodes.2
  induction args generalizing params with
  | nil => simp [argTextsFor]
  | cons arg args ih =>
    have harg := h arg List.mem_cons_self
    have hargs := fun other hother => h other (List.mem_cons_of_mem arg hother)
    cases params with
    | nil =>
      rw [argTextsFor]
      exact List.forall_mem_cons.2 ⟨Arg.yields_text harg.value, ih [] hargs⟩
    | cons param params =>
      rw [argTextsFor]
      refine List.forall_mem_cons.2 ⟨?_, ih params hargs⟩
      unfold Arg.textFor
      split
      · exact harg.yields_callbackText env
      · exact Arg.yields_text harg.value

/-! ## Functions

A call of a function of the schema may be cast to its result and may be put into the block of the
formatter, if an argument needs one. -/

theorem Env.yields_castResult {env : Env} (henv : env.IsTidy) {returnType code : String}
    (htype : IsTypeName returnType) (h : IsTerm code) :
    (env.castResult returnType code).Yields IsTerm := by
  refine (Env.isTypeName_typeText henv htype).bind fun text _ => Lowered.yields_pure ?_
  split
  · rename_i cast hcast
    have hquiet : Quiet cast.toList := by
      have hmem : cast ∈ TypeName.narrowIntegers := List.mem_of_find?_eq_some hcast
      simp only [TypeName.narrowIntegers, List.mem_cons, List.not_mem_nil, or_false] at hmem
      rcases hmem with rfl | rfl | rfl | rfl | rfl | rfl <;> decide
    have hcallee : IsCallee ("(" ++ cast ++ ")").toList := by
      simp only [String.toList_append]
      exact isCallee_group_append hquiet Even.nil
    have hassoc :
        "(" ++ cast ++ ")(" ++ code ++ ")" = "(" ++ cast ++ ")" ++ "(" ++ code ++ ")" := by
      rw [show ")(" = ")" ++ "(" from rfl, ← String.append_assoc]
    rw [hassoc]
    exact hcallee.isTerm h.body
  · exact h

theorem quiet_function {space name : String} (hspace : Quiet space.toList)
    (hname : Quiet name.toList) : Quiet ("webcc::" ++ space ++ "::" ++ name).toList :=
  Quiet.text (Quiet.text (Quiet.text (by decide) hspace) (by decide)) hname

theorem yields_functionCode {env : Env} (henv : env.IsTidy) {callee returnType : String}
    {leading : List String} (params : List ApiParam) {args : List (Arg Coded)}
    (hcallee : Quiet callee.toList) (htype : IsTypeName returnType)
    (hleading : ∀ t ∈ leading, Even [] t.toList) (hargs : ∀ arg ∈ args, arg.IsSound) :
    (functionCode env callee returnType leading params args).Yields IsTerm := by
  unfold functionCode
  dsimp only
  split
  · refine (yields_argTextsFor env params hargs).bind fun codes hcodes => ?_
    refine Env.yields_castResult henv htype (isTerm_applied (isCallee_of_even hcallee.even) ?_)
    exact List.forall_mem_append.2 ⟨hleading, hcodes⟩
  · rename_i chain after hsplit
    have hbefore : ∀ arg ∈ args.takeWhile fun arg => !arg.value.source.needsFormatter,
        arg.IsSound :=
      fun arg harg => hargs arg ((List.takeWhile_sublist _).subset harg)
    have hrest : ∀ arg ∈ chain :: after, arg.IsSound := by
      rw [← hsplit]
      exact fun arg harg => hargs arg ((List.dropWhile_sublist _).subset harg)
    refine (yields_argTextsFor env _ hbefore).bind fun head hhead => ?_
    refine (yields_argTextsFor env _ fun arg harg =>
      hrest arg (List.mem_cons_of_mem chain harg)).bind fun tail htail => ?_
    refine (hrest chain List.mem_cons_self).value.appends.bind fun appends happends => ?_
    refine Lowered.yields_pure (isTerm_formatterBlock happends ?_ ?_)
    · have hfirst : ∀ t ∈ (leading ++ head).map (· ++ ", "), Even [] t.toList := by
        intro t ht
        obtain ⟨u, hu, rfl⟩ := List.mem_map.1 ht
        exact Even.text (List.forall_mem_append.2 ⟨hleading, hhead⟩ u hu) rfl
      exact Walks.text (Walks.text (r := ⟨1, .code⟩) hcallee.even.body rfl)
        (even_concat hfirst).inside
    · have hlast : ∀ t ∈ tail.map (", " ++ ·), Even [] t.toList := by
        intro t ht
        obtain ⟨u, hu, rfl⟩ := List.mem_map.1 ht
        exact Even.text rfl (htail u hu)
      exact Walks.text (even_concat hlast).inside rfl

/-! ## Templates and generators

A template of the schema is assumed to be free of brackets, so there are no placeholders in it.  The
shortcuts have brackets; all of them have the form of a call of a method, which is what makes one
lemma enough for the whole table. -/

theorem Template.expandChars_of_not_mem {receiver : String} {args : List String} {cs : List Char}
    (h : '{' ∉ cs) : Template.expandChars receiver args cs = cs := by
  induction cs with
  | nil => rfl
  | cons c cs ih =>
    have hcs : '{' ∉ cs := fun hmem => h (List.mem_cons_of_mem c hmem)
    unfold Template.expandChars
    split
    · rename_i heq
      cases heq
    · rename_i heq
      cases heq
      exact absurd List.mem_cons_self hcs
    · rename_i heq
      cases heq
      rw [ih hcs]

/-- A template without brackets has no placeholders. -/
theorem Template.expand_of_quiet {template : String} (h : Quiet template.toList)
    (receiver : String) (args : List String) :
    Template.expand template receiver args = template := by
  rw [Template.expand, expandChars_of_not_mem (h.not_mem_of_isQuiet_eq_false rfl),
    String.ofList_toList]

/-- A text that is put together from a receiver and arguments as a call of a method is. -/
theorem expand_eq_applied {template receiver cast method : String} {codes : List String}
    (h : Template.expandChars receiver codes template.toList =
      cast.toList ++ (receiver.toList ++ ('.' :: (method.toList ++ ('(' ::
        ((Text.join ", " codes).toList ++ [')']))))) ) :
    Template.expand template receiver codes =
      applied (cast ++ receiver ++ "." ++ method) codes := by
  rw [← String.toList_inj, Template.expand, String.toList_ofList, h]
  simp only [applied, String.toList_append, List.append_assoc]
  rfl

/-- A shortcut is a call of a method of its receiver, behind a cast if it counts. -/
theorem Shortcut.exists_expand_eq {family : Family} {shortcut : Shortcut}
    (hmem : shortcut ∈ Shortcut.table family) {codes : List String}
    (hlength : codes.length = shortcut.arity) (receiver : String) :
    ∃ cast method : String, (cast = "" ∨ cast = "(int32_t)") ∧ Quiet method.toList ∧
      Template.expand shortcut.template receiver codes =
        applied (cast ++ receiver ++ "." ++ method) codes := by
  cases family with
  | text =>
    simp only [table, texts, List.mem_cons, List.not_mem_nil, or_false] at hmem
    rcases hmem with rfl | rfl | rfl | rfl | rfl
    · obtain rfl := List.eq_nil_of_length_eq_zero hlength
      exact ⟨"(int32_t)", "length", Or.inr rfl, by decide, expand_eq_applied rfl⟩
    · obtain ⟨a, rfl⟩ := List.length_eq_one_iff.1 hlength
      exact ⟨"", "at", Or.inl rfl, by decide, expand_eq_applied rfl⟩
    · match codes, hlength with
      | [a, b], _ =>
        refine ⟨"", "substr", Or.inl rfl, by decide, expand_eq_applied ?_⟩
        simp only [Text.join, String.toList_append, List.append_assoc]
        rfl
    · obtain ⟨a, rfl⟩ := List.length_eq_one_iff.1 hlength
      exact ⟨"", "contains", Or.inl rfl, by decide, expand_eq_applied rfl⟩
    · obtain rfl := List.eq_nil_of_length_eq_zero hlength
      exact ⟨"", "empty", Or.inl rfl, by decide, expand_eq_applied rfl⟩
  | collection =>
    simp only [table, collections, List.mem_cons, List.not_mem_nil, or_false] at hmem
    rcases hmem with rfl | rfl | rfl | rfl | rfl | rfl | rfl | rfl
    · obtain rfl := List.eq_nil_of_length_eq_zero hlength
      exact ⟨"(int32_t)", "size", Or.inr rfl, by decide, expand_eq_applied rfl⟩
    · obtain rfl := List.eq_nil_of_length_eq_zero hlength
      exact ⟨"(int32_t)", "size", Or.inr rfl, by decide, expand_eq_applied rfl⟩
    · obtain ⟨a, rfl⟩ := List.length_eq_one_iff.1 hlength
      exact ⟨"", "at", Or.inl rfl, by decide, expand_eq_applied rfl⟩
    · obtain ⟨a, rfl⟩ := List.length_eq_one_iff.1 hlength
      exact ⟨"", "contains", Or.inl rfl, by decide, expand_eq_applied rfl⟩
    · obtain rfl := List.eq_nil_of_length_eq_zero hlength
      exact ⟨"", "empty", Or.inl rfl, by decide, expand_eq_applied rfl⟩
    · obtain ⟨a, rfl⟩ := List.length_eq_one_iff.1 hlength
      exact ⟨"", "push_back", Or.inl rfl, by decide, expand_eq_applied rfl⟩
    · obtain rfl := List.eq_nil_of_length_eq_zero hlength
      exact ⟨"", "pop_back", Or.inl rfl, by decide, expand_eq_applied rfl⟩
    · obtain rfl := List.eq_nil_of_length_eq_zero hlength
      exact ⟨"", "clear", Or.inl rfl, by decide, expand_eq_applied rfl⟩

theorem Shortcut.isTerm_expand {family : Family} {shortcut : Shortcut}
    (hmem : shortcut ∈ Shortcut.table family) {codes : List String}
    (hlength : codes.length = shortcut.arity) (hcodes : ∀ t ∈ codes, Even [] t.toList)
    {receiver : String} (hreceiver : IsCallee receiver.toList) :
    IsTerm (Template.expand shortcut.template receiver codes) := by
  obtain ⟨cast, method, hcast, hmethod, hexpand⟩ := exists_expand_eq hmem hlength receiver
  rw [hexpand]
  refine isTerm_applied ?_ hcodes
  have hafter : Quiet ("." ++ method).toList := Quiet.text (by decide) hmethod
  rw [String.append_assoc, String.toList_append]
  refine IsCallee.append ?_ hafter
  rcases hcast with rfl | rfl
  · rwa [String.empty_append]
  · rw [String.toList_append]
    exact isCallee_group_append (g := "int32_t".toList) (by decide) hreceiver.1

theorem yields_logCode {arg : Arg Coded} (h : arg.IsSound) : (logCode arg).Yields IsTerm := by
  have hcallee : IsCallee "webcc::system::log".toList := isCallee_of_even rfl
  unfold logCode
  split
  · refine h.value.appends.bind fun appends happends => Lowered.yields_pure ?_
    exact isTerm_formatterBlock happends rfl rfl
  · refine (Arg.yields_text h.value).bind fun code hcode => Lowered.yields_pure ?_
    exact isTerm_call "webcc::system::log" rfl hcallee hcode

theorem yields_intrinsicCode (env : Env) (key : String) {args : List (Arg Coded)}
    (h : ∀ arg ∈ args, arg.IsSound) : (intrinsicCode env key args).Yields IsTerm := by
  have hseed {seed : Arg Coded} (hs : seed.IsSound) : Lowered.Yields IsTerm (do
      let code ← seed.text
      return "(webcc::random_seed(" ++ code ++ "), webcc::random())") := by
    refine (Arg.yields_text hs.value).bind fun code hcode => Lowered.yields_pure ?_
    have hbody : Even [] ("webcc::random_seed(" ++ code ++ "), webcc::random()").toList :=
      Walks.text (Walks.text (q := ⟨1, .code⟩) rfl hcode.inside) rfl
    have hhead : "(webcc::random_seed(".toList = '(' :: "webcc::random_seed(".toList := rfl
    have htail : "), webcc::random())".toList = "), webcc::random()".toList ++ [')'] := rfl
    refine isTerm_of_chars ?_ hbody
    simp only [String.toList_append, hhead, htail, List.append_assoc, List.cons_append]
  unfold intrinsicCode
  split
  · exact Lowered.yields_pure ⟨.smooth rfl, .first (by decide)⟩
  · exact hseed (h _ (by simp))
  · exact hseed (h _ (by simp))
  · refine (Arg.yields_text (h _ (by simp)).value).bind fun code hcode => Lowered.yields_pure ?_
    exact IsTerm.index (t := "g_key_state") (isTerm_of_even rfl) hcode
  · refine (Arg.yields_text (h _ (by simp)).value).bind fun code hcode => Lowered.yields_pure ?_
    exact IsTerm.index (t := "!g_key_state") (isTerm_of_even rfl) hcode
  · exact yields_logCode (h _ (by simp))
  · refine ((h _ (by simp)).yields_callbackText env).bind fun code hcode => Lowered.yields_pure ?_
    exact isTerm_call "webcc::system::request_animation_frame" rfl (isCallee_of_even rfl) hcode
  · refine (Lowered.yields_true _).bind fun _ _ => Lowered.yields_pure ?_
    exact isTerm_of_even Even.nil

/-! ## Methods of the schema

Which texts a method brings along is a matter of the schema, and a tidy schema has tidy methods
only. -/

namespace Schema

variable {schema : Schema} {method : ApiMethod}

theorem IsTidy.quiet (h : schema.IsTidy) (hmethod : schema.HasMethod method) :
    Quiet method.mappingValue.toList := by
  obtain ⟨name, type, htype, hmem⟩ := hmethod
  exact (h.methods name type htype method hmem).1

theorem IsTidy.returnType (h : schema.IsTidy) (hmethod : schema.HasMethod method) :
    IsTypeName method.returnType := by
  obtain ⟨name, type, htype, hmem⟩ := hmethod
  exact (h.methods name type htype method hmem).2

end Schema

/-! ## Ways of a call

What is known of the way that a call goes is in `Route.Selected`.  The texts that it brings along
are therefore tidy, and each way puts them together with the receiver and the arguments by one of
the lemmas above. -/

namespace Route

variable {env : Env} {receiver method : String} {argc : Nat} {route : Route}

/-- The texts that a way of a call brings along. -/
def IsTidy (argc : Nat) : Route → Prop
  | .shortcut found => (∃ family, found ∈ Shortcut.table family) ∧ argc = found.arity
  | .staticTemplate found | .valueTemplate found => Quiet found.mappingValue.toList
  | .function found space name _ =>
    Quiet space.toList ∧ Quiet name.toList ∧ IsTypeName found.returnType
  | .enumSize | .intrinsic _ | .unknownStatic | .unknownMember => True

/-- Every way that a call can go brings tidy texts. -/
theorem Selected.isTidy (henv : env.IsTidy) (h : route.Selected env receiver method argc) :
    route.IsTidy argc := by
  cases h with
  | shortcut _ hfind =>
    obtain ⟨hmem, harity⟩ := Shortcut.mem_table_of_find? hfind
    exact ⟨⟨_, hmem⟩, harity.symm⟩
  | staticTemplate _ hmethod | valueTemplate hmethod => exact henv.schema.quiet hmethod
  | function hmethod _ htarget _ =>
    obtain ⟨hspace, hname⟩ := quiet_of_target? (henv.schema.quiet hmethod) htarget
    exact ⟨hspace, hname, henv.schema.returnType hmethod⟩
  | enumSize | intrinsic | unknownStatic | unknownMember => trivial

end Route

/-- A call with a receiver is a term, whichever way it goes. -/
theorem yields_routeCode {env : Env} (henv : env.IsTidy) {call : Call Coded}
    {receiver method : String} {route : Route} (hreceiver : Quiet receiver.toList)
    (hmethod : Quiet method.toList) (hargs : ∀ arg ∈ call.args, arg.IsSound)
    (hroute : route.IsTidy call.args.length) :
    (routeCode env call receiver method route).Yields IsTerm := by
  have hpath := env.scope.isCallee_readPath hreceiver
  have htype := Env.isTypeName_typeText henv (isTypeName_of_quiet hreceiver)
  cases route with
  | enumSize =>
    refine htype.bind fun text htext => Lowered.yields_pure ?_
    have hu : Even [] (text ++ "::_COUNT").toList := Even.text (Even.body htext) rfl
    have hcall : IsTerm ("static_cast<int32_t>(" ++ (text ++ "::_COUNT") ++ ")") :=
      isTerm_call "static_cast<int32_t>" rfl (isCallee_of_even rfl) hu
    rwa [← String.append_assoc, String.append_assoc, show "::_COUNT" ++ ")" = "::_COUNT)" from rfl]
      at hcall
  | shortcut found =>
    obtain ⟨⟨family, hfamily⟩, harity⟩ := hroute
    refine (yields_argTexts hargs).bind fun codes hcodes => Lowered.yields_pure ?_
    exact Shortcut.isTerm_expand hfamily (hcodes.1.trans harity) hcodes.2 hpath
  | intrinsic found =>
    refine (Lowered.yields_true _).bind fun _ _ => ?_
    refine (yields_intrinsicCode env found.mappingValue hargs).bind fun code hcode => ?_
    dsimp only
    split
    · exact (Lowered.yields_true _).bind fun _ _ => Lowered.yields_pure hcode
    · exact Lowered.yields_pure hcode
  | staticTemplate found =>
    refine (Lowered.yields_true _).bind fun _ _ => ?_
    refine (Lowered.yields_true _).bind fun codes _ => Lowered.yields_pure ?_
    rw [Template.expand_of_quiet hroute]
    exact isTerm_of_even (Quiet.even hroute)
  | valueTemplate found =>
    refine (Lowered.yields_true _).bind fun _ _ => ?_
    refine (Lowered.yields_true _).bind fun codes _ => Lowered.yields_pure ?_
    rw [Template.expand_of_quiet hroute]
    exact isTerm_of_even (Quiet.even hroute)
  | function found space name passesReceiver =>
    obtain ⟨hspace, hname, hreturn⟩ := hroute
    refine (Lowered.yields_true _).bind fun _ _ => ?_
    refine yields_functionCode henv _ (quiet_function hspace hname) hreturn ?_ hargs
    split
    · simpa using hpath.1.body
    · simp
  | unknownStatic =>
    refine (Lowered.yields_true _).bind fun _ _ => ?_
    refine (yields_argTexts hargs).bind fun codes hcodes => ?_
    refine htype.bind fun text htext => Lowered.yields_pure ?_
    exact isTerm_applied (isCallee_of_even (Even.text (Even.text htext rfl) hmethod.even)) hcodes.2
  | unknownMember =>
    refine (Lowered.yields_true _).bind fun _ _ => ?_
    refine (yields_argTexts hargs).bind fun codes hcodes => Lowered.yields_pure ?_
    have hafter : Quiet ("." ++ method).toList := Quiet.text (by decide) hmethod
    refine isTerm_applied ?_ hcodes.2
    rw [String.append_assoc, String.toList_append]
    exact hpath.append hafter

theorem yields_plainCode {env : Env} (henv : env.IsTidy) {call : Call Coded}
    (hname : Quiet call.name.toList) (hargs : ∀ arg ∈ call.args, arg.IsSound) :
    (plainCode env call).Yields IsTerm := by
  unfold plainCode
  split
  · rename_i found hfound
    unfold globalFunction? at hfound
    split at hfound
    · cases hfound
    · obtain ⟨hmethod, htarget⟩ := Schema.hasMethod_of_lookupFunction hfound
      obtain ⟨hspace, hfunction⟩ := quiet_of_target? (henv.schema.quiet hmethod) htarget
      unfold globalCode
      refine (Lowered.yields_true _).bind fun _ _ => ?_
      refine (Lowered.yields_true _).bind fun _ _ => ?_
      refine (yields_argTextsFor env _ hargs).bind fun codes hcodes => ?_
      exact Env.yields_castResult henv (henv.schema.returnType hmethod)
        (isTerm_applied (isCallee_of_even (quiet_function hspace hfunction).even) hcodes)
  · have happlied {text : String} (htext : IsTypeName text) : Lowered.Yields IsTerm (do
        let codes ← argTexts call.args
        return applied text codes) := by
      refine (yields_argTexts hargs).bind fun codes hcodes => Lowered.yields_pure ?_
      exact isTerm_applied (isCallee_of_even htext) hcodes.2
    dsimp only
    split
    · exact (Env.isTypeName_typeText henv (isTypeName_of_quiet hname)).bind fun _ => happlied
    · exact (Lowered.yields_pure (isTypeName_of_quiet hname)).bind fun _ => happlied

/-- A call is a term. -/
theorem yields_callCode {env : Env} (henv : env.IsTidy) {call : Call Coded}
    (hname : Quiet call.name.toList) (hargs : ∀ arg ∈ call.args, arg.IsSound) :
    (callCode env call).Yields IsTerm := by
  unfold callCode
  split
  · rename_i receiver method hsplit
    obtain ⟨hreceiver, hmethod⟩ := quiet_of_splitReceiver hname hsplit
    exact yields_routeCode henv hreceiver hmethod hargs
      ((Route.selected_select env _ _ _).isTidy henv)
  · exact yields_plainCode henv hname hargs

end UiLowering
