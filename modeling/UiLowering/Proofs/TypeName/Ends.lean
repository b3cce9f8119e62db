import Mathlib.Algebra.BigOperators.Group.Finset.Basic
import Mathlib.Data.Nat.ModEq
import Mathlib.Logic.Relation
import UiLowering.Env
import UiLowering.Proofs.Lowered
import UiLowering.Proofs.Text.Identifier
import UiLowering.Proofs.Text.Join
import UiLowering.Proofs.TypeName.Plain

/-!
# Where the resolution of a type name ends

`Resolves` is the form of a type without any bound on the number of steps, and `Ends` says that a
name has one.  A step makes a name shorter or goes on with a name that the schema gives as the
target of a second name, of which there are finitely many.  So the steps from a name either end or
come back to such a target (`ends_iff_forall_aliasTargets`), and if they end they do so within
`stepLimit` (`Resolves.resolve_eq`).  If they do not end, a request for the type has no answer
(`Env.answer?_typeText_eq_none_iff`).

Names in a circle do come back.  Sixteen links are followed at once, which ends at the name it began
with if the number of names in the circle divides sixteen.  Such a name is taken for one that the
schema does not know, and the names of all other circles have no form.

The recursion of `form?` is on a number of steps, so it always ends; what has to be shown is that
the number that it is given is large enough.  The measure is not the length of the name, since a
second name may stand for a longer one.  It is the length of the name together with the lengths of
all targets that can still come up.  A target is counted once, because a name that comes up a second
time on the way from itself has no form at all.

A name without a form is not an error of the schema that could be found when the schema is read: the
steps depend on the scope as well.
-/

set_option autoImplicit false

namespace UiLowering

open Relation

/-- The names that stand behind second names. -/
def Schema.aliasTargets (schema : Schema) : List String := schema.typeList.filterMap (·.aliasOf)

theorem Schema.mem_typeList {schema : Schema} {name : String} {type : ApiType}
    (h : schema.get? name = some type) : type ∈ schema.typeList :=
  List.mem_map.2 ⟨(name, type), Std.ExtTreeMap.mem_toList_iff_getElem?_eq_some.2 h, rfl⟩

/-- Following second names leads nowhere, or to the target of one. -/
theorem Schema.followAlias_mem (schema : Schema) (fuel : Nat) (name : String) :
    schema.followAlias fuel name = name ∨ schema.followAlias fuel name ∈ schema.aliasTargets := by
  induction fuel generalizing name with
  | zero => exact Or.inl rfl
  | succ fuel ih =>
    rw [followAlias]
    split
    · rename_i target htarget
      obtain ⟨type, htype, halias⟩ := Option.bind_eq_some_iff.1 htarget
      split
      · exact Or.inl rfl
      · refine Or.inr ?_
        rcases ih target with hsame | hmem
        · rw [hsame]
          exact List.mem_filterMap.2 ⟨type, mem_typeList htype, halias⟩
        · exact hmem
    · exact Or.inl rfl

namespace TypeName

/-- The steps from a type name end in a form. -/
inductive Resolves (scope : Scope) (schema : Schema) : String → TypeForm → Prop
  | known {raw text : String} (hstep : step scope schema (Text.trim raw) = .known text) :
      Resolves scope schema raw (.known text)
  | vector {raw element : String} {form : TypeForm}
      (hstep : step scope schema (Text.trim raw) = .vector element)
      (hform : Resolves scope schema element form) : Resolves scope schema raw (.vector form)
  | fixed {raw element size : String} {form : TypeForm}
      (hstep : step scope schema (Text.trim raw) = .fixed element size)
      (hform : Resolves scope schema element form) : Resolves scope schema raw (.fixed form size)
  | synonym {raw target : String} {form : TypeForm}
      (hstep : step scope schema (Text.trim raw) = .synonym target)
      (hform : Resolves scope schema target form) : Resolves scope schema raw form
  | companion {raw base : String} {form : TypeForm}
      (hstep : step scope schema (Text.trim raw) = .companion base)
      (hform : Resolves scope schema base form) (hbase : form.text ≠ base) :
      Resolves scope schema raw (.companion form)
  /-- The companion of a type that stands for itself stands for itself. -/
  | companionOfItself {raw base : String} {form : TypeForm}
      (hstep : step scope schema (Text.trim raw) = .companion base)
      (hform : Resolves scope schema base form) (hbase : form.text = base) :
      Resolves scope schema raw (.unresolved (Text.trim raw) (some form))
  | unresolved {raw : String} (hstep : step scope schema (Text.trim raw) = .unresolved) :
      Resolves scope schema raw (.unresolved (Text.trim raw) none)

/-- The type name has a form. -/
def Ends (scope : Scope) (schema : Schema) (name : String) : Prop :=
  ∃ form, Resolves scope schema name form

/-- The name that a step goes on with. -/
def Step.next? : Step → Option String
  | .known _ => none
  | .vector element => some element
  | .fixed element _ => some element
  | .synonym target => some target
  | .companion base => some base
  | .unresolved => none

/-- The form of one name depends on that of another. -/
def Asks (scope : Scope) (schema : Schema) (raw next : String) : Prop :=
  (step scope schema (Text.trim raw)).next? = some next

variable {scope : Scope} {schema : Schema} {name raw next : String} {form : TypeForm} {fuel : Nat}

/-! ## Bounded and unbounded numbers of steps

`form?` takes a number of steps at most, and more steps change no result.  So the form that the
steps end in is the one that is found with enough of them, and there is at most one. -/

theorem resolves_of_form? (h : form? scope schema fuel raw = some form) :
    Resolves scope schema raw form := by
  induction fuel generalizing raw form with
  | zero => cases h
  | succ fuel ih =>
    rw [form?] at h
    split at h
    case h_1 hstep => cases h; exact .known hstep
    case h_2 hstep =>
      obtain ⟨inner, hinner, rfl⟩ := Option.map_eq_some_iff.1 h
      exact .vector hstep (ih hinner)
    case h_3 hstep =>
      obtain ⟨inner, hinner, rfl⟩ := Option.map_eq_some_iff.1 h
      exact .fixed hstep (ih hinner)
    case h_4 hstep => exact .synonym hstep (ih h)
    case h_5 hstep =>
      obtain ⟨inner, hinner, rfl⟩ := Option.map_eq_some_iff.1 h
      split
      · rename_i hbase
        exact .companionOfItself hstep (ih hinner) (by simpa using hbase)
      · rename_i hbase
        exact .companion hstep (ih hinner) (by simpa using hbase)
    case h_6 hstep => cases h; exact .unresolved hstep

theorem exists_form?_of_resolves (h : Resolves scope schema raw form) :
    ∃ fuel, form? scope schema fuel raw = some form := by
  induction h with
  | known hstep => exact ⟨1, by simp only [form?, hstep]⟩
  | vector hstep _ ih =>
    obtain ⟨fuel, hfuel⟩ := ih
    exact ⟨fuel + 1, by simp only [form?, hstep, hfuel, Option.map_some]⟩
  | fixed hstep _ ih =>
    obtain ⟨fuel, hfuel⟩ := ih
    exact ⟨fuel + 1, by simp only [form?, hstep, hfuel, Option.map_some]⟩
  | synonym hstep _ ih =>
    obtain ⟨fuel, hfuel⟩ := ih
    exact ⟨fuel + 1, by simp only [form?, hstep, hfuel]⟩
  | companion hstep _ hbase ih =>
    obtain ⟨fuel, hfuel⟩ := ih
    exact ⟨fuel + 1, by simp [form?, hstep, hfuel, hbase]⟩
  | companionOfItself hstep _ hbase ih =>
    obtain ⟨fuel, hfuel⟩ := ih
    exact ⟨fuel + 1, by simp [form?, hstep, hfuel, hbase]⟩
  | unresolved hstep => exact ⟨1, by simp only [form?, hstep]⟩

theorem form?_succ (h : form? scope schema fuel raw = some form) :
    form? scope schema (fuel + 1) raw = some form := by
  induction fuel generalizing raw form with
  | zero => cases h
  | succ fuel ih =>
    rw [form?] at h ⊢
    split at h
    case h_1 => exact h
    case h_2 =>
      obtain ⟨inner, hinner, rfl⟩ := Option.map_eq_some_iff.1 h
      rw [ih hinner, Option.map_some]
    case h_3 =>
      obtain ⟨inner, hinner, rfl⟩ := Option.map_eq_some_iff.1 h
      rw [ih hinner, Option.map_some]
    case h_4 => exact ih h
    case h_5 =>
      obtain ⟨inner, hinner, rfl⟩ := Option.map_eq_some_iff.1 h
      rw [ih hinner, Option.map_some]
    case h_6 => exact h

theorem form?_mono {more : Nat} (hle : fuel ≤ more) (h : form? scope schema fuel raw = some form) :
    form? scope schema more raw = some form := by
  induction hle with
  | refl => exact h
  | step _ ih => exact form?_succ ih

theorem isSome_form?_of_le {more : Nat} (hle : fuel ≤ more)
    (h : (form? scope schema fuel raw).isSome = true) :
    (form? scope schema more raw).isSome = true := by
  obtain ⟨form, hform⟩ := Option.isSome_iff_exists.1 h
  rw [form?_mono hle hform]
  rfl

theorem Resolves.unique {other : TypeForm} (h : Resolves scope schema raw form)
    (hother : Resolves scope schema raw other) : form = other := by
  obtain ⟨fuel, hfuel⟩ := exists_form?_of_resolves h
  obtain ⟨more, hmore⟩ := exists_form?_of_resolves hother
  have hleft := form?_mono (Nat.le_max_left fuel more) hfuel
  have hright := form?_mono (Nat.le_max_right fuel more) hmore
  exact Option.some.inj (hleft.symm.trans hright)

theorem ends_iff_exists_fuel :
    Ends scope schema name ↔ ∃ fuel, (form? scope schema fuel name).isSome = true := by
  constructor
  · rintro ⟨form, hform⟩
    obtain ⟨fuel, hfuel⟩ := exists_form?_of_resolves hform
    exact ⟨fuel, by rw [hfuel]; rfl⟩
  · rintro ⟨fuel, hfuel⟩
    obtain ⟨form, hform⟩ := Option.isSome_iff_exists.1 hfuel
    exact ⟨form, resolves_of_form? hform⟩

/-- One more step is enough if the name that it goes on with has a form. -/
theorem isSome_form?_succ :
    (form? scope schema (fuel + 1) raw).isSome = true ↔
      ∀ next, Asks scope schema raw next → (form? scope schema fuel next).isSome = true := by
  unfold Asks
  rw [form?]
  cases step scope schema (Text.trim raw) <;> simp [Step.next?]

/-- A name has a form if and only if the name that its form depends on has one. -/
theorem ends_iff_forall_asks :
    Ends scope schema raw ↔ ∀ next, Asks scope schema raw next → Ends scope schema next := by
  simp only [ends_iff_exists_fuel]
  constructor
  · rintro ⟨fuel, hfuel⟩ next hnext
    cases fuel with
    | zero => cases hfuel
    | succ fuel => exact ⟨fuel, isSome_form?_succ.1 hfuel next hnext⟩
  · intro h
    cases hnext : (step scope schema (Text.trim raw)).next? with
    | none =>
      refine ⟨1, isSome_form?_succ.2 fun next hasks => ?_⟩
      rw [Asks, hnext] at hasks
      cases hasks
    | some next =>
      obtain ⟨fuel, hfuel⟩ := h next hnext
      refine ⟨fuel + 1, isSome_form?_succ.2 fun other hasks => ?_⟩
      rw [Asks, hnext] at hasks
      cases hasks
      exact hfuel

/-! ## Names that come up again

Consider the targets of second names that are met on the way.  If none is met twice, they are
finitely many, and between two of them every step makes the name shorter, so the sum of their
lengths bounds the number of steps.  `stepLimit` is chosen as such a sum.  A target that is met
twice leads to itself for ever. -/

theorem NamedRule.eq_append {step : Step} (hrule : NamedRule scope schema name step)
    (h : step.next? = some next) : name = next ++ "Meta" := by
  cases hrule with
  | companion _ hname =>
    cases h
    exact hname
  | localType => cases h
  | moduleType => cases h
  | path => cases h
  | handle => cases h
  | unresolved => cases h

/-- What a step goes on with: a shorter name, or the target of a second name. -/
theorem Rule.shorter_or_mem {step : Step} (hrule : Rule scope schema name step)
    (h : step.next? = some next) : next.length < name.length ∨ next ∈ schema.aliasTargets := by
  cases hrule with
  | empty => cases h
  | vector hname =>
    cases h
    rw [hname]
    exact Or.inl (Text.length_lt_append _ (by decide))
  | fixed hname =>
    cases h
    rw [hname, sizedName, String.append_assoc, String.append_assoc]
    exact Or.inl (Text.length_lt_append _ (by simp))
  | target => cases h
  | primitive => cases h
  | synonym htarget =>
    cases h
    exact Or.inr ((schema.followAlias_mem Schema.maxLinks name).resolve_left htarget)
  | named _ hnamed =>
    rw [hnamed.eq_append h]
    exact Or.inl (Text.length_lt_append _ (by decide))

theorem Asks.shorter_or_mem (h : Asks scope schema raw next) :
    next.length < raw.length ∨ next ∈ schema.aliasTargets :=
  ((rule_step scope schema _).shorter_or_mem h).imp_left fun hlt =>
    Nat.lt_of_lt_of_le hlt (Text.length_trim_le raw)

/-- A name that comes up again on the way from itself has no form. -/
theorem not_transGen_asks_self (h : (form? scope schema fuel raw).isSome = true) :
    ¬TransGen (Asks scope schema) raw raw := by
  induction fuel generalizing raw with
  | zero => cases h
  | succ fuel ih =>
    intro hagain
    obtain ⟨next, hnext, hback⟩ := TransGen.head'_iff.1 hagain
    exact ih (isSome_form?_succ.1 h next hnext) (TransGen.tail' hback hnext)

theorem ends_of_reflTransGen_asks (h : Ends scope schema raw)
    (hreach : ReflTransGen (Asks scope schema) raw next) : Ends scope schema next := by
  induction hreach with
  | refl => exact h
  | tail _ hasks ih => exact ends_iff_forall_asks.1 ih _ hasks

/-- If no target of a second name that is met on the way leads back to itself, each of them is met
at most once, and the steps between two of them make the name shorter. -/
theorem isSome_form?_of_not_transGen (targets : Finset String) (raw : String)
    (htargets : ∀ target ∈ schema.aliasTargets,
      TransGen (Asks scope schema) raw target → target ∈ targets)
    (hback : ∀ target ∈ schema.aliasTargets,
      TransGen (Asks scope schema) raw target → ¬TransGen (Asks scope schema) target target) :
    (form? scope schema (∑ target ∈ targets, (target.length + 1) + raw.length + 1) raw).isSome =
      true := by
  induction targets using Finset.strongInduction generalizing raw with
  | H targets ihTargets =>
    induction hlength : raw.length using Nat.strong_induction_on generalizing raw with
    | _ n ihLength =>
      refine isSome_form?_succ.2 fun next hnext => ?_
      -- what comes up behind `next` comes up behind `raw`
      have hlater {target : String} (h : TransGen (Asks scope schema) next target) :
          TransGen (Asks scope schema) raw target := TransGen.head hnext h
      rcases hnext.shorter_or_mem with hshorter | hmem
      · refine isSome_form?_of_le ?_ (ihLength next.length (hlength ▸ hshorter) next
          (fun target hmem h => htargets target hmem (hlater h))
          (fun target hmem h => hback target hmem (hlater h)) rfl)
        omega
      · have htarget := htargets next hmem (.single hnext)
        refine isSome_form?_of_le ?_ (ihTargets (targets.erase next) (Finset.erase_ssubset htarget)
          next (fun target hmem' h => ?_) (fun target hmem' h => hback target hmem' (hlater h)))
        · have hsum := Finset.sum_erase_add targets (fun target => target.length + 1) htarget
          omega
        · refine Finset.mem_erase.2 ⟨?_, htargets target hmem' (hlater h)⟩
          rintro rfl
          exact hback target hmem (.single hnext) h

theorem sum_aliasTargets_le_stepLimit (schema : Schema) (name : String) :
    ∑ target ∈ schema.aliasTargets.toFinset, (target.length + 1) + name.length + 1 ≤
      stepLimit schema name := by
  have hinsert (first : String) (targets : Finset String) :
      ∑ target ∈ insert first targets, (target.length + 1) ≤
        first.length + 1 + ∑ target ∈ targets, (target.length + 1) := by
    by_cases hmem : first ∈ targets
    · rw [Finset.insert_eq_of_mem hmem]
      exact Nat.le_add_left _ _
    · rw [Finset.sum_insert hmem]
  rw [Schema.aliasTargets, stepLimit]
  induction schema.typeList with
  | nil => simp
  | cons type types ih =>
    cases htarget : type.aliasOf with
    | none => simpa [htarget] using ih
    | some target =>
      have hfirst := hinsert target (types.filterMap (·.aliasOf)).toFinset
      rw [List.filterMap_cons, htarget]
      simp only [List.toFinset_cons, List.foldr_cons, htarget, Option.map_some, Option.getD_some]
      omega

/-- **A name has a form unless its steps come back to the target of a second name.** -/
theorem ends_iff_forall_aliasTargets :
    Ends scope schema name ↔
      ∀ target ∈ schema.aliasTargets, ReflTransGen (Asks scope schema) name target →
        ¬TransGen (Asks scope schema) target target := by
  constructor
  · intro h target _ hreach
    obtain ⟨fuel, hfuel⟩ := ends_iff_exists_fuel.1 (ends_of_reflTransGen_asks h hreach)
    exact not_transGen_asks_self hfuel
  · intro h
    exact ends_iff_exists_fuel.2 ⟨_, isSome_form?_of_not_transGen schema.aliasTargets.toFinset name
      (fun target hmem _ => List.mem_toFinset.2 hmem)
      (fun target hmem hreach => h target hmem hreach.to_reflTransGen)⟩

/-! ### What is found within the limit

From here on the number of steps is out of the way.  `resolve` gives the form that the steps end in,
if they end, and says so if they do not. -/

/-- If there is a form at all, it is found within the limit. -/
theorem ends_iff_isSome_form? :
    Ends scope schema name ↔
      (form? scope schema (stepLimit schema name) name).isSome = true := by
  refine ⟨fun h => ?_, fun h => ends_iff_exists_fuel.2 ⟨_, h⟩⟩
  have hback := ends_iff_forall_aliasTargets.1 h
  exact isSome_form?_of_le (sum_aliasTargets_le_stepLimit schema name)
    (isSome_form?_of_not_transGen schema.aliasTargets.toFinset name
      (fun target hmem _ => List.mem_toFinset.2 hmem)
      (fun target hmem hreach => hback target hmem hreach.to_reflTransGen))

instance (scope : Scope) (schema : Schema) (name : String) : Decidable (Ends scope schema name) :=
  decidable_of_iff _ ends_iff_isSome_form?.symm

/-- The form of a type is what its steps end in. -/
theorem Resolves.resolve_eq (h : Resolves scope schema name form) :
    resolve scope schema name = form := by
  obtain ⟨found, hfound⟩ := Option.isSome_iff_exists.1 (ends_iff_isSome_form?.1 ⟨form, h⟩)
  rw [resolve, hfound, Option.getD_some]
  exact (resolves_of_form? hfound).unique h

theorem Ends.resolves (h : Ends scope schema name) :
    Resolves scope schema name (resolve scope schema name) := by
  obtain ⟨form, hform⟩ := h
  rwa [hform.resolve_eq]

theorem resolve_eq_endless (h : ¬Ends scope schema name) :
    resolve scope schema name = .endless name := by
  rw [resolve, Option.not_isSome_iff_eq_none.1 (mt ends_iff_isSome_form?.2 h), Option.getD_none]

/-- Steps that end leave no notice of steps that do not. -/
theorem Resolves.typeEndless_notMem (h : Resolves scope schema raw form) :
    .typeEndless name ∉ form.notices := by
  induction h with
  | known _ => exact List.not_mem_nil
  | vector _ _ ih => exact ih
  | fixed _ _ ih => exact ih
  | synonym _ _ ih => exact ih
  | companion _ _ _ ih => exact ih
  | companionOfItself _ _ _ ih =>
    intro hmem
    rcases List.mem_append.1 hmem with hbase | hself
    · exact ih hbase
    · cases List.mem_singleton.1 hself
  | unresolved _ =>
    intro hmem
    cases List.mem_singleton.1 hmem

end TypeName

/-- **The target text of a type is an answer exactly if the steps from its name end.** -/
theorem Env.answer?_typeText_eq_none_iff {env : Env} {name : String} :
    (env.typeText name).answer? = none ↔ ¬TypeName.Ends env.scope env.schema name := by
  rw [Lowered.answer?_eq_none_iff]
  constructor
  · rintro ⟨endless, hmem⟩ hends
    exact hends.resolves.typeEndless_notMem hmem
  · intro h
    refine ⟨name, ?_⟩
    rw [typeText, ofForm, TypeName.resolve_eq_endless h]
    exact List.mem_singleton.2 rfl

/-! ## Circles

Second names are not followed one at a time: sixteen links are taken at once, and the step ends
early if this leads back to the name itself.  In a circle of `n` names it does if `n` divides
sixteen.  In any other circle the step goes on with another name of the circle, and no name of it is
ever the last. -/

/-- Second names in a circle: each stands for the next one, and the last one for the first. -/
structure Schema.IsCircle (schema : Schema) (names : List String) : Prop where
  nodup : names.Nodup
  link : ∀ i < names.length,
    (names[i]?.bind schema.get?).bind (·.aliasOf) = names[(i + 1) % names.length]?

namespace Schema.IsCircle

variable {schema : Schema} {names : List String} {name : String} {i : Nat}

theorem mod_eq_of_getElem? (h : schema.IsCircle names) {j : Nat}
    (hi : names[i % names.length]? = some name) (hj : names[j % names.length]? = some name) :
    i ≡ j [MOD names.length] := by
  obtain ⟨hlt, hname⟩ := List.getElem?_eq_some_iff.1 hi
  obtain ⟨hlt', hname'⟩ := List.getElem?_eq_some_iff.1 hj
  exact h.nodup.getElem_inj_iff.1 (hname.trans hname'.symm)

/-- Following the links of a circle goes round in it. -/
theorem getElem?_followAlias (h : schema.IsCircle names) (fuel : Nat)
    (hname : names[i % names.length]? = some name) :
    names[(i + fuel) % names.length]? = some (schema.followAlias fuel name) := by
  induction fuel generalizing i name with
  | zero => exact hname
  | succ fuel ih =>
    have hlt : i % names.length < names.length := (List.getElem?_eq_some_iff.1 hname).1
    have hpos : 0 < names.length := Nat.zero_lt_of_lt hlt
    obtain ⟨target, htarget⟩ : ∃ target, names[(i + 1) % names.length]? = some target :=
      ⟨_, List.getElem?_eq_getElem (Nat.mod_lt _ hpos)⟩
    have hlink := h.link _ hlt
    rw [hname, Option.bind_some, Nat.mod_add_mod, htarget] at hlink
    rw [followAlias, hlink]
    dsimp only
    split
    · -- a name that stands for itself is alone in its circle
      rename_i hself
      rw [beq_iff_eq] at hself
      subst hself
      have hone : 1 ≡ 0 [MOD names.length] :=
        Nat.ModEq.add_left_cancel' i (h.mod_eq_of_getElem? htarget hname)
      have hlength : names.length = 1 := Nat.dvd_one.1 (Nat.modEq_zero_iff_dvd.1 hone)
      rw [← hname, hlength, Nat.mod_one, Nat.mod_one]
    · rw [← Nat.add_assoc, Nat.add_right_comm]
      exact ih htarget

theorem resolveAlias_mem (h : schema.IsCircle names) (hname : name ∈ names) :
    schema.resolveAlias name ∈ names := by
  obtain ⟨i, hlt, hi⟩ := List.getElem_of_mem hname
  have hmod : names[i % names.length]? = some name := by
    rw [Nat.mod_eq_of_lt hlt, List.getElem?_eq_getElem hlt, hi]
  exact List.mem_of_getElem? (h.getElem?_followAlias maxLinks hmod)

/-- The links that are followed lead back to where they began if the length of the circle divides
their number. -/
theorem resolveAlias_eq_self_iff (h : schema.IsCircle names) (hname : name ∈ names) :
    schema.resolveAlias name = name ↔ names.length ∣ maxLinks := by
  obtain ⟨i, hlt, hi⟩ := List.getElem_of_mem hname
  have hmod : names[i % names.length]? = some name := by
    rw [Nat.mod_eq_of_lt hlt, List.getElem?_eq_getElem hlt, hi]
  have hround := h.getElem?_followAlias maxLinks hmod
  rw [← Nat.modEq_zero_iff_dvd]
  constructor
  · intro hself
    rw [resolveAlias] at hself
    rw [hself] at hround
    exact Nat.ModEq.add_left_cancel' i (h.mod_eq_of_getElem? hround hmod)
  · intro hzero
    have hsame : (i + maxLinks) % names.length = i % names.length := Nat.ModEq.add_left i hzero
    rw [hsame, hmod] at hround
    exact (Option.some.inj hround).symm

end Schema.IsCircle

namespace TypeName

/-- A name about which only a scope or a schema can tell anything. -/
structure IsUserName (name : String) : Prop where
  plain : Text.IsPlain name
  notPrimitive : ¬IsPrimitive name
  notCompanion : Text.dropEnd? "Meta" name = none

instance : DecidablePred IsUserName := fun name =>
  decidable_of_iff
    (Text.IsPlain name ∧ ¬IsPrimitive name ∧ Text.dropEnd? "Meta" name = none)
    ⟨fun h => ⟨h.1, h.2.1, h.2.2⟩, fun h => ⟨h.plain, h.notPrimitive, h.notCompanion⟩⟩

variable {scope : Scope} {schema : Schema} {name : String} {names : List String}

theorem IsUserName.step_eq (h : IsUserName name) :
    step scope schema (Text.trim name) =
      if schema.resolveAlias name = name then namedStep scope schema name
      else .synonym (schema.resolveAlias name) := by
  rw [h.plain.trim_eq]
  exact step_of_not_isPrimitive h.plain.1
    (fun hlast => h.plain.not_mem (by decide) (List.mem_of_getLast? hlast)) h.notPrimitive

/-- Names in a circle have forms if and only if the length of the circle divides the number of links
that are followed at once. -/
theorem ends_circle_iff (h : schema.IsCircle names) (hnames : ∀ name ∈ names, IsUserName name)
    (hname : name ∈ names) : Ends scope schema name ↔ names.length ∣ Schema.maxLinks := by
  constructor
  · intro hends
    by_contra hlength
    -- every step goes on with a name of the circle
    have hnone (fuel : Nat) (name : String) (hname : name ∈ names) :
        form? scope schema fuel name = none := by
      induction fuel generalizing name with
      | zero => rfl
      | succ fuel ih =>
        have hother : schema.resolveAlias name ≠ name :=
          fun hself => hlength ((h.resolveAlias_eq_self_iff hname).1 hself)
        rw [form?, (hnames name hname).step_eq, if_neg hother]
        exact ih _ (h.resolveAlias_mem hname)
    obtain ⟨fuel, hfuel⟩ := ends_iff_exists_fuel.1 hends
    rw [hnone fuel name hname] at hfuel
    cases hfuel
  · intro hlength
    refine ends_iff_forall_asks.2 fun next hasks => ?_
    rw [Asks, (hnames name hname).step_eq,
      if_pos ((h.resolveAlias_eq_self_iff hname).2 hlength)] at hasks
    have hcompanion := Text.dropEnd?_eq_some_iff.2
      ((namedRule_namedStep scope schema name).eq_append hasks)
    rw [(hnames name hname).notCompanion] at hcompanion
    cases hcompanion

/-- **Where the resolution of a type name ends.**  If a name has a form at all, it is found within
the limit.  A name has a form unless its steps come back to the target of a second name.  So the
names in a circle have forms if and only if the length of the circle divides the number of links
that are followed at once. -/
theorem resolution_ends_iff (scope : Scope) (schema : Schema) :
    (∀ name, (form? scope schema (stepLimit schema name) name).isSome = true ↔
        Ends scope schema name) ∧
      (∀ name, Ends scope schema name ↔
        ∀ target ∈ schema.aliasTargets, ReflTransGen (Asks scope schema) name target →
          ¬TransGen (Asks scope schema) target target) ∧
      ∀ names, schema.IsCircle names → (∀ name ∈ names, IsUserName name) →
        ∀ name ∈ names, Ends scope schema name ↔ names.length ∣ Schema.maxLinks :=
  ⟨fun _ => ends_iff_isSome_form?.symm, fun _ => ends_iff_forall_aliasTargets,
    fun _ hcircle hnames _ hname => ends_circle_iff hcircle hnames hname⟩

/-- Each of the names is a second name of the next one, and the last one of the first. -/
def circleOf (names : List String) : Schema :=
  .ofTypes (List.zipWith ApiType.synonym names (names.rotate 1))

theorem resolution_ends_iff_circle_of_two :
    (circleOf ["a", "b"]).IsCircle ["a", "b"] ∧ (∀ name ∈ ["a", "b"], IsUserName name) ∧
      Ends (.ofComponent "" "" ∅) (circleOf ["a", "b"]) "a" := by
  have hcircle : (circleOf ["a", "b"]).IsCircle ["a", "b"] := ⟨by decide, by decide +kernel⟩
  have hnames : ∀ name ∈ ["a", "b"], IsUserName name := by decide +kernel
  obtain ⟨-, -, hends⟩ := resolution_ends_iff (.ofComponent "" "" ∅) (circleOf ["a", "b"])
  exact ⟨hcircle, hnames, (hends _ hcircle hnames "a" (by simp)).2 (by decide)⟩

/-- From `a` sixteen links lead to `b`, from `b` to `c` and from `c` to `a`. -/
theorem circle_of_three_never_ends :
    ¬Ends (.ofComponent "" "" ∅) (circleOf ["a", "b", "c"]) "a" := by
  decide +kernel

end TypeName

end UiLowering
