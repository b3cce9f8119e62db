import UiLowering.Lower.Expr
import UiLowering.Proofs.Lowered

/-!
# A chain takes the first arm that matches

What a match means is said on the source: an arm matches if all comparisons of its pattern hold, and
the match goes to the first arm that does, or else to the arm for all other subjects.  Which
comparisons hold is left open; `truth i j` says it for the `j`-th comparison of the `i`-th arm, so
that even two comparisons with the same text are told apart.

The chain is read back branch by branch: a `Clause` has the comparisons that are joined in the
condition, and `Clause.branch` joins them.  `ReadsArms` says which clauses the arms are lowered to,
up to the first one without comparisons; the run of a chain, the place of the branch without a
condition and the gap all follow from it by induction.

It would be easier to compare conditions as texts, but two arms can have the same condition, and the
first of them hides the second.  Numbering the comparisons by arm and position avoids the question,
and the statement is stronger: it holds for any assignment of truth values, in particular for those
that come from running the comparisons.
-/

set_option autoImplicit false

namespace UiLowering

/-! ## What a match asks

This side knows nothing of texts.  A pattern is the list of its comparisons, and a match is a search
for the first arm whose comparisons all hold.  The body of an arm is a parameter of `Outcome`, so
that the outcome on the source, whose bodies are expressions, can be compared with that of the
chain, whose bodies are texts. -/

/-- What a pattern compares with. -/
inductive Operand where
  | value (e : Expr)
  | enumValue (ref : EnumRef)

/-- A comparison that a pattern asks for: of the subject, or of one of its fields. -/
structure Comparison where
  field : Option String
  operand : Operand

/-- Whether all comparisons in a list hold, where `truth` says by their numbers which do. -/
def allHold {γ : Type} (truth : Nat → Bool) (comparisons : List γ) : Bool :=
  (List.range comparisons.length).all truth

@[simp] theorem allHold_nil {γ : Type} (truth : Nat → Bool) : allHold truth ([] : List γ) = true :=
  rfl

theorem allHold_congr {γ δ : Type} (truth : Nat → Bool) {xs : List γ} {ys : List δ}
    (h : xs.length = ys.length) : allHold truth xs = allHold truth ys := by
  rw [allHold, allHold, h]

namespace Pattern

/-- The comparison of a field with its value, if it has one. -/
def fieldComparison? (field : FieldPattern Expr) : Option Comparison :=
  field.value.map fun value => ⟨some field.name, .value value⟩

/-- The comparisons of a pattern, in the order of the source. -/
def comparisons : Pattern Expr → List Comparison
  | .literal value => [⟨none, .value value⟩]
  | .enumValue ref => [⟨none, .enumValue ref⟩]
  | .record _ fields => fields.filterMap fieldComparison?

/-- The fields without a value, which a pattern binds to their names. -/
def binders : Pattern Expr → List String
  | .literal _ | .enumValue _ => []
  | .record _ fields => (fields.filter (·.value.isNone)).map (·.name)

end Pattern

/-- What is to be done after a match: names to bind, and what to evaluate then. -/
structure Outcome (ε : Type) where
  binders : List String
  body : ε

/-- The same with another body. -/
def Outcome.map {ε δ : Type} (f : ε → δ) (outcome : Outcome ε) : Outcome δ :=
  ⟨outcome.binders, f outcome.body⟩

/-- The first arm whose comparisons hold decides a match.  If there is none, it goes to the arm for
all other subjects, if there is one. -/
def Match.outcome? (truth : Nat → Nat → Bool) (choice : Match Expr) : Option (Outcome Expr) :=
  match choice.arms.zipIdx.find? fun (arm, i) => allHold (truth i) arm.pattern.comparisons with
  | some (arm, _) => some ⟨arm.pattern.binders, arm.body⟩
  | none => choice.otherwise.map fun body => ⟨[], body⟩

/-! ## What a chain asks

A condition is a text with `&&` between its comparisons, and it could not be taken apart again: an
operand may hold the sign itself.  So the chain is described by clauses, which keep the comparisons
apart, and what has to be shown is that its branches are the texts of some clauses. -/

/-- A branch with its condition taken apart. -/
structure Clause where
  comparisons : List String
  binders : List String
  body : String

namespace Clause

/-- The comparisons joined in one condition. -/
def joined (comparisons : List String) : Option String :=
  if comparisons.isEmpty then none else some (Text.join " && " comparisons)

/-- The binding of a field of the subject to its name. -/
def bindingText (name : String) : String := "const auto& " ++ name ++ " = _m." ++ name ++ "; "

/-- The branch of a chain. -/
def branch (clause : Clause) : Branch :=
  ⟨joined clause.comparisons, clause.binders.map bindingText, clause.body⟩

/-- The branches are tried in order, and the first one is taken whose comparisons all hold. -/
def taken? (truth : Nat → Nat → Bool) (clauses : List Clause) : Option Clause :=
  (clauses.zipIdx.find? fun (clause, i) => allHold (truth i) clause.comparisons).map (·.1)

/-- What a branch does when it is taken. -/
def outcome (clause : Clause) : Outcome String := ⟨clause.binders, clause.body⟩

@[simp] theorem isUnconditional_branch (clause : Clause) :
    clause.branch.isUnconditional = clause.comparisons.isEmpty := by
  rw [branch, Branch.isUnconditional, joined]
  cases clause.comparisons <;> rfl

end Clause

namespace Env

variable {env : Env}

/-- What a comparison compares with, in target text. -/
def operandText (env : Env) : Operand → Lowered String
  | .value e => env.exprText e
  | .enumValue ref => env.enumText ref.component ref.enumName ref.valueName

/-- The subject or a field of it. -/
def placeText : Option String → String
  | none => "_m"
  | some field => "_m." ++ field

/-- A comparison in target text. -/
def comparisonText (env : Env) (comparison : Comparison) : Lowered String := do
  let code ← env.operandText comparison.operand
  return placeText comparison.field ++ " == " ++ code

/-- The texts of comparisons, in the same order. -/
def ComparisonTexts (env : Env) (comparisons : List Comparison) (texts : List String) : Prop :=
  comparisons.map (fun comparison => (env.comparisonText comparison).result) = texts.map .ok

/-! ## One arm

The conditions of a record pattern are those of its fields with a value, and its bindings those of
its fields without one.  Both are filters of the same list, so the comparisons come in the order of
the source. -/

/-- A clause is what an arm is lowered to. -/
structure ReadsArm (env : Env) (arm : Arm Expr) (clause : Clause) : Prop where
  comparisons : env.ComparisonTexts arm.pattern.comparisons clause.comparisons
  binders : clause.binders = arm.pattern.binders
  body : (env.exprText arm.body).result = .ok clause.body

theorem ReadsArm.length_eq {arm : Arm Expr} {clause : Clause} (h : env.ReadsArm arm clause) :
    arm.pattern.comparisons.length = clause.comparisons.length := by
  have hlength := congrArg List.length h.comparisons
  rwa [List.length_map, List.length_map] at hlength

theorem ReadsArm.comparisons_eq_nil_iff {arm : Arm Expr} {clause : Clause}
    (h : env.ReadsArm arm clause) : arm.pattern.comparisons = [] ↔ clause.comparisons = [] := by
  rw [← List.length_eq_zero_iff, h.length_eq, List.length_eq_zero_iff]

theorem filterMap_fieldCondition? (fields : List (FieldPattern Expr)) :
    (env.lowerFieldPatterns fields).filterMap fieldCondition? =
      (fields.filterMap Pattern.fieldComparison?).map env.comparisonText := by
  induction fields with
  | nil => rw [lowerFieldPatterns, List.filterMap_nil, List.filterMap_nil, List.map_nil]
  | cons field fields ih =>
    obtain ⟨name, value⟩ := field
    rw [lowerFieldPatterns, List.filterMap_cons, List.filterMap_cons, ih]
    cases value with
    | none => rw [lowerOption]; rfl
    | some value => rw [lowerOption]; rfl

theorem filterMap_fieldBinding? (fields : List (FieldPattern Expr)) :
    (env.lowerFieldPatterns fields).filterMap fieldBinding? =
      ((fields.filter (·.value.isNone)).map (·.name)).map Clause.bindingText := by
  induction fields with
  | nil => rw [lowerFieldPatterns, List.filterMap_nil, List.filter_nil, List.map_nil, List.map_nil]
  | cons field fields ih =>
    obtain ⟨name, value⟩ := field
    rw [lowerFieldPatterns, List.filterMap_cons, List.filter_cons, ih]
    cases value with
    | none => rw [lowerOption]; rfl
    | some value => rw [lowerOption]; rfl

/-- The condition of a pattern joins its comparisons, and the bindings are those of its fields
without a value. -/
theorem exists_joined_of_patternCode {pattern : Pattern Expr} {condition : Option String}
    {bindings : List String}
    (h : (patternCode env (env.lowerPattern pattern)).result = .ok (condition, bindings)) :
    ∃ comparisons : List String,
      env.ComparisonTexts pattern.comparisons comparisons ∧
      condition = Clause.joined comparisons ∧
      bindings = pattern.binders.map Clause.bindingText := by
  have hsubject {operand : Operand} {code : String}
      (hcode : (env.operandText operand).result = .ok code) :
      env.ComparisonTexts [⟨none, operand⟩] ["_m == " ++ code] := by
    have htext : (env.comparisonText ⟨none, operand⟩).result = .ok ("_m == " ++ code) :=
      Lowered.result_bind_eq_ok_iff.2 ⟨code, hcode, rfl⟩
    rw [ComparisonTexts, List.map_singleton, htext, List.map_singleton]
  cases pattern with
  | literal value =>
    rw [lowerPattern, patternCode, Lowered.result_bind_eq_ok_iff] at h
    obtain ⟨code, hcode, hreturn⟩ := h
    cases hreturn
    have hvalue : (env.operandText (.value value)).result = .ok code := hcode
    exact ⟨["_m == " ++ code], hsubject hvalue, rfl, rfl⟩
  | enumValue ref =>
    rw [lowerPattern, patternCode, Lowered.result_bind_eq_ok_iff] at h
    obtain ⟨code, hcode, hreturn⟩ := h
    cases hreturn
    have hvalue : (env.operandText (.enumValue ref)).result = .ok code := hcode
    exact ⟨["_m == " ++ code], hsubject hvalue, rfl, rfl⟩
  | record typeName fields =>
    rw [lowerPattern, patternCode, Lowered.result_bind_eq_ok_iff, filterMap_fieldCondition?] at h
    obtain ⟨comparisons, hcomparisons, hreturn⟩ := h
    cases hreturn
    rw [Lowered.result_all_eq_ok_iff, List.map_map] at hcomparisons
    exact ⟨comparisons, hcomparisons, rfl, filterMap_fieldBinding? fields⟩

theorem exists_clause_of_armBranch {pattern : Pattern Expr} {body : Expr} {branch : Branch}
    (h : (armBranch env ⟨env.lowerPattern pattern, env.coded body⟩).result = .ok branch) :
    ∃ clause : Clause, branch = clause.branch ∧ env.ReadsArm ⟨pattern, body⟩ clause := by
  simp only [armBranch, Lowered.result_bind_eq_ok_iff] at h
  obtain ⟨code, hcode, ⟨condition, bindings⟩, hpattern, hreturn⟩ := h
  cases hreturn
  obtain ⟨comparisons, hcomparisons, rfl, rfl⟩ := exists_joined_of_patternCode hpattern
  exact ⟨⟨comparisons, pattern.binders, code⟩, rfl, hcomparisons, rfl, hcode⟩

/-! ## All arms

An arm without comparisons always matches, so the chain ends there, and the arms behind it are
dropped.  `ReadsArms` carries whether this has happened: it decides whether an arm for all other
subjects is still of use.  The induction on it is that of the recursion of `armBranches`. -/

/-- The clauses that arms are lowered to, and whether the last of them ends the chain.  The arms
behind one without comparisons are left out. -/
inductive ReadsArms (env : Env) : List (Arm Expr) → List Clause → Bool → Prop where
  | nil : ReadsArms env [] [] false
  | closing {arm : Arm Expr} {arms : List (Arm Expr)} {clause : Clause} :
      env.ReadsArm arm clause → clause.comparisons = [] → ReadsArms env (arm :: arms) [clause] true
  | cons {arm : Arm Expr} {arms : List (Arm Expr)} {clause : Clause} {clauses : List Clause}
      {closed : Bool} : env.ReadsArm arm clause → clause.comparisons ≠ [] →
      ReadsArms env arms clauses closed → ReadsArms env (arm :: arms) (clause :: clauses) closed

theorem readsArms_of_armBranches {line : UInt32} {i : Nat} {arms : List (Arm Expr)}
    {branches : List Branch} {closed : Bool}
    (h : (armBranches env line i (env.lowerArms arms)).result = .ok (branches, closed)) :
    ∃ clauses : List Clause, branches = clauses.map Clause.branch ∧
      env.ReadsArms arms clauses closed := by
  induction arms generalizing i branches with
  | nil =>
    rw [lowerArms, armBranches] at h
    cases h
    exact ⟨[], rfl, .nil⟩
  | cons arm arms ih =>
    obtain ⟨pattern, body⟩ := arm
    rw [lowerArms, armBranches, Lowered.result_bind_eq_ok_iff] at h
    obtain ⟨branch, hbranch, hrest⟩ := h
    obtain ⟨clause, rfl, hclause⟩ := exists_clause_of_armBranch hbranch
    rw [Clause.isUnconditional_branch] at hrest
    by_cases hempty : clause.comparisons.isEmpty = true
    · rw [if_pos hempty, Lowered.result_bind_eq_ok_iff] at hrest
      obtain ⟨-, -, hreturn⟩ := hrest
      cases hreturn
      exact ⟨[clause], rfl, .closing hclause (List.isEmpty_iff.1 hempty)⟩
    · rw [if_neg hempty, Lowered.result_bind_eq_ok_iff] at hrest
      obtain ⟨⟨others, closed'⟩, hothers, hreturn⟩ := hrest
      cases hreturn
      obtain ⟨clauses, rfl, hclauses⟩ := ih hothers
      have hne : clause.comparisons ≠ [] := by simpa using hempty
      exact ⟨clause :: clauses, rfl, .cons hclause hne hclauses⟩

namespace ReadsArms

variable {arms : List (Arm Expr)} {clauses : List Clause} {closed : Bool}

/-- The clause with a number has the comparisons of the arm with that number. -/
theorem readsArm_of_getElem? (h : env.ReadsArms arms clauses closed) {i : Nat} {clause : Clause}
    (hclause : clauses[i]? = some clause) :
    ∃ arm, arms[i]? = some arm ∧ env.ReadsArm arm clause := by
  induction h generalizing i with
  | nil => cases hclause
  | @closing arm arms _ hread _ =>
    cases i with
    | zero =>
      cases hclause
      exact ⟨arm, rfl, hread⟩
    | succ i => cases hclause
  | @cons arm arms _ clauses closed hread _ _ ih =>
    cases i with
    | zero =>
      cases hclause
      exact ⟨arm, rfl, hread⟩
    | succ i => exact ih hclause

theorem length_eq (h : env.ReadsArms arms clauses false) : clauses.length = arms.length := by
  generalize hclosed : false = closed at h
  induction h with
  | nil => rfl
  | closing => cases hclosed
  | cons _ _ _ ih => rw [List.length_cons, List.length_cons, ih hclosed]

/-- A clause without comparisons ends the chain. -/
theorem closed_of_getElem? (h : env.ReadsArms arms clauses closed) {i : Nat} {clause : Clause}
    (hclause : clauses[i]? = some clause) (hempty : clause.comparisons = []) :
    closed = true ∧ i + 1 = clauses.length := by
  induction h generalizing i with
  | nil => cases hclause
  | closing =>
    cases i with
    | zero => exact ⟨rfl, rfl⟩
    | succ i => cases hclause
  | cons _ hne _ ih =>
    cases i with
    | zero =>
      cases hclause
      exact absurd hempty hne
    | succ i =>
      obtain ⟨hclosed, hlast⟩ := ih hclause
      exact ⟨hclosed, by rw [List.length_cons, hlast]⟩

/-- The chain stays open exactly if every arm asks for a comparison. -/
theorem closed_eq_false_iff (h : env.ReadsArms arms clauses closed) :
    closed = false ↔ ∀ arm ∈ arms, arm.pattern.comparisons ≠ [] := by
  induction h with
  | nil => simp
  | closing hread hempty => simp [hread.comparisons_eq_nil_iff.2 hempty]
  | cons hread hne _ ih => simp [ih, mt hread.comparisons_eq_nil_iff.1 hne]

theorem any_isEmpty (h : env.ReadsArms arms clauses closed) :
    clauses.any (fun clause => clause.comparisons.isEmpty) = closed := by
  induction h with
  | nil => rfl
  | closing _ hempty => simp [hempty]
  | cons _ hne _ ih => simp [hne, ih]

/-- The arm that ends a chain always matches. -/
theorem find?_ne_none (h : env.ReadsArms arms clauses true) {truth : Nat → Nat → Bool} :
    (arms.zipIdx.find? fun (arm, i) => allHold (truth i) arm.pattern.comparisons) ≠ none := by
  intro hnone
  have hopen : true = false := by
    refine h.closed_eq_false_iff.2 fun arm harm hempty => ?_
    obtain ⟨i, hi⟩ := List.mem_iff_getElem?.1 harm
    have hmem : (arm, i) ∈ arms.zipIdx := List.mem_zipIdx_iff_getElem?.2 hi
    exact List.find?_eq_none.1 hnone _ hmem (by simp [hempty])
  cases hopen

/-- **The run of a chain.**  The first clause whose comparisons hold belongs to the first arm that
matches; if no arm does, the branches behind the arms are tried. -/
theorem find?_append (h : env.ReadsArms arms clauses closed) (others : List Clause)
    (truth : Nat → Nat → Bool) (n : Nat) :
    (((clauses ++ others).zipIdx n).find? fun (clause, i) =>
        allHold (truth i) clause.comparisons).map (fun found => found.1.outcome.map .ok) =
      match (arms.zipIdx n).find? fun (arm, i) => allHold (truth i) arm.pattern.comparisons with
      | some (arm, _) => some ⟨arm.pattern.binders, (env.exprText arm.body).result⟩
      | none =>
        ((others.zipIdx (n + clauses.length)).find? fun (clause, i) =>
          allHold (truth i) clause.comparisons).map (fun found => found.1.outcome.map .ok) := by
  induction h generalizing n with
  | nil => rfl
  | closing hread hempty =>
    simp [List.zipIdx_cons, hempty, hread.comparisons_eq_nil_iff.2 hempty, Clause.outcome,
      Outcome.map, hread.binders, hread.body]
  | @cons arm arms clause clauses closed hread _ _ ih =>
    rw [List.cons_append, List.zipIdx_cons, List.zipIdx_cons, List.find?_cons, List.find?_cons]
    dsimp only
    rw [allHold_congr (truth n) hread.length_eq]
    cases hhold : allHold (truth n) clause.comparisons with
    | true => simp [Clause.outcome, Outcome.map, hread.binders, hread.body]
    | false =>
      dsimp only
      rw [ih (n + 1), List.length_cons, Nat.add_assoc, Nat.add_comm 1]

end ReadsArms

/-! ## The chain

The two ways in which a chain can end without a gap meet here: an arm that asks for nothing, or an
arm for all other subjects.  In both cases the last clause has no comparisons. -/

/-- The clauses behind those of the arms: that of the arm for all other subjects, if there is one
and the chain has not ended before. -/
inductive ReadsOtherwise (env : Env) : Bool → Option Expr → List Clause → Prop where
  | dropped {otherwise : Option Expr} : ReadsOtherwise env true otherwise []
  | missing : ReadsOtherwise env false none []
  | body {body : Expr} {code : String} : (env.exprText body).result = .ok code →
      ReadsOtherwise env false (some body) [⟨[], [], code⟩]

theorem readsOtherwise_of_otherwiseBranches {line : UInt32} {closed : Bool}
    {otherwise : Option Expr} {branches : List Branch}
    (h : (otherwiseBranches line closed (env.lowerOption otherwise)).result = .ok branches) :
    ∃ clauses : List Clause, branches = clauses.map Clause.branch ∧
      env.ReadsOtherwise closed otherwise clauses := by
  cases otherwise with
  | none =>
    rw [lowerOption] at h
    cases closed with
    | true =>
      cases h
      exact ⟨[], rfl, .dropped⟩
    | false =>
      cases h
      exact ⟨[], rfl, .missing⟩
  | some body =>
    rw [lowerOption] at h
    cases closed with
    | true =>
      cases h
      exact ⟨[], rfl, .dropped⟩
    | false =>
      obtain ⟨code, hcode, hreturn⟩ := Lowered.result_bind_eq_ok_iff.1 h
      cases hreturn
      exact ⟨[⟨[], [], code⟩], rfl, .body hcode⟩

/-- The clauses of a match: those of its arms and those behind them. -/
def ReadsMatch (env : Env) (choice : Match Expr) (clauses : List Clause) : Prop :=
  ∃ closed front back, clauses = front ++ back ∧ env.ReadsArms choice.arms front closed ∧
    env.ReadsOtherwise closed choice.otherwise back

theorem readsMatch_of_chainOf {choice : Match Expr} {chain : MatchChain}
    (h : (env.chainOf choice).result = .ok chain) :
    ∃ clauses : List Clause, chain.branches = clauses.map Clause.branch ∧
      env.ReadsMatch choice clauses := by
  simp only [chainOf, matchChain, Lowered.result_bind_eq_ok_iff] at h
  obtain ⟨⟨branches, closed⟩, hbranches, others, hothers, subject, -, hreturn⟩ := h
  cases hreturn
  obtain ⟨front, rfl, hfront⟩ := readsArms_of_armBranches hbranches
  obtain ⟨back, rfl, hback⟩ := readsOtherwise_of_otherwiseBranches hothers
  exact ⟨front ++ back, List.map_append.symm, closed, front, back, rfl, hfront, hback⟩

namespace ReadsMatch

variable {choice : Match Expr} {clauses : List Clause}

theorem comparisons_eq (h : env.ReadsMatch choice clauses) {i : Nat} {arm : Arm Expr}
    {clause : Clause} (harm : choice.arms[i]? = some arm) (hclause : clauses[i]? = some clause) :
    env.ComparisonTexts arm.pattern.comparisons clause.comparisons := by
  obtain ⟨subject, arms, otherwise, line⟩ := choice
  obtain ⟨closed, front, back, rfl, hfront, hback⟩ := h
  -- Behind the clauses of an open chain there are no arms, and behind those of a closed one no
  -- clauses.
  have hlt : i < front.length := by
    cases hback with
    | dropped => simpa using (List.getElem?_eq_some_iff.1 hclause).1
    | missing => simpa using (List.getElem?_eq_some_iff.1 hclause).1
    | body =>
      rw [hfront.length_eq]
      exact (List.getElem?_eq_some_iff.1 harm).1
  rw [List.getElem?_append_left hlt] at hclause
  obtain ⟨found, hfound, hread⟩ := hfront.readsArm_of_getElem? hclause
  cases harm.symm.trans hfound
  exact hread.comparisons

/-! ### What the chain does

With the clauses known, the claims about the chain are claims about lists: the first clause that
holds, the last one that has no comparisons, and whether there is such a clause at all. -/

/-- The chain goes where the match goes. -/
theorem map_taken? (h : env.ReadsMatch choice clauses) (truth : Nat → Nat → Bool) :
    (Clause.taken? truth clauses).map (fun clause => clause.outcome.map .ok) =
      (choice.outcome? truth).map (Outcome.map fun body => (env.exprText body).result) := by
  obtain ⟨subject, arms, otherwise, line⟩ := choice
  obtain ⟨closed, front, back, rfl, hfront, hback⟩ := h
  rw [Clause.taken?, Option.map_map]
  refine (hfront.find?_append back truth 0).trans ?_
  rw [Match.outcome?]
  cases hfind : arms.zipIdx.find? fun (arm, i) => allHold (truth i) arm.pattern.comparisons with
  | some found => rfl
  | none =>
    cases hback with
    | dropped => exact absurd hfind hfront.find?_ne_none
    | missing => rfl
    | body hcode => simp [Clause.outcome, Outcome.map, hcode]

/-- Only the last clause may have no comparisons. -/
theorem last_of_comparisons_eq_nil (h : env.ReadsMatch choice clauses) {i : Nat} {clause : Clause}
    (hclause : clauses[i]? = some clause) (hempty : clause.comparisons = []) :
    i + 1 = clauses.length := by
  obtain ⟨subject, arms, otherwise, line⟩ := choice
  obtain ⟨closed, front, back, rfl, hfront, hback⟩ := h
  rcases Nat.lt_or_ge i front.length with hlt | hge
  · rw [List.getElem?_append_left hlt] at hclause
    obtain ⟨hclosed, hlast⟩ := hfront.closed_of_getElem? hclause hempty
    subst hclosed
    cases hback
    rw [List.append_nil, hlast]
  · have hbound := (List.getElem?_eq_some_iff.1 hclause).1
    rw [List.length_append] at hbound ⊢
    have hone : back.length ≤ 1 := by cases hback <;> simp
    omega

/-- There is a gap exactly if every arm asks for something and there is no arm for the rest. -/
theorem any_isEmpty_eq_false_iff (h : env.ReadsMatch choice clauses) :
    (clauses.any fun clause => clause.comparisons.isEmpty) = false ↔
      (∀ arm ∈ choice.arms, arm.pattern.comparisons ≠ []) ∧ choice.otherwise = none := by
  obtain ⟨subject, arms, otherwise, line⟩ := choice
  obtain ⟨closed, front, back, rfl, hfront, hback⟩ := h
  rw [List.any_append, hfront.any_isEmpty, ← hfront.closed_eq_false_iff]
  cases hback <;> simp

end ReadsMatch

end Env

namespace MatchChain

theorem hasGap_eq {chain : MatchChain} {clauses : List Clause}
    (h : chain.branches = clauses.map Clause.branch) :
    chain.hasGap = !clauses.any fun clause => clause.comparisons.isEmpty := by
  rw [hasGap, h, List.any_map]
  congr 2
  exact funext Clause.isUnconditional_branch

/-- The mark behind a gap is the only thing that the option changes. -/
theorem render_ne_iff (chain : MatchChain) :
    chain.render true ≠ chain.render false ↔ chain.hasGap = true := by
  cases hgap : chain.hasGap with
  | false => simp [render, hgap]
  | true =>
    refine iff_of_true (fun heq => ?_) rfl
    have hlength := congrArg String.length heq
    simp only [render, hgap, braced, String.length_append] at hlength
    simp at hlength

end MatchChain

/-- **First match.**  The branches of a chain can be read as clauses, whose comparisons are those of
the arms, so that for any truth of the comparisons the clause that is taken binds the names and
evaluates the body of the first arm that matches, or evaluates the body of the arm for all other
subjects, or there is none.  Only the last branch may have no condition; there is a gap exactly if
every arm asks for something and no arm is for the rest, and only then the option to mark it changes
the text. -/
theorem chain_takes_firstMatch {env : Env} {choice : Match Expr} {chain : MatchChain}
    (h : (env.chainOf choice).result = .ok chain) :
    (∃ clauses : List Clause, chain.branches = clauses.map Clause.branch ∧
      (∀ (i : Nat) (arm : Arm Expr) (clause : Clause), choice.arms[i]? = some arm →
        clauses[i]? = some clause →
        env.ComparisonTexts arm.pattern.comparisons clause.comparisons) ∧
      ∀ truth : Nat → Nat → Bool,
        (Clause.taken? truth clauses).map (fun clause => clause.outcome.map .ok) =
          (choice.outcome? truth).map (Outcome.map fun body => (env.exprText body).result)) ∧
    (∀ (i : Nat) (branch : Branch), chain.branches[i]? = some branch → branch.condition = none →
      i + 1 = chain.branches.length) ∧
    (chain.hasGap = true ↔
      (∀ arm ∈ choice.arms, arm.pattern.comparisons ≠ []) ∧ choice.otherwise = none) ∧
    (chain.render true ≠ chain.render false ↔ chain.hasGap = true) := by
  obtain ⟨clauses, hbranches, hread⟩ := Env.readsMatch_of_chainOf h
  refine ⟨⟨clauses, hbranches, fun i arm clause => hread.comparisons_eq, hread.map_taken?⟩, ?_, ?_,
    chain.render_ne_iff⟩
  · intro i branch hbranch hcondition
    rw [hbranches, List.getElem?_map, Option.map_eq_some_iff] at hbranch
    obtain ⟨clause, hclause, rfl⟩ := hbranch
    rw [hbranches, List.length_map]
    refine hread.last_of_comparisons_eq_nil hclause (List.isEmpty_iff.1 ?_)
    rw [← Clause.isUnconditional_branch, Branch.isUnconditional, hcondition, Option.isNone_none]
  · rw [MatchChain.hasGap_eq hbranches, Bool.not_eq_true', hread.any_isEmpty_eq_false_iff]

/-- A point that is neither on the axis nor switched on goes to the third arm, which asks for
nothing; the arm behind it and the one for all other subjects are dropped. -/
theorem chain_takes_firstMatch_point :
    let env : Env := ⟨Scope.ofComponent "" "App" ∅, Schema.empty, .default⟩
    let choice : Match Expr :=
      ⟨.ident "p",
        [⟨.record none [⟨"x", some (.int 0)⟩, ⟨"y", none⟩], .ident "y"⟩,
          ⟨.enumValue ⟨"Mode", "On", none⟩, .int 1⟩,
          ⟨.record none [⟨"x", none⟩, ⟨"y", none⟩], .ident "x"⟩,
          ⟨.literal (.int 7), .int 2⟩],
        some (.int 0), 1⟩
    ∃ chain, (env.chainOf choice).result = .ok chain ∧ chain.hasGap = false ∧
      ∃ clauses : List Clause, chain.branches = clauses.map Clause.branch ∧
        (Clause.taken? (fun _ _ => false) clauses).map (fun clause => clause.outcome.map .ok) =
          some (⟨["x", "y"], .ok "x"⟩ : Outcome (Except Fault String)) := by
  intro env choice
  obtain ⟨chain, hchain⟩ := Lowered.exists_ok_of_isOk
    (show (env.chainOf choice).result.isOk = true by decide +kernel)
  obtain ⟨⟨clauses, hbranches, -, htaken⟩, -, hgap, -⟩ := chain_takes_firstMatch hchain
  refine ⟨chain, hchain, ?_, clauses, hbranches, htaken fun _ _ => false⟩
  rw [← Bool.not_eq_true, hgap]
  rintro ⟨-, hnone⟩
  cases hnone

end UiLowering
