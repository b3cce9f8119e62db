import UiLowering.Lowered

/-!
# Laws of lowered results

A result and its notices compose: `Lowered` is a lawful monad.  `Yields P x` says that the value of
`x`, if it has one, has the property `P`; along the steps of a lowering this is proved from step to
step.  `Faults P x` says the same of its fault.  A result is an answer unless a type was asked for
in vain (`answer?_eq_none_iff`).
-/

set_option autoImplicit false

namespace UiLowering.Lowered

variable {α β γ : Type}

theorem pure_eq (value : α) : (pure value : Lowered α) = ⟨[], .ok value⟩ := rfl

theorem bind_eq (x : Lowered α) (f : α → Lowered β) :
    x >>= f = match x.result with
      | .ok value => ⟨x.notices ++ (f value).notices, (f value).result⟩
      | .error fault => ⟨x.notices, .error fault⟩ := rfl

theorem bind_pure (x : Lowered α) : x >>= pure = x := by
  obtain ⟨notices, result⟩ := x
  cases result <;> simp [bind_eq, pure_eq]

theorem bind_assoc (x : Lowered α) (f : α → Lowered β) (g : β → Lowered γ) :
    x >>= f >>= g = x >>= fun value => f value >>= g := by
  cases h : x.result with
  | error fault => simp [bind_eq, h]
  | ok value => cases h' : (f value).result <;> simp [bind_eq, h, h']

instance : LawfulMonad Lowered :=
  LawfulMonad.mk' Lowered bind_pure (fun _ _ => by simp [bind_eq, pure_eq]) bind_assoc

/-! ## Answers

A request for a type whose name never ends has no answer, and neither has anything that such a
request is a part of. -/

theorem answer?_eq_none_iff {x : Lowered α} :
    x.answer? = none ↔ ∃ name, .typeEndless name ∈ x.notices := by
  have hendless :
      x.notices.any Notice.isEndless = true ↔ ∃ name, .typeEndless name ∈ x.notices := by
    rw [List.any_eq_true]
    constructor
    · rintro ⟨notice, hmem, hnotice⟩
      cases notice with
      | typeEndless name => exact ⟨name, hmem⟩
      | _ => cases hnotice
    · rintro ⟨name, hmem⟩
      exact ⟨_, hmem, rfl⟩
  rw [← hendless, answer?]
  split
  · rename_i h
    exact ⟨fun _ => h, fun _ => rfl⟩
  · rename_i h
    exact ⟨fun hsome => (nomatch hsome), fun hany => absurd hany h⟩

/-- What comes behind a request without answer is not reached. -/
theorem answer?_bind_eq_none {x : Lowered α} (h : x.answer? = none) (f : α → Lowered β) :
    (x >>= f).answer? = none := by
  obtain ⟨name, hname⟩ := answer?_eq_none_iff.1 h
  refine answer?_eq_none_iff.2 ⟨name, ?_⟩
  rw [bind_eq]
  cases x.result with
  | error fault => exact hname
  | ok value => exact List.mem_append_left _ hname

/-! ## Success

A computation of several steps succeeds if each step does.  The lemmas take a success apart into
those of its steps and name the values in between. -/

theorem result_bind_eq_ok_iff {x : Lowered α} {f : α → Lowered β} {value : β} :
    (x >>= f).result = .ok value ↔
      ∃ first, x.result = .ok first ∧ (f first).result = .ok value := by
  rw [result_bind]
  cases x.result with
  | error fault => exact ⟨fun h => (nomatch h), fun ⟨_, h, _⟩ => (nomatch h)⟩
  | ok first =>
    constructor
    · intro h
      exact ⟨first, rfl, h⟩
    · rintro ⟨_, hfirst, h⟩
      cases hfirst
      exact h

theorem exists_ok_of_isOk {x : Lowered α} (h : x.result.isOk = true) :
    ∃ value, x.result = .ok value := by
  cases hresult : x.result with
  | error fault =>
    rw [hresult] at h
    cases h
  | ok value => exact ⟨value, rfl⟩

theorem exists_error_of_isOk_eq_false {x : Lowered α} (h : x.result.isOk = false) :
    ∃ fault, x.result = .error fault := by
  cases hresult : x.result with
  | error fault => exact ⟨fault, rfl⟩
  | ok value =>
    rw [hresult] at h
    cases h

/-- A list of results has the values that its members have. -/
theorem result_all_eq_ok_iff {xs : List (Lowered α)} {values : List α} :
    (all xs).result = .ok values ↔ xs.map (·.result) = values.map .ok := by
  induction xs generalizing values with
  | nil =>
    cases values with
    | nil => exact ⟨fun _ => rfl, fun _ => rfl⟩
    | cons value values => exact ⟨fun h => (nomatch h), fun h => (nomatch h)⟩
  | cons x xs ih =>
    rw [all, result_bind_eq_ok_iff]
    simp only [result_bind_eq_ok_iff, result_pure, ih]
    cases values with
    | nil => simp
    | cons value values =>
      constructor
      · rintro ⟨_, hvalue, _, hvalues, hcons⟩
        obtain ⟨rfl, rfl⟩ := List.cons.inj (Except.ok.inj hcons)
        rw [List.map_cons, List.map_cons, hvalue, hvalues]
      · intro h
        obtain ⟨hvalue, hvalues⟩ := List.cons.inj h
        exact ⟨value, hvalue, values, hvalues, rfl⟩

/-- The value of one result among others. -/
theorem exists_value_of_append_cons {xs ys : List (Lowered α)} {x : Lowered α} {values : List α}
    (h : (xs ++ x :: ys).map (·.result) = values.map .ok) :
    ∃ front value back, values = front ++ value :: back ∧ xs.map (·.result) = front.map .ok ∧
      x.result = .ok value ∧ ys.map (·.result) = back.map .ok := by
  rw [List.map_append, List.map_cons] at h
  obtain ⟨front, rest, rfl, hfront, hrest⟩ := List.map_eq_append_iff.1 h.symm
  obtain ⟨value, back, rfl, hvalue, hback⟩ := List.map_eq_cons_iff.1 hrest
  exact ⟨front, value, back, rfl, hfront.symm, hvalue.symm, hback.symm⟩

/-- Each result of a list has its value among the values. -/
theorem exists_value_of_mem {xs : List (Lowered α)} {x : Lowered α} {values : List α}
    (h : xs.map (·.result) = values.map .ok) (hx : x ∈ xs) :
    ∃ value ∈ values, x.result = .ok value := by
  have hmem : x.result ∈ values.map Except.ok := h ▸ List.mem_map_of_mem hx
  obtain ⟨value, hvalue, hok⟩ := List.mem_map.1 hmem
  exact ⟨value, hvalue, hok.symm⟩

theorem eq_of_map_ok_eq {values others : List α}
    (h : values.map (.ok : α → Except Fault α) = others.map .ok) : values = others :=
  (List.map_inj_right fun _ _ => Except.ok.inj).1 h

/-! ## Properties of the value

Along a lowering that may fail, what holds of the value is handed from step to step without a case
distinction on failure. -/

variable {P P' : α → Prop} {Q : β → Prop} {x : Lowered α}

/-- The value, if there is one, has a property. -/
def Yields (P : α → Prop) (x : Lowered α) : Prop := ∀ value, x.result = .ok value → P value

theorem yields_pure {value : α} (h : P value) : (pure value : Lowered α).Yields P := by
  intro value' hvalue
  cases hvalue
  exact h

theorem yields_true (x : Lowered α) : x.Yields fun _ => True := fun _ _ => trivial

theorem Yields.bind {f : α → Lowered β} (hx : x.Yields P)
    (hf : ∀ value, P value → (f value).Yields Q) : (x >>= f).Yields Q := by
  intro value hvalue
  rw [result_bind] at hvalue
  cases hresult : x.result with
  | error fault =>
    rw [hresult] at hvalue
    cases hvalue
  | ok first =>
    rw [hresult] at hvalue
    exact hf first (hx first hresult) value hvalue

theorem Yields.mono (hx : x.Yields P) (h : ∀ value, P value → P' value) : x.Yields P' :=
  fun value hvalue => h value (hx value hvalue)

/-- The values of a list of results have the properties that each of them has. -/
theorem yields_all {xs : List (Lowered α)} (h : ∀ x ∈ xs, x.Yields P) :
    (all xs).Yields fun values => values.length = xs.length ∧ ∀ value ∈ values, P value := by
  induction xs with
  | nil => exact yields_pure ⟨rfl, by simp⟩
  | cons x xs ih =>
    refine (h x List.mem_cons_self).bind fun value hvalue => ?_
    refine (ih fun y hy => h y (List.mem_cons_of_mem x hy)).bind fun values hvalues => ?_
    refine yields_pure ⟨by rw [List.length_cons, hvalues.1, List.length_cons], ?_⟩
    exact List.forall_mem_cons.2 ⟨hvalue, hvalues.2⟩

/-! ## Properties of the fault

The same for faults.  A step that cannot fail adds nothing, so only the steps that can fail have to
be looked at. -/

section

variable {P : Fault → Prop}

/-- The fault, if there is one, has a property. -/
def Faults (P : Fault → Prop) (x : Lowered α) : Prop := ∀ fault, x.result = .error fault → P fault

theorem faults_of_ok {value : α} (h : x.result = .ok value) : x.Faults P := by
  intro fault hfault
  rw [h] at hfault
  cases hfault

@[simp] theorem faults_pure (value : α) : (pure value : Lowered α).Faults P := faults_of_ok rfl

@[simp] theorem faults_note (notice : Notice) : (note notice).Faults P := faults_of_ok rfl

/-- The first of two steps fails, or the second does after it. -/
theorem Faults.bind {f : α → Lowered β} (hx : x.Faults P) (hf : ∀ value, (f value).Faults P) :
    (x >>= f).Faults P := by
  intro fault hfault
  rw [result_bind] at hfault
  cases hresult : x.result with
  | error first =>
    rw [hresult] at hfault
    cases hfault
    exact hx fault hresult
  | ok value =>
    rw [hresult] at hfault
    exact hf value fault hfault

/-- A step after which nothing can fail. -/
theorem Faults.map {f : α → β} (hx : x.Faults P) : (x >>= fun value => pure (f value)).Faults P :=
  hx.bind fun value => faults_pure (f value)

theorem faults_all {xs : List (Lowered α)} (h : ∀ x ∈ xs, x.Faults P) : (all xs).Faults P := by
  induction xs with
  | nil => exact faults_pure []
  | cons x xs ih =>
    exact (h x List.mem_cons_self).bind fun value =>
      (ih fun y hy => h y (List.mem_cons_of_mem x hy)).map

end

end UiLowering.Lowered
