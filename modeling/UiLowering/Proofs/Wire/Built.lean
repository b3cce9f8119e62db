import UiLowering.Proofs.Source.Built
import UiLowering.Wire.Expr

/-!
# Expressions that are read are built

Whatever JSON an expression is read from, each operation in it was put together by `Expr.binaryOf`
and bears its mark.  The proof follows the readers: `Json.Reads` says what every value has that is
read, `Fields.Gives` the same of a reader of fields, and both are closed under the ways in which
readers are put together.

A reader never meets a mark, so it cannot read a wrong one.  The proof that what is read is built
goes along the reader and not along the tree: each step of it either returns a leaf, or puts parts
together that were read before, and an operation is put together by `binaryOf`.
-/

set_option autoImplicit false

namespace UiLowering

/-! ## What a reader returns

A reader of a record takes its fields one after the other, so what it returns is known from what is
read under each key.  Most fields are names and numbers, about which nothing is to be shown
(`gives_bind`). -/

namespace Json

variable {α : Type} {P : α → Prop}

/-- Every value that is read has a property. -/
def Reads (P : α → Prop) (read : Json → Option α) : Prop :=
  ∀ json value, read json = some value → P value

theorem Reads.list? {read : Json → Option α} (hread : Reads P read) :
    Reads (fun values => ∀ value ∈ values, P value) (Json.list? read) := by
  intro json values h
  cases json with
  | arr elements =>
    rw [Json.list?] at h
    induction elements generalizing values with
    | nil =>
      cases h
      simp
    | cons element elements ih =>
      rw [List.mapM_cons] at h
      obtain ⟨value, hvalue, h⟩ := Option.bind_eq_some_iff.1 h
      obtain ⟨rest, hrest, ⟨⟩⟩ := Option.bind_eq_some_iff.1 h
      exact List.forall_mem_cons.2 ⟨hread element value hvalue, ih rest hrest⟩
  | _ => cases h

end Json

namespace Fields

variable {α β : Type} {P : α → Prop} {Q : β → Prop}

/-- Every value that is read from fields has a property. -/
def Gives (P : α → Prop) (reader : FieldReader α) : Prop :=
  ∀ fields found, reader fields = some found → P found.1

theorem gives_pure {value : α} (h : P value) : Gives P (pure value) := by
  rintro fields _ ⟨⟩
  exact h

theorem Gives.bind {first : FieldReader α} {next : α → FieldReader β} (hfirst : Gives P first)
    (hnext : ∀ value, P value → Gives Q (next value)) : Gives Q (first >>= next) := by
  intro fields found h
  obtain ⟨⟨value, rest⟩, hvalue, hrest⟩ := Option.bind_eq_some_iff.1 h
  exact hnext value (hfirst fields _ hvalue) rest found hrest

/-- A field whose value does not matter. -/
theorem gives_bind {first : FieldReader α} {next : α → FieldReader β}
    (hnext : ∀ value, Gives Q (next value)) : Gives Q (first >>= next) :=
  Gives.bind (P := fun _ => True) (fun _ _ _ => trivial) fun value _ => hnext value

variable {read : Json → Option α} {key : String}

theorem gives_required (hread : Json.Reads P read) : Gives P (required key read) := by
  intro fields found h
  obtain ⟨⟨value, rest⟩, -, h⟩ := Option.bind_eq_some_iff.1 h
  obtain ⟨json, -, h⟩ := Option.bind_eq_some_iff.1 h
  obtain ⟨result, hresult, ⟨⟩⟩ := Option.bind_eq_some_iff.1 h
  exact hread json result hresult

theorem gives_defaulted {default : α} (hdefault : P default) (hread : Json.Reads P read) :
    Gives P (defaulted key default read) := by
  intro fields found h
  obtain ⟨⟨value, rest⟩, -, h⟩ := Option.bind_eq_some_iff.1 h
  cases value with
  | none =>
    cases h
    exact hdefault
  | some json =>
    obtain ⟨result, hresult, ⟨⟩⟩ := Option.bind_eq_some_iff.1 h
    exact hread json result hresult

theorem gives_optional (hread : Json.Reads P read) :
    Gives (fun option => ∀ value ∈ option, P value) (Fields.optional key read) := by
  refine gives_defaulted (by simp) fun json option hoption value hvalue => ?_
  obtain rfl : option = some value := hvalue
  cases json with
  | null => cases hoption
  | _ =>
    obtain ⟨result, hresult, ⟨⟩⟩ := Option.map_eq_some_iff.1 hoption
    exact hread _ _ hresult

variable {reader : FieldReader α}

theorem Gives.of_read (h : Gives P reader) {fields : Fields} {value : α}
    (hread : Fields.read reader fields = some value) : P value := by
  obtain ⟨⟨result, rest⟩, hresult, hrest⟩ := Option.bind_eq_some_iff.1 hread
  have hvalue : result = value := by
    cases rest with
    | named entries => exact Option.some.inj hrest
    | listed values =>
      cases values with
      | nil => exact Option.some.inj hrest
      | cons first values => cases hrest
  rw [← hvalue]
  exact h fields _ hresult

theorem Gives.record? (h : Gives P reader) : Json.Reads P (Json.record? reader) := by
  intro json value hvalue
  obtain ⟨fields, -, hread⟩ := Option.bind_eq_some_iff.1 hvalue
  exact h.of_read hread

end Fields

/-! ## The parts of an expression

If every expression that `read` returns has a property, the parts of a node have it whose fields are
read with `read`.  The node itself bears its mark: only an operation has one, and it is built. -/

section Readers

open Fields Json

variable {P : Expr → Prop} {read : Json → Option Expr} (hread : Reads P read)

include hread

theorem reads_args : Reads (fun args => ∀ arg ∈ args, P arg.value) (readArgs read) :=
  Reads.list? <| Gives.record? <| gives_bind fun _ => (gives_required hread).bind fun _ hvalue =>
    gives_bind fun _ => gives_bind fun _ => gives_pure hvalue

theorem gives_call : Gives (fun call => ∀ arg ∈ call.args, P arg.value) (readCall read) :=
  gives_bind fun _ => (gives_defaulted (by simp) (reads_args hread)).bind fun _ hargs =>
    gives_bind fun _ => gives_pure hargs

theorem gives_array :
    Gives (fun literal => ∀ element ∈ literal.elements, P element) (readArray read) :=
  (gives_required hread.list?).bind fun _ helements => gives_bind fun _ => gives_pure helements

theorem gives_record :
    Gives (fun literal => ∀ field ∈ literal.fields, P field.value) (readRecord read) := by
  have hfield : Gives (fun field => P field.value) (readFieldInit read) :=
    gives_bind fun _ => (gives_required hread).bind fun _ hvalue => gives_pure hvalue
  exact gives_bind fun _ => (gives_required hfield.record?.list?).bind fun _ hfields =>
    gives_pure hfields

theorem gives_pattern (kind : String) :
    Gives (fun pattern => ∀ part ∈ pattern.parts, P part) (readPatternOf read kind) := by
  have hfield : Gives (fun field => ∀ value ∈ field.value, P value) (readFieldPattern read) :=
    gives_bind fun _ => (gives_optional hread).bind fun _ hvalue => gives_pure hvalue
  unfold readPatternOf
  split
  · exact (gives_required hread).bind fun value hvalue =>
      gives_pure (List.forall_mem_singleton.2 hvalue)
  · exact gives_bind fun ref => gives_pure (by simp [Pattern.parts])
  · refine gives_bind fun _ => (gives_required hfield.record?.list?).bind fun fields hfields => ?_
    refine gives_pure fun part hpart => ?_
    obtain ⟨field, hmem, hpart⟩ := List.mem_flatMap.1 hpart
    exact hfields field hmem part (Option.mem_toList.1 hpart)
  · rintro fields _ ⟨⟩

theorem reads_pattern (split : Json → Option (String × Fields)) :
    Reads (fun pattern => ∀ part ∈ pattern.parts, P part) (readPattern read split) := by
  intro json pattern h
  obtain ⟨⟨kind, fields⟩, -, h⟩ := Option.bind_eq_some_iff.1 h
  exact (gives_pattern hread kind).of_read h

theorem gives_match (split : Json → Option (String × Fields)) :
    Gives (fun choice => ∀ part ∈ (Expr.select choice).parts, P part)
      (readMatch read (readPattern read split)) := by
  have harm : Gives (fun arm => ∀ part ∈ arm.body :: arm.pattern.parts, P part)
      (readArm read (readPattern read split)) :=
    (gives_required (reads_pattern hread split)).bind fun pattern hpattern =>
      (gives_required hread).bind fun body hbody =>
      gives_pure (List.forall_mem_cons.2 ⟨hbody, hpattern⟩)
  refine (gives_required hread).bind fun subject hsubject => ?_
  refine (gives_required harm.record?.list?).bind fun arms harms => ?_
  refine (gives_optional hread).bind fun otherwise hotherwise => gives_bind fun line => ?_
  refine gives_pure (List.forall_mem_append.2 ⟨List.forall_mem_cons.2 ⟨hsubject, ?_⟩, ?_⟩)
  · exact List.forall_mem_flatMap.2 harms
  · exact fun part hpart => hotherwise part (Option.mem_toList.1 hpart)

/-- A node bears its mark, and its parts have the property of everything that is read. -/
theorem gives_expr (kind : String) :
    Gives (fun e => e.BearsMark ∧ ∀ part ∈ e.parts, P part) (readExprOf read kind) := by
  -- The cases are in the order of `readExprOf`; the last one is that of an unknown kind.
  unfold readExprOf
  split
  case h_1 | h_2 | h_3 | h_4 | h_5 | h_16 =>
    exact gives_bind fun _ => gives_pure ⟨trivial, by simp [Expr.parts]⟩
  case h_6 =>
    exact (gives_required hread).bind fun left hleft => gives_bind fun op =>
      (gives_required hread).bind fun right hright =>
      gives_pure ⟨rfl, by simp [Expr.binaryOf, Expr.parts, hleft, hright]⟩
  case h_7 | h_8 =>
    exact gives_bind fun op => (gives_required hread).bind fun operand hoperand =>
      gives_pure ⟨trivial, by simp [Expr.parts, hoperand]⟩
  case h_9 =>
    exact (gives_required hread).bind fun condition hcondition =>
      (gives_required hread).bind fun thenValue hthen =>
      (gives_required hread).bind fun elseValue helse =>
      gives_pure ⟨trivial, by simp [Expr.parts, hcondition, hthen, helse]⟩
  case h_10 =>
    exact (gives_call hread).bind fun call hcall =>
      gives_pure ⟨trivial, List.forall_mem_map.2 hcall⟩
  case h_11 =>
    exact (gives_required hread).bind fun object hobject => gives_bind fun field =>
      gives_pure ⟨trivial, by simp [Expr.parts, hobject]⟩
  case h_12 | h_14 =>
    exact (gives_required hread).bind fun first hfirst =>
      (gives_required hread).bind fun second hsecond =>
      gives_pure ⟨trivial, by simp [Expr.parts, hfirst, hsecond]⟩
  case h_13 =>
    exact (gives_array hread).bind fun literal hliteral => gives_pure ⟨trivial, hliteral⟩
  case h_15 =>
    exact (gives_record hread).bind fun literal hliteral =>
      gives_pure ⟨trivial, List.forall_mem_map.2 hliteral⟩
  case h_17 =>
    exact gives_bind fun component =>
      (gives_defaulted (by simp) (reads_args hread)).bind fun args hargs =>
      gives_pure ⟨trivial, List.forall_mem_map.2 hargs⟩
  case h_18 =>
    exact (gives_match hread _).bind fun choice hchoice => gives_pure ⟨trivial, hchoice⟩
  case h_19 | h_20 =>
    exact (gives_required hread).bind fun operand hoperand =>
      gives_pure ⟨trivial, by simp [Expr.parts, hoperand]⟩
  case h_21 => rintro fields _ ⟨⟩

end Readers

namespace Expr

open Json

theorem reads_ofInnerWithin (level : Nat) : Reads IsBuilt (ofInnerWithin level) := by
  induction level with
  | zero => rintro json e ⟨⟩
  | succ level ih =>
    intro json e h
    obtain ⟨⟨kind, fields⟩, -, h⟩ := Option.bind_eq_some_iff.1 h
    exact isBuilt_iff_parts.2 ((gives_expr ih kind).of_read h)

/-- **An expression that is read is built**, whatever it is read from. -/
theorem isBuilt_of_ofJson? {json : Json} {e : Expr} (h : ofJson? json = some e) : e.IsBuilt := by
  have hinner : Reads IsBuilt ofInnerJson? := fun json => reads_ofInnerWithin _ json
  obtain ⟨⟨kind, fields⟩, -, h⟩ := Option.bind_eq_some_iff.1 h
  exact isBuilt_iff_parts.2 ((gives_expr hinner kind).of_read h)

end Expr

end UiLowering
