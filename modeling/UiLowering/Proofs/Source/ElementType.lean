import UiLowering.Proofs.Source.Parts
import UiLowering.Proofs.TypeName.Suffix

/-!
# Element types of nested arrays

An array literal passes the type of its elements on to the arrays and records in it.  Only records
without a type take it, and each array takes one suffix `[]` off the name.  So which name is filled
in depends on the depth of the array alone, and arrays that are nested deeper than the name has
suffixes stay as they are (`withElementType_filled`).

`Expr.at?` looks at the expression at a path of positions.  What stands at a path of the filled
literal is what stood there before, with the type that belongs to the length of the path expected of
it (`at?_withExpectedType`), and everything else follows from that.

Idempotence is not obvious, because the second time the records have types and the first time they
had none.  It holds since a record with a type takes no other, and an array is given the same type
again (`withExpectedType_withExpectedType`).
-/

set_option autoImplicit false

namespace UiLowering

/-- The name with `depth` suffixes `[]` behind `base`. -/
def TypeName.arrayName (base : String) (depth : Nat) : String :=
  suffixed base (List.replicate depth .any)

theorem TypeName.dropEnd?_arrayName_succ (base : String) (depth : Nat) :
    Text.dropEnd? "[]" (arrayName base (depth + 1)) = some (arrayName base depth) := by
  rw [arrayName, List.replicate_succ', suffixed_concat]
  exact dropEnd?_append_any

open UiLowering.TypeName (arrayName dropEnd?_arrayName_succ)

namespace Expr

variable {base : String}

/-- What stands at a path of positions, each in an array that stands at the path before it. -/
def at? : Expr → List Nat → Option Expr
  | e, [] => some e
  | .array literal, position :: path =>
    literal.elements[position]?.bind fun element => element.at? path
  | _, _ :: _ => none

/-! ## One level

What an array does to the name is seen one level at a time: with a suffix left it hands the shorter
name to its elements, and without one it hands on nothing. -/

theorem withExpectedTypes_eq_map (typeName : String) (es : List Expr) :
    withExpectedTypes typeName es = es.map (withExpectedType typeName) := by
  induction es with
  | nil => rfl
  | cons e es ih => rw [withExpectedTypes, ih, List.map_cons]

theorem withExpectedType_array_succ (base : String) (k : Nat) (inner : ArrayLit Expr) :
    (Expr.array inner).withExpectedType (arrayName base (k + 1)) =
      .array (inner.withElementType (arrayName base k)) := by
  rw [withExpectedType, dropEnd?_arrayName_succ]
  rfl

theorem withExpectedType_array_zero (hbase : Text.endsWith "[]" base = false)
    (inner : ArrayLit Expr) :
    (Expr.array inner).withExpectedType (arrayName base 0) = .array inner := by
  have hname : Text.dropEnd? "[]" (arrayName base 0) = none := by
    change Text.dropEnd? "[]" base = none
    rw [Text.dropEnd?, hbase, if_neg Bool.false_ne_true]
  rw [withExpectedType, hname]

/-- There is nothing inside an expression that is no array. -/
theorem at?_cons_eq_none {e : Expr} (he : ∀ inner, e ≠ .array inner) (position : Nat)
    (path : List Nat) : e.at? (position :: path) = none := by
  cases e with
  | array inner => exact absurd rfl (he inner)
  | _ => rfl

theorem withExpectedType_ne_array {e : Expr} (he : ∀ inner, e ≠ .array inner) (typeName : String)
    (inner : ArrayLit Expr) : e.withExpectedType typeName ≠ .array inner := by
  cases e with
  | array inner => exact absurd rfl (he inner)
  | record literal =>
    obtain ⟨_ | _, fields⟩ := literal <;> exact Expr.noConfusion
  | _ => exact Expr.noConfusion

/-! ## All levels

The induction is on the path, and each position on it uses up one suffix.  What a name fills in at
the end of the path is then a question about one expression and a number. -/

/-- An expression as it stands at a path of the given length, once a name with `k` suffixes is
expected at the beginning of the path. -/
def filledAt (base : String) (k length : Nat) (e : Expr) : Expr :=
  if length ≤ k then e.withExpectedType (arrayName base (k - length)) else e

theorem filledAt_succ (base : String) (k length : Nat) :
    filledAt base (k + 1) (length + 1) = filledAt base k length := by
  funext e
  rw [filledAt, filledAt, Nat.add_sub_add_right]
  simp only [Nat.add_le_add_iff_right]

theorem at?_withExpectedType (hbase : Text.endsWith "[]" base = false) (e : Expr) (k : Nat)
    (path : List Nat) :
    (e.withExpectedType (arrayName base k)).at? path =
      (e.at? path).map (filledAt base k path.length) := by
  induction path generalizing e k with
  | nil => simp [at?, filledAt]
  | cons position path ih =>
    by_cases he : ∀ inner, e ≠ .array inner
    · rw [at?_cons_eq_none he, at?_cons_eq_none (withExpectedType_ne_array he _), Option.map_none]
    · simp only [not_forall, not_not] at he
      obtain ⟨inner, rfl⟩ := he
      cases k with
      | zero =>
        have hsame : filledAt base 0 (position :: path).length = id := by
          funext e
          rw [filledAt, if_neg (by simp), id]
        rw [withExpectedType_array_zero hbase, hsame, Option.map_id_fun, id]
      | succ k =>
        rw [withExpectedType_array_succ, at?, at?, ArrayLit.withElementType,
          withExpectedTypes_eq_map, List.getElem?_map, List.length_cons, filledAt_succ]
        cases inner.elements[position]? with
        | none => rfl
        | some element => exact ih element k

theorem filledAt_array (base : String) {k depth : Nat} (hdepth : depth ≤ k)
    (inner : ArrayLit Expr) :
    filledAt base (k + 1) depth (.array inner) =
      .array (inner.withElementType (arrayName base (k - depth))) := by
  have hsub : k + 1 - depth = k - depth + 1 := by omega
  rw [filledAt, if_pos (by omega), hsub, withExpectedType_array_succ]

theorem filledAt_array_of_lt (hbase : Text.endsWith "[]" base = false) {k depth : Nat}
    (hdepth : k < depth) (inner : ArrayLit Expr) :
    filledAt base (k + 1) depth (.array inner) = .array inner := by
  rw [filledAt]
  split
  · have hsub : k + 1 - depth = 0 := by omega
    rw [hsub, withExpectedType_array_zero hbase]
  · rfl

theorem filledAt_record (base : String) {k depth : Nat} (hdepth : depth ≤ k)
    (fields : List (FieldInit Expr)) :
    filledAt base (k + 1) (depth + 1) (.record ⟨none, fields⟩) =
      .record ⟨some (arrayName base (k - depth)), fields⟩ := by
  rw [filledAt_succ, filledAt, if_pos hdepth, withExpectedType]

theorem filledAt_other (base : String) (k length : Nat) {e : Expr}
    (harray : ∀ inner, e ≠ .array inner) (hrecord : ∀ fields, e ≠ .record ⟨none, fields⟩) :
    filledAt base k length e = e := by
  have hsame (typeName : String) : e.withExpectedType typeName = e := by
    cases e with
    | array inner => exact absurd rfl (harray inner)
    | record literal =>
      obtain ⟨_ | typeName, fields⟩ := literal
      · exact absurd rfl (hrecord fields)
      · rfl
    | _ => rfl
  rw [filledAt, hsame, ite_self]

/-- A type that is expected twice fills in no more than the first time. -/
theorem withExpectedType_withExpectedType (e : Expr) (typeName : String) :
    (e.withExpectedType typeName).withExpectedType typeName = e.withExpectedType typeName := by
  induction e using partInduction generalizing typeName with
  | step e ih =>
    cases e with
    | array literal =>
      rw [withExpectedType]
      cases hname : Text.dropEnd? "[]" typeName with
      | none => simp only [withExpectedType, hname]
      | some inner =>
        have helements : (literal.elements.map (withExpectedType inner)).map
            (withExpectedType inner) = literal.elements.map (withExpectedType inner) := by
          rw [List.map_map]
          exact List.map_congr_left fun element hmem => ih element hmem inner
        simp only [withExpectedType, hname, withExpectedTypes_eq_map, helements]
    | record literal =>
      obtain ⟨_ | _, fields⟩ := literal <;> rfl
    | _ => rfl

end Expr

namespace ArrayLit

open UiLowering.Expr

variable {base : String}

/-- One literal is another one with the missing types filled in, for elements of the type with `k`
suffixes behind `base`.  The depth of an array is the length of the path to it. -/
structure Filled (base : String) (k : Nat) (literal filled : ArrayLit Expr) : Prop where
  /-- There is an element at each path where there was one, and no other. -/
  shape : ∀ path, ((Expr.array filled).at? path).isSome = ((Expr.array literal).at? path).isSome
  /-- An array that is not deeper than `k` has the element type of its depth. -/
  array : ∀ path inner, (Expr.array literal).at? path = some (.array inner) → path.length ≤ k →
    ∃ elements, (Expr.array filled).at? path =
      some (.array ⟨elements, some (arrayName base (k - path.length))⟩)
  /-- A record without a type has the element type of the array it lies in. -/
  record : ∀ path position fields,
    (Expr.array literal).at? (path ++ [position]) = some (.record ⟨none, fields⟩) →
    path.length ≤ k →
    (Expr.array filled).at? (path ++ [position]) =
      some (.record ⟨some (arrayName base (k - path.length)), fields⟩)
  /-- An array that is deeper than `k` is the same, with all that is in it. -/
  deeper : ∀ path inner, (Expr.array literal).at? path = some (.array inner) → k < path.length →
    (Expr.array filled).at? path = some (.array inner)
  /-- Every other element is the same, a record with a type among them. -/
  other : ∀ path e, (Expr.array literal).at? path = some e → (∀ inner, e ≠ .array inner) →
    (∀ fields, e ≠ .record ⟨none, fields⟩) → (Expr.array filled).at? path = some e

/-- **Only missing types are filled in, and each with the name for its depth.**  Giving an array
literal the type of its elements a second time changes nothing. -/
theorem withElementType_filled (hbase : Text.endsWith "[]" base = false) (k : Nat)
    (literal : ArrayLit Expr) :
    Filled base k literal (literal.withElementType (arrayName base k)) ∧
      (literal.withElementType (arrayName base k)).withElementType (arrayName base k) =
        literal.withElementType (arrayName base k) := by
  -- the literal is what an element of an array around it would be
  have hat (path : List Nat) :
      (Expr.array (literal.withElementType (arrayName base k))).at? path =
        ((Expr.array literal).at? path).map (filledAt base (k + 1) path.length) := by
    rw [← withExpectedType_array_succ, at?_withExpectedType hbase]
  refine ⟨⟨fun path => ?_, fun path inner h hdepth => ?_, fun path position fields h hdepth => ?_,
    fun path inner h hdepth => ?_, fun path e h harray hrecord => ?_⟩, ?_⟩
  · rw [hat, Option.isSome_map]
  · rw [hat, h, Option.map_some, filledAt_array base hdepth]
    exact ⟨_, rfl⟩
  · rw [hat, h, Option.map_some, List.length_append, List.length_singleton,
      filledAt_record base hdepth]
  · rw [hat, h, Option.map_some, filledAt_array_of_lt hbase hdepth]
  · rw [hat, h, Option.map_some, filledAt_other base _ _ harray hrecord]
  · have htwice := withExpectedType_withExpectedType (.array literal) (arrayName base (k + 1))
    simp only [withExpectedType_array_succ] at htwice
    exact Expr.array.inj htwice

/-- A record, one that has a type, and a list of lists that is nested too deep, with elements of the
type `Item[]`. -/
theorem withElementType_filled_items :
    let point : Expr := .record ⟨none, [⟨"x", .int 1⟩]⟩
    let named : Expr := .record ⟨some "Point", []⟩
    let literal : ArrayLit Expr :=
      ⟨[.array ⟨[point, named, .array ⟨[point], none⟩], none⟩, point], none⟩
    let filled := Expr.array (literal.withElementType "Item[]")
    Text.endsWith "[]" "Item" = false ∧
      filled.at? [0, 0] = some (.record ⟨some "Item", [⟨"x", .int 1⟩]⟩) ∧
      filled.at? [0, 1] = some named ∧
      filled.at? [0, 2] = some (.array ⟨[point], none⟩) ∧
      filled.at? [1] = some (.record ⟨some "Item[]", [⟨"x", .int 1⟩]⟩) ∧
      ∃ elements, filled.at? [0] = some (.array ⟨elements, some "Item"⟩) := by
  intro point named literal filled
  have hbase : Text.endsWith "[]" "Item" = false := by decide
  obtain ⟨hfilled, -⟩ := withElementType_filled hbase 1 literal
  refine ⟨hbase, hfilled.record [0] 0 _ rfl (by decide), hfilled.other [0, 1] named rfl ?_ ?_,
    hfilled.deeper [0, 2] _ rfl (by decide), hfilled.record [] 1 _ rfl (by decide),
    hfilled.array [0] _ rfl (by decide)⟩
  · exact fun _ => Expr.noConfusion
  · simp [named]

end ArrayLit

end UiLowering
