import Mathlib.Data.List.TakeWhile
import UiLowering.Source.Expr
import UiLowering.Text.Name

/-!
# Where dotted names are cut

A name is cut at its last dot into a receiver and a method, and at its first dot into a root and
what is left of the path.  Both cuts are determined by what the parts are put together to.
-/

set_option autoImplicit false

namespace UiLowering

namespace Text

/-! ## The first and the last separator

On characters a cut is a `takeWhile` and a `dropWhile`, from the left or from the right.  Each lemma
characterizes a cut by the concatenation and by where the separator does not occur, so that callers
never open the scans. -/

theorem takeWhile_ne_append {sep : Char} {before : List Char} (h : sep ∉ before)
    (after : List Char) : (before ++ sep :: after).takeWhile (· != sep) = before := by
  rw [List.takeWhile_append_of_pos fun c hc => bne_iff_ne.2 (ne_of_mem_of_not_mem hc h),
    List.takeWhile_cons_of_neg (by simp), List.append_nil]

theorem dropWhile_ne_append {sep : Char} {before : List Char} (h : sep ∉ before)
    (after : List Char) : (before ++ sep :: after).dropWhile (· != sep) = sep :: after := by
  rw [List.dropWhile_append_of_pos fun c hc => bne_iff_ne.2 (ne_of_mem_of_not_mem hc h),
    List.dropWhile_cons_of_neg (by simp)]

theorem not_mem_takeWhile_ne (sep : Char) (cs : List Char) : sep ∉ cs.takeWhile (· != sep) := by
  intro hsep
  have h := List.mem_takeWhile_imp hsep
  rw [bne_self_eq_false] at h
  cases h

theorem cutFirstChars_eq_some_iff {sep : Char} {cs before after : List Char} :
    cutFirstChars sep cs = some (before, after) ↔ cs = before ++ sep :: after ∧ sep ∉ before := by
  constructor
  · intro h
    have hcs := List.takeWhile_append_dropWhile (p := (· != sep)) (l := cs)
    have hhead := List.head?_dropWhile_not (· != sep) cs
    unfold cutFirstChars at h
    split at h
    · cases h
    · rename_i c rest hrest
      have hc : c = sep := by
        rw [hrest, List.head?_cons] at hhead
        simpa using hhead
      obtain ⟨rfl, rfl⟩ := Prod.mk.inj (Option.some.inj h)
      refine ⟨?_, not_mem_takeWhile_ne sep cs⟩
      rw [← hc, ← hrest, hc, hcs]
  · rintro ⟨rfl, h⟩
    rw [cutFirstChars, dropWhile_ne_append h, takeWhile_ne_append h]

theorem cutLastChars_eq_some_iff {sep : Char} {cs before after : List Char} :
    cutLastChars sep cs = some (before, after) ↔ cs = before ++ sep :: after ∧ sep ∉ after := by
  have hreverse : cs.reverse = after.reverse ++ sep :: before.reverse ↔
      cs = before ++ sep :: after := by
    rw [← List.reverse_inj, List.reverse_reverse]
    simp
  rw [cutLastChars, Option.map_eq_some_iff]
  constructor
  · rintro ⟨⟨last, front⟩, hcut, hpair⟩
    obtain ⟨rfl, rfl⟩ := Prod.mk.inj hpair
    obtain ⟨hcs, hlast⟩ := cutFirstChars_eq_some_iff.1 hcut
    refine ⟨hreverse.1 (by simpa using hcs), ?_⟩
    rwa [List.mem_reverse]
  · rintro ⟨hcs, hafter⟩
    refine ⟨(after.reverse, before.reverse), cutFirstChars_eq_some_iff.2 ⟨hreverse.2 hcs, ?_⟩, ?_⟩
    · rwa [List.mem_reverse]
    · simp only [List.reverse_reverse]

theorem eq_append_of_cutColonsChars {cs before after : List Char}
    (h : cutColonsChars cs = some (before, after)) : cs = before ++ ':' :: ':' :: after := by
  fun_induction cutColonsChars cs generalizing before with
  | case1 => cases h
  | case2 rest =>
    cases h
    rfl
  | case3 c rest _ ih =>
    obtain ⟨⟨front, back⟩, hcut, hpair⟩ := Option.map_eq_some_iff.1 h
    cases hpair
    rw [List.cons_append, ← ih hcut]

theorem isSome_cutColonsChars_append (before after : List Char) :
    (cutColonsChars (before ++ ':' :: ':' :: after)).isSome = true := by
  induction before with
  | nil => rfl
  | cons c before ih =>
    rw [List.cons_append]
    unfold cutColonsChars
    split
    · rename_i hnil
      cases hnil
    · rfl
    · rename_i hcons
      cases hcons
      rwa [Option.isSome_map]

theorem cutColonsChars_append {before : List Char} (h : ':' ∉ before) (after : List Char) :
    cutColonsChars (before ++ ':' :: ':' :: after) = some (before, after) := by
  induction before with
  | nil => rfl
  | cons c before ih =>
    rw [List.mem_cons, not_or] at h
    rw [List.cons_append, cutColonsChars.eq_3 c _ fun _ hc _ => h.1 hc.symm, ih h.2]
    rfl

/-! ## Receivers and roots

The same on texts.  A receiver may have dots of its own and a method has none; with the root it is
the other way round. -/

theorem toList_dotted (front back : String) :
    (front ++ "." ++ back).toList = front.toList ++ '.' :: back.toList := by
  simp [String.toList_append]

theorem cutLast_dot_eq_some_iff {name front back : String} :
    cutLast '.' name = some (front, back) ↔ name = front ++ "." ++ back ∧ '.' ∉ back.toList := by
  rw [← String.toList_inj, toList_dotted, ← cutLastChars_eq_some_iff, cutLast,
    Option.map_eq_some_iff]
  constructor
  · rintro ⟨⟨before, after⟩, hcut, hpair⟩
    obtain ⟨rfl, rfl⟩ := Prod.mk.inj hpair
    rwa [String.toList_ofList, String.toList_ofList]
  · intro hcut
    exact ⟨_, hcut, by rw [ofCharsPair, String.ofList_toList, String.ofList_toList]⟩

/-- What may follow the root of a path: nothing, or a dot and more. -/
def IsPathRest (rest : String) : Prop := rest = "" ∨ ∃ more, rest = "." ++ more

/-- The root of a path reaches to its first dot, or to its end. -/
theorem rootOf_eq_iff {path root : String} :
    rootOf path = root ↔
      '.' ∉ root.toList ∧ ∃ rest, IsPathRest rest ∧ path = root ++ rest := by
  constructor
  · rintro rfl
    rw [rootOf, String.toList_ofList]
    refine ⟨not_mem_takeWhile_ne '.' path.toList,
      String.ofList (path.toList.dropWhile (· != '.')), ?_, ?_⟩
    · cases hcut : cutFirstChars '.' path.toList with
      | none =>
        left
        unfold cutFirstChars at hcut
        split at hcut
        · rename_i hnil
          rw [hnil]
        · cases hcut
      | some parts =>
        right
        obtain ⟨before, after⟩ := parts
        obtain ⟨hpath, hbefore⟩ := cutFirstChars_eq_some_iff.1 hcut
        refine ⟨String.ofList after, ?_⟩
        rw [hpath, dropWhile_ne_append hbefore, ← String.toList_inj]
        simp
    · rw [← String.toList_inj]
      simp [List.takeWhile_append_dropWhile]
  · rintro ⟨hroot, rest, rfl | ⟨more, rfl⟩, rfl⟩
    · rw [rootOf, String.append_empty, List.takeWhile_eq_self_iff.2 fun c hc => ?_,
        String.ofList_toList]
      exact bne_iff_ne.2 (ne_of_mem_of_not_mem hc hroot)
    · rw [rootOf, ← String.append_assoc, toList_dotted, takeWhile_ne_append hroot,
        String.ofList_toList]

end Text

/-- A dotted name is its receiver and its method with the last dot between them. -/
theorem splitReceiver_eq_some_iff {name receiver method : String} :
    splitReceiver name = some (receiver, method) ↔
      name = receiver ++ "." ++ method ∧ '.' ∉ method.toList ∧ receiver ≠ "" ∧ method ≠ "" := by
  rw [splitReceiver, Option.filter_eq_some_iff, Text.cutLast_dot_eq_some_iff, and_assoc]
  simp

end UiLowering
