import UiLowering.Call.Template

/-!
# The slots of a template

A template is a list of slots: characters of its own, places for the receiver and places for
arguments.  Which slots it has depends on the number of arguments only, and its expansion fills each
slot by itself (`expand_eq_flatMap`).  So two lists of arguments give the same text if they agree in
the arguments that the template mentions; if one list has nowhere a longer text than the other, also
only then (`expand_eq_iff`).

The expansion reads the template from left to right and looks for placeholders as it goes.  A brace
that opens no placeholder is a character of its own, and so is everything in a key that means
nothing.  Which keys mean something depends on the number of arguments, hence the parameter `argc`.

From the slots it can be said what a template shows of its arguments.  That two fillings with the
same text agree in every slot is not true in general, as one argument may be shorter where another
is longer.  It is true if no slot gets longer, and the two uses of the lemma are of this kind: a
name against its forwarder, and a receiver against a longer one.
-/

set_option autoImplicit false

namespace UiLowering.Template

/-- What stands at one place of a template. -/
inductive Slot where
  | char (c : Char)
  | receiver
  | arg (i : Nat)
deriving DecidableEq

/-- The characters that a slot is filled with. -/
def Slot.fill (receiver : String) (args : List String) : Slot → List Char
  | .char c => [c]
  | .receiver => receiver.toList
  | .arg i => (args.getD i "").toList

/-- The slot of the placeholder whose key begins `cs`, with `argc` arguments. -/
def slot? (argc : Nat) (cs : List Char) : Option Slot :=
  if cs.contains '}' then
    if cs.takeWhile (· != '}') == ['t', 'h', 'i', 's'] then some .receiver
    else (index? (cs.takeWhile (· != '}'))).bind fun i => if i < argc then some (.arg i) else none
  else none

mutual

/-- The slots of a template. -/
def slots (argc : Nat) : List Char → List Slot
  | [] => []
  | '$' :: '{' :: rest =>
    match slot? argc rest with
    | some slot => slot :: slotsAfterKey argc rest
    | none => .char '$' :: .char '{' :: slots argc rest
  | c :: rest => .char c :: slots argc rest

/-- The slots behind the brace that closes a key. -/
def slotsAfterKey (argc : Nat) : List Char → List Slot
  | [] => []
  | '}' :: rest => slots argc rest
  | _ :: rest => slotsAfterKey argc rest

end

/-- One of the slots of a template is for the `i`-th of `argc` arguments. -/
def Mentions (template : String) (argc i : Nat) : Prop := Slot.arg i ∈ slots argc template.toList

instance (template : String) (argc i : Nat) : Decidable (Mentions template argc i) :=
  inferInstanceAs (Decidable (_ ∈ _))

/-- One of the slots of a template is for the receiver. -/
def MentionsReceiver (template : String) (argc : Nat) : Prop :=
  Slot.receiver ∈ slots argc template.toList

instance (template : String) (argc : Nat) : Decidable (MentionsReceiver template argc) :=
  inferInstanceAs (Decidable (_ ∈ _))

theorem placeholder?_eq_map (receiver : String) (args : List String) (cs : List Char) :
    (placeholder? receiver args cs).map String.toList =
      (slot? args.length cs).map (Slot.fill receiver args) := by
  rw [placeholder?, slot?]
  split
  · rw [value?]
    split
    · rfl
    · cases index? (cs.takeWhile (· != '}')) with
      | none => rfl
      | some i =>
        rw [Option.bind_some, Option.bind_some]
        by_cases hi : i < args.length
        · rw [if_pos hi, List.getElem?_eq_getElem hi]
          simp [Slot.fill, List.getD_eq_getElem?_getD, hi]
        · rw [if_neg hi, List.getElem?_eq_none (Nat.le_of_not_lt hi)]
          rfl
  · rfl

mutual

/-- The expansion fills each slot by itself. -/
theorem expandChars_eq_flatMap (receiver : String) (args : List String) (cs : List Char) :
    expandChars receiver args cs = (slots args.length cs).flatMap (Slot.fill receiver args) := by
  by_cases hkey : ∃ rest, cs = '$' :: '{' :: rest
  · obtain ⟨rest, rfl⟩ := hkey
    have hslot := placeholder?_eq_map receiver args rest
    rw [expandChars, slots]
    cases hfound : slot? args.length rest with
    | none =>
      rw [hfound, Option.map_none, Option.map_eq_none_iff] at hslot
      rw [hslot]
      simp [expandChars_eq_flatMap receiver args rest, Slot.fill]
    | some slot =>
      rw [hfound, Option.map_some, Option.map_eq_some_iff] at hslot
      obtain ⟨value, hvalue, hfill⟩ := hslot
      rw [hvalue]
      simp [expandAfterKey_eq_flatMap receiver args rest, hfill]
  · rcases cs with _ | ⟨c, rest⟩
    · rfl
    · have hplain : ∀ other, c = '$' → rest = '{' :: other → False :=
        fun other hc hrest => hkey ⟨other, by rw [hc, hrest]⟩
      rw [expandChars.eq_3 _ _ c rest hplain, slots.eq_3 _ c rest hplain,
        expandChars_eq_flatMap receiver args rest]
      rfl
termination_by cs.length

theorem expandAfterKey_eq_flatMap (receiver : String) (args : List String) (cs : List Char) :
    expandAfterKey receiver args cs =
      (slotsAfterKey args.length cs).flatMap (Slot.fill receiver args) := by
  rcases cs with _ | ⟨c, rest⟩
  · rfl
  · by_cases hclose : c = '}'
    · rw [hclose, expandAfterKey, slotsAfterKey, expandChars_eq_flatMap receiver args rest]
    · rw [expandAfterKey.eq_3 _ _ c rest hclose, slotsAfterKey.eq_3 _ c rest hclose,
        expandAfterKey_eq_flatMap receiver args rest]
termination_by cs.length

end

theorem expand_eq_flatMap (template receiver : String) (args : List String) :
    (expand template receiver args).toList =
      (slots args.length template.toList).flatMap (Slot.fill receiver args) := by
  rw [expand, String.toList_ofList, expandChars_eq_flatMap]

/-- Two fillings of which one is nowhere longer make the same text only if they agree in every
slot. -/
theorem flatMap_eq_iff {f g : Slot → List Char} {slots : List Slot}
    (hle : ∀ slot, (f slot).length ≤ (g slot).length) :
    slots.flatMap f = slots.flatMap g ↔ ∀ slot ∈ slots, f slot = g slot := by
  have hlength : ∀ slots : List Slot, (slots.flatMap f).length ≤ (slots.flatMap g).length := by
    intro slots
    induction slots with
    | nil => simp
    | cons slot slots ih =>
      rw [List.flatMap_cons, List.flatMap_cons, List.length_append, List.length_append]
      exact Nat.add_le_add (hle slot) ih
  induction slots with
  | nil => simp
  | cons slot slots ih =>
    rw [List.flatMap_cons, List.flatMap_cons, List.forall_mem_cons]
    constructor
    · intro heq
      have htotal := congrArg List.length heq
      rw [List.length_append, List.length_append] at htotal
      have hslot := hle slot
      have hrest := hlength slots
      obtain ⟨hfirst, hothers⟩ := List.append_inj heq (by omega)
      exact ⟨hfirst, ih.1 hothers⟩
    · rintro ⟨hfirst, hothers⟩
      rw [hfirst, ih.2 hothers]

/-- Two lists of arguments of which one has nowhere a longer text give the same expansion exactly if
they agree in the arguments that the template mentions. -/
theorem expand_eq_iff {template receiver : String} {args others : List String}
    (hlength : args.length = others.length)
    (hle : ∀ i, (args.getD i "").length ≤ (others.getD i "").length) :
    expand template receiver args = expand template receiver others ↔
      ∀ i, Mentions template args.length i → args.getD i "" = others.getD i "" := by
  rw [← String.toList_inj, expand_eq_flatMap, expand_eq_flatMap, ← hlength, flatMap_eq_iff]
  · constructor
    · intro h i hi
      exact String.toList_inj.1 (h (.arg i) hi)
    · intro h slot hslot
      cases slot with
      | char c => rfl
      | receiver => rfl
      | arg i => exact congrArg String.toList (h i hslot)
  · intro slot
    cases slot with
    | char c => exact Nat.le_refl 1
    | receiver => exact Nat.le_refl receiver.toList.length
    | arg i => exact hle i

theorem expand_receiver_eq_iff_of_le {template receiver other : String} {args : List String}
    (hne : receiver ≠ other) (hle : receiver.length ≤ other.length) :
    expand template receiver args = expand template other args ↔
      ¬MentionsReceiver template args.length := by
  rw [← String.toList_inj, expand_eq_flatMap, expand_eq_flatMap, flatMap_eq_iff]
  · constructor
    · intro h hmentions
      exact hne (String.toList_inj.1 (h .receiver hmentions))
    · intro h slot hslot
      cases slot with
      | char c => rfl
      | receiver => exact absurd hslot h
      | arg i => rfl
  · intro slot
    cases slot with
    | char c => exact Nat.le_refl 1
    | receiver => exact hle
    | arg i => exact Nat.le_refl (args.getD i "").toList.length

/-- Two receivers give the same expansion exactly if the template does not mention the receiver. -/
theorem expand_receiver_eq_iff {template receiver other : String} {args : List String}
    (hne : receiver ≠ other) :
    expand template receiver args = expand template other args ↔
      ¬MentionsReceiver template args.length := by
  rcases Nat.le_total receiver.length other.length with hle | hle
  · exact expand_receiver_eq_iff_of_le hne hle
  · rw [eq_comm]
    exact expand_receiver_eq_iff_of_le hne.symm hle

end UiLowering.Template
