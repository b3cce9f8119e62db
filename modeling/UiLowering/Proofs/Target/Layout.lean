import Mathlib.Data.List.Forall2
import UiLowering.Proofs.Target.Else

/-!
# Branches inside branches

A `Layout` is the text of a statement, cut along the statements inside it.  Each branch in it stands
at a place of the whole text, and what it is read as there depends on everything behind it.
`places` lists, for each branch, the text from there on and the text behind its own `else`.

A branch with an `else` keeps it exactly if its first statement is closed (`isDecidedBy_branches`).
If all of them do, the whole text is read as it was meant: every branch takes its own `else`, or
none if it has none (`keepsElse_iff`).

What follows a text cannot be left out of these statements, because an open branch at its end takes
an `else` that follows.  Every recursion below therefore has a parameter `after`, and each part is
looked at with the rest of the whole text behind it.  Two conditions on `after` are handed down: the
open branches find their ends in it (`Closable`), and it begins with no `else` unless the text in
front of it is closed.
-/

set_option autoImplicit false

namespace UiLowering.Target

/-- The text of a statement by its parts.  A statement without parts is given by its text, and by
whether that leaves no branch open. -/
inductive Layout where
  | leaf (code : List Char) (closed : Bool)
  | block (parts : List Layout)
  | branch (test : List Char) (first : Layout) (other : Option Layout)
  | loop (head : List Char) (body : Layout)

/-- The blanks at the end of a text. -/
def endBlanks (cs : List Char) : List Char := (cs.reverse.takeWhile Text.isBlank).reverse

theorem blank_endBlanks (cs : List Char) : ∀ c ∈ endBlanks cs, Text.isBlank c = true :=
  fun _ hc => List.mem_takeWhile_imp (List.mem_reverse.1 hc)

theorem trimEndChars_append_endBlanks (cs : List Char) :
    Text.trimEndChars cs ++ endBlanks cs = cs := by
  rw [Text.trimEndChars, endBlanks, ← List.reverse_append, List.takeWhile_append_dropWhile,
    List.reverse_reverse]

theorem endBlanks_append_of_not_blank {cs ds : List Char}
    (h : ∃ c ∈ ds, Text.isBlank c = false) : endBlanks (cs ++ ds) = endBlanks ds := by
  have hsplit := trimEndChars_append_endBlanks (cs ++ ds)
  rw [trimEndChars_append_of_not_blank h, List.append_assoc, List.append_cancel_left_eq] at hsplit
  exact List.append_cancel_left (hsplit.trans (trimEndChars_append_endBlanks ds).symm)

/-- A branch in a text: the text from the branch on, and what stands behind its own `else`. -/
structure Place where
  start : List Char
  other? : Option (List Char)

/-- A branch is part of a text, and its own `else` is part of what follows. -/
def Place.IsIn (place : Place) (cs : List Char) : Prop :=
  place.start <:+ cs ∧ ∀ other ∈ place.other?, 'e' :: 'l' :: 's' :: 'e' :: other <:+ place.start

/-- A branch takes its own `else` and no other. -/
def Place.Keeps (place : Place) : Prop :=
  ∀ other, TakesElse place.start other ↔ place.other? = some other

/-- A branch is given with whether its first statement is closed if it has an `else`, and this
decides whether it keeps the `else`.  Of a branch without `else` nothing more is said. -/
def Place.IsDecidedBy (place : Place) (first? : Option Bool) : Prop :=
  place.other?.isSome = first?.isSome ∧ ∀ closed ∈ first?, (place.Keeps ↔ closed = true)

namespace Layout

/-! ## Texts

A statement ends in blanks that its last line brings along.  In front of an `else` they are cut off,
and behind a statement in a block they stay.  So the text of a layout comes in two parts, `core` and
`gap`, and the parent decides which of the two it keeps. -/

mutual

/-- The blanks behind the last statement. -/
def gap : Layout → List Char
  | .leaf code _ => endBlanks code
  | .block _ => ['\n']
  | .branch _ first other => optionGap first.gap other
  | .loop _ body => body.gap

/-- The blanks behind the last of two statements, the second of which may be missing. -/
def optionGap (first : List Char) : Option Layout → List Char
  | none => first
  | some other => other.gap

end

mutual

/-- The text without the blanks at its end. -/
def core : Layout → List Char
  | .leaf code _ => Text.trimEndChars code
  | .block parts => '{' :: '\n' :: partsText parts ++ ['}']
  | .branch test first other => branchText test (first.core ++ elseCore other)
  | .loop head body => loopText head body.core

/-- The `else` of a branch, if it has one. -/
def elseCore : Option Layout → List Char
  | none => []
  | some other => elseText other.core

/-- The texts of the statements in a block. -/
def partsText : List Layout → List Char
  | [] => []
  | part :: parts => part.core ++ part.gap ++ partsText parts

end

/-- The whole text. -/
def text (layout : Layout) : List Char := layout.core ++ layout.gap

/-! ## Branches

`places` and `firsts` go through the layout in the same order.  The one lists what stands in the
text where a branch begins, the other what the layout says about this branch.  They are compared
element by element, so no branch has to be identified by its text, and equal branches at two places
are no problem. -/

/-- What stands behind the word `else` if `after` follows the branch. -/
def otherPart (after : List Char) (other : Option Layout) : Option (List Char) :=
  other.map fun other => ' ' :: (other.core ++ after)

mutual

/-- The branches of a text that `after` follows, in the order in which they begin. -/
def places (after : List Char) : Layout → List Place
  | .leaf _ _ => []
  | .block parts => partsPlaces ('}' :: after) parts
  | .branch test first other =>
    ⟨branchText test (first.core ++ elseCore other) ++ after, otherPart after other⟩ ::
      (first.places (elseCore other ++ after) ++ optionPlaces after other)
  | .loop _ body => body.places after

/-- The branches of a statement that may be missing. -/
def optionPlaces (after : List Char) : Option Layout → List Place
  | none => []
  | some other => other.places after

/-- The branches of the statements in a block. -/
def partsPlaces (after : List Char) : List Layout → List Place
  | [] => []
  | part :: parts =>
    part.places (part.gap ++ partsText parts ++ after) ++ partsPlaces after parts

end

/-- The branches of a whole text. -/
def branches (layout : Layout) : List Place := layout.places layout.gap

/-- Every branch of a text takes its own `else` and no other. -/
def KeepsElse (layout : Layout) : Prop := ∀ place ∈ layout.branches, place.Keeps

mutual

/-- Whether a statement leaves no branch open. -/
def isClosed : Layout → Bool
  | .leaf _ closed => closed
  | .block _ => true
  | .branch _ first other => first.isClosed && isClosedOption other
  | .loop _ body => body.isClosed

/-- Whether the `else` of a branch closes it: there has to be one. -/
def isClosedOption : Option Layout → Bool
  | none => false
  | some other => other.isClosed

end

mutual

/-- The branches in the order in which they begin, each with whether its first statement is closed
if it has an `else`. -/
def firsts : Layout → List (Option Bool)
  | .leaf _ _ => []
  | .block parts => partsFirsts parts
  | .branch _ first other =>
    other.map (fun _ => first.isClosed) :: (first.firsts ++ optionFirsts other)
  | .loop _ body => body.firsts

/-- The branches of a statement that may be missing. -/
def optionFirsts : Option Layout → List (Option Bool)
  | none => []
  | some other => other.firsts

/-- The branches of the statements in a block. -/
def partsFirsts : List Layout → List (Option Bool)
  | [] => []
  | part :: parts => part.firsts ++ partsFirsts parts

end

mutual

/-- A text that can be read: its heads and its leaves close their brackets, and no leaf begins with
the word `else`. -/
def IsSound : Layout → Prop
  | .leaf code closed => Even [] code ∧ Seals closed (Text.trimEndChars code) ∧
    firstWord (Text.trimEndChars code) ≠ ['e', 'l', 's', 'e']
  | .block parts => AllSound parts
  | .branch test first none => Even [] test ∧ first.IsSound
  | .branch test first (some other) => Even [] test ∧ first.IsSound ∧ other.IsSound
  | .loop head body => Even [] head ∧ body.IsSound

/-- All statements in a block can be read. -/
def AllSound : List Layout → Prop
  | [] => True
  | part :: parts => part.IsSound ∧ AllSound parts

end

/-! ## What a layout is read as

First come the facts that hold of every sound layout, whatever follows: it closes its brackets, it
leaves a branch open or not as `isClosed` says, and it is not taken for an `else`.  With them the
branch at the root is decided (`keeps_branchElse_iff`, `keeps_branch`), and the two inductions go
from the root to all branches. -/

variable {after k : List Char}

theorem blank_gap : (layout : Layout) → ∀ c ∈ layout.gap, Text.isBlank c = true
  | .leaf code _ => by
    rw [gap]
    exact blank_endBlanks code
  | .block _ => by
    rw [gap]
    exact List.forall_mem_singleton.2 rfl
  | .branch _ first none => by
    rw [gap, optionGap]
    exact blank_gap first
  | .branch _ _ (some other) => by
    rw [gap, optionGap]
    exact blank_gap other
  | .loop _ body => by
    rw [gap]
    exact blank_gap body

mutual

theorem even_core : (layout : Layout) → layout.IsSound → Even [] layout.core
  | .leaf code closed, h => by
    rw [IsSound] at h
    rw [core]
    exact h.1.trimEndChars
  | .block parts, h => by
    rw [IsSound] at h
    rw [core]
    exact Even.group rfl (by decide) rfl (Even.append (a := ['\n']) rfl (even_partsText parts h))
  | .branch test first none, h => by
    rw [IsSound] at h
    rw [core, elseCore, List.append_nil]
    exact even_branchText h.1 (even_core first h.2)
  | .branch test first (some other), h => by
    rw [IsSound] at h
    rw [core, elseCore]
    exact even_branchText h.1
      ((even_core first h.2.1).append (even_elseText (even_core other h.2.2)))
  | .loop head body, h => by
    rw [IsSound] at h
    rw [core]
    exact even_loopText h.1 (even_core body h.2)

theorem even_partsText : (parts : List Layout) → AllSound parts → Even [] (partsText parts)
  | [], _ => by
    rw [partsText]
    exact Even.nil
  | part :: parts, h => by
    rw [AllSound] at h
    rw [partsText]
    have hgap : Even [] part.gap := (quiet_of_blank part.blank_gap).even.body
    exact ((even_core part h.1).append hgap).append (even_partsText parts h.2)

end

/-- **A layout leaves a branch open** or does not, as its last branches do. -/
theorem seals_core : (layout : Layout) → layout.IsSound → Seals layout.isClosed layout.core
  | .leaf code closed, h => by
    rw [IsSound] at h
    rw [isClosed, core]
    exact h.2.1
  | .block parts, h => by
    rw [IsSound] at h
    rw [isClosed, core]
    exact seals_block (Even.append (a := ['\n']) rfl (even_partsText parts h))
  | .branch test first none, h => by
    rw [IsSound] at h
    rw [isClosed, isClosedOption, Bool.and_false, core, elseCore, List.append_nil]
    obtain ⟨single, hsettles⟩ := (seals_core first h.2).settles
    exact hsettles.seals_branch h.1
  | .branch test first (some other), h => by
    rw [IsSound] at h
    rw [isClosed, isClosedOption, core, elseCore]
    exact (seals_core first h.2.1).branchElse h.1 (seals_core other h.2.2)
  | .loop head body, h => by
    rw [IsSound] at h
    rw [isClosed, core]
    exact (seals_core body h.2).loop h.1

/-- No statement is taken for an `else`. -/
theorem elsePart?_core_append (layout : Layout) (h : layout.IsSound) (k : List Char) :
    elsePart? (layout.core ++ k) = none := by
  cases layout with
  | leaf code closed =>
    rw [IsSound] at h
    obtain ⟨single, hsettles⟩ := h.2.1.settles
    rw [core]
    exact hsettles.elsePart?_append h.2.2 k
  | block parts =>
    rw [core]
    rfl
  | branch test first other =>
    rw [core]
    rfl
  | loop head body =>
    rw [core]
    rfl

theorem elsePart?_partsText_append (parts : List Layout) (h : AllSound parts)
    (hk : elsePart? k = none) : elsePart? (partsText parts ++ k) = none := by
  cases parts with
  | nil =>
    rw [partsText]
    exact hk
  | cons part parts =>
    rw [AllSound] at h
    rw [partsText, List.append_assoc, List.append_assoc]
    exact part.elsePart?_core_append h.1 _

/-- Nor is what follows a statement in a block. -/
theorem elsePart?_gap_append (part : Layout) {parts : List Layout} (h : AllSound parts)
    (hafter : elsePart? after = none) :
    elsePart? (part.gap ++ partsText parts ++ after) = none := by
  rw [List.append_assoc, elsePart?_append_of_blank part.blank_gap]
  exact elsePart?_partsText_append parts h hafter

theorem IsSound.closable_else {other : Layout} (h : other.IsSound) (hafter : Closable after) :
    Closable (elseCore (some other) ++ after) := by
  obtain ⟨single, hsettles⟩ := (seals_core other h).settles
  rw [elseCore]
  exact hafter.else hsettles

theorem otherPart_eq_some_iff {other : Layout} {part : List Char} :
    otherPart after (some other) = some part ↔ ' ' :: (other.core ++ after) = part := by
  rw [otherPart, Option.map_some, Option.some.injEq]

/-! ### The branch at the root

Where a branch has an `else`, `takesElse_iff` decides whether it is its own, and what follows the
`else` does not matter.  Where it has none, nothing that follows may be taken for one. -/

/-- The branch in front of a layout with an `else` keeps it if the first statement is closed, and
only then. -/
theorem keeps_branchElse_iff {test : List Char} {first other : Layout} (htest : Even [] test)
    (hfirst : first.IsSound) (hother : other.IsSound) (hafter : Closable after) :
    Place.Keeps ⟨branchText test (first.core ++ elseCore (some other)) ++ after,
      otherPart after (some other)⟩ ↔ first.isClosed = true := by
  obtain ⟨single, hsettles⟩ := (seals_core other hother).settles
  have hiff := takesElse_iff htest (seals_core first hfirst) hsettles hafter
  have htext : branchText test (first.core ++ elseCore (some other)) ++ after =
      branchText test (first.core ++ elseText (other.core ++ after)) := by
    rw [branchText_append, List.append_assoc, elseCore]
    rfl
  simp only [Place.Keeps, htext, otherPart_eq_some_iff]
  constructor
  · intro hkeeps
    exact hiff.1 ((hkeeps _).2 rfl)
  · intro hclosed part
    constructor
    · exact fun htakes => (hiff.2 hclosed).unique htakes
    · rintro rfl
      exact hiff.2 hclosed

/-- A branch without `else` takes none. -/
theorem keeps_branch {test : List Char} {first : Layout} (htest : Even [] test)
    (hfirst : first.IsSound) (hafter : elsePart? after = none) :
    Place.Keeps ⟨branchText test (first.core ++ elseCore none) ++ after, otherPart after none⟩ := by
  obtain ⟨single, hsettles⟩ := (seals_core first hfirst).settles
  intro part
  rw [elseCore, List.append_nil, branchText_append]
  exact iff_of_false (not_takesElse htest hsettles hafter part) (by simp [otherPart])

/-! ### All branches

Two inductions over the layout.  The first says for each branch with an `else` whether it keeps it,
and asks only that open branches find their ends.  The second says when all branches are right,
those without an `else` included.  For these it has to be known that no `else` follows, and inside
the first statement of a branch one does follow. -/

mutual

/-- **A branch with an `else` keeps it** exactly if its first statement is closed, whatever the
other branches of the layout do. -/
theorem isDecidedBy_firsts : (layout : Layout) → layout.IsSound → (after : List Char) →
    Closable after → List.Forall₂ Place.IsDecidedBy (layout.places after) layout.firsts
  | .leaf code closed, _, after, _ => by
    rw [places, firsts]
    exact .nil
  | .block parts, h, after, _ => by
    rw [IsSound] at h
    rw [places, firsts]
    exact isDecidedBy_partsFirsts parts h ('}' :: after) rfl
  | .branch test first none, h, after, hafter => by
    rw [IsSound] at h
    rw [places, firsts, optionPlaces, optionFirsts, elseCore]
    simp only [List.nil_append, List.append_nil]
    exact .cons ⟨rfl, by simp⟩ (isDecidedBy_firsts first h.2 after hafter)
  | .branch test first (some other), h, after, hafter => by
    rw [IsSound] at h
    obtain ⟨htest, hfirst, hother⟩ := h
    have hown := keeps_branchElse_iff htest hfirst hother hafter
    rw [places, firsts, optionPlaces, optionFirsts]
    refine .cons ⟨rfl, by simpa using hown⟩ (List.rel_append ?_ ?_)
    · exact isDecidedBy_firsts first hfirst _ (hother.closable_else hafter)
    · exact isDecidedBy_firsts other hother after hafter
  | .loop head body, h, after, hafter => by
    rw [IsSound] at h
    rw [places, firsts]
    exact isDecidedBy_firsts body h.2 after hafter

theorem isDecidedBy_partsFirsts : (parts : List Layout) → AllSound parts → (after : List Char) →
    elsePart? after = none →
      List.Forall₂ Place.IsDecidedBy (partsPlaces after parts) (partsFirsts parts)
  | [], _, after, _ => by
    rw [partsPlaces, partsFirsts]
    exact .nil
  | part :: parts, h, after, hafter => by
    rw [AllSound] at h
    rw [partsPlaces, partsFirsts]
    refine List.rel_append ?_ (isDecidedBy_partsFirsts parts h.2 after hafter)
    exact isDecidedBy_firsts part h.1 _
      (closable_of_elsePart?_eq_none (elsePart?_gap_append part h.2 hafter))

end

mutual

/-- **Every branch takes its own `else`** exactly if the first statement of each branch with an
`else` is closed.  The induction is on the layout.  What follows the text may begin with an `else`
only if the text is closed: this is what the first statement of a branch has to see to. -/
theorem keeps_iff : (layout : Layout) → layout.IsSound → (after : List Char) → Closable after →
    (elsePart? after = none ∨ layout.isClosed = true) →
      ((∀ place ∈ layout.places after, place.Keeps) ↔ some false ∉ layout.firsts)
  | .leaf code closed, _, after, _, _ => by
    rw [places, firsts]
    simp
  | .block parts, h, after, _, _ => by
    rw [IsSound] at h
    rw [places, firsts]
    exact keeps_parts_iff parts h ('}' :: after) rfl
  | .branch test first none, h, after, hclosable, hafter => by
    rw [IsSound] at h
    rw [isClosed, isClosedOption, Bool.and_false] at hafter
    have hnone : elsePart? after = none := hafter.resolve_right Bool.false_ne_true
    have hfirst := keeps_iff first h.2 after hclosable (Or.inl hnone)
    rw [places, optionPlaces, firsts, optionFirsts, List.append_nil, List.append_nil,
      List.forall_mem_cons, List.mem_cons, elseCore, List.nil_append, hfirst, not_or]
    exact and_congr_left fun _ => iff_of_true (keeps_branch h.1 h.2 hnone) (by simp)
  | .branch test first (some other), h, after, hclosable, hafter => by
    rw [IsSound] at h
    obtain ⟨htest, hsound, hsound'⟩ := h
    have hother := keeps_iff other hsound' after hclosable (hafter.imp_right fun hclosed => by
      rw [isClosed, isClosedOption, Bool.and_eq_true] at hclosed
      exact hclosed.2)
    have hown : Place.Keeps _ ↔ ¬some false = (some other).map fun _ => first.isClosed :=
      (keeps_branchElse_iff htest hsound hsound' hclosable).trans (by simp)
    rw [places, optionPlaces, firsts, optionFirsts, List.forall_mem_cons, List.forall_mem_append,
      List.mem_cons, List.mem_append, not_or, not_or, hother, hown]
    -- only behind a closed statement does it matter what the branches inside it take
    refine and_congr_right fun hclosed => ?_
    have hclosed : first.isClosed = true := by simpa using hclosed
    rw [keeps_iff first hsound _ (hsound'.closable_else hclosable) (Or.inr hclosed)]
  | .loop head body, h, after, hclosable, hafter => by
    rw [IsSound] at h
    rw [isClosed] at hafter
    rw [places, firsts]
    exact keeps_iff body h.2 after hclosable hafter

theorem keeps_parts_iff : (parts : List Layout) → AllSound parts → (after : List Char) →
    elsePart? after = none →
      ((∀ place ∈ partsPlaces after parts, place.Keeps) ↔ some false ∉ partsFirsts parts)
  | [], _, after, _ => by
    rw [partsPlaces, partsFirsts]
    simp
  | part :: parts, h, after, hafter => by
    rw [AllSound] at h
    have hnone := elsePart?_gap_append part h.2 hafter
    have hpart := keeps_iff part h.1 _ (closable_of_elsePart?_eq_none hnone) (Or.inl hnone)
    rw [partsPlaces, partsFirsts, List.forall_mem_append, hpart,
      keeps_parts_iff parts h.2 after hafter, List.mem_append, not_or]

end

theorem elsePart?_gap (layout : Layout) : elsePart? layout.gap = none := by
  rw [elsePart?, List.dropWhile_eq_nil_iff.2 layout.blank_gap]

theorem isDecidedBy_branches {layout : Layout} (h : layout.IsSound) :
    List.Forall₂ Place.IsDecidedBy layout.branches layout.firsts :=
  isDecidedBy_firsts layout h _ (closable_of_elsePart?_eq_none layout.elsePart?_gap)

theorem keepsElse_iff {layout : Layout} (h : layout.IsSound) :
    layout.KeepsElse ↔ some false ∉ layout.firsts :=
  keeps_iff layout h _ (closable_of_elsePart?_eq_none layout.elsePart?_gap)
    (Or.inl layout.elsePart?_gap)

/-! ## Where the branches stand

A place is given by the text from it on, so that it is a place of the whole is a matter of suffixes.
The places of a part are those of the part with everything behind it, which is a suffix of what its
parent has. -/

theorem isIn_of_suffix {place : Place} {cs ds : List Char} (h : place.IsIn cs)
    (hsuffix : cs <:+ ds) : place.IsIn ds :=
  ⟨h.1.trans hsuffix, h.2⟩

theorem suffix_branchText (test t : List Char) : t <:+ branchText test t :=
  ⟨branchText test [], branchText_append test [] t⟩

theorem suffix_loopText (head t : List Char) : t <:+ loopText head t :=
  ⟨loopText head [], loopText_append head [] t⟩

mutual

/-- The places of a layout are places of its text. -/
theorem isIn_of_mem_places : (layout : Layout) → (after : List Char) →
    ∀ place ∈ layout.places after, place.IsIn (layout.core ++ after)
  | .leaf code closed, after => by
    rw [places]
    exact fun place hplace => absurd hplace List.not_mem_nil
  | .block parts, after => by
    rw [places, core]
    intro place hplace
    refine isIn_of_suffix (isIn_of_mem_partsPlaces parts _ place hplace) ⟨['{', '\n'], ?_⟩
    simp
  | .branch test first none, after => by
    rw [places, core, elseCore, optionPlaces, List.append_nil, List.append_nil, List.nil_append]
    refine List.forall_mem_cons.2 ⟨⟨List.suffix_refl _, by simp [otherPart]⟩, ?_⟩
    intro place hplace
    rw [branchText_append]
    exact isIn_of_suffix (isIn_of_mem_places first after place hplace) (suffix_branchText _ _)
  | .branch test first (some other), after => by
    rw [places, core, elseCore, optionPlaces]
    have htext : branchText test (first.core ++ elseText other.core) ++ after =
        branchText test (first.core ++ (elseText other.core ++ after)) := by
      rw [branchText_append, List.append_assoc]
    have helse : 'e' :: 'l' :: 's' :: 'e' :: ' ' :: (other.core ++ after) <:+
        elseText other.core ++ after := ⟨[' '], rfl⟩
    rw [htext]
    refine List.forall_mem_cons.2 ⟨⟨List.suffix_refl _, ?_⟩, List.forall_mem_append.2 ⟨?_, ?_⟩⟩
    · intro part hpart
      obtain rfl := otherPart_eq_some_iff.1 hpart
      exact (helse.trans (List.suffix_append _ _)).trans (suffix_branchText _ _)
    · intro place hplace
      exact isIn_of_suffix (isIn_of_mem_places first _ place hplace) (suffix_branchText _ _)
    · intro place hplace
      have hsuffix : other.core ++ after <:+ elseText other.core ++ after :=
        ⟨[' ', 'e', 'l', 's', 'e', ' '], rfl⟩
      exact isIn_of_suffix (isIn_of_mem_places other after place hplace)
        ((hsuffix.trans (List.suffix_append _ _)).trans (suffix_branchText _ _))
  | .loop head body, after => by
    rw [places, core]
    intro place hplace
    rw [loopText_append]
    exact isIn_of_suffix (isIn_of_mem_places body after place hplace) (suffix_loopText _ _)

theorem isIn_of_mem_partsPlaces : (parts : List Layout) → (after : List Char) →
    ∀ place ∈ partsPlaces after parts, place.IsIn (partsText parts ++ after)
  | [], after => by
    rw [partsPlaces]
    exact fun place hplace => absurd hplace List.not_mem_nil
  | part :: parts, after => by
    have htext : partsText (part :: parts) ++ after =
        part.core ++ (part.gap ++ partsText parts ++ after) := by
      rw [partsText]
      simp only [List.append_assoc]
    rw [partsPlaces, htext]
    refine List.forall_mem_append.2 ⟨isIn_of_mem_places part _, fun place hplace => ?_⟩
    rw [List.append_assoc]
    exact isIn_of_suffix (isIn_of_mem_partsPlaces parts after place hplace)
      ((List.suffix_append _ _).trans (List.suffix_append _ _))

end

/-! ## The layout of a text

A layout is put together along with the text, one lemma for each form of statement.  Each lemma says
how the text that the lowering writes around its parts is cut: the blanks in front of an `else` are
the one thing that has to be looked for. -/

/-- A layout is one of a text, and it can be read. -/
structure IsOf (layout : Layout) (t : List Char) : Prop where
  sound : layout.IsSound
  core_eq : layout.core = Text.trimEndChars t
  gap_eq : layout.gap = endBlanks t

namespace IsOf

variable {layout first other : Layout} {test head t u : List Char}

theorem text_eq (h : layout.IsOf t) : layout.text = t := by
  rw [text, h.core_eq, h.gap_eq]
  exact trimEndChars_append_endBlanks t

theorem exists_not_blank (h : layout.IsOf t) : ∃ c ∈ t, Text.isBlank c = false := by
  obtain ⟨single, hsettles⟩ := (seals_core layout h.sound).settles
  obtain ⟨c, hc, hblank, -⟩ := hsettles.exists_mark
  refine ⟨c, ?_, hblank⟩
  rw [← h.text_eq]
  exact List.mem_append_left _ hc

/-- What stands in front of a statement does not change its end. -/
theorem append {outer : Layout} (h : layout.IsOf t) (hsound : outer.IsSound) (p : List Char)
    (hcore : outer.core = p ++ layout.core) (hgap : outer.gap = layout.gap) :
    outer.IsOf (p ++ t) := by
  refine ⟨hsound, ?_, ?_⟩
  · rw [hcore, h.core_eq, trimEndChars_append_of_not_blank h.exists_not_blank]
  · rw [hgap, h.gap_eq, endBlanks_append_of_not_blank h.exists_not_blank]

theorem leaf {closed : Bool} (heven : Even [] t) (hseals : Seals closed (Text.trimEndChars t))
    (hword : firstWord (Text.trimEndChars t) ≠ ['e', 'l', 's', 'e']) :
    (Layout.leaf t closed).IsOf t := by
  refine ⟨?_, ?_, ?_⟩
  · rw [IsSound]
    exact ⟨heven, hseals, hword⟩
  · rw [core]
  · rw [gap]

theorem block {parts : List Layout} (h : AllSound parts) :
    (Layout.block parts).IsOf ('{' :: '\n' :: partsText parts ++ ['}', '\n']) := by
  have hnot : ∃ c ∈ ['}', '\n'], Text.isBlank c = false := ⟨'}', List.mem_cons_self, rfl⟩
  refine ⟨?_, ?_, ?_⟩
  · rw [IsSound]
    exact h
  · rw [core, trimEndChars_append_of_not_blank hnot]
    rfl
  · rw [gap, endBlanks_append_of_not_blank hnot]
    rfl

theorem branch (htest : Even [] test) (h : first.IsOf t) :
    (Layout.branch test first none).IsOf (branchText test t) := by
  have hsound : (Layout.branch test first none).IsSound := by
    rw [IsSound]
    exact ⟨htest, h.sound⟩
  have hbranch := h.append hsound (branchText test [])
    (by rw [core, elseCore, List.append_nil, branchText_append, List.nil_append])
    (by rw [gap, optionGap])
  rwa [branchText_append] at hbranch

theorem branchElse (htest : Even [] test) (h : first.IsOf t) (hother : other.IsOf u) :
    (Layout.branch test first (some other)).IsOf
      (Text.trimEndChars (branchText test t) ++ elseText u) := by
  have hsound : (Layout.branch test first (some other)).IsSound := by
    rw [IsSound]
    exact ⟨htest, h.sound, hother.sound⟩
  have hfirst : Text.trimEndChars (branchText test t) = branchText test first.core := by
    rw [← (h.branch htest).core_eq, core, elseCore, List.append_nil]
  have hword (v : List Char) : elseText v = elseText [] ++ v := rfl
  rw [hfirst, hword, ← List.append_assoc]
  refine hother.append hsound _ ?_ (by rw [gap, optionGap])
  rw [core, elseCore, List.append_assoc, ← hword, branchText_append]

theorem loop (hhead : Even [] head) (h : layout.IsOf t) :
    (Layout.loop head layout).IsOf (loopText head t) := by
  have hsound : (Layout.loop head layout).IsSound := by
    rw [IsSound]
    exact ⟨hhead, h.sound⟩
  have hloop := h.append hsound (loopText head [])
    (by rw [core, loopText_append, List.nil_append]) (by rw [gap])
  rwa [loopText_append] at hloop

end IsOf

end Layout

end UiLowering.Target
