import UiLowering.Proofs.Target.CallText
import UiLowering.Proofs.Text.Identifier
import UiLowering.Proofs.Text.Join

/-!
# Semicolons behind brackets

A block that fills the formatter's buffer is a statement: the semicolon behind the declaration of
the buffer is its first, and neither a square bracket nor a quote comes before it.  All other code
that is made for a value has its semicolons inside a function or a string constant, so that one of
these comes first (`Sheltered`).  Such a text does not begin with a block, and texts put together
from such texts are of the same kind: the values of templates, and conditions without their
parentheses.
-/

set_option autoImplicit false

namespace UiLowering

open Target

variable {cs a b : List Char} {s t : String}

/-- Before each semicolon there is a square bracket or a quote. -/
def Sheltered (cs : List Char) : Prop :=
  ∀ before after, cs = before ++ ';' :: after → '[' ∈ before ∨ '"' ∈ before

/-! ## Texts without semicolons

Names of types have no semicolons except inside brackets that belong to them, so they are sheltered
although nothing is known about what a schema writes there. -/

theorem sheltered_of_not_mem (h : ';' ∉ cs) : Sheltered cs := by
  rintro before after rfl
  exact absurd (List.mem_append_right before List.mem_cons_self) h

theorem sheltered_nil : Sheltered [] := sheltered_of_not_mem List.not_mem_nil

theorem Target.Quiet.sheltered (h : Quiet cs) : Sheltered cs :=
  sheltered_of_not_mem (h.not_mem_of_isQuiet_eq_false rfl)

/-- Outside all brackets nothing but a square bracket or a quote leads further in. -/
theorem next?_start {c : Char} {q : Point} (hbracket : c ≠ '[') (hquote : c ≠ '"')
    (h : Point.start.next? [';', '{', '('] c = some q) : q = .start := by
  simp only [Point.next?, isOpening] at h
  grind

/-- The name of a type has semicolons only inside square brackets and string constants. -/
theorem sheltered_of_even (h : Even [';', '{', '('] cs) : Sheltered cs := by
  rintro before after rfl
  -- As long as neither a square bracket nor a quote has come, the walk stays outside all brackets.
  induction before with
  | nil =>
    obtain ⟨q, hstop, -⟩ := Walks.cons_iff.1 h
    cases hstop
  | cons c before ih =>
    by_cases hbracket : c = '['
    · exact .inl (hbracket ▸ List.mem_cons_self)
    by_cases hquote : c = '"'
    · exact .inr (hquote ▸ List.mem_cons_self)
    obtain ⟨q, hnext, hrest⟩ := Walks.cons_iff.1 h
    rw [next?_start hbracket hquote hnext] at hrest
    exact (ih hrest).imp (List.mem_cons_of_mem c) (List.mem_cons_of_mem c)

/-! ## Texts behind texts

The property is kept by putting texts together.  Once a square bracket or a quote has come, anything
may follow. -/

theorem Sheltered.append (ha : Sheltered a) (hb : Sheltered b) : Sheltered (a ++ b) := by
  intro before after heq
  rcases List.append_eq_append_iff.1 heq with ⟨rest, rfl, hrest⟩ | ⟨rest, rfl, hrest⟩
  · exact (hb rest after hrest).imp (List.mem_append_right a) (List.mem_append_right a)
  · cases rest with
    | nil => simpa using hb [] after hrest.symm
    | cons c rest =>
      obtain ⟨rfl, -⟩ := List.cons.inj hrest
      exact ha before rest rfl

/-- Anything may follow a square bracket or a quote. -/
theorem Sheltered.append_of_mem (ha : Sheltered a) (hopen : '[' ∈ a ∨ '"' ∈ a) (b : List Char) :
    Sheltered (a ++ b) := by
  intro before after heq
  rcases List.append_eq_append_iff.1 heq with ⟨rest, rfl, -⟩ | ⟨rest, rfl, hrest⟩
  · exact hopen.imp (List.mem_append_left rest) (List.mem_append_left rest)
  · cases rest with
    | nil => rwa [List.append_nil] at hopen
    | cons c rest =>
      obtain ⟨rfl, -⟩ := List.cons.inj hrest
      exact ha before rest rfl

/-- What is left of a text without some characters at both ends, neither square brackets nor quotes
among those in front. -/
theorem Sheltered.of_append {after : List Char} (h : Sheltered (a ++ (cs ++ after)))
    (ha : ∀ c ∈ a, c ≠ '[' ∧ c ≠ '"') : Sheltered cs := by
  rintro before rest rfl
  have hmem := h (a ++ before) (rest ++ after) (by simp)
  simp only [List.mem_append] at hmem
  rcases hmem with (hfront | hopen) | (hfront | hopen)
  · exact absurd rfl (ha _ hfront).1
  · exact .inl hopen
  · exact absurd rfl (ha _ hfront).2
  · exact .inr hopen

theorem Sheltered.text (hs : Sheltered s.toList) (ht : Sheltered t.toList) :
    Sheltered (s ++ t).toList := by
  rw [String.toList_append]
  exact hs.append ht

theorem sheltered_join {parts : List String} (h : ∀ part ∈ parts, Sheltered part.toList) :
    Sheltered (Text.join ", " parts).toList :=
  Text.join_closed (P := fun t => Sheltered t.toList) sheltered_nil Sheltered.text
    (sheltered_of_not_mem (by decide)) h

theorem sheltered_braced (h : Sheltered t.toList) : Sheltered (braced t).toList :=
  ((sheltered_of_not_mem (by decide) : Sheltered "\x7b".toList).text h).text
    (sheltered_of_not_mem (by decide))

theorem sheltered_applied {callee : String} {args : List String} (hcallee : Sheltered callee.toList)
    (hargs : ∀ arg ∈ args, Sheltered arg.toList) : Sheltered (applied callee args).toList :=
  ((hcallee.text (sheltered_of_not_mem (by decide))).text (sheltered_join hargs)).text
    (sheltered_of_not_mem (by decide))

/-! ## Functions that are called on the spot

Blocks that have a value, and the forwarders of callbacks, are written as functions.  They begin
with a square bracket, so their bodies do not matter. -/

/-- What begins like a function that is called on the spot. -/
theorem sheltered_lambda (code : String) : Sheltered ("([&]() " ++ code).toList := by
  rw [String.toList_append]
  exact (sheltered_of_not_mem (by decide)).append_of_mem (.inl (by decide)) _

theorem sheltered_formatterValue (appends : String) :
    Sheltered (formatterValue appends).toList := by
  rw [formatterValue, String.append_assoc]
  exact sheltered_lambda _

theorem sheltered_forwarder (method : String) (arity : Nat) :
    Sheltered (Arg.forwarder method arity).toList := by
  simp only [Arg.forwarder, String.append_assoc]
  rw [String.toList_append]
  exact (sheltered_of_not_mem (by decide)).append_of_mem (.inl (by decide)) _

/-! ## The head of a block

A block that is a statement declares the buffer first.  The semicolon behind this declaration has
neither a square bracket nor a quote before it, so no sheltered text can begin like this. -/

/-- What a block begins with that fills the formatter's buffer. -/
def blockHead : String := "\x7b " ++ formatterDecl

/-- A text whose semicolons stand behind brackets does not begin with a block. -/
theorem Sheltered.not_block (h : Sheltered t.toList) : Text.startsWith blockHead t = false := by
  rw [← Bool.not_eq_true]
  intro hstarts
  obtain ⟨rest, hrest⟩ := List.isPrefixOf_iff_prefix.1 hstarts
  have hhead : blockHead.toList = "\x7b webcc::formatter<512> _fmt".toList ++ [';'] := by decide
  have hchars : t.toList = "\x7b webcc::formatter<512> _fmt".toList ++ ';' :: rest := by
    rw [← hrest, hhead, List.append_assoc, List.singleton_append]
  rcases h _ _ hchars with hopen | hopen
  · exact absurd hopen (by decide)
  · exact absurd hopen (by decide)

theorem startsWith_blockHead (appends before after : String) :
    Text.startsWith blockHead (formatterBlock appends before after) = true := by
  have hsplit : formatterBlock appends before after = blockHead ++
      (" " ++ (appends ++ (before ++ ("_fmt.c_str()" ++ (after ++ ("; " ++ "\x7d")))))) := by
    rw [formatterBlock, braced, blockHead, show "\x7b " = "\x7b" ++ " " from rfl]
    simp only [String.append_assoc]
  rw [hsplit, Text.startsWith, String.toList_append]
  exact List.isPrefixOf_iff_prefix.2 (List.prefix_append _ _)

/-! ## Conditions

A condition is stripped of blanks and of the outer parentheses when it is put behind a keyword.
Neither is a bracket or a quote that a semicolon needs. -/

/-- A condition loses blanks and a pair of parentheses. -/
theorem exists_stripParens (t : String) :
    ∃ before after, (∀ c ∈ before, c ≠ '[' ∧ c ≠ '"') ∧
      t.toList = before ++ ((Text.stripParens t).toList ++ after) := by
  obtain ⟨blanks, after, hblanks, -, hchars⟩ := Text.exists_trimChars t.toList
  have hfront : ∀ c ∈ blanks, c ≠ '[' ∧ c ≠ '"' := by
    intro c hc
    constructor
    · rintro rfl
      exact absurd (hblanks _ hc) (by decide)
    · rintro rfl
      exact absurd (hblanks _ hc) (by decide)
  rw [Text.stripParens, String.toList_ofList, Text.stripParensChars]
  split
  · rename_i hparens
    simp only [Bool.and_eq_true, beq_iff_eq] at hparens
    obtain ⟨inner, hinner⟩ := List.head?_eq_some_iff.1 hparens.1.1
    obtain ⟨last, hlast⟩ := List.dropLast_prefix inner
    refine ⟨blanks ++ ['('], last ++ after, ?_, ?_⟩
    · exact List.forall_mem_append.2 ⟨hfront, List.forall_mem_singleton.2 (by decide)⟩
    · rw [hinner] at hchars ⊢
      rw [hchars, List.tail_cons, ← List.append_assoc inner.dropLast, hlast, List.append_assoc]
      rfl
  · exact ⟨blanks, after, hfront, hchars⟩

theorem sheltered_stripParens (h : Sheltered t.toList) :
    Sheltered (Text.stripParens t).toList := by
  obtain ⟨before, after, hbefore, hchars⟩ := exists_stripParens t
  rw [hchars] at h
  exact h.of_append hbefore

/-! ## Templates

A template is filled character by character.  Its own characters have no semicolons, and what it is
filled with is sheltered. -/

namespace Template

variable {receiver : String} {args : List String}

/-- A placeholder stands for the receiver or for an argument. -/
theorem eq_or_mem_of_placeholder? {value : String}
    (h : placeholder? receiver args cs = some value) : value = receiver ∨ value ∈ args := by
  obtain ⟨-, hvalue⟩ := Option.ite_none_right_eq_some.1 h
  rw [value?] at hvalue
  split at hvalue
  · exact .inl (Option.some.inj hvalue).symm
  · obtain ⟨i, -, hget⟩ := Option.bind_eq_some_iff.1 hvalue
    exact .inr (List.mem_of_getElem? hget)

mutual

theorem sheltered_expandChars (hreceiver : Sheltered receiver.toList)
    (hargs : ∀ arg ∈ args, Sheltered arg.toList) (cs : List Char) (h : ';' ∉ cs) :
    Sheltered (expandChars receiver args cs) := by
  unfold expandChars
  split
  · exact sheltered_nil
  · rename_i rest
    have hrest : ';' ∉ rest := fun hmem =>
      h (List.mem_cons_of_mem _ (List.mem_cons_of_mem _ hmem))
    split
    · rename_i value hvalue
      have hshelter : Sheltered value.toList := by
        rcases eq_or_mem_of_placeholder? hvalue with rfl | hmem
        · exact hreceiver
        · exact hargs value hmem
      exact hshelter.append (sheltered_expandAfterKey hreceiver hargs rest hrest)
    · exact Sheltered.append (a := ['$', '{']) (sheltered_of_not_mem (by decide))
        (sheltered_expandChars hreceiver hargs rest hrest)
  · rename_i c rest _
    rw [List.mem_cons, not_or] at h
    exact Sheltered.append (a := [c]) (sheltered_of_not_mem (by simpa using h.1))
      (sheltered_expandChars hreceiver hargs rest h.2)
termination_by cs.length

theorem sheltered_expandAfterKey (hreceiver : Sheltered receiver.toList)
    (hargs : ∀ arg ∈ args, Sheltered arg.toList) (cs : List Char) (h : ';' ∉ cs) :
    Sheltered (expandAfterKey receiver args cs) := by
  unfold expandAfterKey
  split
  · exact sheltered_nil
  · rename_i rest
    exact sheltered_expandChars hreceiver hargs rest fun hmem => h (List.mem_cons_of_mem _ hmem)
  · rename_i c rest _
    exact sheltered_expandAfterKey hreceiver hargs rest fun hmem =>
      h (List.mem_cons_of_mem _ hmem)
termination_by cs.length

end

/-- A template brings no semicolon of its own. -/
theorem sheltered_expand {template : String} (h : ';' ∉ template.toList)
    (hreceiver : Sheltered receiver.toList) (hargs : ∀ arg ∈ args, Sheltered arg.toList) :
    Sheltered (expand template receiver args).toList := by
  rw [expand, String.toList_ofList]
  exact sheltered_expandChars hreceiver hargs _ h

end Template

theorem Shortcut.not_mem_template {family : Family} {shortcut : Shortcut}
    (h : shortcut ∈ Shortcut.table family) : ';' ∉ shortcut.template.toList := by
  have htable : ∀ family, ∀ shortcut ∈ Shortcut.table family, ';' ∉ shortcut.template.toList := by
    intro family
    cases family <;> decide
  exact htable family shortcut h

end UiLowering
