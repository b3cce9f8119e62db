import UiLowering.Call.Emit
import UiLowering.Proofs.Target.Statement
import UiLowering.Text.Paren

/-!
# The texts of expressions

The text of an expression stands in two places where it matters how it begins and ends.

A statement may begin with it.  Then it must not be taken for a block, nor for the head of a branch
or a loop with a block behind it.  `Tame` says that outside brackets a text has at most one brace,
and no parenthesis before it; such a text is read up to the semicolon (`Tame.exists_stands`) unless
the brace comes first (`breaks_of_block`).

A branch drops a pair of parentheses around its condition, and finds that pair by counting the
parentheses in string constants as well.  `Strippable` lists the shapes of texts for which this is
harmless: texts that do not begin with `(` or do not end in `)`, texts in one pair of parentheses,
and texts with a first pair in which nothing is left to miscount.

Both properties are about the two ends of a text and about what is exposed between them, and both
are kept by what is done to terms: an operator in front, an operator, a member or an index behind, a
call around.  So `IsTerm` has them together, and each form of expression needs one lemma.
-/

set_option autoImplicit false

namespace UiLowering.Target

variable {c : Char} {n : Nat} {cs p b s x : List Char}

/-! ## The first character

Blanks in front of a text do not count.  The first character behind them decides what a statement is
read as, and for an even text it cannot be one of the stops. -/

/-- The first character that is not blank. -/
def firstChar? (cs : List Char) : Option Char := (cs.dropWhile Text.isBlank).head?

theorem mem_of_firstChar? (h : firstChar? cs = some c) : c ∈ cs :=
  (List.dropWhile_sublist _).mem (List.mem_of_mem_head? h)

theorem firstChar?_append_of_blank (hp : ∀ c ∈ p, Text.isBlank c = true) (cs : List Char) :
    firstChar? (p ++ cs) = firstChar? cs := by
  rw [firstChar?, List.dropWhile_append_of_pos hp, firstChar?]

theorem dropWhile_ne_nil (h : ∃ c ∈ p, Text.isBlank c = false) :
    p.dropWhile Text.isBlank ≠ [] := by
  rw [ne_eq, List.dropWhile_eq_nil_iff]
  intro hall
  obtain ⟨c, hc, hblank⟩ := h
  rw [hall c hc] at hblank
  cases hblank

theorem dropWhile_append_of_not_blank (h : ∃ c ∈ p, Text.isBlank c = false) (cs : List Char) :
    (p ++ cs).dropWhile Text.isBlank = p.dropWhile Text.isBlank ++ cs := by
  have hempty : ¬(p.dropWhile Text.isBlank).isEmpty = true := by
    rw [List.isEmpty_iff]
    exact dropWhile_ne_nil h
  rw [List.dropWhile_append, if_neg hempty]

theorem firstChar?_append_of_not_blank (h : ∃ c ∈ p, Text.isBlank c = false) (cs : List Char) :
    firstChar? (p ++ cs) = firstChar? p := by
  obtain ⟨d, ds, hd⟩ := List.exists_cons_of_ne_nil (dropWhile_ne_nil h)
  rw [firstChar?, dropWhile_append_of_not_blank h, firstChar?, hd]
  rfl

theorem blank_or_not (p : List Char) :
    (∀ c ∈ p, Text.isBlank c = true) ∨ ∃ c ∈ p, Text.isBlank c = false := by
  cases h : p.all Text.isBlank with
  | true => exact Or.inl (List.all_eq_true.1 h)
  | false =>
    obtain ⟨c, hc, hblank⟩ := List.all_eq_false.1 h
    exact Or.inr ⟨c, hc, Bool.not_eq_true _ ▸ hblank⟩

theorem firstChar?_append_ne (hs : firstChar? s ≠ some c) (hx : firstChar? x ≠ some c) :
    firstChar? (s ++ x) ≠ some c := by
  rcases blank_or_not s with h | h
  · rwa [firstChar?_append_of_blank h]
  · rwa [firstChar?_append_of_not_blank h]

theorem elsePart?_of_firstChar? (h : firstChar? cs ≠ some 'e') : elsePart? cs = none := by
  unfold elsePart?
  split
  · rename_i heq
    rw [firstChar?, heq] at h
    exact absurd rfl h
  · rfl

/-- A text does not begin with a character that may not stand outside its brackets. -/
theorem firstChar?_ne_of_even {stops : List Char} (h : Even stops cs)
    (hstops : Loud stops) (hc : c ∈ stops) : firstChar? cs ≠ some c := by
  intro hfirst
  obtain ⟨rest, hrest⟩ := List.head?_eq_some_iff.1 hfirst
  have heven := even_dropWhile_isBlank hstops h
  rw [hrest] at heven
  obtain ⟨q, hstep, -⟩ := Walks.cons_iff.1 heven
  simp [Point.next?, hc] at hstep

/-! ## Trimmed texts

Parentheses are dropped from the trimmed text, so its two ends are what has to be known. -/

theorem trimEndChars_append_of_blank (hs : ∀ c ∈ s, Text.isBlank c = true) :
    Text.trimEndChars (cs ++ s) = Text.trimEndChars cs := by
  have hs' : ∀ c ∈ s.reverse, Text.isBlank c = true := fun c hc => hs c (List.mem_reverse.1 hc)
  rw [Text.trimEndChars, List.reverse_append, List.dropWhile_append_of_pos hs', Text.trimEndChars]

theorem trimEndChars_append_of_not_blank (hs : ∃ c ∈ s, Text.isBlank c = false) (cs : List Char) :
    Text.trimEndChars (cs ++ s) = cs ++ Text.trimEndChars s := by
  have hs' : ∃ c ∈ s.reverse, Text.isBlank c = false := by simpa using hs
  rw [Text.trimEndChars, List.reverse_append, dropWhile_append_of_not_blank hs',
    List.reverse_append, List.reverse_reverse, Text.trimEndChars]

theorem trimEndChars_ne_nil (hs : ∃ c ∈ s, Text.isBlank c = false) : Text.trimEndChars s ≠ [] := by
  have hs' : ∃ c ∈ s.reverse, Text.isBlank c = false := by simpa using hs
  rw [Text.trimEndChars, ne_eq, List.reverse_eq_nil_iff]
  exact dropWhile_ne_nil hs'

/-- A trimmed text begins with the first character of the text. -/
theorem firstChar?_of_head?_trimChars (h : (Text.trimChars cs).head? = some c) :
    firstChar? cs = some c := by
  have hsplit : cs.dropWhile Text.isBlank = Text.trimChars cs ++
      ((cs.dropWhile Text.isBlank).reverse.takeWhile Text.isBlank).reverse := by
    rw [Text.trimChars, Text.trimEndChars, ← List.reverse_append, List.takeWhile_append_dropWhile,
      List.reverse_reverse]
  rw [firstChar?, hsplit, List.head?_append, h]
  rfl

/-- A trimmed text ends in the last character of the text. -/
theorem firstChar?_of_getLast?_trimChars (h : (Text.trimChars cs).getLast? = some c) :
    firstChar? cs.reverse = some c := by
  rw [Text.trimChars, Text.trimEndChars, List.getLast?_reverse] at h
  have hsplit : cs.reverse =
      (cs.dropWhile Text.isBlank).reverse ++ (cs.takeWhile Text.isBlank).reverse := by
    rw [← List.reverse_append, List.takeWhile_append_dropWhile]
  rw [hsplit]
  rcases blank_or_not (cs.dropWhile Text.isBlank).reverse with hblank | hblank
  · rw [List.dropWhile_eq_nil_iff.2 hblank] at h
    cases h
  · rw [firstChar?_append_of_not_blank hblank]
    exact h

/-! ## Texts a statement can begin with

A text such as `if (a)` in front of a brace would be read as a branch with its block.  `Tame`
excludes this by allowing no parenthesis before the brace.  The condition is one on the text alone
and is kept when a statement goes on behind its expression, so it can be proved of terms once and
used for all statements. -/

/-- Outside its brackets a text has no semicolon, at most one brace and no parenthesis before that;
nor is what follows the brace an `else`. -/
inductive Tame : List Char → Prop where
  | smooth {cs : List Char} (h : Even [';', '{'] cs) : Tame cs
  | brace {p b s : List Char} (hp : Even [';', '{', '('] p) (hb : Even [] b)
    (hs : Even [';', '{'] s) (helse : firstChar? s ≠ some 'e') : Tame (p ++ '{' :: b ++ '}' :: s)

namespace Tame

theorem even (h : Tame cs) : Even [';'] cs := by
  cases h with
  | smooth h => exact h.weaken (by decide)
  | @brace p b s hp hb hs _ =>
    have hbraces : Even [';'] ('{' :: b ++ ['}']) := Even.group rfl (by decide) rfl hb
    rw [List.append_cons, List.append_assoc p]
    exact ((hp.weaken (by decide)).append hbraces).append (hs.weaken (by decide))

theorem append_left (hp : Even [';', '{', '('] p) (h : Tame cs) : Tame (p ++ cs) := by
  cases h with
  | smooth h => exact .smooth ((hp.weaken (by decide)).append h)
  | brace hq hb hs helse =>
    rw [← List.append_assoc, ← List.append_assoc]
    exact .brace (hp.append hq) hb hs helse

theorem append_right (h : Tame cs) (hx : Even [';', '{'] x) (helse : firstChar? x ≠ some 'e') :
    Tame (cs ++ x) := by
  cases h with
  | smooth h => exact .smooth (h.append hx)
  | brace hp hb hs helse' =>
    rw [List.append_assoc, List.cons_append]
    exact .brace hp hb (hs.append hx) (firstChar?_append_ne helse' helse)

end Tame

/-- What stands behind the block that a text opens with. -/
def blockRest? (cs : List Char) : Option (List Char) :=
  match cs.dropWhile Text.isBlank with
  | '{' :: rest => (seek [] .start rest).map Prod.snd
  | _ => none

theorem blockRest?_eq_none (h : firstChar? cs ≠ some '{') : blockRest? cs = none := by
  unfold blockRest?
  split
  · rename_i heq
    rw [firstChar?, heq] at h
    exact absurd rfl h
  · rfl

/-- A tame text opens no block, or it is a block with a rest that is no `else`. -/
theorem Tame.block_cases (h : Tame cs) :
    (firstChar? cs ≠ some '{' ∧ blockRest? cs = none) ∨
      ∃ p b s, cs = p ++ '{' :: b ++ '}' :: s ∧ (∀ c ∈ p, Text.isBlank c = true) ∧ Even [] b ∧
        Even [';', '{'] s ∧ firstChar? s ≠ some 'e' ∧ blockRest? cs = some s := by
  cases h with
  | smooth h =>
    have hfirst : firstChar? cs ≠ some '{' := firstChar?_ne_of_even h (by decide) (by decide)
    exact Or.inl ⟨hfirst, blockRest?_eq_none hfirst⟩
  | @brace p b s hp hb hs helse =>
    rcases blank_or_not p with hblank | hblank
    · refine Or.inr ⟨p, b, s, rfl, hblank, hb, hs, helse, ?_⟩
      rw [List.append_assoc, blockRest?, List.dropWhile_append_of_pos hblank]
      change (seek [] .start (b ++ '}' :: s)).map Prod.snd = some s
      rw [seek_closing hb rfl]
      rfl
    · have hfirst : firstChar? (p ++ '{' :: b ++ '}' :: s) ≠ some '{' := by
        rw [List.append_assoc, firstChar?_append_of_not_blank hblank]
        exact firstChar?_ne_of_even hp (by decide) (by decide)
      exact Or.inl ⟨hfirst, blockRest?_eq_none hfirst⟩

/-! ### How a statement goes on

Behind the expression that it begins with, a statement goes on in one of four ways.  None of them
can make a keyword out of the end of the expression, and none begins with `else`. -/

/-- How a statement may go on behind the expression it begins with: with an index, with a member,
with an equals sign, or not at all. -/
def IsContinuation (x : List Char) : Prop :=
  Even [';'] x ∧ ∀ c ∈ x.head?, c = '[' ∨ c = '.' ∨ c = '='

namespace IsContinuation

theorem nil : IsContinuation [] := ⟨Even.nil, by simp⟩

theorem isHeaded_append (hx : IsContinuation x) (hne : cs ≠ []) (h : isHeaded cs = false) :
    isHeaded (cs ++ x) = false := by
  cases x with
  | nil => rwa [List.append_nil]
  | cons c x =>
    refine Target.isHeaded_append hne h ?_ x
    rcases hx.2 c rfl with rfl | rfl | rfl <;> decide

theorem isHeaded (hx : IsContinuation x) : isHeaded (x.dropWhile Text.isBlank) = false := by
  cases x with
  | nil => rfl
  | cons c x => rcases hx.2 c rfl with rfl | rfl | rfl <;> rfl

theorem firstChar?_ne (hx : IsContinuation x) : firstChar? (x ++ [';']) ≠ some 'e' := by
  cases x with
  | nil => decide
  | cons c x => rcases hx.2 c rfl with rfl | rfl | rfl <;> simp [firstChar?, Text.isBlank]

end IsContinuation

/-- A text without braces outside brackets is read up to the semicolon, whatever keyword it begins
with: what looks like the head of a branch or a loop is followed by a shorter text of this kind. -/
theorem exists_stands_of_even (hx : IsContinuation x) (h : Even [';', '{'] cs) :
    ∃ n, Stands n (cs ++ x ++ [';']) := by
  obtain ⟨len, hlen⟩ : ∃ len, cs.length ≤ len := ⟨_, Nat.le_refl _⟩
  induction len generalizing cs with
  | zero =>
    obtain rfl : cs = [] := List.eq_nil_of_length_eq_zero (Nat.le_zero.1 hlen)
    exact ⟨0, stands_clause hx.1 hx.isHeaded⟩
  | succ len ih =>
    cases cs with
    | nil => exact ⟨0, stands_clause hx.1 hx.isHeaded⟩
    | cons c cs =>
      have heven : Even [';'] (c :: cs ++ x) := (h.weaken (by decide)).append hx.1
      cases hblank : Text.isBlank c with
      | true =>
        have hquiet : Quiet [c] := quiet_of_blank (by simpa using hblank)
        obtain ⟨n, hn⟩ := ih (Even.of_append_left (hquiet.even_of (by decide)) h)
          (Nat.le_of_succ_le_succ hlen)
        exact ⟨n, hn.blank hblank⟩
      | false =>
        cases hhead : isHeaded (c :: cs) with
        | false =>
          refine ⟨0, stands_clause heven ?_⟩
          rw [List.cons_append, List.dropWhile_cons_of_neg (by simp [hblank])]
          exact hx.isHeaded_append (List.cons_ne_nil c cs) hhead
        | true =>
          obtain ⟨head, hmem, rest, hrest⟩ := isHeaded_iff.1 hhead
          rw [← hrest] at h hlen ⊢
          simp only [heads, List.mem_cons, List.not_mem_nil, or_false] at hmem
          rcases hmem with rfl | rfl | rfl
          · obtain ⟨q, hstep, -⟩ := Walks.exists_of_append h
            cases hstep
          · have hbranch : Even [';', '{'] ('(' :: rest) :=
              Even.of_append_left (a := ['i', 'f', ' ']) rfl h
            obtain ⟨body, close, after, rfl, hbody, hclose, hafter⟩ := hbranch.exists_closing rfl
            obtain ⟨n, hn⟩ := ih hafter (by simp at hlen; omega)
            refine ⟨n + 1, ?_⟩
            have hstands := hn.branch hbody hclose
            simpa using hstands
          · have hloop : Even [';', '{'] ('(' :: rest) :=
              Even.of_append_left (a := ['f', 'o', 'r', ' ']) rfl h
            obtain ⟨body, close, after, rfl, hbody, hclose, hafter⟩ := hloop.exists_closing rfl
            obtain ⟨n, hn⟩ := ih hafter (by simp at hlen; omega)
            refine ⟨n, ?_⟩
            have hstands := hn.loop hbody hclose
            simpa using hstands

/-- A statement that begins with an expression is one statement, if the expression opens no
block. -/
theorem Tame.exists_stands (h : Tame cs) (hfirst : firstChar? cs ≠ some '{')
    (hx : IsContinuation x) : ∃ n, Stands n (cs ++ x ++ [';']) := by
  cases h with
  | smooth h => exact exists_stands_of_even hx h
  | @brace p b s hp hb hs helse =>
    have heven : Even [';'] (p ++ '{' :: b ++ '}' :: s) := (Tame.brace hp hb hs helse).even
    refine ⟨0, stands_clause (heven.append hx.1) ?_⟩
    rcases blank_or_not p with hblank | hblank
    · rw [List.append_assoc, firstChar?_append_of_blank hblank] at hfirst
      exact absurd rfl hfirst
    · -- No keyword goes on with a brace, and what stands before it is no keyword with `(`.
      have hp' : isHeaded (p.dropWhile Text.isBlank) = false :=
        isHeaded_of_even (even_dropWhile_isBlank (by decide) hp)
      rw [List.append_assoc, List.append_assoc, dropWhile_append_of_not_blank hblank]
      exact isHeaded_append (dropWhile_ne_nil hblank) hp' (by decide) _

theorem Breaks.blanks (hp : ∀ c ∈ p, Text.isBlank c = true) (h : Breaks cs) : Breaks (p ++ cs) := by
  induction p with
  | nil => exact h
  | cons c p ih =>
    exact (ih fun d hd => hp d (List.mem_cons_of_mem c hd)).blank (hp c List.mem_cons_self)

/-- A statement that begins with a block ends behind it. -/
theorem breaks_of_block (hp : ∀ c ∈ p, Text.isBlank c = true) (hb : Even [] b)
    (hs : ∃ c ∈ s, Text.isBlank c = false) (helse : firstChar? s ≠ some 'e') :
    Breaks (p ++ '{' :: b ++ '}' :: s) := by
  rw [List.append_assoc]
  refine Breaks.blanks hp ?_
  rw [List.append_cons]
  refine (stands_block hb rfl).breaks_append hs fun k => ?_
  refine elsePart?_of_firstChar? ?_
  rwa [firstChar?_append_of_not_blank hs]

/-! ## Conditions

The pair around a condition is found by counting all parentheses.  Each shape excludes in its own
way that the count goes wrong: nothing is removed, or what is removed belongs together. -/

/-- The shapes of texts whose enclosing parentheses are found by counting. -/
inductive Strippable : List Char → Prop where
  | first {cs : List Char} (h : firstChar? cs ≠ some '(') : Strippable cs
  | last {cs : List Char} (h : firstChar? cs.reverse ≠ some ')') : Strippable cs
  | whole {p b s : List Char} (hp : ∀ c ∈ p, Text.isBlank c = true) (hb : Even [] b)
    (hs : ∀ c ∈ s, Text.isBlank c = true) : Strippable (p ++ '(' :: b ++ ')' :: s)
  | early {p b s : List Char} (hp : ∀ c ∈ p, Text.isBlank c = true) (hopen : '(' ∉ b)
    (hclose : ')' ∉ b) (hs : ∃ c ∈ s, Text.isBlank c = false) :
    Strippable (p ++ '(' :: b ++ ')' :: s)

theorem closesEarly_of_not_mem (hopen : '(' ∉ b) (hclose : ')' ∉ b) (hs : s ≠ []) :
    Text.closesEarly 1 (b ++ ')' :: s) = true := by
  induction b with
  | nil =>
    obtain ⟨c, s, rfl⟩ := List.exists_cons_of_ne_nil hs
    rfl
  | cons c b ih =>
    rw [List.mem_cons, not_or] at hopen hclose
    rw [List.cons_append, Text.closesEarly]
    · exact ih hopen.2 hclose.2
    · exact fun h => hopen.1 h.symm
    · exact fun h => hclose.1 h.symm

/-- A condition is even with or without the parentheses around it. -/
theorem Strippable.even (h : Strippable cs) (heven : Even [] cs) :
    Even [] (Text.stripParensChars (Text.trimChars cs)) := by
  have htrim : Even [] (Text.trimChars cs) := heven.trimChars (by decide)
  unfold Text.stripParensChars
  split
  · rename_i hstrip
    simp only [Bool.and_eq_true, beq_iff_eq, Bool.not_eq_true'] at hstrip
    obtain ⟨⟨hhead, hlast⟩, hclose⟩ := hstrip
    cases h with
    | first hfirst => exact absurd (firstChar?_of_head?_trimChars hhead) hfirst
    | last hfirst => exact absurd (firstChar?_of_getLast?_trimChars hlast) hfirst
    | @whole p b s hp hb hs =>
      have htrimmed : Text.trimChars (p ++ '(' :: b ++ ')' :: s) = '(' :: b ++ [')'] := by
        rw [Text.trimChars, List.append_assoc, List.dropWhile_append_of_pos hp]
        change Text.trimEndChars ('(' :: b ++ ')' :: s) = _
        rw [List.append_cons, trimEndChars_append_of_blank hs,
          trimEndChars_append_of_not_blank ⟨')', by simp, rfl⟩]
        rfl
      rw [htrimmed, List.cons_append, List.tail_cons, List.dropLast_concat]
      exact hb
    | @early p b s hp hopen hmem hs =>
      have htrimmed : Text.trimChars (p ++ '(' :: b ++ ')' :: s) =
          '(' :: (b ++ ')' :: Text.trimEndChars s) := by
        rw [Text.trimChars, List.append_assoc, List.dropWhile_append_of_pos hp]
        change Text.trimEndChars ('(' :: b ++ ')' :: s) = _
        rw [List.append_cons, trimEndChars_append_of_not_blank hs]
        simp
      rw [htrimmed, Text.closesEarly,
        closesEarly_of_not_mem hopen hmem (trimEndChars_ne_nil hs)] at hclose
      cases hclose
  · exact htrim

/-! ## Terms

A term may be put in either of the two places.  Operators, members and indices are added at its
ends, and each lemma says what must be known of the text that is added. -/

/-- The text of an expression, which may begin a statement or be a condition. -/
structure IsTerm (t : String) : Prop where
  tame : Tame t.toList
  strippable : Strippable t.toList

theorem IsTerm.even {t : String} (h : IsTerm t) : Even [';'] t.toList := h.tame.even

theorem IsTerm.body {t : String} (h : IsTerm t) : Even [] t.toList := h.even.body

theorem isTerm_of_even {t : String} (h : Even [';', '{', '('] t.toList) : IsTerm t :=
  ⟨.smooth (h.weaken (by decide)), .first (firstChar?_ne_of_even h (by decide) (by decide))⟩

/-- A text in parentheses, found by its first and last character. -/
theorem isTerm_of_chars {t : String} (hchars : t.toList = '(' :: b ++ [')']) (hb : Even [] b) :
    IsTerm t := by
  constructor
  · rw [hchars]
    exact .smooth (Even.group rfl (by decide) rfl hb)
  · rw [hchars]
    exact .whole (p := []) (by simp) hb (by simp)

theorem isTerm_enclosed {t : String} (h : Even [] t.toList) : IsTerm ("(" ++ t ++ ")") := by
  refine isTerm_of_chars ?_ h
  simp only [String.toList_append]
  rfl

theorem isTerm_braced {t u : String} (ht : Even [';', '{', '('] t.toList) (hu : Even [] u.toList) :
    IsTerm (t ++ braced u) := by
  have hchars : (t ++ braced u).toList = t.toList ++ '{' :: u.toList ++ ['}'] := by
    simp only [braced, String.toList_append, List.append_assoc]
    rfl
  constructor
  · rw [hchars]
    exact .brace ht hu Even.nil (by decide)
  · refine .last ?_
    rw [hchars, List.reverse_append]
    simp [firstChar?, Text.isBlank]

theorem isTerm_block {u : String} (hu : Even [] u.toList) : IsTerm (braced u) := by
  have hterm := isTerm_braced (t := "") Even.nil hu
  rwa [String.empty_append] at hterm

theorem Quiet.firstChar?_ne {cs : List Char} (h : Quiet cs) (hc : isQuiet c = false) :
    firstChar? cs ≠ some c :=
  fun hfirst => h.not_mem_of_isQuiet_eq_false hc (mem_of_firstChar? hfirst)

theorem Quiet.reverse {cs : List Char} (h : Quiet cs) : Quiet cs.reverse :=
  fun c hc => h c (List.mem_reverse.1 hc)

/-- An operator in front of a term makes a term. -/
theorem IsTerm.append_left {op t : String} (hop : Quiet op.toList) (h : IsTerm t) :
    IsTerm (op ++ t) := by
  constructor
  · rw [String.toList_append]
    exact h.tame.append_left hop.even
  · rw [String.toList_append]
    rcases blank_or_not op.toList with hblank | hblank
    · have hshape := h.strippable
      generalize t.toList = cs at hshape ⊢
      cases hshape with
      | first hfirst => exact .first (by rwa [firstChar?_append_of_blank hblank])
      | last hlast =>
        refine .last ?_
        rw [List.reverse_append]
        exact firstChar?_append_ne hlast (hop.reverse.firstChar?_ne rfl)
      | whole hp hb hs =>
        rw [← List.append_assoc, ← List.append_assoc]
        exact .whole (List.forall_mem_append.2 ⟨hblank, hp⟩) hb hs
      | early hp hopen hclose hs =>
        rw [← List.append_assoc, ← List.append_assoc]
        exact .early (List.forall_mem_append.2 ⟨hblank, hp⟩) hopen hclose hs
    · refine .first ?_
      rw [firstChar?_append_of_not_blank hblank]
      exact hop.firstChar?_ne rfl

/-- What follows a term as part of it: an operator, an index or a member. -/
theorem IsTerm.append_right {t x : String} (h : IsTerm t) (hx : Even [';', '{'] x.toList)
    (helse : firstChar? x.toList ≠ some 'e') (hlast : firstChar? x.toList.reverse ≠ some ')') :
    IsTerm (t ++ x) := by
  constructor
  · rw [String.toList_append]
    exact h.tame.append_right hx helse
  · rw [String.toList_append]
    rcases blank_or_not x.toList with hblank | hblank
    · have hquiet : Quiet x.toList := quiet_of_blank hblank
      have hshape := h.strippable
      generalize t.toList = cs at hshape ⊢
      generalize x.toList = xs at hblank hquiet ⊢
      cases hshape with
      | first hfirst => exact .first (firstChar?_append_ne hfirst (hquiet.firstChar?_ne rfl))
      | last hlast =>
        refine .last ?_
        rw [List.reverse_append, firstChar?_append_of_blank (by simpa using hblank)]
        exact hlast
      | whole hp hb hs =>
        rw [List.append_assoc, List.cons_append]
        exact .whole hp hb (List.forall_mem_append.2 ⟨hs, hblank⟩)
      | early hp hopen hclose hs =>
        obtain ⟨c, hc, hcblank⟩ := hs
        rw [List.append_assoc, List.cons_append]
        exact .early hp hopen hclose ⟨c, List.mem_append_left _ hc, hcblank⟩
    · refine .last ?_
      rw [List.reverse_append, firstChar?_append_of_not_blank (by simpa using hblank)]
      exact hlast

/-- An operator behind a term makes a term, if it is no word. -/
theorem IsTerm.append_operator {t op : String} (h : IsTerm t) (hop : Quiet op.toList)
    (hword : ∀ c ∈ op.toList, Text.isAsciiWord c = false) : IsTerm (t ++ op) := by
  refine h.append_right (hop.even.weaken (by decide)) ?_ (hop.reverse.firstChar?_ne rfl)
  intro hfirst
  exact absurd (hword 'e' (mem_of_firstChar? hfirst)) (by decide)

theorem IsTerm.index {t i : String} (h : IsTerm t) (hi : Even [] i.toList) :
    IsTerm (t ++ "[" ++ i ++ "]") := by
  have hchars : ("[" ++ i ++ "]").toList = '[' :: i.toList ++ [']'] := by
    simp only [String.toList_append]
    rfl
  have hassoc : t ++ "[" ++ i ++ "]" = t ++ ("[" ++ i ++ "]") := by simp only [String.append_assoc]
  rw [hassoc]
  refine h.append_right ?_ ?_ ?_
  · rw [hchars]
    exact Even.group rfl (by decide) rfl hi
  · rw [hchars]
    simp [firstChar?, Text.isBlank]
  · rw [hchars, List.reverse_append]
    simp [firstChar?, Text.isBlank]

theorem IsTerm.member {t field : String} (h : IsTerm t) (hfield : Quiet field.toList) :
    IsTerm (t ++ "." ++ field) := by
  rw [String.append_assoc]
  have hquiet : Quiet ("." ++ field).toList := Quiet.text (by decide) hfield
  refine h.append_right (hquiet.even.weaken (by decide)) ?_ (hquiet.reverse.firstChar?_ne rfl)
  rw [String.toList_append]
  simp [firstChar?, Text.isBlank]

/-! ## Calls

What stands in front of the arguments of a call need not be a term.  It is even, and if it begins
with a parenthesis, this is closed again before the arguments and has none inside, so that the pair
around a condition is not looked for there. -/

/-- The text in front of the arguments of a call.  It may begin with a cast or with a pointer that
is followed. -/
def IsCallee (cs : List Char) : Prop :=
  Even [';', '{'] cs ∧
    (firstChar? cs ≠ some '(' ∨ ∃ g r, cs = '(' :: g ++ ')' :: r ∧ '(' ∉ g ∧ ')' ∉ g)

theorem isCallee_of_even (h : Even [';', '{', '('] cs) : IsCallee cs :=
  ⟨h.weaken (by decide), Or.inl (firstChar?_ne_of_even h (by decide) (by decide))⟩

theorem IsCallee.append (h : IsCallee cs) (hx : Quiet x) : IsCallee (cs ++ x) := by
  refine ⟨h.1.append (hx.even.weaken (by decide)), ?_⟩
  rcases h.2 with hfirst | ⟨g, r, rfl, hg⟩
  · exact Or.inl (firstChar?_append_ne hfirst (hx.firstChar?_ne rfl))
  · exact Or.inr ⟨g, r ++ x, by simp, hg⟩

theorem isCallee_group_append {g : List Char} (hg : Quiet g) (h : Even [';', '{'] cs) :
    IsCallee ('(' :: g ++ ')' :: cs) := by
  constructor
  · rw [List.append_cons]
    exact (Even.group rfl (by decide) rfl hg.even.body).append h
  · exact Or.inr ⟨g, cs, rfl, hg.not_mem_of_isQuiet_eq_false rfl,
      hg.not_mem_of_isQuiet_eq_false rfl⟩

/-- A call is a term. -/
theorem IsCallee.isTerm {t u : String} (ht : IsCallee t.toList) (hu : Even [] u.toList) :
    IsTerm (t ++ "(" ++ u ++ ")") := by
  have hchars : (t ++ "(" ++ u ++ ")").toList = t.toList ++ '(' :: u.toList ++ [')'] := by
    simp only [String.toList_append, List.append_assoc]
    rfl
  constructor
  · rw [hchars, List.append_assoc]
    exact .smooth (ht.1.append (Even.group rfl (by decide) rfl hu))
  · rw [hchars]
    rcases blank_or_not t.toList with hblank | hblank
    · exact .whole hblank hu (by simp)
    · rcases ht.2 with hfirst | ⟨g, r, hgr, hopen, hclose⟩
      · refine .first ?_
        rwa [List.append_assoc, firstChar?_append_of_not_blank hblank]
      · rw [hgr, List.append_assoc, List.append_assoc]
        exact .early (p := []) (by simp) hopen hclose ⟨')', by simp, rfl⟩

theorem isTerm_applied {callee : String} {args : List String} (hcallee : IsCallee callee.toList)
    (hargs : ∀ t ∈ args, Even [] t.toList) : IsTerm (applied callee args) :=
  hcallee.isTerm (even_join rfl hargs)

end UiLowering.Target
