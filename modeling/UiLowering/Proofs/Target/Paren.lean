import Mathlib.Data.List.Infix
import UiLowering.Proofs.Target.Scan
import UiLowering.Text.Paren

/-!
# Conditions without their parentheses

A condition loses the pair of parentheses that encloses it.  Which pair that is, is found by
counting characters, and the count does not pass over string constants.  `exposed` does: it keeps
the characters of a text that stand outside its constants, and a text is in order if these are
`Balanced`.

`Encloses` says that the first and the last parenthesis of a text belong together.  Counted in all
characters it decides whether they are removed (`stripParensChars_cases`), and counted in the
exposed ones whether they may be (`balanced_inner_iff`).  So a condition keeps its balance exactly
if the second follows from the first (`stripParens_balanced_iff`), which it does if no parenthesis
stands in a constant.
-/

set_option autoImplicit false

namespace UiLowering.Target

/-! ## Parentheses outside string constants

A parenthesis in a string constant is no parenthesis for the target language.  `exposed` follows the
three modes of reading and keeps what is code; with it the same notions can be stated for all
characters of a text and for those that count. -/

/-- Where the character behind a character stands. -/
def Mode.next : Mode → Char → Mode
  | .code, c => if c == '"' then .quoted else .code
  | .quoted, c => if c == '"' then .code else if c == '\\' then .escaped else .quoted
  | .escaped, _ => .quoted

/-- The characters of a text that are read as code: those outside string constants, and the quotes
that open one. -/
def exposed : Mode → List Char → List Char
  | _, [] => []
  | .code, c :: cs => c :: exposed (Mode.code.next c) cs
  | .quoted, c :: cs => exposed (Mode.quoted.next c) cs
  | .escaped, c :: cs => exposed (Mode.escaped.next c) cs

/-- How many more parentheses are opened than closed. -/
def balance (cs : List Char) : Int := cs.count '(' - cs.count ')'

/-- The parentheses of a text are balanced: no parenthesis closes nothing, and in the end none is
open. -/
structure Balanced (cs : List Char) : Prop where
  total : balance cs = 0
  nonneg : ∀ before ∈ cs.inits, 0 ≤ balance before

instance (cs : List Char) : Decidable (Balanced cs) :=
  decidable_of_iff (balance cs = 0 ∧ ∀ before ∈ cs.inits, 0 ≤ balance before)
    ⟨fun h => ⟨h.1, h.2⟩, fun h => ⟨h.total, h.nonneg⟩⟩

/-- The parenthesis that a text begins with is closed by the one that it ends with, and not before:
in what `view` shows of a shorter beginning it is still open. -/
structure Encloses (view : List Char → List Char) (cs : List Char) : Prop where
  first : cs.head? = some '('
  last : cs.getLast? = some ')'
  stays : ∀ before ∈ cs.inits, before ≠ [] → before ≠ cs → 0 < balance (view before)

instance (view : List Char → List Char) (cs : List Char) : Decidable (Encloses view cs) :=
  decidable_of_iff (cs.head? = some '(' ∧ cs.getLast? = some ')' ∧
      ∀ before ∈ cs.inits, before ≠ [] → before ≠ cs → 0 < balance (view before))
    ⟨fun h => ⟨h.1, h.2.1, h.2.2⟩, fun h => ⟨h.first, h.last, h.stays⟩⟩

/-- No parenthesis stands in a string constant. -/
def NoQuotedParens (cs : List Char) : Prop :=
  ∀ c, c = '(' ∨ c = ')' → (exposed .code cs).count c = cs.count c

variable {mode : Mode} {a b cs : List Char}

theorem exposed_append (mode : Mode) (a b : List Char) :
    exposed mode (a ++ b) = exposed mode a ++ exposed (a.foldl Mode.next mode) b := by
  induction a generalizing mode with
  | nil => cases mode <;> rfl
  | cons c a ih =>
    rw [List.cons_append, List.foldl_cons]
    cases mode with
    | code => rw [exposed, exposed, ih, List.cons_append]
    | quoted => rw [exposed, exposed, ih]
    | escaped => rw [exposed, exposed, ih]

theorem exposed_sublist (mode : Mode) (cs : List Char) : (exposed mode cs).Sublist cs := by
  induction cs generalizing mode with
  | nil => cases mode <;> exact List.Sublist.refl _
  | cons c cs ih =>
    cases mode with
    | code => exact (ih _).cons_cons c
    | quoted => exact (ih _).cons c
    | escaped => exact (ih _).cons c

/-- What is exposed in the beginnings of a text are the beginnings of what is exposed in it. -/
theorem exists_prefix_exposed {shown : List Char} (h : shown <+: exposed mode cs) :
    ∃ before, before <+: cs ∧ exposed mode before = shown := by
  induction cs generalizing mode shown with
  | nil =>
    have hnil : exposed mode [] = [] := by cases mode <;> rfl
    rw [hnil, List.prefix_nil] at h
    exact ⟨[], List.prefix_rfl, h ▸ hnil⟩
  | cons c cs ih =>
    cases mode with
    | code =>
      rcases List.prefix_cons_iff.1 h with rfl | ⟨shown, rfl, hshown⟩
      · exact ⟨[], List.nil_prefix, rfl⟩
      · obtain ⟨before, hbefore, rfl⟩ := ih hshown
        exact ⟨c :: before, List.cons_prefix_cons.2 ⟨rfl, hbefore⟩, rfl⟩
    | quoted =>
      obtain ⟨before, hbefore, rfl⟩ := ih h
      exact ⟨c :: before, List.cons_prefix_cons.2 ⟨rfl, hbefore⟩, rfl⟩
    | escaped =>
      obtain ⟨before, hbefore, rfl⟩ := ih h
      exact ⟨c :: before, List.cons_prefix_cons.2 ⟨rfl, hbefore⟩, rfl⟩

/-! ## Counting

A text is balanced if no beginning of it closes more than it opens and the whole closes all.  As a
condition on numbers this is easily split along `++`. -/

@[simp] theorem balance_nil : balance [] = 0 := rfl

@[simp] theorem balance_append (a b : List Char) : balance (a ++ b) = balance a + balance b := by
  simp only [balance, List.count_append]
  omega

theorem balance_cons (c : Char) (cs : List Char) :
    balance (c :: cs) = balance [c] + balance cs := balance_append [c] cs

theorem balance_eq_zero (hopen : '(' ∉ cs) (hclose : ')' ∉ cs) : balance cs = 0 := by
  simp [balance, List.count_eq_zero_of_not_mem, hopen, hclose]

/-- A text is in order if no beginning of it closes more than it opens. -/
theorem balanced_exposed_iff :
    Balanced (exposed mode cs) ↔ balance (exposed mode cs) = 0 ∧
      ∀ before, before <+: cs → 0 ≤ balance (exposed mode before) := by
  constructor
  · intro h
    refine ⟨h.total, ?_⟩
    rintro before ⟨after, rfl⟩
    refine h.nonneg _ ((List.mem_inits _ _).2 ?_)
    rw [exposed_append]
    exact List.prefix_append _ _
  · rintro ⟨htotal, hnonneg⟩
    refine ⟨htotal, fun shown hshown => ?_⟩
    obtain ⟨before, hbefore, rfl⟩ := exists_prefix_exposed ((List.mem_inits _ _).1 hshown)
    exact hnonneg before hbefore

/-! ## Parts of a text

Trimming and cutting must not move a character into a constant or out of one.  What is cut off is
blank, so the mode behind it is the mode before it. -/

/-- If all occurrences of a character in a text are exposed, so are those in its parts. -/
theorem count_exposed_of_append {c : Char}
    (h : (exposed mode (a ++ b)).count c = (a ++ b).count c) :
    (exposed mode a).count c = a.count c ∧
      (exposed (a.foldl Mode.next mode) b).count c = b.count c := by
  rw [exposed_append, List.count_append, List.count_append] at h
  have ha := (exposed_sublist mode a).count_le c
  have hb := (exposed_sublist (a.foldl Mode.next mode) b).count_le c
  omega

theorem foldl_next_of_not_mem (h : '"' ∉ cs) : cs.foldl Mode.next .code = .code := by
  induction cs with
  | nil => rfl
  | cons c cs ih =>
    rw [List.mem_cons, not_or] at h
    have hc : Mode.code.next c = .code := if_neg (by simpa using fun hc => h.1 hc.symm)
    rw [List.foldl_cons, hc]
    exact ih h.2

/-- A trimmed text stands between quiet texts, and it begins as code. -/
theorem exists_quiet_trimChars (cs : List Char) :
    ∃ front back, Quiet front ∧ Quiet back ∧ front.foldl Mode.next .code = .code ∧
      cs = front ++ (Text.trimChars cs ++ back) := by
  obtain ⟨front, back, hfront, hback, hcs⟩ := Text.exists_trimChars cs
  have hquiet := quiet_of_blank hfront
  exact ⟨front, back, hquiet, quiet_of_blank hback,
    foldl_next_of_not_mem (hquiet.not_mem_of_isQuiet_eq_false rfl), hcs⟩

theorem Quiet.balance_exposed (h : Quiet cs) (mode : Mode) : balance (exposed mode cs) = 0 := by
  have hquiet := h.of_subset (exposed_sublist mode cs).subset
  exact balance_eq_zero (hquiet.not_mem_of_isQuiet_eq_false rfl)
    (hquiet.not_mem_of_isQuiet_eq_false rfl)

/-- Blanks at either end have no part in the balance of a text. -/
theorem Balanced.trimChars (h : Balanced (exposed .code cs)) :
    Balanced (exposed .code (Text.trimChars cs)) := by
  obtain ⟨front, back, hfront, hback, hmode, hcs⟩ := exists_quiet_trimChars cs
  rw [balanced_exposed_iff] at h ⊢
  constructor
  · have htotal := h.1
    rw [hcs, exposed_append, hmode, exposed_append, balance_append, balance_append,
      hfront.balance_exposed, hback.balance_exposed] at htotal
    omega
  · rintro before ⟨after, hbefore⟩
    have hfits : front ++ before <+: cs := by
      rw [hcs, ← hbefore, List.append_assoc, ← List.append_assoc front]
      exact List.prefix_append _ _
    have hnonneg := h.2 (front ++ before) hfits
    rw [exposed_append, hmode, balance_append, hfront.balance_exposed] at hnonneg
    omega

/-! ## The pair around a text

The same pair is looked at twice: with the count that the lowering uses and with the count that
would be right.  The first says which characters are removed, and the second whether what remains is
balanced. -/

section Pair

variable {view : List Char → List Char} {inner : List Char}

theorem exists_inner (hfirst : cs.head? = some '(') (hlast : cs.getLast? = some ')') :
    ∃ inner, cs = '(' :: inner ++ [')'] := by
  obtain ⟨rest, rfl⟩ := List.head?_eq_some_iff.1 hfirst
  obtain ⟨inner, hinner⟩ := List.getLast?_eq_some_iff.1 hlast
  cases inner with
  | nil => cases hinner
  | cons c inner =>
    rw [hinner, ← (List.cons.inj hinner).1]
    exact ⟨inner, rfl⟩

/-- The pair around a text belongs together if the first parenthesis stays open inside. -/
theorem encloses_iff :
    Encloses view ('(' :: inner ++ [')']) ↔
      ∀ before, before <+: inner → 0 < balance (view ('(' :: before)) := by
  constructor
  · intro h before hbefore
    have hfits : '(' :: before <+: '(' :: inner := List.cons_prefix_cons.2 ⟨rfl, hbefore⟩
    refine h.stays _ ((List.mem_inits _ _).2 (hfits.trans (List.prefix_append _ _)))
      (List.cons_ne_nil _ _) fun heq => ?_
    have hlength := hfits.length_le
    rw [heq, List.length_append, List.length_singleton] at hlength
    omega
  · intro h
    refine ⟨rfl, List.getLast?_concat, fun before hbefore hne hproper => ?_⟩
    rcases List.prefix_concat_iff.1 ((List.mem_inits _ _).1 hbefore) with heq | hfits
    · exact absurd heq hproper
    · rcases List.prefix_cons_iff.1 hfits with rfl | ⟨before, rfl, hrest⟩
      · exact absurd rfl hne
      · exact h before hrest

/-- The count of open parentheses falls to zero before the last character exactly if it does in some
beginning. -/
theorem closesEarly_concat_eq_false_iff {depth : Nat} (hdepth : 0 < depth) (last : Char) :
    Text.closesEarly depth (cs ++ [last]) = false ↔
      ∀ before, before <+: cs → 0 < depth + balance before := by
  induction cs generalizing depth with
  | nil =>
    have hend : Text.closesEarly depth [last] = false := by
      by_cases hopen : last = '('
      · rw [hopen]
        rfl
      by_cases hclose : last = ')'
      · rw [hclose, Text.closesEarly]
        simp [Text.closesEarly]
      · rw [Text.closesEarly]
        · rfl
        · exact hopen
        · exact hclose
    refine iff_of_true hend fun before hbefore => ?_
    rw [List.prefix_nil.1 hbefore, balance_nil]
    omega
  | cons c cs ih =>
    have hcons : (∀ before, before <+: c :: cs → 0 < depth + balance before) ↔
        ∀ before, before <+: cs → 0 < depth + balance [c] + balance before := by
      constructor
      · intro h before hbefore
        rw [Int.add_assoc, ← balance_cons]
        exact h (c :: before) (List.cons_prefix_cons.2 ⟨rfl, hbefore⟩)
      · intro h before hbefore
        rcases List.prefix_cons_iff.1 hbefore with rfl | ⟨before, rfl, hrest⟩
        · rw [balance_nil]
          omega
        · rw [balance_cons, ← Int.add_assoc]
          exact h before hrest
    rw [hcons, List.cons_append]
    by_cases hopen : c = '('
    · have hnext : depth + balance [c] = (depth + 1 : Nat) := by
        rw [hopen]
        rfl
      rw [hnext, hopen, Text.closesEarly, ih (Nat.succ_pos depth)]
    by_cases hclose : c = ')'
    · have hdown : balance [c] = -1 := by
        rw [hclose]
        rfl
      rw [hclose, Text.closesEarly, ← hclose]
      by_cases hone : depth = 1
      · refine iff_of_false (by simp [hone]) fun h => ?_
        have hzero := h [] List.nil_prefix
        rw [hone, hdown] at hzero
        exact absurd hzero (by decide)
      · have hnext : depth + balance [c] = (depth - 1 : Nat) := by omega
        have hstays : (depth == 1 && !(cs ++ [last]).isEmpty) = false := by simp [hone]
        rw [hstays, Bool.false_or, hnext, ih (by omega)]
    · have hsame : balance [c] = 0 := by simp [balance, hopen, hclose]
      rw [Text.closesEarly, ih hdepth, hsame, Int.add_zero]
      · exact hopen
      · exact hclose

/-- The first and the last character are removed if they belong together in the count of all
characters. -/
theorem stripParensChars_cases (cs : List Char) :
    (Encloses id cs ∧ cs = '(' :: Text.stripParensChars cs ++ [')']) ∨
      (¬Encloses id cs ∧ Text.stripParensChars cs = cs) := by
  by_cases hpair : cs.head? = some '(' ∧ cs.getLast? = some ')'
  · obtain ⟨inner, rfl⟩ := exists_inner hpair.1 hpair.2
    have hcount : Encloses id ('(' :: inner ++ [')']) ↔
        Text.closesEarly 0 ('(' :: inner ++ [')']) = false := by
      rw [encloses_iff, List.cons_append, Text.closesEarly,
        closesEarly_concat_eq_false_iff Nat.one_pos]
      refine forall₂_congr fun before _ => ?_
      rw [id, balance_cons]
      rfl
    have hstrip : Text.stripParensChars ('(' :: inner ++ [')']) =
        if Text.closesEarly 0 ('(' :: inner ++ [')']) then '(' :: inner ++ [')'] else inner := by
      rw [Text.stripParensChars, hpair.1, hpair.2]
      cases Text.closesEarly 0 ('(' :: inner ++ [')']) with
      | false => exact List.dropLast_concat
      | true => rfl
    rw [hcount, hstrip]
    cases Text.closesEarly 0 ('(' :: inner ++ [')']) with
    | false => exact .inl ⟨rfl, rfl⟩
    | true => exact .inr ⟨Bool.noConfusion, rfl⟩
  · refine .inr ⟨fun h => hpair ⟨h.first, h.last⟩, if_neg ?_⟩
    simp only [Bool.and_eq_true, beq_iff_eq]
    exact fun h => hpair h.1

/-- What stands between the first and the last parenthesis of a balanced text is balanced exactly if
these two belong together. -/
theorem balanced_inner_iff (h : Balanced (exposed .code ('(' :: inner ++ [')']))) :
    Balanced (exposed .code inner) ↔ Encloses (exposed .code) ('(' :: inner ++ [')']) := by
  have hopen (before : List Char) :
      balance (exposed .code ('(' :: before)) = 1 + balance (exposed .code before) :=
    balance_cons '(' _
  rw [balanced_exposed_iff, encloses_iff]
  constructor
  · rintro ⟨-, hnonneg⟩ before hbefore
    have hinside := hnonneg before hbefore
    rw [hopen]
    omega
  · intro hstays
    have hnonneg : ∀ before, before <+: inner → 0 ≤ balance (exposed .code before) := by
      intro before hbefore
      have hinside := hstays before hbefore
      rw [hopen] at hinside
      omega
    refine ⟨?_, hnonneg⟩
    -- The last character closes one parenthesis at most.
    have hlast (mode : Mode) : -1 ≤ balance (exposed mode [')']) := by cases mode <;> decide
    have htotal := h.total
    rw [List.cons_append, hopen, exposed_append, balance_append] at htotal
    have hinner := hnonneg inner List.prefix_rfl
    have hclose := hlast (inner.foldl Mode.next .code)
    omega

/-- A balanced text stays balanced exactly if the characters that are removed belong together. -/
theorem balanced_stripParensChars_iff (h : Balanced (exposed .code cs)) :
    Balanced (exposed .code (Text.stripParensChars cs)) ↔
      (Encloses id cs → Encloses (exposed .code) cs) := by
  rcases stripParensChars_cases cs with ⟨hall, hchars⟩ | ⟨hall, hchars⟩
  · rw [hchars] at h
    have hinner := balanced_inner_iff h
    rw [← hchars] at hinner
    rw [hinner]
    exact ⟨fun hexposed _ => hexposed, fun hexposed => hexposed hall⟩
  · rw [hchars]
    exact iff_of_true h fun henclosed => absurd henclosed hall

end Pair

/-! ## Conditions

If no constant has a parenthesis, every parenthesis is exposed and the two counts are one.  The
other direction fails, as a parenthesis in a constant often does no harm; this is why the main
result compares the counts and not the characters. -/

/-- Without parentheses in string constants both counts are the same. -/
theorem NoQuotedParens.encloses (hquoted : NoQuotedParens cs)
    (h : Encloses id (Text.trimChars cs)) : Encloses (exposed .code) (Text.trimChars cs) := by
  refine ⟨h.first, h.last, fun before hbefore hne hproper => ?_⟩
  obtain ⟨front, back, -, -, hmode, hcs⟩ := exists_quiet_trimChars cs
  obtain ⟨after, hafter⟩ := (List.mem_inits _ _).1 hbefore
  have hcount {c : Char} (hc : c = '(' ∨ c = ')') :
      (exposed .code before).count c = before.count c := by
    have hall := hquoted c hc
    rw [hcs, ← hafter] at hall
    have hbehind := (count_exposed_of_append hall).2
    rw [hmode, List.append_assoc] at hbehind
    exact (count_exposed_of_append hbehind).1
  have hstays := h.stays before hbefore hne hproper
  rwa [balance, hcount (.inl rfl), hcount (.inr rfl)]

/-- **When the parentheses around a condition may go.**  Let the parentheses of a text be balanced
outside its string constants.  The text is trimmed, and its first and last character are removed if
they are parentheses that belong together in the count of all characters.  What is left is balanced
outside its string constants exactly if they then also belong together in the count that passes over
the constants; and so it is whenever no parenthesis stands in a constant. -/
theorem stripParens_balanced_iff {code : String} (h : Balanced (exposed .code code.toList)) :
    ((Encloses id (Text.trim code).toList ∧ Text.trim code = "(" ++ Text.stripParens code ++ ")") ∨
      (¬Encloses id (Text.trim code).toList ∧ Text.stripParens code = Text.trim code)) ∧
    (Balanced (exposed .code (Text.stripParens code).toList) ↔
      (Encloses id (Text.trim code).toList → Encloses (exposed .code) (Text.trim code).toList)) ∧
    (NoQuotedParens code.toList → Balanced (exposed .code (Text.stripParens code).toList)) := by
  have htrim : (Text.trim code).toList = Text.trimChars code.toList := String.toList_ofList
  have hstrip : (Text.stripParens code).toList =
      Text.stripParensChars (Text.trimChars code.toList) := String.toList_ofList
  have hiff := balanced_stripParensChars_iff h.trimChars
  rw [hstrip, htrim]
  refine ⟨?_, hiff, fun hquoted => hiff.2 hquoted.encloses⟩
  rcases stripParensChars_cases (Text.trimChars code.toList) with ⟨hall, hchars⟩ | ⟨hall, hchars⟩
  · refine .inl ⟨hall, String.toList_inj.1 ?_⟩
    rw [String.toList_append, String.toList_append, hstrip, htrim]
    exact hchars
  · refine .inr ⟨hall, String.toList_inj.1 ?_⟩
    rw [hstrip, htrim, hchars]

/-- The parenthesis in the constant of `(mark == "(")` does no harm. -/
theorem stripParens_balanced_iff_mark :
    let code := " (mark == \"(\") "
    Balanced (exposed .code code.toList) ∧ Encloses id (Text.trim code).toList ∧
      Encloses (exposed .code) (Text.trim code).toList ∧
      Balanced (exposed .code (Text.stripParens code).toList) := by
  intro code
  have hcode : Balanced (exposed .code code.toList) := by decide +kernel
  have hexposed : Encloses (exposed .code) (Text.trim code).toList := by decide +kernel
  exact ⟨hcode, by decide +kernel, hexposed,
    (stripParens_balanced_iff hcode).2.1.2 fun _ => hexposed⟩

/-- Two groups lose a parenthesis each if the constants in them open and close one. -/
theorem stripParens_breaks_groups :
    let code := "(\"(\") + (\")\")"
    Balanced (exposed .code code.toList) ∧ Text.stripParens code = "\"(\") + (\")\"" ∧
      ¬Balanced (exposed .code (Text.stripParens code).toList) := by
  decide +kernel

end UiLowering.Target
