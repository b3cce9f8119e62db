import Mathlib.Data.List.TakeWhile
import UiLowering.Proofs.Target.Scan

/-!
# Reading one statement of the target language

`Reads cs rest` says that one statement is read from the beginning of `cs` and `rest` is left.  A
statement is a block, a branch with or without `else`, a loop, or any other text up to the first
`;` outside brackets and string constants.  An `else` goes with the nearest branch that has none.

What is read is determined by the text (`Reads.unique`), so a text is one statement, `IsSingle`, if
only blanks are left behind the statement it begins with.  In a branch without braces a text that is
not one statement falls apart: the first statement is guarded and the others are not.

Whether an `else` behind a text belongs to it depends on how many of its branches are still open at
its end.  `Stands n t` says that `t` is one statement with `n` branches open, whatever follows, and
`Breaks t` that more is left of `t` than blanks once its first statement has been read.
-/

set_option autoImplicit false

namespace UiLowering.Target

/-! ## The grammar

The relation has one constructor for each form of statement and a side condition that tells it from
the others, so it is deterministic.  The condition on a branch without `else` looks at what is left:
no `else` may follow. -/

/-- Whether a text opens a block, a branch or a loop. -/
def isHeaded : List Char → Bool
  | '{' :: _ => true
  | 'i' :: 'f' :: ' ' :: '(' :: _ => true
  | 'f' :: 'o' :: 'r' :: ' ' :: '(' :: _ => true
  | _ => false

/-- What stands behind the word `else`, if a text goes on with it. -/
def elsePart? (cs : List Char) : Option (List Char) :=
  match cs.dropWhile Text.isBlank with
  | 'e' :: 'l' :: 's' :: 'e' :: rest =>
    if rest.head?.any Text.isAsciiWord then none else some rest
  | _ => none

/-- One statement is read from a text, and `rest` is left. -/
inductive Reads : List Char → List Char → Prop where
  | blank {c : Char} {cs rest : List Char} (hc : Text.isBlank c = true) (h : Reads cs rest) :
    Reads (c :: cs) rest
  | block {close : Char} {cs rest : List Char} (h : seek [] .start cs = some (close, rest)) :
    Reads ('{' :: cs) rest
  | loop {close : Char} {cs body rest : List Char} (hhead : seek [] .start cs = some (close, body))
    (h : Reads body rest) : Reads ('f' :: 'o' :: 'r' :: ' ' :: '(' :: cs) rest
  | branch {close : Char} {cs first rest : List Char}
    (hhead : seek [] .start cs = some (close, first)) (h : Reads first rest)
    (helse : elsePart? rest = none) : Reads ('i' :: 'f' :: ' ' :: '(' :: cs) rest
  | branchElse {close : Char} {cs first mid other rest : List Char}
    (hhead : seek [] .start cs = some (close, first)) (h : Reads first mid)
    (helse : elsePart? mid = some other) (hother : Reads other rest) :
    Reads ('i' :: 'f' :: ' ' :: '(' :: cs) rest
  | clause {c : Char} {cs rest : List Char} (hc : Text.isBlank c = false)
    (hhead : isHeaded (c :: cs) = false) (h : seek [';'] .start (c :: cs) = some (';', rest)) :
    Reads (c :: cs) rest

/-- A text is one statement: behind the statement it begins with there are only blanks. -/
def IsSingle (cs : List Char) : Prop :=
  ∃ rest, Reads cs rest ∧ ∀ c ∈ rest, Text.isBlank c = true

/-- A text determines what is read from it. -/
theorem Reads.unique {cs r₁ r₂ : List Char} (h₁ : Reads cs r₁) (h₂ : Reads cs r₂) : r₁ = r₂ := by
  induction h₁ generalizing r₂ with
  | blank hc _ ih =>
    cases h₂ with
    | blank _ h => exact ih h
    | block _ => exact absurd hc (by decide)
    | loop _ _ => exact absurd hc (by decide)
    | branch _ _ _ => exact absurd hc (by decide)
    | branchElse _ _ _ _ => exact absurd hc (by decide)
    | clause hc' _ _ => rw [hc] at hc'; cases hc'
  | block h =>
    cases h₂ with
    | blank hc _ => exact absurd hc (by decide)
    | block h' => rw [h] at h'; cases h'; rfl
    | clause _ hhead _ => cases hhead
  | loop hhead _ ih =>
    cases h₂ with
    | blank hc _ => exact absurd hc (by decide)
    | loop hhead' h' => rw [hhead] at hhead'; cases hhead'; exact ih h'
    | clause _ hhead _ => cases hhead
  | branch hhead _ helse ih =>
    cases h₂ with
    | blank hc _ => exact absurd hc (by decide)
    | branch hhead' h' _ => rw [hhead] at hhead'; cases hhead'; exact ih h'
    | branchElse hhead' h' helse' _ =>
      rw [hhead] at hhead'
      cases hhead'
      rw [← ih h', helse] at helse'
      cases helse'
    | clause _ hhead _ => cases hhead
  | branchElse hhead _ helse _ ih ihother =>
    cases h₂ with
    | blank hc _ => exact absurd hc (by decide)
    | branch hhead' h' helse' =>
      rw [hhead] at hhead'
      cases hhead'
      rw [← ih h', helse] at helse'
      cases helse'
    | branchElse hhead' h' helse' hother' =>
      rw [hhead] at hhead'
      cases hhead'
      rw [← ih h', helse] at helse'
      cases helse'
      exact ihother hother'
    | clause _ hhead _ => cases hhead
  | clause hc hhead h =>
    cases h₂ with
    | blank hc' _ => rw [hc] at hc'; cases hc'
    | block _ => cases hhead
    | loop _ _ => cases hhead
    | branch _ _ _ => cases hhead
    | branchElse _ _ _ _ => cases hhead
    | clause _ _ h' => rw [h] at h'; cases h'; rfl

/-! ## Branches left open

That a text is one statement cannot be said without regard to what follows: a branch at its end goes
on if an `else` comes next.  `Stands n` counts the branches that would, and quantifies over all
texts that may follow. -/

/-- What is left of a text when up to `n` open branches have taken the `else` parts it begins
with. -/
inductive Closes : Nat → List Char → List Char → Prop where
  | done {k : List Char} : Closes 0 k k
  | bare {n : Nat} {k : List Char} (helse : elsePart? k = none) : Closes (n + 1) k k
  | other {n : Nat} {k other mid rest : List Char} (helse : elsePart? k = some other)
    (hother : Reads other mid) (h : Closes n mid rest) : Closes (n + 1) k rest

theorem Closes.of_elsePart?_eq_none {k : List Char} (helse : elsePart? k = none) (n : Nat) :
    Closes n k k := by
  cases n with
  | zero => exact .done
  | succ n => exact .bare helse

/-- The inner branches come first. -/
theorem Closes.split {n m : Nat} {k rest : List Char} (h : Closes (n + m) k rest) :
    ∃ mid, Closes m k mid ∧ Closes n mid rest := by
  induction m generalizing k with
  | zero => exact ⟨k, .done, h⟩
  | succ m ih =>
    rw [← Nat.add_assoc] at h
    cases h with
    | bare helse => exact ⟨rest, .bare helse, .of_elsePart?_eq_none helse n⟩
    | other helse hother h =>
      obtain ⟨mid, hinner, houter⟩ := ih h
      exact ⟨mid, .other helse hother hinner, houter⟩

/-- A text is one statement with `n` open branches. -/
def Stands (n : Nat) (t : List Char) : Prop :=
  ∀ k rest, Closes n k rest → Reads (t ++ k) rest

/-- A text is more than one statement: something is left that is neither blank nor an `else`. -/
def Breaks (t : List Char) : Prop :=
  ∃ rest, (∃ c ∈ rest, Text.isBlank c = false) ∧
    ∀ k, elsePart? (rest ++ k) = none ∧ Reads (t ++ k) (rest ++ k)

variable {n m : Nat} {c close : Char} {cs t u : List Char}

theorem isSingle_of_stands (h : Stands n t) (hcs : ∀ c ∈ cs, Text.isBlank c = true) :
    IsSingle (t ++ cs) := by
  have helse : elsePart? cs = none := by
    rw [elsePart?, List.dropWhile_eq_nil_iff.2 hcs]
  exact ⟨cs, h cs cs (.of_elsePart?_eq_none helse n), hcs⟩

theorem not_isSingle_of_breaks (h : Breaks t) (cs : List Char) : ¬IsSingle (t ++ cs) := by
  obtain ⟨rest, ⟨c, hc, hblank⟩, hreads⟩ := h
  rintro ⟨rest', hreads', hblanks⟩
  rw [hreads'.unique (hreads cs).2] at hblanks
  rw [hblanks c (List.mem_append_left cs hc)] at hblank
  cases hblank

/-! ## Statements made of statements

A branch opens one more branch than the statement inside it, a block closes all, and an `else` goes
to the innermost.  A text that falls apart does so inside a branch or a loop as well. -/

theorem Stands.blank (hc : Text.isBlank c = true) (h : Stands n t) : Stands n (c :: t) :=
  fun k rest hk => .blank hc (h k rest hk)

theorem Breaks.blank (hc : Text.isBlank c = true) (h : Breaks t) : Breaks (c :: t) := by
  obtain ⟨rest, hrest, hreads⟩ := h
  exact ⟨rest, hrest, fun k => ⟨(hreads k).1, .blank hc (hreads k).2⟩⟩

/-- More text does not mend what falls apart. -/
theorem Breaks.append (h : Breaks t) (u : List Char) : Breaks (t ++ u) := by
  obtain ⟨rest, ⟨c, hc, hblank⟩, hreads⟩ := h
  refine ⟨rest ++ u, ⟨c, List.mem_append_left u hc, hblank⟩, fun k => ?_⟩
  rw [List.append_assoc, List.append_assoc]
  exact hreads (u ++ k)

/-- Two statements are not one, unless the second begins with `else`. -/
theorem Stands.breaks_append (h : Stands n t) (hu : ∃ c ∈ u, Text.isBlank c = false)
    (helse : ∀ k, elsePart? (u ++ k) = none) : Breaks (t ++ u) := by
  refine ⟨u, hu, fun k => ⟨helse k, ?_⟩⟩
  rw [List.append_assoc]
  exact h _ _ (.of_elsePart?_eq_none (helse k) n)

theorem stands_block (h : Even [] cs) (hclose : isClosing close = true) :
    Stands 0 ('{' :: cs ++ [close]) := by
  intro k rest hk
  cases hk
  rw [List.append_assoc]
  exact .block (seek_closing h hclose k)

theorem Stands.loop (hhead : Even [] cs) (hclose : isClosing close = true) (h : Stands n t) :
    Stands n ('f' :: 'o' :: 'r' :: ' ' :: '(' :: cs ++ close :: t) := by
  intro k rest hk
  rw [List.append_assoc]
  exact .loop (seek_closing hhead hclose (t ++ k)) (h k rest hk)

theorem Breaks.loop (hhead : Even [] cs) (hclose : isClosing close = true) (h : Breaks t) :
    Breaks ('f' :: 'o' :: 'r' :: ' ' :: '(' :: cs ++ close :: t) := by
  obtain ⟨rest, hrest, hreads⟩ := h
  refine ⟨rest, hrest, fun k => ⟨(hreads k).1, ?_⟩⟩
  rw [List.append_assoc]
  exact .loop (seek_closing hhead hclose (t ++ k)) (hreads k).2

theorem Stands.branch (hhead : Even [] cs) (hclose : isClosing close = true) (h : Stands n t) :
    Stands (n + 1) ('i' :: 'f' :: ' ' :: '(' :: cs ++ close :: t) := by
  intro k rest hk
  rw [List.append_assoc]
  have hseek : seek [] .start (cs ++ close :: (t ++ k)) = some (close, t ++ k) :=
    seek_closing hhead hclose (t ++ k)
  -- The branch itself is the outermost one, so it is the last to look for an `else`.
  rw [Nat.add_comm] at hk
  obtain ⟨mid, hinner, houter⟩ := hk.split
  cases houter with
  | bare helse => exact .branch hseek (h k _ hinner) helse
  | other helse hother hdone =>
    cases hdone
    exact .branchElse hseek (h k _ hinner) helse hother

theorem Breaks.branch (hhead : Even [] cs) (hclose : isClosing close = true) (h : Breaks t) :
    Breaks ('i' :: 'f' :: ' ' :: '(' :: cs ++ close :: t) := by
  obtain ⟨rest, hrest, hreads⟩ := h
  refine ⟨rest, hrest, fun k => ⟨(hreads k).1, ?_⟩⟩
  rw [List.append_assoc]
  exact .branch (seek_closing hhead hclose (t ++ k)) (hreads k).2 (hreads k).1

theorem elsePart?_else (k : List Char) :
    elsePart? (' ' :: 'e' :: 'l' :: 's' :: 'e' :: ' ' :: k) = some (' ' :: k) := rfl

/-- With an `else` behind it, the innermost open branch of a text goes on with another
statement. -/
theorem Stands.else (h : Stands (n + 1) t) (hu : Stands m u) :
    Stands (n + m) (t ++ ' ' :: 'e' :: 'l' :: 's' :: 'e' :: ' ' :: u) := by
  intro k rest hk
  obtain ⟨mid, hinner, houter⟩ := hk.split
  rw [List.append_assoc]
  exact h _ _ (.other (elsePart?_else (u ++ k)) (.blank rfl (hu k mid hinner)) houter)

theorem Breaks.else (h : Stands (n + 1) t) (hu : Breaks u) :
    Breaks (t ++ ' ' :: 'e' :: 'l' :: 's' :: 'e' :: ' ' :: u) := by
  obtain ⟨rest, hrest, hreads⟩ := hu
  refine ⟨rest, hrest, fun k => ⟨(hreads k).1, ?_⟩⟩
  rw [List.append_assoc]
  exact h _ _ (.other (elsePart?_else (u ++ k)) (.blank rfl (hreads k).2)
    (.of_elsePart?_eq_none (hreads k).1 n))

/-! ## Statements up to a semicolon

Everything else ends at its semicolon.  That a text opens nothing has to be known in front of any
continuation, since a word at its end could become a keyword. -/

/-- The texts that open a block, a branch or a loop. -/
def heads : List (List Char) := [['{'], ['i', 'f', ' ', '('], ['f', 'o', 'r', ' ', '(']]

theorem isHeaded_iff : isHeaded cs = true ↔ ∃ head ∈ heads, head <+: cs := by
  constructor
  · intro h
    unfold isHeaded at h
    split at h
    · exact ⟨['{'], by simp [heads], by simp⟩
    · exact ⟨['i', 'f', ' ', '('], by simp [heads], by simp⟩
    · exact ⟨['f', 'o', 'r', ' ', '('], by simp [heads], by simp⟩
    · cases h
  · rintro ⟨head, hhead, rest, rfl⟩
    simp only [heads, List.mem_cons, List.not_mem_nil, or_false] at hhead
    rcases hhead with rfl | rfl | rfl <;> rfl

/-- A text that opens nothing does so no more when it goes on with a character that no keyword
has. -/
theorem isHeaded_append (hne : cs ≠ []) (h : isHeaded cs = false)
    (hc : c ∉ ['f', 'o', 'r', ' ', '(']) (k : List Char) : isHeaded (cs ++ c :: k) = false := by
  rw [← Bool.not_eq_true, isHeaded_iff] at h ⊢
  rintro ⟨head, hhead, hprefix⟩
  rcases List.prefix_or_prefix_of_prefix hprefix (List.prefix_append cs (c :: k)) with hcs | hcs
  · exact h ⟨head, hhead, hcs⟩
  · obtain ⟨after, rfl⟩ := hcs
    cases after with
    | nil => exact h ⟨cs ++ [], hhead, by simp⟩
    | cons d after =>
      obtain rfl : d = c := by
        rw [List.prefix_append_right_inj] at hprefix
        exact (List.cons_prefix_cons.1 hprefix).1
      -- The character is not the first one of the head, and the others are those excluded.
      obtain ⟨first, cs, rfl⟩ := List.exists_cons_of_ne_nil hne
      simp only [heads, List.mem_cons, List.not_mem_nil, or_false, List.cons_append] at hhead
      refine hc ?_
      have hmem : d ∈ cs ++ d :: after := by simp
      rcases hhead with hhead | hhead | hhead <;> rw [(List.cons.inj hhead).2] at hmem
      · cases hmem
      · exact (show ['f', ' ', '('] ⊆ ['f', 'o', 'r', ' ', '('] by decide) hmem
      · exact (show ['o', 'r', ' ', '('] ⊆ ['f', 'o', 'r', ' ', '('] by decide) hmem

/-- A text without a brace or a parenthesis outside brackets opens nothing. -/
theorem isHeaded_of_even (h : Even [';', '{', '('] cs) : isHeaded cs = false := by
  rw [← Bool.not_eq_true, isHeaded_iff]
  rintro ⟨head, hhead, rest, rfl⟩
  obtain ⟨q, hq, -⟩ := Walks.exists_of_append h
  simp only [heads, List.mem_cons, List.not_mem_nil, or_false] at hhead
  rcases hhead with rfl | rfl | rfl <;> cases hq

theorem even_dropWhile_isBlank {stops : List Char} (hstops : Loud stops)
    (h : Even stops cs) : Even stops (cs.dropWhile Text.isBlank) := by
  have hblank : Quiet (cs.takeWhile Text.isBlank) :=
    quiet_of_blank fun c hc => List.mem_takeWhile_imp hc
  rw [← List.takeWhile_append_dropWhile (p := Text.isBlank) (l := cs)] at h
  exact Even.of_append_left (hblank.even_of hstops) h

/-- Everything up to a semicolon is one statement, if it opens nothing. -/
theorem stands_clause (h : Even [';'] cs)
    (hhead : isHeaded (cs.dropWhile Text.isBlank) = false) : Stands 0 (cs ++ [';']) := by
  induction cs with
  | nil =>
    intro k rest hk
    cases hk
    exact .clause rfl rfl rfl
  | cons c cs ih =>
    cases hc : Text.isBlank c with
    | true =>
      have hquiet : Quiet [c] := quiet_of_blank (by simpa using hc)
      rw [List.dropWhile_cons_of_pos hc] at hhead
      exact (ih (Even.of_append_left (hquiet.even_of (by decide)) h) hhead).blank hc
    | false =>
      rw [List.dropWhile_cons_of_neg (by simp [hc])] at hhead
      intro k rest hk
      cases hk
      have hseek := seek_semicolon h k
      have hhead' : isHeaded (c :: cs ++ ';' :: k) = false :=
        isHeaded_append (List.cons_ne_nil c cs) hhead (by decide) k
      rw [List.append_assoc]
      exact .clause hc hhead' hseek

end UiLowering.Target
