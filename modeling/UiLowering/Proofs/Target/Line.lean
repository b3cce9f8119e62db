import UiLowering.Proofs.Target.Term

/-!
# Lines of target text

A statement of the source becomes one or more lines of target text.  `Settled single t` says what
such a text is: without the blanks at its end it is one statement, or it falls apart into several.
A text that stands in a branch or a loop settles the text around it: one that falls apart leaves
all but its first statement outside.
-/

set_option autoImplicit false

namespace UiLowering.Target

variable {n : Nat} {c : Char} {cs k p t u x : List Char} {single : Bool}

/-! ## Blanks at the end

Most lines end in a line break, which says nothing about statements but stands between a text and
what follows it.  So a text is taken for its trimmed form with blanks behind it. -/

/-- A list of characters is its trimmed form and some blanks. -/
theorem exists_trimEndChars (cs : List Char) :
    ∃ after, (∀ c ∈ after, Text.isBlank c = true) ∧ cs = Text.trimEndChars cs ++ after := by
  refine ⟨(cs.reverse.takeWhile Text.isBlank).reverse, fun c hc => ?_, ?_⟩
  · exact List.all_eq_true.1 List.all_takeWhile c (List.mem_reverse.1 hc)
  · rw [Text.trimEndChars, ← List.reverse_append, List.takeWhile_append_dropWhile,
      List.reverse_reverse]

theorem Even.trimEndChars {stops : List Char} (h : Even stops cs) :
    Even stops (Text.trimEndChars cs) := by
  obtain ⟨after, hafter, hcs⟩ := exists_trimEndChars cs
  have hquiet : Quiet after := quiet_of_blank hafter
  rw [hcs] at h
  exact Even.of_append hquiet.even.body (hquiet.not_mem_of_isQuiet_eq_false rfl) h

theorem trimEndChars_concat (cs : List Char) (hc : Text.isBlank c = false) :
    Text.trimEndChars (cs ++ [c]) = cs ++ [c] := by
  simp [Text.trimEndChars, hc]

theorem exists_mem_trimEndChars (h : ∃ c ∈ cs, Text.isBlank c = false) :
    ∃ c ∈ Text.trimEndChars cs, Text.isBlank c = false := by
  obtain ⟨c, hc, hblank⟩ := h
  obtain ⟨after, hafter, hcs⟩ := exists_trimEndChars cs
  rw [hcs] at hc
  rcases List.mem_append.1 hc with hc | hc
  · exact ⟨c, hc, hblank⟩
  · rw [hafter c hc] at hblank
    cases hblank

/-! ## One statement or several

`Settles` decides what `IsSingle` asks, and more: a text that falls apart does so whatever follows.
Both alternatives are kept in one definition with a Boolean, since whether a text is one statement
is computed from the source and then used in both directions. -/

/-- A text is one statement, or it falls apart. -/
def Settles : Bool → List Char → Prop
  | true, t => ∃ n, Stands n t
  | false, t => Breaks t

/-- The text of a statement: it closes its brackets, and without the blanks at its end it is one
statement, or falls apart. -/
structure Settled (single : Bool) (t : String) : Prop where
  even : Even [] t.toList
  settles : Settles single (Text.trimEndChars t.toList)

/-- No statement is read from blanks. -/
theorem Reads.exists_not_blank {rest : List Char} (h : Reads cs rest) :
    ∃ c ∈ cs, Text.isBlank c = false := by
  induction h with
  | blank _ _ ih =>
    obtain ⟨c, hc, hblank⟩ := ih
    exact ⟨c, List.mem_cons_of_mem _ hc, hblank⟩
  | block _ => exact ⟨'{', List.mem_cons_self, rfl⟩
  | loop _ _ => exact ⟨'f', List.mem_cons_self, rfl⟩
  | branch _ _ _ => exact ⟨'i', List.mem_cons_self, rfl⟩
  | branchElse _ _ _ _ => exact ⟨'i', List.mem_cons_self, rfl⟩
  | clause hc _ _ => exact ⟨_, List.mem_cons_self, hc⟩

theorem Stands.blanks (hp : ∀ c ∈ p, Text.isBlank c = true) (h : Stands n t) :
    Stands n (p ++ t) := by
  induction p with
  | nil => exact h
  | cons c p ih =>
    exact (ih fun d hd => hp d (List.mem_cons_of_mem c hd)).blank (hp c List.mem_cons_self)

theorem Settles.exists_not_blank (h : Settles single t) : ∃ c ∈ t, Text.isBlank c = false := by
  cases single with
  | true =>
    obtain ⟨n, hstands⟩ := h
    have hreads := hstands [] [] (.of_elsePart?_eq_none rfl n)
    rw [List.append_nil] at hreads
    exact hreads.exists_not_blank
  | false =>
    obtain ⟨rest, -, hreads⟩ := h
    have hreads := (hreads []).2
    rw [List.append_nil] at hreads
    exact hreads.exists_not_blank

theorem Settled.exists_not_blank {t : String} (h : Settled single t) :
    ∃ c ∈ t.toList, Text.isBlank c = false := by
  obtain ⟨c, hc, hblank⟩ := h.settles.exists_not_blank
  obtain ⟨after, -, hchars⟩ := exists_trimEndChars t.toList
  refine ⟨c, ?_, hblank⟩
  rw [hchars]
  exact List.mem_append_left after hc

/-- **What a text is said to be, it is.** -/
theorem Settled.isSingle_iff {t : String} (h : Settled single t) :
    IsSingle t.toList ↔ single = true := by
  obtain ⟨after, hafter, hchars⟩ := exists_trimEndChars t.toList
  rw [hchars]
  cases single with
  | true =>
    obtain ⟨n, hstands⟩ := h.settles
    exact iff_of_true (isSingle_of_stands hstands hafter) rfl
  | false => exact iff_of_false (not_isSingle_of_breaks h.settles after) Bool.false_ne_true

/-! ## Texts that end a line

A text up to a semicolon and a text in braces are the two shapes that the lines of leaves have.  The
lemmas take the characters that stand at both ends from the constant parts of the text. -/

theorem settled_of_chars {t : String} (cs : List Char) (hc : Text.isBlank c = false)
    (hchars : t.toList = cs ++ [c]) (heven : Even [] (cs ++ [c]))
    (h : Settles single (cs ++ [c])) : Settled single t := by
  rw [← hchars] at heven
  refine ⟨heven, ?_⟩
  rw [hchars, trimEndChars_concat cs hc]
  exact h

theorem settled_semicolon {u : String} (heven : Even [] u.toList)
    (h : Settles single (u.toList ++ [';'])) : Settled single (u ++ ";") :=
  settled_of_chars (c := ';') u.toList rfl String.toList_append (heven.append rfl) h

theorem Settled.line {t : String} (h : Settled single t) : Settled single (t ++ "\n") := by
  have hblank : ∀ c ∈ "\n".toList, Text.isBlank c = true := List.forall_mem_singleton.2 rfl
  refine ⟨h.even.text rfl, ?_⟩
  rw [String.toList_append, trimEndChars_append_of_blank hblank]
  exact h.settles

theorem settled_clause {u : String} (heven : Even [] u.toList)
    (h : Settles single (u.toList ++ [';'])) : Settled single (u ++ ";\n") := by
  rw [show ";\n" = ";" ++ "\n" from rfl, ← String.append_assoc]
  exact (settled_semicolon heven h).line

theorem settled_braced {code : String} (h : Even [] code.toList) :
    Settled true (braced code ++ "\n") := by
  have hchars : (braced code).toList = '{' :: code.toList ++ ['}'] := by
    simp only [braced, String.toList_append]
    rfl
  have hsettles : Settles true ('{' :: code.toList ++ ['}']) := ⟨0, stands_block h rfl⟩
  exact (settled_of_chars _ rfl hchars (Even.group rfl (by decide) rfl h) hsettles).line

theorem settled_block {code : String} (h : Even [] code.toList) :
    Settled true ("\x7b\n" ++ code ++ "\x7d\n") := by
  have hbraced : "\x7b\n" ++ code ++ "\x7d\n" = braced ("\n" ++ code) ++ "\n" := by
    rw [braced, show "\x7b\n" = "\x7b" ++ "\n" from rfl, show "\x7d\n" = "\x7d" ++ "\n" from rfl]
    simp only [String.append_assoc]
  rw [hbraced]
  exact settled_braced (Even.text rfl h)

/-! ## One text behind another

Two statements in a row fall apart, with one exception: if the second began with `else`, it would go
on with the first.  Its first character is mostly enough to exclude that. -/

theorem elsePart?_append_of_blank (hp : ∀ c ∈ p, Text.isBlank c = true) (cs : List Char) :
    elsePart? (p ++ cs) = elsePart? cs := by
  rw [elsePart?, List.dropWhile_append_of_pos hp, elsePart?]

theorem firstChar?_trimEndChars (h : ∃ c ∈ cs, Text.isBlank c = false) :
    firstChar? (Text.trimEndChars cs) = firstChar? cs := by
  obtain ⟨after, -, hcs⟩ := exists_trimEndChars cs
  have happend := firstChar?_append_of_not_blank (exists_mem_trimEndChars h) after
  rw [← hcs] at happend
  exact happend.symm

theorem exists_not_blank_of_firstChar? (h : firstChar? cs = some c) :
    ∃ d ∈ cs, Text.isBlank d = false := by
  rcases blank_or_not cs with hblank | hnot
  · rw [firstChar?, List.dropWhile_eq_nil_iff.2 hblank] at h
    cases h
  · exact hnot

theorem firstChar?_text {s t : String} (h : firstChar? s.toList = some c) :
    firstChar? (s ++ t).toList = some c := by
  rw [String.toList_append, firstChar?_append_of_not_blank (exists_not_blank_of_firstChar? h), h]

/-- **Two statements are not one.** -/
theorem Settled.append {t u : String} (h : Settled true t) (heven : Even [] u.toList)
    (hnot : ∃ c ∈ u.toList, Text.isBlank c = false)
    (helse : ∀ k, elsePart? (Text.trimEndChars u.toList ++ k) = none) : Settled false (t ++ u) := by
  refine ⟨h.even.text heven, ?_⟩
  obtain ⟨n, hstands⟩ := h.settles
  obtain ⟨after, hafter, hchars⟩ := exists_trimEndChars t.toList
  obtain ⟨c, hc, hblank⟩ := exists_mem_trimEndChars hnot
  rw [String.toList_append, hchars, trimEndChars_append_of_not_blank hnot, List.append_assoc]
  refine hstands.breaks_append ⟨c, List.mem_append_right after hc, hblank⟩ fun k => ?_
  rw [List.append_assoc, elsePart?_append_of_blank hafter]
  exact helse k

/-- The second statement is known by the text `p` that it begins with. -/
theorem Settled.append_of_chars {t u : String} (h : Settled true t) (heven : Even [] u.toList)
    (hchars : u.toList = p ++ cs) (hcs : ∃ c ∈ cs, Text.isBlank c = false)
    (helse : ∀ k, elsePart? (p ++ k) = none) : Settled false (t ++ u) := by
  refine h.append heven ?_ fun k => ?_
  · obtain ⟨c, hc, hblank⟩ := hcs
    rw [hchars]
    exact ⟨c, List.mem_append_right p hc, hblank⟩
  · rw [hchars, trimEndChars_append_of_not_blank hcs, List.append_assoc]
    exact helse _

theorem Settled.append_of_firstChar? {t u : String} (h : Settled true t) (heven : Even [] u.toList)
    (hfirst : firstChar? u.toList = some c) (hc : c ≠ 'e') : Settled false (t ++ u) := by
  have hnot := exists_not_blank_of_firstChar? hfirst
  refine h.append heven hnot fun k => elsePart?_of_firstChar? ?_
  rw [firstChar?_append_of_not_blank (exists_mem_trimEndChars hnot), firstChar?_trimEndChars hnot,
    hfirst]
  exact fun heq => hc (Option.some.inj heq)

/-! ## Texts around texts

A branch and a loop take over from the text inside them whether they are one statement.  With an
`else` both texts have to be single. -/

/-- A statement in a branch. -/
theorem Settles.branch (hhead : Even [] cs) (h : Settles single t) :
    Settles single ('i' :: 'f' :: ' ' :: '(' :: cs ++ ')' :: ' ' :: t) := by
  cases single with
  | true =>
    obtain ⟨n, hstands⟩ := h
    exact ⟨n + 1, (hstands.blank rfl).branch hhead rfl⟩
  | false => exact (Breaks.blank rfl h).branch hhead rfl

/-- Two statements in the branches of one. -/
theorem Settles.branchElse {other : Bool} (hhead : Even [] cs) (h : Settles single t)
    (hother : Settles other u) :
    Settles (single && other) ('i' :: 'f' :: ' ' :: '(' :: cs ++ ')' :: ' ' :: t ++
      ' ' :: 'e' :: 'l' :: 's' :: 'e' :: ' ' :: u) := by
  cases single with
  | false => exact ((Breaks.blank rfl h).branch hhead rfl).append _
  | true =>
    obtain ⟨n, hstands⟩ := h
    have hbranch : Stands (n + 1) ('i' :: 'f' :: ' ' :: '(' :: cs ++ ')' :: ' ' :: t) :=
      (hstands.blank rfl).branch hhead rfl
    cases other with
    | true =>
      obtain ⟨m, hstands'⟩ := hother
      exact ⟨n + m, hbranch.else hstands'⟩
    | false => exact Breaks.else hbranch hother

/-- A statement in a loop. -/
theorem Settles.loop (hhead : Even [] cs) (h : Settles single t) :
    Settles single ('f' :: 'o' :: 'r' :: ' ' :: '(' :: cs ++ ')' :: ' ' :: t) := by
  cases single with
  | true =>
    obtain ⟨n, hstands⟩ := h
    exact ⟨n, (hstands.blank rfl).loop hhead rfl⟩
  | false => exact (Breaks.blank rfl h).loop hhead rfl

theorem toList_branch (test first : String) : ("if (" ++ test ++ ") " ++ first).toList =
    'i' :: 'f' :: ' ' :: '(' :: test.toList ++ ')' :: ' ' :: first.toList := by
  simp only [String.toList_append, List.append_assoc]
  rfl

theorem settled_branch {test first : String} (htest : Even [] test.toList)
    (h : Settled single first) : Settled single ("if (" ++ test ++ ") " ++ first) := by
  refine ⟨?_, ?_⟩
  · exact Walks.text (Walks.text (Walks.text (q := ⟨1, .code⟩) rfl htest.inside) rfl) h.even
  · rw [toList_branch, List.append_cons, List.append_cons,
      trimEndChars_append_of_not_blank h.exists_not_blank, ← List.append_cons, ← List.append_cons]
    exact h.settles.branch htest

/-- A block behind a test. -/
theorem settled_guard (test : String) {code : String} (htest : Even [] test.toList)
    (hcode : Even [] code.toList) :
    Settled true ("if (" ++ test ++ ") \x7b\n" ++ code ++ "\x7d\n") := by
  have hsplit : "if (" ++ test ++ ") \x7b\n" ++ code ++ "\x7d\n" =
      "if (" ++ test ++ ") " ++ ("\x7b\n" ++ code ++ "\x7d\n") := by
    rw [show ") \x7b\n" = ") " ++ "\x7b\n" from rfl]
    simp only [String.append_assoc]
  rw [hsplit]
  exact settled_branch htest (settled_block hcode)

theorem settled_branchElse {other : Bool} {test first second : String} (htest : Even [] test.toList)
    (h : Settled single first) (hother : Settled other second) :
    Settled (single && other)
      (Text.trimEnd ("if (" ++ test ++ ") " ++ first) ++ " else " ++ second) := by
  have hchars : (Text.trimEnd ("if (" ++ test ++ ") " ++ first)).toList =
      'i' :: 'f' :: ' ' :: '(' :: test.toList ++ ')' :: ' ' :: Text.trimEndChars first.toList := by
    rw [Text.trimEnd, String.toList_ofList, String.toList_append,
      trimEndChars_append_of_not_blank h.exists_not_blank]
    simp only [String.toList_append, List.append_assoc]
    rfl
  refine ⟨?_, ?_⟩
  · refine Even.text (Even.text ?_ rfl) hother.even
    rw [Text.trimEnd, String.toList_ofList]
    exact (settled_branch htest h).even.trimEndChars
  · rw [String.toList_append, trimEndChars_append_of_not_blank hother.exists_not_blank,
      String.toList_append, hchars, List.append_assoc]
    exact h.settles.branchElse htest hother.settles

/-- A loop, found by the first and the last characters of its head. -/
theorem settled_loop {t body : String} {head : List Char} (hhead : Even [] head)
    (hchars : t.toList = 'f' :: 'o' :: 'r' :: ' ' :: '(' :: head ++ ')' :: ' ' :: body.toList)
    (h : Settled single body) : Settled single t := by
  refine ⟨?_, ?_⟩
  · have hgroup : Even [] ('(' :: head ++ [')']) := Even.group rfl (by decide) rfl hhead
    have hword : Even [] ['f', 'o', 'r', ' '] := rfl
    have heven := hword.append (hgroup.append (Even.append (a := [' ']) rfl h.even))
    rw [List.append_assoc] at heven
    rw [hchars]
    exact heven
  · rw [hchars, List.append_cons, List.append_cons,
      trimEndChars_append_of_not_blank h.exists_not_blank, ← List.append_cons, ← List.append_cons]
    exact h.settles.loop hhead

/-! ## Texts around terms

A statement may begin with the text of an expression, and that is the one place where a text decides
by its own shape how much is read.  `Tame` keeps it from looking like the head of a branch with its
block. -/

/-- The text of an expression and what goes on behind it is one statement, unless the text begins
with a brace: what stands there is read as a block. -/
theorem Tame.settles (h : Tame cs) (hx : IsContinuation x) :
    Settles (blockRest? cs).isNone (cs ++ x ++ [';']) := by
  rcases h.block_cases with ⟨hfirst, hrest⟩ | ⟨p, b, s, rfl, hp, hb, hs, helse, hrest⟩
  · rw [hrest]
    exact h.exists_stands hfirst hx
  · rw [hrest]
    have hassoc : p ++ '{' :: b ++ '}' :: s ++ x ++ [';'] =
        p ++ '{' :: b ++ '}' :: (s ++ (x ++ [';'])) := by simp
    rw [hassoc]
    refine breaks_of_block hp hb ⟨';', by simp, rfl⟩ ?_
    exact firstChar?_append_ne helse hx.firstChar?_ne

/-- Up to a semicolon a text is one statement if it begins with a word and goes on with a character
that no keyword has. -/
theorem settles_of_head (hp : Even [';', '{', '('] p) (hnot : ∃ d ∈ p, Text.isBlank d = false)
    (hc : c ∉ ['f', 'o', 'r', ' ', '(']) (h : Even [';'] (p ++ c :: k)) :
    Settles true (p ++ c :: k ++ [';']) := by
  refine ⟨0, stands_clause h ?_⟩
  have heven : Even [';', '{', '('] (p.dropWhile Text.isBlank) :=
    even_dropWhile_isBlank (by decide) hp
  rw [dropWhile_append_of_not_blank hnot]
  exact isHeaded_append (dropWhile_ne_nil hnot) (isHeaded_of_even heven) hc k

/-- A word that is not `else` does not become it by what stands behind it. -/
theorem elsePart?_append (hp : ∃ d ∈ p, Text.isBlank d = false) (h : elsePart? p = none)
    (hc : c ∉ ['e', 'l', 's']) (k : List Char) : elsePart? (p ++ c :: k) = none := by
  rw [elsePart?, dropWhile_append_of_not_blank hp]
  rw [elsePart?] at h
  generalize hw : p.dropWhile Text.isBlank = w at h
  have hne : w ≠ [] := hw ▸ dropWhile_ne_nil hp
  split
  · rename_i rest heq
    -- The word has at least the four letters, since the next character is none of them.
    rcases w with _ | ⟨a, _ | ⟨b, _ | ⟨d, _ | ⟨e, w⟩⟩⟩⟩
    · exact absurd rfl hne
    · simp_all
    · simp_all
    · simp_all
    · simp only [List.cons_append, List.cons.injEq] at heq
      obtain ⟨rfl, rfl, rfl, rfl, rfl⟩ := heq
      cases w with
      | nil => simp at h
      | cons f w =>
        have hword : Text.isAsciiWord f = true := by
          by_contra hword
          simp [hword] at h
        simp [hword]
  · rfl

end UiLowering.Target
