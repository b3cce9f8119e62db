import UiLowering.Proofs.Target.Line

/-!
# Which branch an `else` goes with

`TakesElse cs other` says that the branch at the beginning of `cs` has an `else` part and that
`other` stands behind the word.  An `else` behind the text of a statement belongs to the branch in
front of this text if the text is one statement and leaves no branch open.  `Seals closed t` says
whether it does, and `takesElse_iff` that nothing else matters.

The difficulty is that the target language has no mark for the end of a branch.  Whether an `else`
is the one of the branch in front depends on the whole text between them, and this text is only
known by how it was put together.  `Seals` is what has to be known of it.  It is decided for leaves
by their first word and computed for all other statements, and it is a statement for all
continuations, so that it can be used before the rest of the text is known.
-/

set_option autoImplicit false

namespace UiLowering.Target

variable {n : Nat} {c : Char} {cs k other rest t u : List Char} {closed single : Bool}

/-! ## The texts of branches and loops

The constant texts in front of a statement and between two, as lists of characters, so that the
grammar can look at them by pattern matching. -/

/-- A statement behind a test. -/
def branchText (test t : List Char) : List Char :=
  'i' :: 'f' :: ' ' :: '(' :: test ++ ')' :: ' ' :: t

/-- A statement behind the head of a loop. -/
def loopText (head t : List Char) : List Char :=
  'f' :: 'o' :: 'r' :: ' ' :: '(' :: head ++ ')' :: ' ' :: t

/-- A statement behind the word `else`. -/
def elseText (u : List Char) : List Char := ' ' :: 'e' :: 'l' :: 's' :: 'e' :: ' ' :: u

theorem branchText_append (test t k : List Char) :
    branchText test t ++ k = branchText test (t ++ k) := by
  simp [branchText]

theorem loopText_append (head t k : List Char) : loopText head t ++ k = loopText head (t ++ k) := by
  simp [loopText]

theorem even_branchText {test t : List Char} (htest : Even [] test) (h : Even [] t) :
    Even [] (branchText test t) := by
  have hgroup : Even [] ('(' :: test ++ [')']) := Even.group rfl (by decide) rfl htest
  have hword : Even [] ['i', 'f', ' '] := rfl
  have htext := hword.append (hgroup.append (Even.append (a := [' ']) rfl h))
  rwa [List.append_assoc] at htext

theorem even_loopText {head t : List Char} (hhead : Even [] head) (h : Even [] t) :
    Even [] (loopText head t) := by
  have hgroup : Even [] ('(' :: head ++ [')']) := Even.group rfl (by decide) rfl hhead
  have hword : Even [] ['f', 'o', 'r', ' '] := rfl
  have htext := hword.append (hgroup.append (Even.append (a := [' ']) rfl h))
  rwa [List.append_assoc] at htext

theorem even_elseText {u : List Char} (h : Even [] u) : Even [] (elseText u) :=
  Even.append (a := [' ', 'e', 'l', 's', 'e', ' ']) rfl h

/-! ## What is left is shorter

Reading a statement uses up some of its text.  So what is left behind an inner branch cannot be the
text of its own `else` part again, and this tells the two apart where the texts themselves are not
known. -/

theorem length_lt_of_seek {stops : List Char} {p : Point} (h : seek stops p cs = some (c, rest)) :
    rest.length < cs.length := by
  induction cs generalizing p with
  | nil => cases h
  | cons d cs ih =>
    rw [seek] at h
    split at h
    · exact Nat.lt_succ_of_lt (ih h)
    · cases h
      exact Nat.lt_succ_self _

theorem length_lt_of_elsePart? (h : elsePart? cs = some other) : other.length < cs.length := by
  have hdrop : (cs.dropWhile Text.isBlank).length ≤ cs.length :=
    (List.dropWhile_sublist _).length_le
  unfold elsePart? at h
  split at h
  · rename_i after heq
    obtain ⟨-, h⟩ := Option.ite_none_left_eq_some.1 h
    cases h
    rw [heq] at hdrop
    simp only [List.length_cons] at hdrop
    omega
  · cases h

theorem Reads.length_lt (h : Reads cs rest) : rest.length < cs.length := by
  induction h with
  | blank _ _ ih => exact Nat.lt_succ_of_lt ih
  | block h =>
    have := length_lt_of_seek h
    simp only [List.length_cons]
    omega
  | loop hhead _ ih =>
    have := length_lt_of_seek hhead
    simp only [List.length_cons]
    omega
  | branch hhead _ _ ih =>
    have := length_lt_of_seek hhead
    simp only [List.length_cons]
    omega
  | branchElse hhead _ helse _ ih ihother =>
    have := length_lt_of_seek hhead
    have := length_lt_of_elsePart? helse
    simp only [List.length_cons]
    omega
  | clause _ _ h => exact length_lt_of_seek h

theorem Closes.length_le (h : Closes n k rest) : rest.length ≤ k.length := by
  induction h with
  | done => exact Nat.le_refl _
  | bare _ => exact Nat.le_refl _
  | other helse hother _ ih =>
    have := length_lt_of_elsePart? helse
    have := hother.length_lt
    omega

/-! ## The `else` of a branch

An `else` goes with the nearest branch that has none.  So if the statement in front of it leaves `n
+ 1` branches open, the innermost of these takes it, and the branch in question gets nothing.  If
the statement falls apart, the `else` belongs to its last piece or to no branch at all. -/

/-- The branch that a text begins with has an `else` part, and `other` stands behind the word. -/
inductive TakesElse : List Char → List Char → Prop where
  | intro {close : Char} {cs first mid other : List Char}
    (hhead : seek [] .start cs = some (close, first)) (h : Reads first mid)
    (helse : elsePart? mid = some other) : TakesElse ('i' :: 'f' :: ' ' :: '(' :: cs) other

theorem TakesElse.exists_reads {test : List Char} (htest : Even [] test)
    (h : TakesElse (branchText test t) other) :
    ∃ mid, Reads (' ' :: t) mid ∧ elsePart? mid = some other := by
  have hseek : seek [] .start (test ++ ')' :: ' ' :: t) = some (')', ' ' :: t) :=
    seek_closing htest rfl _
  rw [branchText] at h
  cases h with
  | intro hhead hreads helse =>
    rw [List.append_eq, hseek] at hhead
    cases hhead
    exact ⟨_, hreads, helse⟩

theorem takesElse_of_reads {test mid : List Char} (htest : Even [] test)
    (h : Reads (' ' :: t) mid) (helse : elsePart? mid = some other) :
    TakesElse (branchText test t) other :=
  .intro (seek_closing htest rfl (' ' :: t)) h helse

/-- A branch has one `else` part at most. -/
theorem TakesElse.unique {other' : List Char} (h : TakesElse cs other) (h' : TakesElse cs other') :
    other = other' := by
  cases h with
  | intro hhead hreads helse =>
    cases h' with
    | intro hhead' hreads' helse' =>
      rw [hhead] at hhead'
      cases hhead'
      rw [hreads.unique hreads', helse'] at helse
      exact (Option.some.inj helse).symm

/-- Any number of open branches find their ends in a text. -/
def Closable (k : List Char) : Prop := ∀ n, ∃ rest, Closes n k rest

theorem closable_of_elsePart?_eq_none (h : elsePart? k = none) : Closable k :=
  fun n => ⟨k, .of_elsePart?_eq_none h n⟩

theorem Closable.else (hk : Closable k) (hu : Settles single u) :
    Closable (elseText (u ++ k)) := by
  intro n
  cases n with
  | zero => exact ⟨_, .done⟩
  | succ n =>
    cases single with
    | true =>
      obtain ⟨m, hstands⟩ := hu
      obtain ⟨rest, hrest⟩ := hk (n + m)
      obtain ⟨mid, hinner, houter⟩ := hrest.split
      exact ⟨rest, .other (elsePart?_else (u ++ k)) (.blank rfl (hstands k mid hinner)) houter⟩
    | false =>
      obtain ⟨rest, -, hreads⟩ := hu
      exact ⟨rest ++ k, .other (elsePart?_else (u ++ k)) (.blank rfl (hreads k).2)
        (.of_elsePart?_eq_none (hreads k).1 n)⟩

/-- Whether an `else` behind a text may belong to something in front of it: the text is one
statement without open branches, or it is not. -/
def Seals : Bool → List Char → Prop
  | true, t => Stands 0 t
  | false, t => Breaks t ∨ ∃ n, Stands (n + 1) t

theorem Seals.settles (h : Seals closed t) : ∃ single, Settles single t := by
  cases closed with
  | true => exact ⟨true, 0, h⟩
  | false =>
    rcases h with hbreaks | ⟨n, hstands⟩
    · exact ⟨false, hbreaks⟩
    · exact ⟨true, n + 1, hstands⟩

/-- **A branch has its own `else`** if the statement in front of it leaves no branch open, and only
then. -/
theorem takesElse_iff {test : List Char} (htest : Even [] test) (h : Seals closed t)
    (hu : Settles single u) (hk : Closable k) :
    TakesElse (branchText test (t ++ elseText (u ++ k))) (' ' :: (u ++ k)) ↔ closed = true := by
  have helse : elsePart? (elseText (u ++ k)) = some (' ' :: (u ++ k)) := elsePart?_else (u ++ k)
  cases closed with
  | true => exact iff_of_true (takesElse_of_reads htest (.blank rfl (h _ _ .done)) helse) rfl
  | false =>
    refine iff_of_false (fun htakes => ?_) Bool.false_ne_true
    obtain ⟨mid, hreads, hmid⟩ := htakes.exists_reads htest
    rcases h with ⟨rest, -, hbreaks⟩ | ⟨n, hstands⟩
    · -- the statement ends before the `else`, with something else behind it
      obtain rfl := hreads.unique (.blank rfl (hbreaks _).2)
      rw [(hbreaks _).1] at hmid
      cases hmid
    · -- an inner branch has taken the `else`, and what is left is shorter than its part
      obtain ⟨rest, hrest⟩ := hk.else hu (n + 1)
      obtain rfl := hreads.unique (.blank rfl (hstands _ _ hrest))
      have hlength := length_lt_of_elsePart? hmid
      cases hrest with
      | bare hnone =>
        rw [helse] at hnone
        cases hnone
      | other hother hreads' hcloses =>
        rw [helse] at hother
        cases hother
        have := hreads'.length_lt
        have := hcloses.length_le
        omega

/-- A branch without `else` takes none, unless what follows begins with one. -/
theorem not_takesElse {test : List Char} (htest : Even [] test) (h : Settles single t)
    (hk : elsePart? k = none) (other : List Char) :
    ¬TakesElse (branchText test (t ++ k)) other := by
  intro htakes
  obtain ⟨mid, hreads, hmid⟩ := htakes.exists_reads htest
  cases single with
  | true =>
    obtain ⟨n, hstands⟩ := h
    obtain rfl := hreads.unique (.blank rfl (hstands k k (.of_elsePart?_eq_none hk n)))
    rw [hk] at hmid
    cases hmid
  | false =>
    obtain ⟨rest, -, hbreaks⟩ := h
    obtain rfl := hreads.unique (.blank rfl (hbreaks k).2)
    rw [(hbreaks k).1] at hmid
    cases hmid

/-! ## Statements made of statements

Whether a text is closed is handed on from the statement it ends with, as the grammar has it: a loop
is as closed as its body, a branch without `else` never is. -/

theorem seals_block (h : Even [] cs) : Seals true ('{' :: cs ++ ['}']) := stands_block h rfl

theorem Seals.loop {head : List Char} (hhead : Even [] head) (h : Seals closed t) :
    Seals closed (loopText head t) := by
  cases closed with
  | true => exact (Stands.blank rfl h).loop hhead rfl
  | false =>
    rcases h with hbreaks | ⟨n, hstands⟩
    · exact Or.inl ((Breaks.blank rfl hbreaks).loop hhead rfl)
    · exact Or.inr ⟨n, (Stands.blank rfl hstands).loop hhead rfl⟩

/-- A branch without `else` is open. -/
theorem Settles.seals_branch {test : List Char} (htest : Even [] test) (h : Settles single t) :
    Seals false (branchText test t) := by
  cases single with
  | true =>
    obtain ⟨n, hstands⟩ := h
    exact Or.inr ⟨n, (hstands.blank rfl).branch htest rfl⟩
  | false => exact Or.inl ((Breaks.blank rfl h).branch htest rfl)

/-- A branch with an `else` is closed if both of its statements are. -/
theorem Seals.branchElse {test : List Char} {other : Bool} (htest : Even [] test)
    (h : Seals closed t) (hu : Seals other u) :
    Seals (closed && other) (branchText test (t ++ elseText u)) := by
  have htext : branchText test (t ++ elseText u) = branchText test t ++ elseText u := by
    rw [branchText_append]
  rw [htext]
  have hbranch {n : Nat} (hstands : Stands n t) : Stands (n + 1) (branchText test t) :=
    (hstands.blank rfl).branch htest rfl
  cases closed with
  | true =>
    cases other with
    | true => exact (hbranch h).else hu
    | false =>
      rcases hu with hbreaks | ⟨m, hstands⟩
      · exact Or.inl (Breaks.else (hbranch h) hbreaks)
      · refine Or.inr ⟨m, ?_⟩
        have helse := (hbranch h).else hstands
        rwa [Nat.zero_add] at helse
  | false =>
    rcases h with hbreaks | ⟨n, hstands⟩
    · exact Or.inl (((Breaks.blank rfl hbreaks).branch htest rfl).append _)
    · obtain ⟨single, hsettles⟩ := hu.settles
      cases single with
      | true =>
        obtain ⟨m, hother⟩ := hsettles
        refine Or.inr ⟨n + m, ?_⟩
        have helse := (hbranch hstands).else hother
        rwa [Nat.add_right_comm] at helse
      | false => exact Or.inl (Breaks.else (hbranch hstands) hsettles)

/-! ## The first word

A leaf is known by its first word only.  Blanks in front of the word are skipped, and the word has
to end inside the text, or what follows could make it longer.  That it does follows from the text
being a statement. -/

/-- The word that a text begins with. -/
def firstWord (cs : List Char) : List Char :=
  (cs.dropWhile Text.isBlank).takeWhile Text.isAsciiWord

theorem firstWord_cons_of_blank (hc : Text.isBlank c = true) :
    firstWord (c :: cs) = firstWord cs := by
  rw [firstWord, List.dropWhile_cons_of_pos hc, firstWord]

theorem firstWord_of_firstChar? (h : firstChar? cs = some c) (hc : Text.isAsciiWord c = false) :
    firstWord cs = [] := by
  rw [firstChar?] at h
  obtain ⟨rest, hrest⟩ := List.head?_eq_some_iff.1 h
  rw [firstWord, hrest, List.takeWhile_cons_of_neg (Bool.not_eq_true _ ▸ hc)]

theorem seek_append_of_eq_some {stops : List Char} {p : Point}
    (h : seek stops p cs = some (c, rest)) (k : List Char) :
    seek stops p (cs ++ k) = some (c, rest ++ k) := by
  induction cs generalizing p with
  | nil => cases h
  | cons d cs ih =>
    rw [List.cons_append]
    rw [seek] at h ⊢
    split at h
    · exact ih h
    · cases h
      rfl

theorem mem_of_seek {stops : List Char} {p : Point} (h : seek stops p cs = some (c, rest)) :
    c ∈ cs := by
  induction cs generalizing p with
  | nil => cases h
  | cons d cs ih =>
    rw [seek] at h
    split at h
    · exact List.mem_cons_of_mem d (ih h)
    · cases h
      exact List.mem_cons_self

/-- A text with a semicolon that opens nothing does so no more when it goes on. -/
theorem isHeaded_append_of_mem (h : isHeaded cs = false) (hmem : ';' ∈ cs) (k : List Char) :
    isHeaded (cs ++ k) = false := by
  rw [← Bool.not_eq_true, isHeaded_iff] at h ⊢
  rintro ⟨head, hhead, hprefix⟩
  rcases List.prefix_or_prefix_of_prefix hprefix (List.prefix_append cs k) with hcs | hcs
  · exact h ⟨head, hhead, hcs⟩
  · have hsemicolon : ';' ∈ head := hcs.subset hmem
    simp only [heads, List.mem_cons, List.not_mem_nil, or_false] at hhead
    rcases hhead with rfl | rfl | rfl <;> revert hsemicolon <;> decide

/-- What is read from a text does not depend on what follows, unless it begins with a branch or a
loop. -/
theorem Reads.append (h : Reads cs rest) (hbranch : firstWord cs ≠ ['i', 'f'])
    (hloop : firstWord cs ≠ ['f', 'o', 'r']) (k : List Char) : Reads (cs ++ k) (rest ++ k) := by
  induction h with
  | blank hc _ ih =>
    rw [firstWord_cons_of_blank hc] at hbranch hloop
    exact .blank hc (ih hbranch hloop)
  | block h => exact .block (seek_append_of_eq_some h k)
  | loop _ _ _ => exact absurd rfl hloop
  | branch _ _ _ _ => exact absurd rfl hbranch
  | branchElse _ _ _ _ _ _ => exact absurd rfl hbranch
  | clause hc hhead h =>
    exact .clause hc (isHeaded_append_of_mem hhead (mem_of_seek h) k) (seek_append_of_eq_some h k)

/-- One statement that begins with no branch and no loop leaves no branch open. -/
theorem stands_zero_of_firstWord (h : Settles true t) (hbranch : firstWord t ≠ ['i', 'f'])
    (hloop : firstWord t ≠ ['f', 'o', 'r']) : Stands 0 t := by
  obtain ⟨n, hstands⟩ := h
  have hreads : Reads t [] := by
    have hempty := hstands [] [] (.of_elsePart?_eq_none rfl n)
    rwa [List.append_nil] at hempty
  intro k rest hk
  cases hk
  exact hreads.append hbranch hloop k

/-- A statement is more than blanks and a word. -/
theorem Reads.exists_mark (h : Reads cs rest) :
    ∃ c ∈ cs, Text.isBlank c = false ∧ Text.isAsciiWord c = false := by
  induction h with
  | blank _ _ ih =>
    obtain ⟨c, hc, hmark⟩ := ih
    exact ⟨c, List.mem_cons_of_mem _ hc, hmark⟩
  | block _ => exact ⟨'{', List.mem_cons_self, rfl, rfl⟩
  | loop _ _ _ => exact ⟨'(', by simp, rfl, rfl⟩
  | branch _ _ _ _ => exact ⟨'(', by simp, rfl, rfl⟩
  | branchElse _ _ _ _ _ _ => exact ⟨'(', by simp, rfl, rfl⟩
  | clause _ _ h => exact ⟨';', mem_of_seek h, rfl, rfl⟩

theorem Settles.exists_mark (h : Settles single t) :
    ∃ c ∈ t, Text.isBlank c = false ∧ Text.isAsciiWord c = false := by
  cases single with
  | true =>
    obtain ⟨n, hstands⟩ := h
    have hreads := hstands [] [] (.of_elsePart?_eq_none rfl n)
    rw [List.append_nil] at hreads
    exact hreads.exists_mark
  | false =>
    obtain ⟨rest, -, hreads⟩ := h
    have hreads := (hreads []).2
    rw [List.append_nil] at hreads
    exact hreads.exists_mark

theorem firstWord_append (h : ∃ c ∈ cs, Text.isBlank c = false ∧ Text.isAsciiWord c = false)
    (k : List Char) : firstWord (cs ++ k) = firstWord cs := by
  obtain ⟨c, hc, hblank, hword⟩ := h
  have hmem : c ∈ cs.dropWhile Text.isBlank := by
    rw [← List.takeWhile_append_dropWhile (p := Text.isBlank) (l := cs)] at hc
    rcases List.mem_append.1 hc with hc | hc
    · rw [List.mem_takeWhile_imp hc] at hblank
      cases hblank
    · exact hc
  rw [firstWord, dropWhile_append_of_not_blank ⟨c, hc, hblank⟩, List.takeWhile_append, if_neg,
    firstWord]
  intro hlength
  have hall := List.takeWhile_eq_self_iff.1
    ((List.takeWhile_prefix Text.isAsciiWord).eq_of_length hlength) c hmem
  rw [hword] at hall
  cases hall

theorem firstWord_of_elsePart? (h : elsePart? cs = some other) :
    firstWord cs = ['e', 'l', 's', 'e'] := by
  unfold elsePart? at h
  rw [firstWord]
  split at h
  · rename_i rest heq
    obtain ⟨hhead, -⟩ := Option.ite_none_left_eq_some.1 h
    rw [heq]
    have hrest : rest.takeWhile Text.isAsciiWord = [] := by
      cases rest with
      | nil => rfl
      | cons d rest => exact List.takeWhile_cons_of_neg (by simpa using hhead)
    change 'e' :: 'l' :: 's' :: 'e' :: rest.takeWhile Text.isAsciiWord = _
    rw [hrest]
  · cases h

/-- A statement that does not begin with the word `else` is not taken for one. -/
theorem Settles.elsePart?_append (h : Settles single t)
    (hword : firstWord t ≠ ['e', 'l', 's', 'e']) (k : List Char) : elsePart? (t ++ k) = none := by
  cases helse : elsePart? (t ++ k) with
  | none => rfl
  | some other =>
    refine absurd (firstWord_of_elsePart? helse) ?_
    rwa [firstWord_append h.exists_mark]

end UiLowering.Target
