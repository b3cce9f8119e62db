import UiLowering.Text.Blank
import UiLowering.Text.Name

/-!
# The first name of a path is one of its identifiers

A fragment that is a name path, blanks around it aside, is read from its first name on.  The scan
for identifiers knows nothing of paths, but finds that name: it is bounded by blanks or the ends of
the fragment on one side, and by a dot, blanks or the end on the other.
-/

set_option autoImplicit false

namespace UiLowering.Text

/-! ## Characters and blanks

The classes of characters are ranges of numbers, so what belongs to two of them is a question of
arithmetic.  Trimming takes characters of one class from both ends. -/

theorem isAlpha_iff {c : Char} :
    c.isAlpha = true ↔ (65 ≤ c.toNat ∧ c.toNat ≤ 90) ∨ (97 ≤ c.toNat ∧ c.toNat ≤ 122) := by
  have hbounds : c.isAlpha = (decide (65 ≤ c.val ∧ c.val ≤ 90) ||
      decide (97 ≤ c.val) && decide (c.val ≤ 122)) := rfl
  simp only [hbounds, Bool.or_eq_true, Bool.and_eq_true, decide_eq_true_eq,
    UInt32.le_iff_toNat_le]
  exact Iff.rfl

theorem isUpper_iff {c : Char} : c.isUpper = true ↔ 65 ≤ c.toNat ∧ c.toNat ≤ 90 := by
  have hbounds : c.isUpper = decide (65 ≤ c.val ∧ c.val ≤ 90) := rfl
  rw [hbounds, decide_eq_true_eq, UInt32.le_iff_toNat_le, UInt32.le_iff_toNat_le]
  exact Iff.rfl

theorem isLower_iff {c : Char} : c.isLower = true ↔ 97 ≤ c.toNat ∧ c.toNat ≤ 122 := by
  have hbounds : c.isLower = (decide (97 ≤ c.val) && decide (c.val ≤ 122)) := rfl
  rw [hbounds, Bool.and_eq_true, decide_eq_true_eq, decide_eq_true_eq, UInt32.le_iff_toNat_le,
    UInt32.le_iff_toNat_le]
  exact Iff.rfl

theorem isDigit_iff {c : Char} : c.isDigit = true ↔ 48 ≤ c.toNat ∧ c.toNat ≤ 57 := by
  rw [Char.isDigit, Bool.and_eq_true, decide_eq_true_eq, decide_eq_true_eq, ge_iff_le,
    UInt32.le_iff_toNat_le, UInt32.le_iff_toNat_le]
  exact Iff.rfl

theorem isAsciiWord_iff {c : Char} :
    isAsciiWord c = true ↔ ((65 ≤ c.toNat ∧ c.toNat ≤ 90) ∨ (97 ≤ c.toNat ∧ c.toNat ≤ 122)) ∨
      (48 ≤ c.toNat ∧ c.toNat ≤ 57) ∨ c.toNat = 95 := by
  have hunderscore : c = '_' ↔ c.toNat = 95 :=
    ⟨fun h => h ▸ rfl, fun h => Char.ext (UInt32.toNat_inj.1 h)⟩
  rw [isAsciiWord, Char.isAlphanum, Bool.or_eq_true, Bool.or_eq_true, isAlpha_iff, isDigit_iff,
    beq_iff_eq, hunderscore, or_assoc]

theorem not_isAsciiWord_of_isBlank {c : Char} (h : isBlank c = true) : isAsciiWord c = false := by
  rw [← Bool.not_eq_true, isAsciiWord_iff]
  simp only [isBlank, Bool.or_eq_true, Bool.and_eq_true, decide_eq_true_eq, beq_iff_eq] at h
  omega

/-- A list of characters is its trimmed form between blanks. -/
theorem exists_trimChars (cs : List Char) :
    ∃ before after, (∀ c ∈ before, isBlank c = true) ∧ (∀ c ∈ after, isBlank c = true) ∧
      cs = before ++ (trimChars cs ++ after) := by
  refine ⟨cs.takeWhile isBlank, ((cs.dropWhile isBlank).reverse.takeWhile isBlank).reverse,
    fun c hc => ?_, fun c hc => ?_, ?_⟩
  · exact List.all_eq_true.1 List.all_takeWhile c hc
  · exact List.all_eq_true.1 List.all_takeWhile c (List.mem_reverse.1 hc)
  · rw [trimChars, trimEndChars, ← List.reverse_append, List.takeWhile_append_dropWhile,
      List.reverse_reverse, List.takeWhile_append_dropWhile]

theorem length_trim_le (s : String) : (trim s).length ≤ s.length := by
  obtain ⟨before, after, -, -, hs⟩ := exists_trimChars s.toList
  have hlength := congrArg List.length hs
  rw [List.length_append, List.length_append] at hlength
  rw [trim, String.length_ofList, ← String.length_toList, hlength]
  omega

/-! ## Runs of word characters

The scan collects word characters until another one comes.  So a run is found if it is bounded on
both sides, and what stands around it does not matter. -/

theorem asciiRuns_cons_of_not_word {c : Char} (cs : List Char) (h : isAsciiWord c = false) :
    asciiRuns (c :: cs) = [] :: asciiRuns cs := by
  rw [asciiRuns, h]; simp

theorem mem_asciiRuns_append {run before cs : List Char}
    (hbefore : ∀ c ∈ before, isAsciiWord c = false) (h : run ∈ asciiRuns cs) :
    run ∈ asciiRuns (before ++ cs) := by
  induction before with
  | nil => exact h
  | cons c before ih =>
    rw [List.cons_append, asciiRuns_cons_of_not_word _ (hbefore c List.mem_cons_self)]
    exact List.mem_cons_of_mem _ (ih fun d hd => hbefore d (List.mem_cons_of_mem _ hd))

/-- A run of word characters that ends with the text or before another character is found. -/
theorem mem_asciiRuns_of_word {run after : List Char} (hrun : ∀ c ∈ run, isAsciiWord c = true)
    (hafter : ∀ c ∈ after.head?, isAsciiWord c = false) : run ∈ asciiRuns (run ++ after) := by
  have hfirst : ∃ runs, asciiRuns (run ++ after) = run :: runs := by
    induction run with
    | nil =>
      cases after with
      | nil => exact ⟨[], rfl⟩
      | cons c after => exact ⟨_, asciiRuns_cons_of_not_word after (hafter c rfl)⟩
    | cons c run ih =>
      obtain ⟨runs, hruns⟩ := ih fun d hd => hrun d (List.mem_cons_of_mem _ hd)
      refine ⟨runs, ?_⟩
      rw [List.cons_append, asciiRuns, if_pos (hrun c List.mem_cons_self), hruns]
  obtain ⟨runs, hruns⟩ := hfirst
  rw [hruns]
  exact List.mem_cons_self

/-! ## Paths

`completesPath` checks a path character by character and remembers only whether a name has begun.  A
name starts with a letter, so its run is an identifier and not a number. -/

theorem isAsciiWord_of_isNameStart {c : Char} (h : isNameStart c = true) :
    isAsciiWord c = true := by
  rw [isNameStart, Bool.or_eq_true] at h
  rw [isAsciiWord, Char.isAlphanum]
  rcases h with h | h <;> simp [h]

theorem not_isDigit_of_isNameStart {c : Char} (h : isNameStart c = true) : c.isDigit = false := by
  rw [← Bool.not_eq_true]
  intro hdigit
  rw [isNameStart, Bool.or_eq_true, beq_iff_eq] at h
  rcases h with h | rfl
  · rw [isAlpha_iff] at h
    rw [isDigit_iff] at hdigit
    omega
  · cases hdigit

/-- Up to the first dot a path is a run of word characters. -/
theorem isAsciiWord_of_completesPath {cs : List Char} (h : completesPath false cs = true) :
    ∀ c ∈ cs.takeWhile (· != '.'), isAsciiWord c = true := by
  induction cs with
  | nil => simp
  | cons first cs ih =>
    by_cases hdot : first = '.'
    · simp [hdot]
    · rw [completesPath] at h
      simp only [hdot, beq_iff_eq, Bool.false_eq_true, if_false, Bool.and_eq_true] at h
      rw [List.takeWhile_cons_of_pos (by simpa using hdot)]
      intro c hc
      rcases List.mem_cons.1 hc with rfl | hc
      · exact h.1
      · exact ih h.2 c hc

/-- **The first name of an interpolated path is among the identifiers of the fragment.** -/
theorem rootOf_mem_identifiers {source : String} (h : isNamePath (trim source) = true) :
    rootOf (trim source) ∈ identifiers source := by
  obtain ⟨before, after, hbefore, hafter, hsource⟩ := exists_trimChars source.toList
  rw [isNamePath, trim, String.toList_ofList] at h
  rw [rootOf, trim, String.toList_ofList, identifiers, List.mem_filterMap]
  cases hpath : trimChars source.toList with
  | nil => rw [hpath] at h; cases h
  | cons first rest =>
    rw [hpath, completesPath] at h
    simp only [if_true, Bool.and_eq_true] at h
    have hdot : first ≠ '.' := by
      rintro rfl
      exact absurd h.1 (by decide)
    rw [List.takeWhile_cons_of_pos (by simpa using hdot)]
    refine ⟨first :: rest.takeWhile (· != '.'), ?_, ?_⟩
    · -- The run stands between blanks and whatever follows the first name.
      have hsplit : source.toList = before ++ ((first :: rest.takeWhile (· != '.')) ++
          (rest.dropWhile (· != '.') ++ after)) := by
        rw [hsource, hpath, List.cons_append, List.cons_append, ← List.append_assoc,
          List.takeWhile_append_dropWhile]
      rw [hsplit]
      refine mem_asciiRuns_append (fun c hc => not_isAsciiWord_of_isBlank (hbefore c hc)) ?_
      refine mem_asciiRuns_of_word (fun c hc => ?_) (fun c hc => ?_)
      · rcases List.mem_cons.1 hc with rfl | hc
        · exact isAsciiWord_of_isNameStart h.1
        · exact isAsciiWord_of_completesPath h.2 c hc
      · cases hrest : rest.dropWhile (· != '.') with
        | nil =>
          rw [hrest, List.nil_append] at hc
          exact not_isAsciiWord_of_isBlank (hafter c (List.mem_of_mem_head? hc))
        | cons d others =>
          rw [hrest] at hc
          obtain rfl : d = c := by simpa using hc
          have hd := List.head_dropWhile_not (· != '.') (by rw [hrest]; simp)
          simp only [hrest, List.head_cons, bne_eq_false_iff_eq] at hd
          rw [hd]; rfl
    · simp [not_isDigit_of_isNameStart h.1]

end UiLowering.Text
