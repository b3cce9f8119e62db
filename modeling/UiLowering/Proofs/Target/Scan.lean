import UiLowering.Proofs.Text.Identifier
import UiLowering.Text.Blank
import UiLowering.Text.Cut
import UiLowering.Text.Quoted

/-!
# Brackets and string constants in target text

A target text is read from left to right with a count of the brackets that are open, and string
constants are passed over.  `Point.next?` is one step of this reading.  It refuses a bracket that
closes nothing, and outside all brackets it refuses whatever stands in `stops`.

`Walks` says that a text leads from one point to another, so the walks of two texts compose along
`++`.  `Even` is the case that matters: a text that closes every bracket and every quote it opens.
What may not stand outside its brackets depends on what it is to be used for:

* nothing is excluded from the contents of a bracket or a block (`Even []`);
* no `;` may stand in the text of a statement before its end (`Even [';']`);
* no block may stand in it either if the statement begins with it (`Even [';', '{']`), and no
  bracket other than `[` in front of a block (`Even [';', '{', '(']`).
-/

set_option autoImplicit false

namespace UiLowering.Target

/-! ## One character

The state of the reading is a number and a mode.  A bracket is counted without regard to its shape:
this is enough to find where the contents of a bracket end. -/

/-- Where a character stands: in code, in a string constant, or there behind a backslash. -/
inductive Mode where
  | code
  | quoted
  | escaped

/-- A point between two characters: the number of open brackets, and where the next character
stands. -/
structure Point where
  depth : Nat
  mode : Mode

/-- The point before a text. -/
abbrev Point.start : Point := ⟨0, .code⟩

/-- The brackets that open. -/
def isOpening (c : Char) : Bool := c == '(' || c == '[' || c == '{'

/-- The brackets that close. -/
def isClosing (c : Char) : Bool := c == ')' || c == ']' || c == '}'

/-- The characters that have no part in the structure of a text. -/
def isQuiet (c : Char) : Bool := !(isOpening c || isClosing c || c == ';' || c == '"')

/-- The point behind a character.  A bracket that closes nothing is refused, and outside all
brackets the characters in `stops` are. -/
def Point.next? (stops : List Char) : Point → Char → Option Point
  | ⟨depth, .escaped⟩, _ => some ⟨depth, .quoted⟩
  | ⟨depth, .quoted⟩, c =>
    some ⟨depth, if c == '"' then .code else if c == '\\' then .escaped else .quoted⟩
  | ⟨0, .code⟩, c =>
    if stops.contains c then none
    else if c == '"' then some ⟨0, .quoted⟩
    else if isOpening c then some ⟨1, .code⟩
    else if isClosing c then none
    else some ⟨0, .code⟩
  | ⟨depth + 1, .code⟩, c =>
    if c == '"' then some ⟨depth + 1, .quoted⟩
    else if isOpening c then some ⟨depth + 2, .code⟩
    else if isClosing c then some ⟨depth, .code⟩
    else some ⟨depth + 1, .code⟩

variable {stops stops' : List Char} {c : Char} {d k k' : Nat} {m m' : Mode}

theorem Point.next?_weaken (hsub : stops' ⊆ stops) {p q : Point}
    (h : p.next? stops c = some q) : p.next? stops' c = some q := by
  obtain ⟨depth, mode⟩ := p
  cases mode with
  | escaped => exact h
  | quoted => exact h
  | code =>
    cases depth with
    | succ depth => exact h
    | zero =>
      simp only [Point.next?, List.contains_iff_mem] at h ⊢
      by_cases hc : c ∈ stops
      · rw [if_pos hc] at h
        cases h
      · rw [if_neg hc] at h
        rw [if_neg fun hmem => hc (hsub hmem)]
        exact h

/-- Inside brackets nothing is refused that was not refused outside. -/
theorem Point.next?_lift (h : Point.next? stops ⟨k, m⟩ c = some ⟨k', m'⟩) :
    Point.next? stops' ⟨k + (d + 1), m⟩ c = some ⟨k' + (d + 1), m'⟩ := by
  cases m with
  | escaped => simp_all [Point.next?]
  | quoted => simp_all [Point.next?]
  | code =>
    cases k with
    | zero =>
      simp only [Point.next?] at h
      rw [Nat.zero_add, Point.next?]
      split at h
      · cases h
      · grind
    | succ k =>
      simp only [Point.next?] at h
      rw [show k + 1 + (d + 1) = (k + (d + 1)) + 1 by omega, Point.next?]
      grind

/-- A step that stays inside a bracket is a step of its contents. -/
theorem Point.next?_unlift (h : Point.next? stops ⟨k + 1, m⟩ c = some ⟨k' + 1, m'⟩) :
    Point.next? [] ⟨k, m⟩ c = some ⟨k', m'⟩ := by
  cases m with
  | escaped => simp_all [Point.next?]
  | quoted => simp_all [Point.next?]
  | code =>
    simp only [Point.next?] at h
    cases k with
    | zero => simp only [Point.next?, List.contains_nil]; grind
    | succ k => rw [Point.next?]; grind

/-! ## Texts

Reading a text is a fold of steps that can fail, so walks compose and can be cut.  Two changes of
the starting point are used throughout: the stops may be fewer (`weaken`), and the whole walk may
take place inside a bracket, where nothing is stopped at (`lift`). -/

/-- A text leads from one point to another. -/
def Walks (stops : List Char) (p : Point) (cs : List Char) (q : Point) : Prop :=
  cs.foldlM (Point.next? stops) p = some q

/-- A text closes all it opens. -/
def Even (stops : List Char) (cs : List Char) : Prop := Walks stops .start cs .start

namespace Walks

variable {p q r : Point} {a b cs : List Char}

theorem nil : Walks stops p [] p := rfl

theorem trans (h₁ : Walks stops p a q) (h₂ : Walks stops q b r) : Walks stops p (a ++ b) r := by
  rw [Walks, List.foldlM_append, h₁]
  exact h₂

theorem cons_iff :
    Walks stops p (c :: cs) r ↔ ∃ q, p.next? stops c = some q ∧ Walks stops q cs r := by
  rw [Walks, List.foldlM_cons]
  exact Option.bind_eq_some_iff

theorem exists_of_append (h : Walks stops p (a ++ b) r) :
    ∃ q, Walks stops p a q ∧ Walks stops q b r := by
  rw [Walks, List.foldlM_append] at h
  exact Option.bind_eq_some_iff.1 h

/-- The walks of two target texts compose. -/
theorem text {s t : String} (h₁ : Walks stops p s.toList q) (h₂ : Walks stops q t.toList r) :
    Walks stops p (s ++ t).toList r := by
  rw [String.toList_append]
  exact h₁.trans h₂

theorem weaken (hsub : stops' ⊆ stops) (h : Walks stops p cs q) : Walks stops' p cs q := by
  induction cs generalizing p with
  | nil => exact h
  | cons c cs ih =>
    obtain ⟨p', hstep, hrest⟩ := cons_iff.1 h
    exact cons_iff.2 ⟨p', Point.next?_weaken hsub hstep, ih hrest⟩

theorem lift (h : Walks stops ⟨k, m⟩ cs ⟨k', m'⟩) :
    Walks stops' ⟨k + (d + 1), m⟩ cs ⟨k' + (d + 1), m'⟩ := by
  induction cs generalizing k m with
  | nil =>
    cases Option.some.inj h
    exact nil
  | cons c cs ih =>
    obtain ⟨⟨l, n⟩, hstep, hrest⟩ := cons_iff.1 h
    exact cons_iff.2 ⟨_, Point.next?_lift hstep, ih hrest⟩

/-- A walk out of a bracket passes the character that closes it. -/
theorem exists_closing (h : Walks stops ⟨d + 1, m⟩ cs .start) :
    ∃ body close rest, cs = body ++ close :: rest ∧ Walks [] ⟨d, m⟩ body .start ∧
      isClosing close = true ∧ Even stops rest := by
  induction cs generalizing d m with
  | nil => cases Option.some.inj h
  | cons c cs ih =>
    obtain ⟨⟨l, n⟩, hstep, hrest⟩ := cons_iff.1 h
    cases l with
    | succ l =>
      obtain ⟨body, close, rest, rfl, hbody, hclose, hafter⟩ := ih hrest
      exact ⟨c :: body, close, rest, rfl, cons_iff.2 ⟨_, Point.next?_unlift hstep, hbody⟩, hclose,
        hafter⟩
    | zero =>
      -- Only a closing bracket leads to depth zero from above.
      have hout : d = 0 ∧ m = .code ∧ n = .code ∧ isClosing c = true := by
        cases m with
        | escaped => simp [Point.next?] at hstep
        | quoted => simp [Point.next?] at hstep
        | code => simp only [Point.next?] at hstep; grind
      obtain ⟨rfl, rfl, rfl, hclose⟩ := hout
      exact ⟨[], c, cs, rfl, nil, hclose, hrest⟩

/-- Without a quote there is no way out of a string constant. -/
theorem mode_eq_code (hquote : '"' ∉ cs) (h : Walks stops ⟨k, m⟩ cs ⟨k', .code⟩) : m = .code := by
  induction cs generalizing k m with
  | nil => cases Option.some.inj h; rfl
  | cons c cs ih =>
    obtain ⟨⟨l, n⟩, hstep, hrest⟩ := cons_iff.1 h
    rw [List.mem_cons, not_or] at hquote
    have hn : n = .code := ih hquote.2 hrest
    cases m with
    | code => rfl
    | escaped => simp [Point.next?, hn] at hstep
    | quoted => simp only [Point.next?] at hstep; grind

end Walks

namespace Even

variable {a b cs : List Char}

theorem nil : Even stops [] := Walks.nil

theorem append (ha : Even stops a) (hb : Even stops b) : Even stops (a ++ b) := Walks.trans ha hb

theorem text {s t : String} (hs : Even stops s.toList) (ht : Even stops t.toList) :
    Even stops (s ++ t).toList :=
  Walks.text hs ht

theorem weaken (hsub : stops' ⊆ stops) (h : Even stops cs) : Even stops' cs := Walks.weaken hsub h

/-- Nothing is excluded from the contents of a bracket. -/
theorem body (h : Even stops cs) : Even [] cs := h.weaken (List.nil_subset stops)

/-- An even text may stand inside any bracket. -/
theorem inside (h : Even stops cs) : Walks stops' ⟨d + 1, .code⟩ cs ⟨d + 1, .code⟩ := by
  have hlift : Walks stops' ⟨0 + (d + 1), .code⟩ cs ⟨0 + (d + 1), .code⟩ := Walks.lift h
  rwa [Nat.zero_add] at hlift

theorem group {o close : Char} (ho : isOpening o = true) (hstops : o ∉ stops)
    (hclose : isClosing close = true) (h : Even [] cs) : Even stops (o :: cs ++ [close]) := by
  have hquote : o ≠ '"' := by rintro rfl; simp [isOpening] at ho
  have hquote' : close ≠ '"' := by rintro rfl; simp [isClosing] at hclose
  have hopens : isOpening close = false := by
    simp only [isClosing, Bool.or_eq_true, beq_iff_eq] at hclose
    rcases hclose with (rfl | rfl) | rfl <;> rfl
  refine Walks.trans (q := ⟨1, .code⟩) (Walks.cons_iff.2 ⟨⟨1, .code⟩, ?_, h.inside⟩)
    (Walks.cons_iff.2 ⟨.start, ?_, Walks.nil⟩)
  · simp [Point.next?, hstops, hquote, ho]
  · simp [Point.next?, hquote', hopens, hclose]

/-- What stands before an even text without quotes is even if the whole is. -/
theorem of_append (hb : Even [] b) (hquote : '"' ∉ b) (h : Even stops (a ++ b)) :
    Even stops a := by
  obtain ⟨⟨k, m⟩, ha, hafter⟩ := Walks.exists_of_append h
  obtain rfl : m = .code := hafter.mode_eq_code hquote
  cases k with
  | zero => exact ha
  | succ k =>
    have hinside : Walks stops ⟨k + 1, .code⟩ b ⟨k + 1, .code⟩ := hb.inside
    rw [Walks, hafter] at hinside
    cases hinside

theorem of_append_left (ha : Even stops a) (h : Even stops (a ++ b)) : Even stops b := by
  obtain ⟨q, ha', hb⟩ := Walks.exists_of_append h
  rw [Walks, ha] at ha'
  cases ha'
  exact hb

/-- An even text that opens a bracket goes on with its contents, the bracket that closes it, and
an even rest. -/
theorem exists_closing {o : Char} (ho : isOpening o = true) (h : Even stops (o :: cs)) :
    ∃ body close rest, cs = body ++ close :: rest ∧ Even [] body ∧ isClosing close = true ∧
      Even stops rest := by
  obtain ⟨q, hstep, hrest⟩ := Walks.cons_iff.1 h
  have hquote : o ≠ '"' := by rintro rfl; simp [isOpening] at ho
  have hq : q = ⟨1, .code⟩ := by
    simp only [Point.next?] at hstep
    grind
  rw [hq] at hrest
  exact hrest.exists_closing

end Even

/-! ## Quiet texts

Names, numbers and operators have no part in the structure.  A quiet text is even under any stops
that are themselves loud, which is what `Loud` is for. -/

/-- A text without brackets, quotes and semicolons. -/
def Quiet (cs : List Char) : Prop := ∀ c ∈ cs, isQuiet c = true

instance (cs : List Char) : Decidable (Quiet cs) :=
  List.decidableBAll (fun c => isQuiet c = true) cs

/-- None of the characters is quiet. -/
def Loud (cs : List Char) : Prop := ∀ c ∈ cs, isQuiet c = false

instance (cs : List Char) : Decidable (Loud cs) :=
  List.decidableBAll (fun c => isQuiet c = false) cs

namespace Quiet

variable {a b cs : List Char}

theorem append (ha : Quiet a) (hb : Quiet b) : Quiet (a ++ b) := by
  intro c hc
  rcases List.mem_append.1 hc with hc | hc
  · exact ha c hc
  · exact hb c hc

theorem text {s t : String} (hs : Quiet s.toList) (ht : Quiet t.toList) :
    Quiet (s ++ t).toList := by
  rw [String.toList_append]
  exact hs.append ht

theorem of_subset (h : Quiet b) (hsub : a ⊆ b) : Quiet a := fun c hc => h c (hsub hc)

theorem not_mem_of_isQuiet_eq_false (h : Quiet cs) (hc : isQuiet c = false) : c ∉ cs := by
  intro hmem
  rw [h c hmem] at hc
  cases hc

theorem even_of (h : Quiet cs) (hstops : Loud stops) : Even stops cs := by
  induction cs with
  | nil => exact Even.nil
  | cons c cs ih =>
    have hc : isQuiet c = true := h c List.mem_cons_self
    have hstop : c ∉ stops := by
      intro hmem
      rw [hstops c hmem] at hc
      cases hc
    refine Walks.cons_iff.2 ⟨.start, ?_, ih fun d hd => h d (List.mem_cons_of_mem c hd)⟩
    simp only [isQuiet, Bool.not_eq_true', Bool.or_eq_false_iff, beq_eq_false_iff_ne] at hc
    simp [Point.next?, hstop, hc]

theorem even (h : Quiet cs) : Even [';', '{', '('] cs :=
  h.even_of (by decide)

end Quiet

/-- A class of characters is quiet if none of the others belongs to it. -/
theorem isQuiet_of_class {p : Char → Bool}
    (hp : ['(', '[', '{', ')', ']', '}', ';', '"'].any p = false) (h : p c = true) :
    isQuiet c = true := by
  have hmem : c ∉ ['(', '[', '{', ')', ']', '}', ';', '"'] :=
    fun hc => List.any_eq_false.1 hp c hc h
  simp only [List.mem_cons, List.not_mem_nil, or_false, not_or] at hmem
  simp [isQuiet, isOpening, isClosing, hmem]

theorem isQuiet_of_isBlank (h : Text.isBlank c = true) : isQuiet c = true :=
  isQuiet_of_class (by decide) h

theorem quiet_of_blank {cs : List Char} (h : ∀ c ∈ cs, Text.isBlank c = true) : Quiet cs :=
  fun c hc => isQuiet_of_isBlank (h c hc)

/-! ## Trimmed, quoted and joined texts

The functions that the lowering builds texts with.  The one that needs an argument is quoting:
escaping must leave no quote open, so that the constant ends where it should. -/

/-- Blanks at either end have no part in the brackets of a text. -/
theorem Even.trimChars {cs : List Char} (h : Even stops cs)
    (hstops : Loud stops) : Even stops (Text.trimChars cs) := by
  obtain ⟨before, after, hbefore, hafter, hcs⟩ := Text.exists_trimChars cs
  have hquiet {bs : List Char} (hbs : ∀ c ∈ bs, Text.isBlank c = true) : Even stops bs :=
    (quiet_of_blank hbs).even_of hstops
  rw [hcs] at h
  refine Even.of_append (hquiet hafter).body ?_ (Even.of_append_left (hquiet hbefore) h)
  exact (quiet_of_blank hafter).not_mem_of_isQuiet_eq_false rfl

theorem walks_escapeChar (c : Char) :
    Walks stops ⟨d, .quoted⟩ (Text.escapeChar c) ⟨d, .quoted⟩ := by
  unfold Text.escapeChar
  split
  · rfl
  · rfl
  · rfl
  · rfl
  · rename_i hquote hbackslash _ _
    refine Walks.cons_iff.2 ⟨_, ?_, Walks.nil⟩
    simp only [Point.next?]
    grind

theorem walks_escape (cs : List Char) :
    Walks stops ⟨d, .quoted⟩ (cs.flatMap Text.escapeChar) ⟨d, .quoted⟩ := by
  induction cs with
  | nil => rfl
  | cons c cs ih =>
    rw [List.flatMap_cons]
    exact (walks_escapeChar c).trans ih

/-- A string constant ends at its own closing quote. -/
theorem even_quote (s : String) : Even [';', '{', '('] (Text.quote s).toList := by
  have hescape : Walks [';', '{', '('] ⟨0, .quoted⟩ (Text.escape s).toList ⟨0, .quoted⟩ := by
    rw [Text.escape, String.toList_ofList]
    exact walks_escape s.toList
  exact Walks.text (Walks.text (q := ⟨0, .quoted⟩) rfl hescape) rfl

theorem even_join {sep : String} {parts : List String} (hsep : Even stops sep.toList)
    (h : ∀ t ∈ parts, Even stops t.toList) : Even stops (Text.join sep parts).toList := by
  induction parts with
  | nil => exact Even.nil
  | cons first rest ih =>
    have hfirst := h first List.mem_cons_self
    cases rest with
    | nil => exact hfirst
    | cons second rest =>
      exact Even.text (Even.text hfirst hsep) (ih fun t ht => h t (List.mem_cons_of_mem first ht))

theorem even_concat {parts : List String} (h : ∀ t ∈ parts, Even stops t.toList) :
    Even stops (Text.concat parts).toList := by
  induction parts with
  | nil => exact Even.nil
  | cons first rest ih =>
    refine Even.text (h first List.mem_cons_self) (ih fun t ht => ?_)
    exact h t (List.mem_cons_of_mem first ht)

/-! ## Looking for an end

The readings of statements look for the first character that is refused: a bracket that closes
nothing ends the contents of a block, and a stop ends a statement.  Behind an even text that is the
character that stands there. -/

/-- The first character that is refused, and what stands behind it. -/
def seek (stops : List Char) : Point → List Char → Option (Char × List Char)
  | _, [] => none
  | p, c :: cs =>
    match p.next? stops c with
    | some q => seek stops q cs
    | none => some (c, cs)

theorem seek_append {p q : Point} {a : List Char} (h : Walks stops p a q) (b : List Char) :
    seek stops p (a ++ b) = seek stops q b := by
  induction a generalizing p with
  | nil => cases Option.some.inj h; rfl
  | cons c a ih =>
    obtain ⟨p', hstep, hrest⟩ := Walks.cons_iff.1 h
    rw [List.cons_append, seek, hstep]
    exact ih hrest

/-- Behind the contents of a bracket stands the bracket that closes it. -/
theorem seek_closing {body : List Char} (h : Even [] body) (hc : isClosing c = true)
    (rest : List Char) : seek [] .start (body ++ c :: rest) = some (c, rest) := by
  rw [seek_append h]
  simp only [isClosing, Bool.or_eq_true, beq_iff_eq] at hc
  rcases hc with (rfl | rfl) | rfl <;> rfl

/-- Behind the text of a statement stands its semicolon. -/
theorem seek_semicolon {cs : List Char} (h : Even [';'] cs) (rest : List Char) :
    seek [';'] .start (cs ++ ';' :: rest) = some (';', rest) := by
  rw [seek_append h]
  rfl

end UiLowering.Target
