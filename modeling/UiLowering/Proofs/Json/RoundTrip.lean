import UiLowering.Json.Parser
import UiLowering.Json.Printer

/-!
# JSON text that was written is read back

A value is written as a text, the text is cut into tokens, and the tokens are put together to a
value.  `tokensOf` are the tokens in between: `scans_render` says that the text of a value is cut
into them, and `foldlM_tokensOf` that the value is put together from them.  Numbers are left out:
which of their texts are read as the same number is another question.

The text is read in two passes, into tokens and from tokens into a value, and the proof has the same
two halves.  What meets in the middle is the list of tokens of a value, `tokensOf`, which is defined
by recursion on the value and mentions no text.  Both halves are stated for a value in front of
arbitrary further input, which is what the inductions over lists of values and of entries need.
-/

set_option autoImplicit false

namespace UiLowering.Json

/-! ## Values without numbers

A number has several texts, and the one that is written for a double is chosen elsewhere.
Everything else has exactly one text, up to the white space that is never written. -/

mutual

/-- Whether a value holds no number, and nothing that could not be read. -/
def isPlain : Json → Bool
  | .int _ | .real _ | .unreadable => false
  | .null | .bool _ | .str _ => true
  | .arr values => allPlain values
  | .obj entries => entriesPlain entries

/-- Whether several values are plain. -/
def allPlain : List Json → Bool
  | [] => true
  | value :: values => value.isPlain && allPlain values

/-- Whether the values of several entries are plain. -/
def entriesPlain : List (String × Json) → Bool
  | [] => true
  | (_, value) :: entries => value.isPlain && entriesPlain entries

end

/-! ## The tokens of a value

The tokens are computed from the value and not from its text.  That makes them the meeting point of
the two halves of the proof. -/

/-- Lists of tokens, each with a comma in front. -/
def commaTokens (parts : List (List Token)) : List Token :=
  parts.flatMap fun part => .mark ',' :: part

/-- Lists of tokens with a comma between each two. -/
def joinTokens : List (List Token) → List Token
  | [] => []
  | part :: parts => part ++ commaTokens parts

mutual

/-- The tokens of a plain value. -/
def tokensOf : Json → List Token
  | .bool true => [.word ['t', 'r', 'u', 'e']]
  | .bool false => [.word ['f', 'a', 'l', 's', 'e']]
  | .str value => [.text (some value)]
  | .arr values => .mark '[' :: joinTokens (listTokens values) ++ [.mark ']']
  | .obj entries => .mark '{' :: joinTokens (entryTokens entries) ++ [.mark '}']
  | _ => [.word ['n', 'u', 'l', 'l']]

/-- The tokens of each of several values. -/
def listTokens : List Json → List (List Token)
  | [] => []
  | value :: values => value.tokensOf :: listTokens values

/-- The tokens of each of several entries. -/
def entryTokens : List (String × Json) → List (List Token)
  | [] => []
  | (key, value) :: entries =>
    (.text (some key) :: .mark ':' :: value.tokensOf) :: entryTokens entries

end

theorem joinTokens_singleton (part : List Token) : joinTokens [part] = part :=
  List.append_nil part

/-! ## Strings

A string is escaped character by character and read back by a machine that keeps a draft of the
string.  One escaped character takes the machine from a draft to the draft with that character
behind it. -/

theorem Draft.push_toNat (chars : List Char) (c : Char) :
    Draft.push ⟨some chars, none⟩ c.toNat = ⟨some (c :: chars), none⟩ := by
  have hvalid : c.toNat < 0xD800 ∨ 0xDFFF < c.toNat := by
    rcases c.valid with h | h
    · exact Or.inl h
    · exact Or.inr h.1
  have hhigh : isHighHalf c.toNat = false := by
    simp only [isHighHalf, Bool.and_eq_false_iff, decide_eq_false_iff_not]
    omega
  have hlow : isLowHalf c.toNat = false := by
    simp only [isLowHalf, Bool.and_eq_false_iff, decide_eq_false_iff_not]
    omega
  simp [Draft.push, hhigh, hlow]

theorem hexValue?_hexDigit : ∀ n < 16, hexValue? (hexDigit n) = some n := by decide

/-- The letter behind a backslash is read as the character that it stands for. -/
theorem escaped?_of_shortEscape? {c letter : Char} (h : shortEscape? c = some letter) :
    letter ≠ 'u' ∧ Scan.escaped? letter = some c := by
  unfold shortEscape? at h
  split at h <;> cases h <;> exact ⟨by decide, rfl⟩

/-- One character of a string is read back. -/
theorem foldlM_escapeChar (c : Char) (chars : List Char) (found : List Token) :
    (escapeChar c).foldlM Scan.step (.inText ⟨some chars, none⟩, found) =
      some (.inText ⟨some (c :: chars), none⟩, found) := by
  cases hshort : shortEscape? c with
  | some letter =>
    obtain ⟨hletter, hescaped⟩ := escaped?_of_shortEscape? hshort
    rw [escapeChar, hshort]
    simp [Scan.step, hletter, hescaped, Draft.push_toNat]
  | none =>
    have hquote : c ≠ '"' := by
      rintro rfl
      cases hshort
    have hslash : c ≠ '\\' := by
      rintro rfl
      cases hshort
    by_cases hcontrol : c.toNat < 0x20
    · -- The last two of the four digits are the character, the first two are zero.
      have hhigh := hexValue?_hexDigit (c.toNat / 16) (by omega)
      have hlow := hexValue?_hexDigit (c.toNat % 16) (by omega)
      have hzero : hexValue? '0' = some 0 := rfl
      have hvalue : 16 * (c.toNat / 16) + c.toNat % 16 = c.toNat := by omega
      simp only [escapeChar, hshort, if_pos hcontrol]
      simp [Scan.step, hzero, hhigh, hlow, hvalue, Draft.push_toNat]
    · simp only [escapeChar, hshort, if_neg hcontrol]
      simp [Scan.step, hquote, hslash, hcontrol, Draft.push_toNat]

theorem foldlM_escape (cs chars : List Char) (found : List Token) :
    (cs.flatMap escapeChar).foldlM Scan.step (.inText ⟨some chars, none⟩, found) =
      some (.inText ⟨some (cs.reverse ++ chars), none⟩, found) := by
  induction cs generalizing chars with
  | nil => rfl
  | cons c cs ih =>
    rw [List.flatMap_cons, List.foldlM_append, foldlM_escapeChar]
    change (cs.flatMap escapeChar).foldlM Scan.step (.inText ⟨some (c :: chars), none⟩, found) = _
    rw [ih, List.reverse_cons, List.append_assoc]
    rfl

/-! ## From text to tokens

The scan holds the word it is reading.  A text is cut into its tokens in any context that does not
go on with a word, and texts with marks between them may be put behind each other. -/

/-- The word at the end, if there is one, counted as a token. -/
def Scan.closed : Scan × List Token → Scan × List Token
  | (.inWord seen, found) => (.between, .word seen.reverse :: found)
  | state => state

theorem Scan.step_of_closed {state : Scan × List Token} {found : List Token}
    (h : Scan.closed state = (.between, found)) {c : Char} (hc : isWordChar c = false) :
    Scan.step state c = Scan.step (.between, found) c := by
  obtain ⟨scan, seen⟩ := state
  cases scan with
  | between => rw [show found = seen from (Prod.mk.inj h).2.symm]
  | inWord word =>
    obtain rfl : Token.word word.reverse :: seen = found := (Prod.mk.inj h).2
    simp [Scan.step, hc]
  | inText draft => cases (Prod.mk.inj h).1
  | escape draft => cases (Prod.mk.inj h).1
  | code draft left value => cases (Prod.mk.inj h).1

/-- A text is cut into the given tokens, wherever it stands between tokens. -/
def Scans (cs : List Char) (ts : List Token) : Prop :=
  ∀ found, ∃ state, cs.foldlM Scan.step (.between, found) = some state ∧
    Scan.closed state = (.between, ts.reverse ++ found)

theorem scans_nil : Scans [] [] := fun _ => ⟨_, rfl, rfl⟩

/-- A text may be followed by one that does not go on with a word. -/
theorem Scans.append {a b : List Char} {ts us : List Token} (ha : Scans a ts) (hb : Scans b us)
    (hhead : ∀ c ∈ b.head?, isWordChar c = false) : Scans (a ++ b) (ts ++ us) := by
  intro found
  obtain ⟨state, hstate, hclosed⟩ := ha found
  obtain ⟨last, hlast, hend⟩ := hb (ts.reverse ++ found)
  rw [List.reverse_append, List.append_assoc, List.foldlM_append, hstate]
  cases b with
  | nil =>
    obtain rfl : (Scan.between, ts.reverse ++ found) = last := Option.some.inj hlast
    exact ⟨state, rfl, hclosed.trans hend⟩
  | cons c b =>
    refine ⟨last, ?_, hend⟩
    rw [← hlast, List.foldlM_cons, ← Scan.step_of_closed hclosed (hhead c rfl)]
    rfl

theorem Scans.mark {c : Char} (h : isMark c = true) {cs : List Char} {ts : List Token}
    (hcs : Scans cs ts) : Scans (c :: cs) (.mark c :: ts) := by
  intro found
  have hspace : isSpace c = false := by
    simp only [isMark, Bool.or_eq_true, beq_iff_eq] at h
    rcases h with ((((rfl | rfl) | rfl) | rfl) | rfl) | rfl <;> rfl
  have hstep : Scan.step (.between, found) c = some (.between, .mark c :: found) := by
    simp [Scan.step, Scan.start, hspace, h]
  obtain ⟨state, hstate, hclosed⟩ := hcs (.mark c :: found)
  refine ⟨state, ?_, ?_⟩
  · rw [List.foldlM_cons, hstep]
    exact hstate
  · rw [hclosed, List.reverse_cons, List.append_assoc]
    rfl

/-- A text in brackets. -/
theorem Scans.enclosed {o close : Char} (ho : isMark o = true) (hclose : isMark close = true)
    (hword : isWordChar close = false) {cs : List Char} {ts : List Token} (h : Scans cs ts) :
    Scans (o :: cs ++ [close]) (.mark o :: ts ++ [.mark close]) := by
  refine (h.append (scans_nil.mark hclose) ?_).mark ho
  rintro c hc
  cases hc
  exact hword

theorem scans_renderText (value : String) :
    Scans (renderText value).toList [.text (some value)] := by
  have hchars : (renderText value).toList = '"' :: value.toList.flatMap escapeChar ++ ['"'] := by
    simp only [renderText, String.toList_append, String.toList_ofList]
    rfl
  intro found
  refine ⟨(.between, .text (some value) :: found), ?_, rfl⟩
  rw [hchars, List.foldlM_append, List.foldlM_cons]
  change ((value.toList.flatMap escapeChar).foldlM Scan.step (.inText ⟨some [], none⟩, found)) >>=
    (fun state => ['"'].foldlM Scan.step state) = _
  rw [foldlM_escape, List.append_nil]
  change some (Scan.between,
    Token.text (some (String.ofList value.toList.reverse.reverse)) :: found) = _
  rw [List.reverse_reverse, String.ofList_toList]

/-- Texts with commas between them. -/
theorem Scans.comma {part rest : String} {ts us : List Token} (hpart : Scans part.toList ts)
    (hrest : Scans rest.toList us) :
    Scans (part ++ "," ++ rest).toList (ts ++ .mark ',' :: us) := by
  have hchars : (part ++ "," ++ rest).toList = part.toList ++ ',' :: rest.toList := by
    simp only [String.toList_append, List.append_assoc]
    rfl
  rw [hchars]
  refine hpart.append (hrest.mark rfl) ?_
  rintro c hc
  cases hc
  rfl

/-- An entry of an object. -/
theorem scans_entry (key : String) {text : String} {ts : List Token} (h : Scans text.toList ts) :
    Scans (renderText key ++ ":" ++ text).toList (.text (some key) :: .mark ':' :: ts) := by
  have hchars : (renderText key ++ ":" ++ text).toList =
      (renderText key).toList ++ ':' :: text.toList := by
    simp only [String.toList_append, List.append_assoc]
    rfl
  rw [hchars]
  refine (scans_renderText key).append (h.mark rfl) ?_
  rintro c hc
  cases hc
  rfl

mutual

/-- **The text of a plain value is cut into its tokens.** -/
theorem scans_render : (value : Json) → value.isPlain = true →
    Scans value.render.toList value.tokensOf
  | .null, _ => fun found => ⟨(.inWord ['l', 'l', 'u', 'n'], found), rfl, rfl⟩
  | .bool true, _ => fun found => ⟨(.inWord ['e', 'u', 'r', 't'], found), rfl, rfl⟩
  | .bool false, _ => fun found => ⟨(.inWord ['e', 's', 'l', 'a', 'f'], found), rfl, rfl⟩
  | .str value, _ => by
    rw [render, tokensOf]
    exact scans_renderText value
  | .arr values, h => by
    rw [isPlain] at h
    have hchars : (render (.arr values)).toList =
        '[' :: (Text.join "," (renderList values)).toList ++ [']'] := by
      simp only [render, String.toList_append]
      rfl
    rw [hchars, tokensOf]
    exact (scans_renderList values h).enclosed rfl rfl rfl
  | .obj entries, h => by
    rw [isPlain] at h
    have hchars : (render (.obj entries)).toList =
        '{' :: (Text.join "," (renderEntries entries)).toList ++ ['}'] := by
      simp only [render, String.toList_append]
      rfl
    rw [hchars, tokensOf]
    exact (scans_renderEntries entries h).enclosed rfl rfl rfl
  | .int _, h => by simp [isPlain] at h
  | .real _, h => by simp [isPlain] at h
  | .unreadable, h => by simp [isPlain] at h

theorem scans_renderList : (values : List Json) → allPlain values = true →
    Scans (Text.join "," (renderList values)).toList (joinTokens (listTokens values))
  | [], _ => scans_nil
  | [value], h => by
    rw [allPlain, Bool.and_eq_true] at h
    rw [listTokens, listTokens, joinTokens_singleton]
    exact scans_render value h.1
  | value :: next :: values, h => by
    rw [allPlain, Bool.and_eq_true] at h
    exact (scans_render value h.1).comma (scans_renderList (next :: values) h.2)

theorem scans_renderEntries : (entries : List (String × Json)) → entriesPlain entries = true →
    Scans (Text.join "," (renderEntries entries)).toList (joinTokens (entryTokens entries))
  | [], _ => scans_nil
  | [(key, value)], h => by
    rw [entriesPlain, Bool.and_eq_true] at h
    rw [entryTokens, entryTokens, joinTokens_singleton]
    exact scans_entry key (scans_render value h.1)
  | (key, value) :: next :: entries, h => by
    rw [entriesPlain, Bool.and_eq_true] at h
    exact (scans_entry key (scans_render value h.1)).comma
      (scans_renderEntries (next :: entries) h.2)

end

/-! ## From tokens to a value

The tokens are folded over a stack of open arrays and objects.  What is carried along is which
values of the innermost one have been read, so there is one statement for the values behind the
first and one for the entries. -/

namespace Parse

/-- An array or object is complete, if it lies not too deep. -/
theorem close_eq {stack : List Frame} (h : stack.length < maxDepth) (value : Json) :
    close value stack = .after value stack := by
  have hdrop : stack.drop (maxDepth - 1) = [] := List.drop_eq_nil_of_le (by omega)
  rw [close, hdrop]
  rfl

/-- Entries that have been read, in the form in which they are kept. -/
def kept (entries : List (String × Json)) : Entries :=
  (entries.map fun entry => (some entry.1, entry.2)).reverse

theorem kept_concat (entries : List (String × Json)) (key : String) (value : Json) :
    kept (entries ++ [(key, value)]) = (some key, value) :: kept entries := by
  simp [kept]

theorem ofEntries_kept (entries : List (String × Json)) :
    ofEntries (kept entries) = .obj entries := by
  have hpure : entries.mapM (fun entry => some (entry.1, entry.2)) = some entries :=
    List.mapM_pure.trans (congrArg some (List.map_id' entries))
  rw [ofEntries, kept, List.reverse_reverse, List.mapM_map]
  simp [Function.comp_def, hpure]

end Parse

/-- The first value of an array is read like any other. -/
theorem foldlM_firstValue {value : Json} (hvalue : value.isPlain = true) (ts : List Token)
    (stack : List Frame) :
    (value.tokensOf ++ ts).foldlM Parse.step (.firstValue stack) =
      (value.tokensOf ++ ts).foldlM Parse.step (.value (.list [] :: stack)) := by
  cases value with
  | null => rfl
  | bool value => cases value <;> rfl
  | str value => rfl
  | arr values => rw [tokensOf]; rfl
  | obj entries => rw [tokensOf]; rfl
  | int value => simp [isPlain] at hvalue
  | real value => simp [isPlain] at hvalue
  | unreadable => simp [isPlain] at hvalue

mutual

/-- **A plain value is put together from its tokens.** -/
theorem foldlM_tokensOf : (value : Json) → value.isPlain = true → (stack : List Frame) →
    value.depth + stack.length ≤ maxDepth →
      value.tokensOf.foldlM Parse.step (.value stack) = some (.after value stack)
  | .null, _, _, _ => rfl
  | .bool true, _, _, _ => rfl
  | .bool false, _, _, _ => rfl
  | .str _, _, _, _ => rfl
  | .arr [], _, stack, hdepth => by
    rw [depth] at hdepth
    rw [← Parse.close_eq (by omega) (.arr [])]
    rfl
  | .arr (value :: values), h, stack, hdepth => by
    rw [isPlain, allPlain, Bool.and_eq_true] at h
    rw [depth, depthList] at hdepth
    have hvalue := foldlM_tokensOf value h.1 (.list [] :: stack) (by rw [List.length_cons]; omega)
    have hvalues := foldlM_commaValues values h.2 value [] stack (by omega) (by omega)
    have hfirst := foldlM_firstValue h.1 (commaTokens (listTokens values) ++ [Token.mark ']']) stack
    rw [tokensOf, listTokens, joinTokens, List.cons_append, List.append_assoc]
    change (value.tokensOf ++ (commaTokens (listTokens values) ++ [Token.mark ']'])).foldlM
      Parse.step (.firstValue stack) = _
    rw [hfirst, List.foldlM_append, hvalue]
    exact hvalues
  | .obj [], _, stack, hdepth => by
    rw [depth] at hdepth
    rw [← Parse.close_eq (by omega) (.obj [])]
    rfl
  | .obj ((key, value) :: entries), h, stack, hdepth => by
    rw [isPlain, entriesPlain, Bool.and_eq_true] at h
    rw [depth, depthEntries] at hdepth
    have hvalue := foldlM_tokensOf value h.1 (.object [] (some key) :: stack)
      (by rw [List.length_cons]; omega)
    have hentries := foldlM_commaEntries entries h.2 key value [] stack (by omega) (by omega)
    rw [tokensOf, entryTokens, joinTokens, List.cons_append, List.append_assoc]
    change (value.tokensOf ++ (commaTokens (entryTokens entries) ++ [Token.mark '}'])).foldlM
      Parse.step (.value (.object [] (some key) :: stack)) = _
    rw [List.foldlM_append, hvalue]
    exact hentries
  | .int _, h, _, _ => by simp [isPlain] at h
  | .real _, h, _, _ => by simp [isPlain] at h
  | .unreadable, h, _, _ => by simp [isPlain] at h

/-- The values of an array behind the first one; `done` are those that have been read. -/
theorem foldlM_commaValues : (values : List Json) → allPlain values = true → (value : Json) →
    (done : List Json) → (stack : List Frame) → stack.length < maxDepth →
      depthList values + 1 + stack.length ≤ maxDepth →
      (commaTokens (listTokens values) ++ [Token.mark ']']).foldlM Parse.step
          (.after value (.list done :: stack)) =
        some (.after (.arr (done.reverse ++ value :: values)) stack)
  | [], _, value, done, stack, hstack, _ => by
    rw [← Parse.close_eq hstack (.arr (done.reverse ++ [value])), ← List.reverse_cons]
    rfl
  | next :: values, h, value, done, stack, hstack, hdepth => by
    rw [allPlain, Bool.and_eq_true] at h
    rw [depthList] at hdepth
    have hnext := foldlM_tokensOf next h.1 (.list (value :: done) :: stack)
      (by rw [List.length_cons]; omega)
    have hvalues := foldlM_commaValues values h.2 next (value :: done) stack hstack (by omega)
    rw [listTokens, commaTokens, List.flatMap_cons, List.cons_append, List.cons_append,
      List.append_assoc]
    change (next.tokensOf ++ (commaTokens (listTokens values) ++ [Token.mark ']'])).foldlM
      Parse.step (.value (.list (value :: done) :: stack)) = _
    rw [List.foldlM_append, hnext]
    refine hvalues.trans ?_
    rw [List.reverse_cons, List.append_assoc]
    rfl

/-- The entries of an object behind the first one. -/
theorem foldlM_commaEntries : (entries : List (String × Json)) → entriesPlain entries = true →
    (key : String) → (value : Json) → (done : List (String × Json)) → (stack : List Frame) →
      stack.length < maxDepth → depthEntries entries + 1 + stack.length ≤ maxDepth →
      (commaTokens (entryTokens entries) ++ [Token.mark '}']).foldlM Parse.step
          (.after value (.object (Parse.kept done) (some key) :: stack)) =
        some (.after (.obj (done ++ (key, value) :: entries)) stack)
  | [], _, key, value, done, stack, hstack, _ => by
    rw [← Parse.close_eq hstack (.obj (done ++ [(key, value)])), ← Parse.ofEntries_kept,
      Parse.kept_concat]
    rfl
  | (nextKey, next) :: entries, h, key, value, done, stack, hstack, hdepth => by
    rw [entriesPlain, Bool.and_eq_true] at h
    rw [depthEntries] at hdepth
    have hnext := foldlM_tokensOf next h.1
      (.object (Parse.kept (done ++ [(key, value)])) (some nextKey) :: stack)
      (by rw [List.length_cons]; omega)
    have hentries := foldlM_commaEntries entries h.2 nextKey next (done ++ [(key, value)]) stack
      hstack (by omega)
    rw [entryTokens, commaTokens, List.flatMap_cons, List.cons_append, List.cons_append,
      List.append_assoc]
    rw [Parse.kept_concat] at hnext hentries
    change (next.tokensOf ++ (commaTokens (entryTokens entries) ++ [Token.mark '}'])).foldlM
      Parse.step
      (.value (.object ((some key, value) :: Parse.kept done) (some nextKey) :: stack)) = _
    rw [List.foldlM_append, hnext]
    refine hentries.trans ?_
    rw [List.append_assoc]
    rfl

end

/-- **A plain value is read back from its text**, if it is not nested too deep. -/
theorem parse_render {value : Json} (h : value.isPlain = true) (hdepth : value.depth ≤ maxDepth) :
    parse value.render = some value := by
  obtain ⟨state, hstate, hclosed⟩ := scans_render value h []
  have hfinish : Scan.finish state = some value.tokensOf := by
    obtain ⟨scan, found⟩ := state
    cases scan with
    | between =>
      obtain rfl : found = value.tokensOf.reverse ++ [] := (Prod.mk.inj hclosed).2
      simp [Scan.finish]
    | inWord seen =>
      have hfound : Token.word seen.reverse :: found = value.tokensOf.reverse ++ [] :=
        (Prod.mk.inj hclosed).2
      rw [Scan.finish, hfound]
      simp
    | inText draft => cases (Prod.mk.inj hclosed).1
    | escape draft => cases (Prod.mk.inj hclosed).1
    | code draft left n => cases (Prod.mk.inj hclosed).1
  have htokens : tokens value.render = some value.tokensOf := by
    rw [tokens, hstate]
    exact hfinish
  have hvalue : value.tokensOf.foldlM Parse.step (.value []) = some (.after value []) :=
    foldlM_tokensOf value h [] (by simpa using hdepth)
  rw [parse, htokens]
  change (value.tokensOf.foldlM Parse.step (.value [])).bind Parse.finish = _
  rw [hvalue]
  rfl

end UiLowering.Json
