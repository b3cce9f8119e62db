import UiLowering.Proofs.Source.Pieces

/-!
# Other expressions in the holes of a literal

`mapHoles` goes through a raw literal and puts another source text into each of its holes.  The rest
of the literal stays as it is, character by character, so the pieces of the new literal are those of
the old one with the new sources in their holes (`ofChars_mapHoles`).
-/

set_option autoImplicit false

namespace UiLowering

namespace Piece

/-- A piece with another expression, if it is one. -/
def mapHole (f : List Char → List Char) : Piece → Piece
  | .text content => .text content
  | .hole source => .hole (f source)

mutual

/-- A raw literal with `f` applied to what stands between the braces of each hole. -/
def mapHoles (f : List Char → List Char) : List Char → List Char
  | [] => []
  | '\\' :: '{' :: rest => '\\' :: '{' :: mapHoles f rest
  | '\\' :: '}' :: rest => '\\' :: '}' :: mapHoles f rest
  | '{' :: rest =>
    if rest.contains '}' then '{' :: (f (rest.takeWhile (· != '}')) ++ mapAfterHole f rest)
    else '{' :: mapHoles f rest
  | c :: rest => c :: mapHoles f rest

/-- The rest of a raw literal from the brace that closes a hole on. -/
def mapAfterHole (f : List Char → List Char) : List Char → List Char
  | [] => []
  | '}' :: rest => '}' :: mapHoles f rest
  | _ :: rest => mapAfterHole f rest

end

/-! ## Each form of a raw literal

What `mapHoles` does to a literal is told form by form, as the pieces of a literal are. -/

section Forms

variable (f : List Char → List Char)

attribute [local simp] mapHoles mapAfterHole

theorem mapHoles_escaped {c : Char} (h : c = '{' ∨ c = '}') (rest : List Char) :
    mapHoles f ('\\' :: c :: rest) = '\\' :: c :: mapHoles f rest := by
  rcases h with rfl | rfl <;> simp

theorem mapAfterHole_append {inner : List Char} (h : '}' ∉ inner) (after : List Char) :
    mapAfterHole f (inner ++ '}' :: after) = '}' :: mapHoles f after := by
  induction inner with
  | nil => simp
  | cons c inner ih =>
    simp [(List.ne_of_not_mem_cons h).symm, ih (List.not_mem_of_not_mem_cons h)]

theorem mapHoles_closed {inner : List Char} (h : '}' ∉ inner) (after : List Char) :
    mapHoles f ('{' :: (inner ++ '}' :: after)) = '{' :: (f inner ++ '}' :: mapHoles f after) := by
  simp [Text.takeWhile_ne_append h, mapAfterHole_append f h]

theorem mapHoles_unclosed {rest : List Char} (h : '}' ∉ rest) :
    mapHoles f ('{' :: rest) = '{' :: mapHoles f rest := by
  simp [h]

theorem mapHoles_ordinary {c : Char} {rest : List Char} (h : IsOrdinary c rest) :
    mapHoles f (c :: rest) = c :: mapHoles f rest := by
  rw [mapHoles]
  · rintro tail rfl rfl
    exact (h.2 rfl '{' rfl).1 rfl
  · rintro tail rfl rfl
    exact (h.2 rfl '}' rfl).2 rfl
  · exact h.1

end Forms

/-! ## The pieces of the new literal

A new source must not close a brace and must not be blank where the old one was not; then the two
literals have their holes at the same places. -/

section Pieces

variable {f g : List Char → List Char}

theorem head?_mapHoles (cs : List Char) : (mapHoles f cs).head? = cs.head? := by
  induction cs using rawInduction with
  | nil => rw [mapHoles]
  | escaped c rest hc _ => rw [mapHoles_escaped f hc]; rfl
  | closed inner after hinner _ => rw [mapHoles_closed f hinner]; rfl
  | unclosed rest hrest _ => rw [mapHoles_unclosed f hrest]; rfl
  | ordinary c rest hc _ => rw [mapHoles_ordinary f hc]; rfl

/-- Where no brace closes there are no holes. -/
theorem mapHoles_of_not_mem {cs : List Char} (h : '}' ∉ cs) : mapHoles f cs = cs := by
  induction cs using rawInduction with
  | nil => rw [mapHoles]
  | escaped c rest hc ih =>
    rw [mapHoles_escaped f hc, ih fun hmem => h (by simp [hmem])]
  | closed inner after hinner _ => exact absurd (by simp) h
  | unclosed rest hrest ih => rw [mapHoles_unclosed f hrest, ih hrest]
  | ordinary c rest hc ih =>
    rw [mapHoles_ordinary f hc, ih fun hmem => h (List.mem_cons_of_mem c hmem)]

theorem map_pushText (c : Char) (pieces : List Piece) :
    (pushText c pieces).map (mapHole g) = pushText c (pieces.map (mapHole g)) := by
  cases pieces with
  | nil => rfl
  | cons piece pieces => cases piece <;> rfl

/-- **Only the sources in the holes change.**  `f` does to the text between the braces what `g` does
to the source in the hole, and neither closes a brace nor makes a hole empty. -/
theorem ofChars_mapHoles (hbrace : ∀ cs, '}' ∉ cs → '}' ∉ f cs)
    (htrim : ∀ cs, Text.trimChars (f cs) = g (Text.trimChars cs))
    (hempty : ∀ cs, (g cs).isEmpty = cs.isEmpty) (cs : List Char) :
    ofChars (mapHoles f cs) = (ofChars cs).map (mapHole g) := by
  induction cs using rawInduction with
  | nil => rw [mapHoles, ofChars, List.map_nil]
  | escaped c rest hc ih =>
    rw [mapHoles_escaped f hc, ofChars_escaped hc, ofChars_escaped hc, ih, map_pushText]
  | closed inner after hinner ih =>
    rw [mapHoles_closed f hinner, ofChars_closed (hbrace inner hinner), ofChars_closed hinner,
      htrim, hempty, ih]
    split
    · rw [map_pushText, map_pushText]
    · rfl
  | unclosed rest hrest ih =>
    rw [mapHoles_unclosed f hrest, ofChars_unclosed hrest, map_pushText, ← ih,
      mapHoles_of_not_mem hrest, ofChars_unclosed hrest]
  | ordinary c rest hc ih =>
    -- The character behind an ordinary one is the same in both literals.
    have hc' : IsOrdinary c (mapHoles f rest) :=
      ⟨hc.1, fun hslash => by rw [head?_mapHoles]; exact hc.2 hslash⟩
    rw [mapHoles_ordinary f hc, ofChars_ordinary hc', ofChars_ordinary hc, ih, map_pushText]

/-- What is put into the holes decides the new literal. -/
theorem mapHoles_congr {cs : List Char}
    (hempty : ∀ inner, (Text.trimChars inner).isEmpty = true → f inner = g inner)
    (hhole : ∀ inner, .hole (Text.trimChars inner) ∈ ofChars cs → f inner = g inner) :
    mapHoles f cs = mapHoles g cs := by
  induction cs using rawInduction with
  | nil => rw [mapHoles, mapHoles]
  | escaped c rest hc ih =>
    rw [ofChars_escaped hc] at hhole
    rw [mapHoles_escaped f hc, mapHoles_escaped g hc,
      ih fun inner hmem => hhole inner ((hole_mem_pushText c _).2 hmem)]
  | closed inner after hinner ih =>
    rw [ofChars_closed hinner] at hhole
    rw [mapHoles_closed f hinner, mapHoles_closed g hinner]
    by_cases hblank : (Text.trimChars inner).isEmpty = true
    · rw [if_pos hblank] at hhole
      rw [hempty inner hblank, ih fun other hmem =>
        hhole other ((hole_mem_pushText '{' _).2 ((hole_mem_pushText '}' _).2 hmem))]
    · rw [if_neg hblank] at hhole
      rw [hhole inner List.mem_cons_self, ih fun other hmem =>
        hhole other (List.mem_cons_of_mem _ hmem)]
  | unclosed rest hrest ih =>
    rw [ofChars_unclosed hrest] at hhole
    rw [mapHoles_unclosed f hrest, mapHoles_unclosed g hrest,
      ih fun inner hmem => hhole inner ((hole_mem_pushText '{' _).2 hmem)]
  | ordinary c rest hc ih =>
    rw [ofChars_ordinary hc] at hhole
    rw [mapHoles_ordinary f hc, mapHoles_ordinary g hc,
      ih fun inner hmem => hhole inner ((hole_mem_pushText c _).2 hmem)]

end Pieces

end Piece

end UiLowering
