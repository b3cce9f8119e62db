import UiLowering.Lower.Expr
import UiLowering.Proofs.Lowered
import UiLowering.Proofs.Text.Cut

/-!
# The text of a call by the way it goes

An expression that is a call has the text that its way gives it (`exprText_of_select`).  Two of the
ways can be told from the receiver: a call on a declared text or collection goes through a shortcut
if there is one, and `size` of a capitalised path is the size of an enumeration.
-/

set_option autoImplicit false

namespace UiLowering

namespace Env

variable {env : Env} {call : Call Expr} {receiver method : String}

theorem lowerArgs_eq_map (args : List (Arg Expr)) :
    env.lowerArgs args = args.map env.codedArg := by
  induction args with
  | nil => rw [lowerArgs, List.map_nil]
  | cons arg args ih =>
    obtain ⟨name, value, byReference, byMove⟩ := arg
    rw [lowerArgs, ih, List.map_cons]
    rfl

/-- The text of an expression whose code is a text. -/
theorem exprText_of_lower {e : Expr} {text : Lowered String} (h : env.lower e = text.plain) :
    env.exprText e = text := by
  simp [exprText, coded, Coded.value, h, Lowered.plain, Code.value]

theorem exprText_call (call : Call Expr) :
    env.exprText (.call call) =
      callCode env ⟨call.name, call.args.map env.codedArg, call.line⟩ := by
  obtain ⟨name, args, line⟩ := call
  exact exprText_of_lower (by rw [lower, lowerArgs_eq_map])

theorem exprText_of_select (hsplit : splitReceiver call.name = some (receiver, method)) :
    env.exprText (.call call) =
      routeCode env ⟨call.name, call.args.map env.codedArg, call.line⟩ receiver method
        (Route.select env receiver method call.args.length) := by
  rw [exprText_call, callCode]
  simp only [hsplit, List.length_map]

/-! ## Shortcuts

The receiver of a shortcut has no dots, because only declared names have a family.  It is read like
any other name, so it gets longer by at most the two brackets and the star of a pointer. -/

theorem not_mem_of_familyOf? {family : Family} (h : env.familyOf? receiver = some family) :
    '.' ∉ receiver.toList := by
  intro hdot
  rw [familyOf?, receiverType?, if_pos (by simpa using hdot)] at h
  cases h

theorem readPath_of_not_mem (scope : Scope) {path : String} (h : '.' ∉ path.toList) :
    scope.readPath path = scope.read path := by
  have hcut : Text.cutFirst '.' path = none := by
    rw [Text.cutFirst, Option.map_eq_none_iff]
    cases hchars : Text.cutFirstChars '.' path.toList with
    | none => rfl
    | some parts =>
      obtain ⟨before, after⟩ := parts
      obtain ⟨hpath, -⟩ := Text.cutFirstChars_eq_some_iff.1 hchars
      rw [hpath] at h
      exact absurd (List.mem_append_right before List.mem_cons_self) h
  rw [Scope.readPath, hcut]

theorem length_read_le (scope : Scope) (name : String) :
    (scope.read name).length ≤ name.length + 3 := by
  rw [Scope.read]
  split
  · rw [String.length_append, String.length_append]
    have hopen : "(*".length = 2 := rfl
    have hclose : ")".length = 1 := rfl
    omega
  · omega

theorem length_readPath_le (scope : Scope) (path : String) :
    (scope.readPath path).length ≤ path.length + 3 := by
  rw [Scope.readPath]
  cases hcut : Text.cutFirst '.' path with
  | none => exact length_read_le scope path
  | some parts =>
    obtain ⟨⟨before, after⟩, hchars, rfl⟩ := Option.map_eq_some_iff.1 hcut
    obtain ⟨hpath, -⟩ := Text.cutFirstChars_eq_some_iff.1 hchars
    have hroot := length_read_le scope (String.ofList before)
    have hlength : path.length = before.length + (after.length + 1) := by
      rw [← String.length_toList, hpath, List.length_append, List.length_cons]
    simp only [Text.ofCharsPair, String.length_append, String.length_ofList] at hroot ⊢
    have hdot : ".".length = 1 := rfl
    omega

/-- A call on a declared text or collection goes through the shortcut of its method. -/
theorem select_of_familyOf? {argc : Nat} {family : Family} {shortcut : Shortcut}
    (hfamily : env.familyOf? receiver = some family)
    (hfind : Shortcut.find? family method argc = some shortcut) :
    Route.select env receiver method argc = .shortcut shortcut := by
  have hdot := not_mem_of_familyOf? hfamily
  have hvia : Route.viaShortcut? env receiver method argc = some (.shortcut shortcut) := by
    rw [Route.viaShortcut?, hfamily, Option.bind_some, hfind, Option.map_some]
  rw [Route.select, if_neg (by simp [hdot]), hvia]

theorem exprText_of_shortcut {family : Family} {shortcut : Shortcut}
    (hsplit : splitReceiver call.name = some (receiver, method))
    (hfamily : env.familyOf? receiver = some family)
    (hfind : Shortcut.find? family method call.args.length = some shortcut) :
    env.exprText (.call call) = do
      let codes ← argTexts (call.args.map env.codedArg)
      return Template.expand shortcut.template (env.scope.read receiver) codes := by
  rw [exprText_of_select hsplit, select_of_familyOf? hfamily hfind, routeCode,
    readPath_of_not_mem env.scope (not_mem_of_familyOf? hfamily)]

/-! ## Sizes of enumerations

This way is tried before all others, so it needs no knowledge of the schema. -/

theorem exprText_of_enumSize (env : Env) (call : Call Expr)
    (hsplit : splitReceiver call.name = some (receiver, "size"))
    (hargs : call.args = []) (hdot : '.' ∈ receiver.toList)
    (hupper : Text.startsUpper receiver = true) :
    env.exprText (.call call) = do
      let typeText ← env.typeText receiver
      return "static_cast<int32_t>(" ++ typeText ++ "::_COUNT)" := by
  have hselect : Route.select env receiver "size" call.args.length = .enumSize := by
    rw [Route.select, if_pos (by simp [hargs, hdot, hupper])]
  rw [exprText_of_select hsplit, hselect, routeCode]

end Env

end UiLowering
