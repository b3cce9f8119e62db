import Mathlib.Data.Set.Card
import UiLowering.Lower.Expr
import UiLowering.Proofs.Lowered
import UiLowering.Proofs.Text.Join
import UiLowering.Proofs.Wire.Built

/-!
# The operands of a text chain

A sum is a text chain if it bears the mark, and in a tree that was built or read it bears the mark
if the leftmost operand that is reached through sums is a string literal.  Both operands of a chain
may be chains again, so that a chain is a binary tree of chains with other expressions at its
leaves, and `Expr.chainParts` lists the leaves from left to right.

The inner nodes of the tree are told by the ways that lead to them (`ChainAt`), without reference to
the list of leaves.  What a chain stands for is told by a `TextReading`: any reading of expressions
as texts under which a chain is its two operands put together.
-/

set_option autoImplicit false

namespace UiLowering

namespace Expr

/-! ## Which sums are chains

The mark of a sum was set from the mark of its left operand, which was set in the same way.  So it
tells what stands at the left end of a tree of sums, at any depth.  The lemmas on parts and ways
below go by the marks alone and need not know how they were set. -/

/-- The leftmost operand that is reached through sums. -/
def leftmost : Expr → Expr
  | .binary left op right chain =>
    if op == "+" then left.leftmost else .binary left op right chain
  | e => e

/-- A built expression is a text exactly if its leftmost operand is a string literal. -/
theorem IsBuilt.isText_iff {e : Expr} (h : e.IsBuilt) :
    e.isText = true ↔ ∃ raw, e.leftmost = .str raw := by
  fun_induction leftmost e with
  | case1 left op right chain hop ih =>
    have hmark : chain = (op == "+" && left.isText) := h.bearsMark
    rw [isText, hmark, hop, Bool.true_and, ih (h.of_mem_parts (by simp [parts]))]
  | case2 left op right chain hop =>
    have hmark : chain = (op == "+" && left.isText) := h.bearsMark
    simp [isText, hmark, hop]
  | case3 e hother =>
    cases e with
    | binary left op right chain => exact absurd rfl (hother left op right chain)
    | _ => simp [isText]

/-- A sum in a built expression is marked exactly if its leftmost operand is a string literal. -/
theorem IsBuilt.mark_iff {e left right : Expr} {chain : Bool} (h : e.IsBuilt)
    (hsum : .binary left "+" right chain ∈ e.nodes) :
    chain = true ↔ ∃ raw, left.leftmost = .str raw := by
  have hmark : chain = ("+" == "+" && left.isText) := h _ hsum
  have hleft : left.IsBuilt := fun node hnode =>
    h node (mem_nodes_trans hsum (mem_nodes_iff.2 (.inr ⟨left, by simp [parts], hnode⟩)))
  rw [← hleft.isText_iff, hmark, beq_self_eq_true, Bool.true_and]

theorem isText_of_isChain {e : Expr} (h : e.isChain = true) : e.isText = true := by
  cases e <;> simp_all [isText, isChain]

/-- An expression is a chain of two operands, or no chain. -/
@[elab_as_elim]
theorem chainInduction {motive : Expr → Prop}
    (sum : ∀ left op right, motive left → motive right → motive (.binary left op right true))
    (single : ∀ e : Expr, e.isChain = false → motive e) (e : Expr) : motive e := by
  fun_induction chainParts e with
  | case1 left op right ihleft ihright => exact sum left op right ihleft ihright
  | case2 left op right chain hchain => exact single _ (Bool.eq_false_iff.2 hchain)
  | case3 e hother =>
    refine single e ?_
    cases e with
    | binary left op right chain => exact absurd rfl (hother left op right chain)
    | _ => rfl

theorem chainParts_sum (left : Expr) (op : String) (right : Expr) :
    (Expr.binary left op right true).chainParts = left.chainParts ++ right.chainParts := by
  rw [chainParts, if_pos rfl]

theorem chainParts_single {e : Expr} (h : e.isChain = false) : e.chainParts = [e] := by
  cases e <;> simp_all [chainParts, isChain]

/-! ## The leaves

Flattening stops at what is no chain.  That a chain starts with a literal needs its mark to have
been set from its left end. -/

theorem isChain_of_mem_chainParts (e : Expr) : ∀ part ∈ e.chainParts, part.isChain = false := by
  induction e using chainInduction with
  | sum left op right ihleft ihright =>
    rw [chainParts_sum]
    exact List.forall_mem_append.2 ⟨ihleft, ihright⟩
  | single e h =>
    rw [chainParts_single h]
    exact List.forall_mem_singleton.2 h

theorem IsBuilt.exists_str_of_isText {e : Expr} (hbuilt : e.IsBuilt) (h : e.isText = true) :
    ∃ raw rest, e.chainParts = .str raw :: rest := by
  induction e using chainInduction with
  | sum left op right ihleft ihright =>
    have hmark : true = (op == "+" && left.isText) := hbuilt.bearsMark
    have htext : left.isText = true := (Bool.and_eq_true_iff.1 hmark.symm).2
    obtain ⟨raw, rest, hleft⟩ := ihleft (hbuilt.of_mem_parts (by simp [parts])) htext
    exact ⟨raw, rest ++ right.chainParts, by rw [chainParts_sum, hleft, List.cons_append]⟩
  | single e hsingle =>
    rw [chainParts_single hsingle]
    cases e <;> simp_all [isText, isChain]

/-! ## The inner nodes

A chain is told from the others in its tree by the turns on the way to it.  The ways are counted as
a set, so that the number of chains does not come from the traversal it is compared with. -/

/-- The two operands of a sum. -/
inductive Side where
  | left
  | right

/-- A way from an expression through chains to a chain. -/
inductive ChainAt : Expr → List Side → Prop where
  | here {left right : Expr} {op : String} : ChainAt (.binary left op right true) []
  | left {left right : Expr} {op : String} {path : List Side} : ChainAt left path →
      ChainAt (.binary left op right true) (.left :: path)
  | right {left right : Expr} {op : String} {path : List Side} : ChainAt right path →
      ChainAt (.binary left op right true) (.right :: path)

/-- The chains that are reached through chains. -/
def chainPaths (e : Expr) : Set (List Side) := {path | e.ChainAt path}

theorem chainPaths_sum (left : Expr) (op : String) (right : Expr) :
    (Expr.binary left op right true).chainPaths =
      insert [] ((Side.left :: ·) '' left.chainPaths ∪ (Side.right :: ·) '' right.chainPaths) := by
  ext path
  constructor
  · intro h
    cases h with
    | here => exact Or.inl rfl
    | left h => exact Or.inr (Or.inl ⟨_, h, rfl⟩)
    | right h => exact Or.inr (Or.inr ⟨_, h, rfl⟩)
  · rintro (rfl | ⟨path, h, rfl⟩ | ⟨path, h, rfl⟩)
    · exact .here
    · exact .left h
    · exact .right h

theorem chainPaths_single {e : Expr} (h : e.isChain = false) : e.chainPaths = ∅ := by
  ext path
  refine iff_of_false (fun hpath => ?_) (Set.notMem_empty path)
  cases hpath <;> simp_all [isChain]

theorem finite_chainPaths (e : Expr) : e.chainPaths.Finite := by
  induction e using chainInduction with
  | sum left op right ihleft ihright =>
    rw [chainPaths_sum]
    exact ((ihleft.image _).union (ihright.image _)).insert []
  | single e h =>
    rw [chainPaths_single h]
    exact Set.finite_empty

/-- A binary tree has one leaf more than inner nodes. -/
theorem length_chainParts (e : Expr) : e.chainParts.length = e.chainPaths.ncard + 1 := by
  induction e using chainInduction with
  | sum left op right ihleft ihright =>
    have hdisjoint : Disjoint ((Side.left :: ·) '' left.chainPaths)
        ((Side.right :: ·) '' right.chainPaths) := by
      rw [Set.disjoint_left]
      rintro _ ⟨path, -, rfl⟩ ⟨other, -, h⟩
      cases h
    have hroot :
        [] ∉ (Side.left :: ·) '' left.chainPaths ∪ (Side.right :: ·) '' right.chainPaths := by
      rintro (⟨path, -, h⟩ | ⟨path, -, h⟩) <;> cases h
    have hleft := left.finite_chainPaths.image (Side.left :: ·)
    have hright := right.finite_chainPaths.image (Side.right :: ·)
    rw [chainPaths_sum, Set.ncard_insert_of_notMem hroot (hleft.union hright),
      Set.ncard_union_eq hdisjoint hleft hright, Set.ncard_image_of_injective _ List.cons_injective,
      Set.ncard_image_of_injective _ List.cons_injective, chainParts_sum,
      List.length_append, ihleft, ihright]
    omega
  | single e h => rw [chainParts_single h, chainPaths_single h, Set.ncard_empty]; rfl

end Expr

/-! ## What a chain stands for

Any values may be given to the expressions that are no chains.  They determine the value of every
chain, and flattening keeps it. -/

/-- A reading of expressions as texts under which a chain is its operands put together. -/
structure TextReading where
  read : Expr → String
  read_sum : ∀ (left : Expr) (op : String) (right : Expr),
    read (.binary left op right true) = read left ++ read right

namespace TextReading

/-- The value of a chain is that of its parts put together. -/
theorem read_eq_concat (reading : TextReading) (e : Expr) :
    reading.read e = Text.concat (e.chainParts.map reading.read) := by
  induction e using Expr.chainInduction with
  | sum left op right ihleft ihright =>
    rw [reading.read_sum, Expr.chainParts_sum, List.map_append, Text.concat_append, ihleft, ihright]
  | single e h => rw [Expr.chainParts_single h, List.map_singleton, Text.concat_singleton]

/-- A reading of expressions that are no chains, extended to chains. -/
def extend (base : Expr → String) : TextReading where
  read e := Text.concat (e.chainParts.map base)
  read_sum left op right := by
    rw [Expr.chainParts_sum, List.map_append, Text.concat_append]

theorem read_extend (base : Expr → String) {e : Expr} (h : e.isChain = false) :
    (extend base).read e = base e := by
  change Text.concat (e.chainParts.map base) = base e
  rw [Expr.chainParts_single h, List.map_singleton, Text.concat_singleton]

end TextReading

/-! ## What is appended for a chain

The lowering walks the tree and not the list of its parts; the two agree. -/

namespace Env

/-- What a chain appends to the buffer is what its operands append, one after the other. -/
theorem appendsText_sum (env : Env) (left : Expr) (op : String) (right : Expr) :
    env.appendsText (.binary left op right true) = do
      let first ← env.appendsText left
      let second ← env.appendsText right
      return first ++ second := by
  have hlower : env.lower (.binary left op right true) = do
      let first ← env.appendsText left
      let second ← env.appendsText right
      return .chain (first ++ second) := by
    rw [lower, binaryCode, if_pos rfl]
    rfl
  rw [appendsText, coded, Coded.appends, hlower]
  simp only [bind_assoc, pure_bind, Code.appends]

/-- An expression appends what its parts append, in their order. -/
theorem result_appendsText_eq_ok_iff {env : Env} (e : Expr) {text : String} :
    (env.appendsText e).result = .ok text ↔
      ∃ texts, e.chainParts.map (fun part => (env.appendsText part).result) = texts.map .ok ∧
        text = Text.concat texts := by
  induction e using Expr.chainInduction generalizing text with
  | sum left op right ihleft ihright =>
    rw [appendsText_sum, Expr.chainParts_sum, List.map_append]
    simp only [Lowered.result_bind_eq_ok_iff, ihleft, ihright]
    constructor
    · rintro ⟨_, ⟨first, hfirst, rfl⟩, _, ⟨second, hsecond, rfl⟩, hreturn⟩
      cases hreturn
      exact ⟨first ++ second, by rw [hfirst, hsecond, List.map_append], by rw [Text.concat_append]⟩
    · rintro ⟨texts, htexts, rfl⟩
      obtain ⟨first, second, rfl, hfirst, hsecond⟩ := List.map_eq_append_iff.1 htexts.symm
      refine ⟨_, ⟨first, hfirst.symm, rfl⟩, _, ⟨second, hsecond.symm, rfl⟩, ?_⟩
      rw [Text.concat_append]
      rfl
  | single e h =>
    rw [Expr.chainParts_single h, List.map_singleton]
    constructor
    · intro htext
      exact ⟨[text], by rw [htext, List.map_singleton], by rw [Text.concat_singleton]⟩
    · rintro ⟨texts, htexts, rfl⟩
      obtain ⟨one, rfl, hone⟩ := List.map_eq_singleton_iff.1 htexts.symm
      rw [← hone, Text.concat_singleton]

end Env

/-- **Chains and their parts**, in an expression that was built or read.  A sum, wherever it stands,
is marked as a chain exactly if its leftmost operand is a string literal.  Every reading of the
other expressions as texts extends to chains, and the text of an expression is that of its parts put
together.  No part is a chain, the first part of a chain is a string literal, and there is one part
more than chains that are reached through chains.  A chain appends what its two operands append, and
so what its parts append, in their order. -/
theorem chain_flattens (e : Expr) (h : e.IsBuilt ∨ ∃ json, Expr.ofJson? json = some e) :
    (∀ left right chain, .binary left "+" right chain ∈ e.nodes →
      ((Expr.binary left "+" right chain).isChain = true ↔ ∃ raw, left.leftmost = .str raw)) ∧
    (∀ base : Expr → String, ∃ reading : TextReading,
      ∀ part : Expr, part.isChain = false → reading.read part = base part) ∧
    (∀ reading : TextReading, reading.read e = Text.concat (e.chainParts.map reading.read)) ∧
    (∀ part ∈ e.chainParts, part.isChain = false) ∧
    (e.isChain = true → ∃ raw rest, e.chainParts = .str raw :: rest) ∧
    e.chainParts.length = e.chainPaths.ncard + 1 ∧
    (∀ (env : Env) (left right : Expr) (op : String) (first second : String),
      e = .binary left op right true →
      (env.appendsText left).result = .ok first → (env.appendsText right).result = .ok second →
      (env.appendsText e).result = .ok (first ++ second)) ∧
    ∀ (env : Env) (text : String), (env.appendsText e).result = .ok text ↔
      ∃ texts, e.chainParts.map (fun part => (env.appendsText part).result) = texts.map .ok ∧
        text = Text.concat texts := by
  have hbuilt : e.IsBuilt := h.elim id fun ⟨_, hread⟩ => Expr.isBuilt_of_ofJson? hread
  refine ⟨fun left right chain => hbuilt.mark_iff, fun base => ⟨.extend base, ?_⟩,
    fun reading => reading.read_eq_concat e, e.isChain_of_mem_chainParts, fun hchain => ?_,
    e.length_chainParts, ?_, fun env text => Env.result_appendsText_eq_ok_iff e⟩
  · exact fun part => TextReading.read_extend base
  · exact hbuilt.exists_str_of_isText (Expr.isText_of_isChain hchain)
  · rintro env left right op first second rfl hfirst hsecond
    rw [env.appendsText_sum]
    exact Lowered.result_bind_eq_ok_iff.2
      ⟨first, hfirst, Lowered.result_bind_eq_ok_iff.2 ⟨second, hsecond, rfl⟩⟩

/-- The sum `("at " + x) + ("/" + y)`, a chain of two chains. -/
def placeChain : Expr :=
  .binaryOf (.binaryOf (.str "at ") "+" (.ident "x")) "+"
    (.binaryOf (.str "/") "+" (.ident "y"))

/-- Three chains and four parts, and any reading puts the four together. -/
theorem chain_flattens_placeChain :
    placeChain.IsBuilt ∧ placeChain.isChain = true ∧
      placeChain.chainParts = [.str "at ", .ident "x", .str "/", .ident "y"] ∧
      placeChain.chainPaths.ncard = 3 ∧
      ∀ reading : TextReading, reading.read placeChain =
        Text.concat (placeChain.chainParts.map reading.read) := by
  have hbuilt : placeChain.IsBuilt := by
    simp [placeChain, Expr.IsBuilt, Each, Expr.binaryOf, Expr.nodes, Expr.BearsMark, Expr.isText]
  have hparts : placeChain.chainParts = [.str "at ", .ident "x", .str "/", .ident "y"] := rfl
  obtain ⟨-, -, hread, -, -, hlength, -⟩ := chain_flattens placeChain (.inl hbuilt)
  rw [hparts] at hlength
  exact ⟨hbuilt, rfl, hparts, (Nat.succ.inj hlength).symm, hread⟩

end UiLowering
