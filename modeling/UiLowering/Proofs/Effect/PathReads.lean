import UiLowering.Effect.Reads
import UiLowering.Proofs.Names
import UiLowering.Proofs.Text.Identifier
import UiLowering.Proofs.Text.Join

/-!
# A path is read alike in a literal and as an expression

What an expression reads is collected from its tree, but the expressions in a string literal are
only texts, which are scanned for names and for pairs of names with a dot between them.  For a path
of names the two ways agree: the tree reads the root of the path and the first member of it
(`mem_names_expr`, `mem_members_expr`), and the scan finds these in the text of the path
(`root_mem_identifiers`, `mem_memberPairs_text`), however long the path is.
-/

set_option autoImplicit false

namespace UiLowering

/-! ## Paths

The same path has two forms: a tree of member accesses, and the text with dots that stands in a
literal. -/

/-- An ASCII identifier. -/
def Text.IsName (name : String) : Prop :=
  beginsName name.toList = true ∧ name.toList.all isAsciiWord = true

instance (name : String) : Decidable (Text.IsName name) :=
  inferInstanceAs (Decidable (_ ∧ _))

/-- A name and the members that lead on from it. -/
structure NamePath where
  root : String
  fields : List String
  isName_root : Text.IsName root
  isName_fields : ∀ field ∈ fields, Text.IsName field

namespace NamePath

/-- The source text of a path. -/
def text (path : NamePath) : String := Text.join "." (path.root :: path.fields)

/-- The expression of a path: a member of a member of … its root. -/
def expr (path : NamePath) : Expr := path.fields.foldl .member (.ident path.root)

end NamePath

/-! ## The tree of a path

The tree is built by a fold from the root outwards.  Only the innermost access is to a member of a
named object, so all others add nothing to what is read. -/

section Tree

open UiLowering.Expr

instance : Std.LawfulEqCmp compareMembers where
  eq_of_compare h :=
    Prod.ext (Std.LawfulEqCmp.eq_of_compare (Ordering.then_eq_eq.1 h).1)
      (Std.LawfulEqCmp.eq_of_compare (Ordering.then_eq_eq.1 h).2)

theorem mem_members_iff {e : Expr} {pair : String × String} :
    pair ∈ e.members ↔ pair ∈ e.nodes.flatMap ownMembers := by
  rw [members, mem_foldl_insert]
  simp

/-- Members add no names to their object. -/
theorem ownNames_foldl_member (fields : List String) (e : Expr) :
    (fields.foldl Expr.member e).nodes.flatMap ownNames = e.nodes.flatMap ownNames := by
  induction fields generalizing e with
  | nil => rfl
  | cons field fields ih =>
    rw [List.foldl_cons, ih, nodes, List.flatMap_cons]
    rfl

/-- Only the first member is one of a named object. -/
theorem ownMembers_foldl_member (fields : List String) (object : Expr) (field : String) :
    (fields.foldl Expr.member (.member object field)).nodes.flatMap ownMembers =
      (Expr.member object field).nodes.flatMap ownMembers := by
  induction fields generalizing object field with
  | nil => rfl
  | cons next fields ih =>
    rw [List.foldl_cons, ih, nodes, List.flatMap_cons]
    rfl

theorem mem_names_expr {path : NamePath} {name : String} :
    name ∈ path.expr.names ↔ name = path.root := by
  rw [names, NameSet.mem_ofNames, NamePath.expr, ownNames_foldl_member]
  exact List.mem_singleton

theorem mem_members_expr {path : NamePath} {pair : String × String} :
    pair ∈ path.expr.members ↔ ∃ field ∈ path.fields.head?, pair = (path.root, field) := by
  rw [mem_members_iff, NamePath.expr]
  cases path.fields with
  | nil => simp [nodes, ownMembers]
  | cons field fields =>
    rw [List.foldl_cons, ownMembers_foldl_member]
    simp [nodes, ownMembers]

end Tree

/-! ## The text of a path

The scans go through the characters of the text and know nothing of paths.  A name is a run of word
characters bounded by a dot or by the end, so it is cut out as one lexeme, and the first pair with a
dot between is that of the root and its first member. -/

namespace Text

theorem isWord_of_isAsciiWord {c : Char} (h : isAsciiWord c = true) : isWord c = true := by
  have hascii : c.toNat < 0x80 := by
    rw [isAsciiWord_iff] at h
    omega
  rw [isWord, if_pos hascii]
  exact h

/-- A run of word characters is one lexeme. -/
theorem lexemes_word_append {word after : List Char} (hne : word ≠ [])
    (hword : ∀ c ∈ word, isWord c = true) (hafter : ∀ c ∈ after.head?, isWord c = false) :
    lexemes (word ++ after) = .word word :: lexemes after := by
  induction word with
  | nil => exact absurd rfl hne
  | cons c word ih =>
    rw [List.cons_append, lexemes, if_pos (hword c List.mem_cons_self)]
    cases word with
    | nil =>
      cases after with
      | nil => rfl
      | cons d after =>
        have hmark : lexemes (d :: after) = .mark d :: lexemes after := by
          rw [lexemes, hafter d rfl]
          rfl
        rw [List.nil_append, hmark]
    | cons d word =>
      rw [ih (List.cons_ne_nil d word) fun e he => hword e (List.mem_cons_of_mem c he)]

/-- What follows a name in a path begins with a dot. -/
theorem head?_dotted {names : List String} {c : Char}
    (h : c ∈ (concat (names.map ("." ++ ·))).toList.head?) : c = '.' := by
  cases names with
  | nil => cases h
  | cons name names =>
    rw [List.map_cons, concat, String.append_assoc, String.toList_append] at h
    exact (Option.some.inj h).symm

namespace IsName

variable {name : String}

theorem isAsciiWord (h : IsName name) : ∀ c ∈ name.toList, Text.isAsciiWord c = true :=
  List.all_eq_true.1 h.2

theorem isWord (h : IsName name) : ∀ c ∈ name.toList, Text.isWord c = true :=
  fun c hc => isWord_of_isAsciiWord (h.isAsciiWord c hc)

theorem exists_cons (h : IsName name) :
    ∃ first rest, name.toList = first :: rest ∧ isNameStart first = true := by
  obtain ⟨hbegins, -⟩ := h
  rw [beginsName, Option.any_eq_true] at hbegins
  obtain ⟨first, hfirst, hstart⟩ := hbegins
  obtain ⟨rest, hrest⟩ := List.head?_eq_some_iff.1 hfirst
  exact ⟨first, rest, hrest, hstart⟩

theorem ne_nil (h : IsName name) : name.toList ≠ [] := by
  obtain ⟨first, rest, hchars, -⟩ := h.exists_cons
  rw [hchars]
  exact List.cons_ne_nil first rest

/-- The scan for identifiers finds a name in front of a dot or the end. -/
theorem mem_identifiers (h : IsName name) (names : List String) :
    name ∈ identifiers (name ++ concat (names.map ("." ++ ·))) := by
  rw [identifiers, List.mem_filterMap, String.toList_append]
  refine ⟨name.toList, mem_asciiRuns_of_word h.isAsciiWord fun c hc => ?_, ?_⟩
  · rw [head?_dotted hc]
    rfl
  · obtain ⟨first, rest, hchars, hstart⟩ := h.exists_cons
    simp only [hchars, not_isDigit_of_isNameStart hstart, Bool.false_eq_true, if_false]
    rw [← hchars, String.ofList_toList]

end IsName

end Text

namespace NamePath

theorem root_mem_identifiers (path : NamePath) : path.root ∈ Text.identifiers path.text := by
  rw [text, Text.join_cons]
  exact path.isName_root.mem_identifiers path.fields

/-- The scan for pairs begins with the root of a path and its first member. -/
theorem mem_memberPairs_text {path : NamePath} {field : String} (h : field ∈ path.fields.head?) :
    (path.root, field) ∈ Text.memberPairs path.text := by
  obtain ⟨fields, hfields⟩ := List.head?_eq_some_iff.1 h
  have hfield : Text.IsName field :=
    path.isName_fields field (by rw [hfields]; exact List.mem_cons_self)
  have hchars : path.text.toList = path.root.toList ++
      '.' :: (field.toList ++ (Text.concat (fields.map ("." ++ ·))).toList) := by
    rw [text, hfields, Text.join_cons, List.map_cons, Text.concat]
    simp
  have hmark (rest : List Char) : Text.lexemes ('.' :: rest) = .mark '.' :: Text.lexemes rest := rfl
  have hlexemes : Text.lexemes path.text.toList = .word path.root.toList :: .mark '.' ::
      .word field.toList :: Text.lexemes (Text.concat (fields.map ("." ++ ·))).toList := by
    rw [hchars, Text.lexemes_word_append path.isName_root.ne_nil path.isName_root.isWord, hmark,
      Text.lexemes_word_append hfield.ne_nil hfield.isWord]
    · intro c hc
      rw [Text.head?_dotted hc]
      rfl
    · intro c hc
      rw [← Option.some.inj hc]
      rfl
  have hnames : (Text.beginsName path.root.toList && Text.beginsName field.toList) = true := by
    rw [path.isName_root.1, hfield.1]
    rfl
  rw [Text.memberPairs, hlexemes, Text.dottedPairs, if_pos hnames, String.ofList_toList,
    String.ofList_toList]
  exact List.mem_cons_self

/-- **A literal reads the paths in it.**  If one of the expressions in a string literal is a path of
names, whatever stands in its other pieces, then the names and the members that the literal reads
include those that the path reads as an expression of its own.  These are its root, and as a pair
with it the first member, if there is one. -/
theorem literal_reads_path {raw : String} {path : NamePath} (h : path.text ∈ Expr.holes raw) :
    (∀ name ∈ path.expr.names, name ∈ (Expr.str raw).names) ∧
    (∀ pair ∈ path.expr.members, pair ∈ (Expr.str raw).members) ∧
    (∀ name, name ∈ path.expr.names ↔ name = path.root) ∧
    ∀ pair, pair ∈ path.expr.members ↔
      ∃ field ∈ path.fields.head?, pair = (path.root, field) := by
  refine ⟨fun name hname => ?_, fun pair hpair => ?_, fun _ => mem_names_expr,
    fun _ => mem_members_expr⟩
  · rw [mem_names_expr.1 hname, Expr.names, NameSet.mem_ofNames, Expr.nodes, List.flatMap_singleton]
    exact List.mem_flatMap.2 ⟨path.text, h, path.root_mem_identifiers⟩
  · obtain ⟨field, hfield, rfl⟩ := mem_members_expr.1 hpair
    rw [mem_members_iff, Expr.nodes, List.flatMap_singleton]
    exact List.mem_flatMap.2 ⟨path.text, h, mem_memberPairs_text hfield⟩

/-- A path of three names between other pieces of a literal. -/
theorem literal_reads_path_user :
    let raw := "\x7bn+1\x7d: \x7b user.name.first \x7d, \x7b.x\x7d"
    let path : NamePath := ⟨"user", ["name", "first"], by decide, by decide⟩
    path.text ∈ Expr.holes raw ∧ "user" ∈ (Expr.str raw).names ∧
      ("user", "name") ∈ (Expr.str raw).members := by
  intro raw path
  have hhole : path.text ∈ Expr.holes raw := by decide +kernel
  obtain ⟨hnames, hmembers, hroot, hfirst⟩ := literal_reads_path hhole
  exact ⟨hhole, hnames "user" ((hroot "user").2 rfl),
    hmembers ("user", "name") ((hfirst ("user", "name")).2 ⟨"name", rfl, rfl⟩)⟩

end NamePath

end UiLowering
