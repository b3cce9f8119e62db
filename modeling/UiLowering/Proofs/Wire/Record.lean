import UiLowering.Json.Fields

/-!
# Records that were written are read back

A reader of a record takes one field after the other.  On named fields it leaves them as they are,
so what it finds (`Fields.Finds`) is put together from what it finds under each key.  With the laws
for lists, for values that may be missing and for tags this gives the law of a record from the laws
of its parts.
-/

set_option autoImplicit false

namespace UiLowering

/-! ## Fields

A reader of fields is a state that starts with the fields of an object and could consume them.  On
named fields it consumes nothing, so the order in which fields are read is free, and the law of a
bind is that both readers find their values in the same fields. -/

namespace Fields

variable {α β : Type}

/-- A reader finds a value in named fields. -/
def Finds (reader : FieldReader α) (entries : List (String × Json)) (value : α) : Prop :=
  reader (.named entries) = some (value, .named entries)

variable {entries : List (String × Json)} {key : String} {json : Json} {read : Json → Option α}
  {value : α}

theorem finds_pure (value : α) : Finds (pure value) entries value := rfl

theorem Finds.bind {first : FieldReader α} {next : α → FieldReader β} {result : β}
    (hfirst : Finds first entries value) (hnext : Finds (next value) entries result) :
    Finds (first >>= next) entries result := by
  have hbind : (first >>= next) (.named entries) =
      (first (.named entries)).bind fun found => next found.1 found.2 := rfl
  rw [Finds, hbind, hfirst]
  exact hnext

theorem finds_value? (hentry : entries.filter (·.1 == key) = [(key, json)]) :
    Finds (value? key) entries (some json) := by
  rw [Finds, value?, hentry]

/-- A field that has to be there is found if its value can be read. -/
theorem finds_required (hentry : entries.filter (·.1 == key) = [(key, json)])
    (hread : read json = some value) : Finds (required key read) entries value := by
  have hvalue : value? key (.named entries) = _ := finds_value? hentry
  rw [Finds, required, hvalue, Option.bind_eq_bind, Option.bind_some]
  simp only [Option.bind_eq_bind, Option.bind_some, hread]
  rfl

/-- A field that has a default is found if its value can be read. -/
theorem finds_defaulted {default : α} (hentry : entries.filter (·.1 == key) = [(key, json)])
    (hread : read json = some value) : Finds (defaulted key default read) entries value := by
  have hvalue : value? key (.named entries) = _ := finds_value? hentry
  rw [Finds, defaulted, hvalue, Option.bind_eq_bind, Option.bind_some]
  simp only [hread]
  rfl

theorem read_of_finds {reader : FieldReader α} (h : Finds reader entries value) :
    Fields.read reader (.named entries) = some value := by
  rw [Fields.read, h]
  rfl

/-- A value that may be missing is read back if it is read back where it is there. -/
theorem readOption_ofOption_of_mem {write : α → Json} {option : Option α}
    (hread : ∀ value ∈ option, read (write value) = some value)
    (hnull : ∀ value, write value ≠ .null) :
    readOption read (.ofOption write option) = some option := by
  cases option with
  | none => rfl
  | some value =>
    have hvalue : readOption read (write value) = (read (write value)).map some := by
      rw [readOption]
      exact hnull value
    rw [Json.ofOption, hvalue, hread value rfl, Option.map_some]

end Fields

/-! ## Values

An object of named fields is read as a record, whatever else stands in it.  Numbers are written as
integers of any size and read with the bounds of their types, which they satisfy. -/

namespace Json

open Fields

variable {α : Type} {read : Json → Option α} {write : α → Json}

theorem record?_obj {reader : FieldReader α} {entries : List (String × Json)} {value : α}
    (h : Finds reader entries value) : record? reader (.obj entries) = some value :=
  read_of_finds h

/-- A tag in front of fields of other names is found, and the fields are left. -/
theorem tagged?_cons {key kind : String} {entries : List (String × Json)}
    (hkey : key ∉ entries.map (·.1)) (numbered : List String) :
    tagged? key numbered (.obj ((key, .str kind) :: entries)) = some (kind, .named entries) := by
  have hne : ∀ entry ∈ entries, entry.1 ≠ key := fun entry hentry heq =>
    hkey (heq ▸ List.mem_map_of_mem hentry)
  have htag : entries.filter (·.1 == key) = [] := by
    simpa [List.filter_eq_nil_iff] using fun name value hentry => hne (name, value) hentry
  have hrest : entries.filter (·.1 != key) = entries := by
    simpa [List.filter_eq_self] using fun name value hentry => hne (name, value) hentry
  simp [tagged?, htag, hrest, tag?]

/-- A list is read back if each of its elements is. -/
theorem list?_map_of_mem {values : List α} (h : ∀ value ∈ values, read (write value) = some value) :
    list? read (.arr (values.map write)) = some values := by
  rw [list?]
  induction values with
  | nil => rfl
  | cons value values ih =>
    have hvalue := h value List.mem_cons_self
    have hvalues := ih fun other hother => h other (List.mem_cons_of_mem value hother)
    rw [List.map_cons, List.mapM_cons, hvalue, hvalues]
    rfl

theorem int64?_toInt (value : Int64) : int64? (.int value.toInt) = some value := by
  have hrange : (Int64.minValue.toInt ≤ value.toInt && value.toInt ≤ Int64.maxValue.toInt) =
      true := by
    rw [Bool.and_eq_true, decide_eq_true_eq, decide_eq_true_eq]
    exact ⟨value.minValue_le_toInt, value.toInt_le⟩
  rw [int64?, if_pos hrange, Int64.ofInt_toInt]

theorem uint32?_toNat (value : UInt32) : uint32? (.nat value.toNat) = some value := by
  have hrange : (0 ≤ (value.toNat : Int) && (value.toNat : Int).toNat < UInt32.size) = true := by
    rw [Bool.and_eq_true, decide_eq_true_eq, decide_eq_true_eq]
    exact ⟨Int.natCast_nonneg _, value.toNat_lt_size⟩
  rw [Json.nat, uint32?, if_pos hrange, Int.toNat_natCast, UInt32.ofNat_toNat]

/-! ## Fields of the usual types

Most fields hold a text, a flag or a list.  What they hold is read back whatever record they stand
in, so a record of them is read back by naming its fields in order. -/

section

variable {entries : List (String × Json)} {key text default : String}

theorem finds_str (h : entries.filter (·.1 == key) = [(key, .str text)]) :
    Finds (required key str?) entries text :=
  finds_required h rfl

theorem finds_defaultedStr (h : entries.filter (·.1 == key) = [(key, .str text)]) :
    Finds (defaulted key default str?) entries text :=
  finds_defaulted h rfl

theorem finds_optionalStr {option : Option String}
    (h : entries.filter (·.1 == key) = [(key, .ofOption .str option)]) :
    Finds (Fields.optional key str?) entries option :=
  finds_defaulted h (readOption_ofOption_of_mem (fun _ _ => rfl) fun _ => Json.noConfusion)

theorem finds_flag {preset value : Bool} (h : entries.filter (·.1 == key) = [(key, .bool value)]) :
    Finds (defaulted key preset bool?) entries value :=
  finds_defaulted h rfl

theorem finds_list {values : List α} (hread : ∀ value ∈ values, read (write value) = some value)
    (h : entries.filter (·.1 == key) = [(key, .arr (values.map write))]) :
    Finds (defaulted key [] (list? read)) entries values :=
  finds_defaulted h (list?_map_of_mem hread)

end

/-! ## What stands inside a value

The depth of an array and an object is one more than that of anything in it.  These are the steps of
the inductions on the depth. -/

theorem isReadable_ofOption {option : Option α}
    (h : ∀ value ∈ option, (write value).isReadable = true) :
    (ofOption write option).isReadable = true := by
  cases option with
  | none => rfl
  | some value => exact h value rfl

theorem depth_lt_arr {value : Json} {values : List Json} (h : value ∈ values) :
    value.depth < (Json.arr values).depth := by
  rw [depth]
  induction values with
  | nil => cases h
  | cons first values ih =>
    rw [depthList]
    rcases List.mem_cons.1 h with rfl | hrest
    · exact Nat.lt_succ_of_le (Nat.le_max_left _ _)
    · have hvalues := ih hrest
      omega

theorem depth_lt_obj {value : Json} {entries : List (String × Json)}
    (h : value ∈ entries.map (·.2)) : value.depth < (Json.obj entries).depth := by
  rw [depth]
  induction entries with
  | nil => cases h
  | cons entry entries ih =>
    rw [depthEntries]
    rcases List.mem_cons.1 h with rfl | hrest
    · exact Nat.lt_succ_of_le (Nat.le_max_left _ _)
    · have hentries := ih hrest
      omega

end Json

end UiLowering
