/-!
# Configuration values

A configuration is a nested value, however it is written down.  What its format
leaves open is a `Format`.

A structure is read from a table by the names of its fields, or from a list by
their order.
-/

namespace Stache

/-- A value in a configuration. -/
inductive Value where
  | null
  | boolean (value : Bool)
  /-- A number.  No setting is one, so all that matters is whether it lies in the
  range of numbers. -/
  | number (inRange : Bool)
  | string (value : String)
  /-- A date or a time.  It counts as a table without known entries. -/
  | moment
  | list (items : List Value)
  | table (entries : List (String × Value))
deriving Inhabited

namespace Value

/-! ## Formats -/

/-- What a format leaves open about structures and choices. -/
structure Format where
  /-- A list of fields may go on behind the last one. -/
  openLists : Bool
  /-- The value stands for no value. -/
  saysNothing : Value → Bool

namespace Format

/-- JSON has a value for no value. -/
def json : Format where
  openLists := false
  saysNothing
    | .null => true
    | _ => false

/-- TOML has none: an empty table or list stands for it. -/
def toml : Format where
  openLists := true
  saysNothing
    | .table [] => true
    | .list [] => true
    | _ => false

end Format

/-! ## Reading a value -/

mutual

/-- Every number in the value is in range. -/
def readable : Value → Bool
  | .number inRange => inRange
  | .list items => allReadable items
  | .table entries => entriesReadable entries
  | _ => true

/-- The same for the members of a list. -/
def allReadable : List Value → Bool
  | [] => true
  | v :: rest => readable v && allReadable rest

/-- The same for the entries of a table. -/
def entriesReadable : List (String × Value) → Bool
  | [] => true
  | (_, v) :: rest => readable v && entriesReadable rest

end

/-- The entry of a table under a name. -/
def entry? (name : String) (entries : List (String × Value)) : Option Value :=
  (entries.find? fun e => e.1 == name).map Prod.snd

/-- The values of named fields.  A table gives them by name; its other entries
do not matter as long as they are readable.  A list gives them by position and
may stop early. -/
def fields? (f : Format) (names : List String) : Value → Option (List (Option Value))
  | .table entries =>
      if entries.all fun e => names.contains e.1 || e.2.readable then
        some (names.map fun name => entry? name entries)
      else none
  | .moment => some (names.map fun _ => none)
  | .list items =>
      if f.openLists || items.length ≤ names.length then
        some ((List.range names.length).map fun i => items[i]?)
      else none
  | _ => none

/-- The value as a truth value. -/
def boolean? : Value → Option Bool
  | .boolean b => some b
  | _ => none

/-- The value as a string that may be absent. -/
def optionalString? : Value → Option (Option String)
  | .null => some none
  | .string s => some (some s)
  | _ => none

/-- The value as a choice: its name, or a table that says nothing under that
name. -/
def choice? (f : Format) : Value → Option String
  | .string name => some name
  | .table [(name, v)] => if f.saysNothing v then some name else none
  | _ => none

end Value

end Stache
