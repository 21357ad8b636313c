import Stache.Settings.Value

/-!
# Tables that grow

A file describes its tables piece by piece: by headers, by headers of tables
below them, by dotted keys.  An `Item` remembers how a table came to be, since
that decides how it may grow.

* A header opens a table once, also one that so far only headers below it
  mention.
* A dotted key adds entries to a table that dotted keys made, and to no other.
* A table that is written as a value is complete.
* A header in double brackets adds a table to a list, and what is said about the
  list after that belongs to its last table.

`Item.insert?` and `Item.open?` add an entry and a header.  Both refuse what
breaks these rules.
-/

namespace Stache
namespace Toml

/-- How a table came to be. -/
inductive Origin where
  /-- It has a header. -/
  | header
  /-- Only headers below it mention it. -/
  | implied
  /-- A dotted key made it. -/
  | dotted
  /-- It is written as a value. -/
  | inline
deriving DecidableEq, Repr

/-- What stands under a key while a file is read. -/
inductive Item where
  /-- A value that is complete. -/
  | value (v : Value)
  | table (origin : Origin) (entries : List (String × Item))
  /-- A list of tables that have headers, the last one first. -/
  | tables (elements : List (List (String × Item)))

/-- The entries of a table while a file is read. -/
abbrev Entries := List (String × Item)

/-! ## Values -/

namespace Item

mutual

/-- The value of an item. -/
def toValue : Item → Value
  | .value v => v
  | .table _ entries => .table (entryValues entries)
  | .tables elements => .list (elementValues elements).reverse

/-- The values of the entries of a table. -/
def entryValues : List (String × Item) → List (String × Value)
  | [] => []
  | (key, item) :: rest => (key, toValue item) :: entryValues rest

/-- The values of the tables of a list. -/
def elementValues : List (List (String × Item)) → List Value
  | [] => []
  | entries :: rest => .table (entryValues entries) :: elementValues rest

end

/-! ## Growth -/

/-- The entries with the one under a key changed.  Nothing is given to the
change if the key is new. -/
def alter (key : String) (change : Option Item → Option Item) : Entries → Option Entries
  | [] => (change none).map fun item => [(key, item)]
  | (k, item) :: rest =>
      if k = key then (change (some item)).map fun changed => (k, changed) :: rest
      else (alter key change rest).map ((k, item) :: ·)

/-- A change of the entries at the end of a path.  What is missing on the way
is made.  `dotted` says that the path is that of a dotted key. -/
def atPath (dotted : Bool) (change : Origin → Entries → Option Entries) :
    List String → Origin → Entries → Option Entries
  | [], origin, entries => change origin entries
  | key :: path, _, entries =>
      alter key
        (fun
          | none =>
              let origin : Origin := if dotted then .dotted else .implied
              (atPath dotted change path origin []).map (.table origin)
          | some (.table origin inner) =>
              if origin = .inline || (dotted && origin = .header) then none
              else (atPath dotted change path origin inner).map (.table origin)
          | some (.tables (last :: earlier)) =>
              (atPath dotted change path .header last).map fun changed =>
                .tables (changed :: earlier)
          | some _ => none)
        entries

/-- One more entry under a key that may be dotted: `path` stands before its last
part. -/
def insert? (path : List String) (key : String) (item : Item) (origin : Origin)
    (entries : Entries) : Option Entries :=
  atPath true
    (fun made entries =>
      if (!path.isEmpty && made ≠ .dotted) || entries.any fun e => e.1 == key then none
      else some (entries ++ [(key, item)]))
    path origin entries

/-- The header of a table, which may be an element of a list. -/
def open? (element : Bool) (path : List String) (key : String) (entries : Entries) :
    Option Entries :=
  atPath false
    (fun _ entries =>
      alter key
        (fun
          | none => some (if element then .tables [[]] else .table .header [])
          | some (.table .implied inner) => if element then none else some (.table .header inner)
          | some (.tables elements) => if element then some (.tables ([] :: elements)) else none
          | some _ => none)
        entries)
    path .header entries

end Item

end Toml
end Stache
