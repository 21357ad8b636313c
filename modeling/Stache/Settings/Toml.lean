import Stache.Settings.Toml.Item
import Stache.Settings.Toml.Scalar

/-!
# Configuration files

A configuration file is written in TOML.  Each line is blank, a comment, a header
of a table or an entry `key = value`, and a value may go over several lines.
Entries before the first header belong to the root.

`Toml.read?` gives the value of a whole file, and nothing if the file is
malformed.
-/

namespace Stache
namespace Toml

open Reader

/-! ## Keys -/

/-- A character of a key without quotes. -/
def isKeyChar (c : Char) : Bool := c.isAlphanum || c == '_' || c == '-'

/-- A part of a key. -/
def keyPart : Reader String := do
  return Text.str (← takeSome isKeyChar <|> shortString)

/-- A key: the parts before its last one, and the last one. -/
structure Key where
  /-- The parts that name tables. -/
  path : List String
  /-- The name in the last table. -/
  name : String
deriving DecidableEq, Repr

/-- The key of some parts in front of a last one. -/
def Key.ofParts (first : String) : List String → Key
  | [] => ⟨[], first⟩
  | second :: rest =>
      let inner := Key.ofParts second rest
      ⟨first :: inner.path, inner.name⟩

/-- All parts of a key. -/
def Key.parts (k : Key) : List String := k.path ++ [k.name]

/-- A key with points between its parts, and the blanks behind it. -/
def key : Reader Key := do
  let first ← keyPart
  let rest ← many do
    blank
    exactly ['.']
    blank
    keyPart
  blank
  return .ofParts first rest

/-! ## Values -/

/-- A member of a list or of a table in braces, with the comma behind it.  Only
the last member may lack the comma. -/
def member {α : Type} (close : Char) (p : Reader α) : Reader α := do
  let a ← p
  gap
  (do exactly [',']; gap) <|> before close
  return a

/-- An entry.  `space` is what may stand on either side of its `=`. -/
def entry (space : Reader Unit) (item : Reader Item) : Reader (Key × Item) := do
  let k ← key
  space
  exactly ['=']
  space
  return (k, ← item)

/-- A list. -/
def list (item : Reader Item) : Reader Item := do
  exactly ['[']
  gap
  let items ← many (member ']' item)
  exactly [']']
  return .value (.list (items.map Item.toValue))

/-- A table in braces.  Line breaks and comments may stand anywhere in it but
inside a key. -/
def inlineTable (item : Reader Item) : Reader Item := do
  exactly ['{']
  gap
  let found ← many (member '}' (entry gap item))
  exactly ['}']
  let entries ← give (found.foldlM
    (fun entries e => Item.insert? e.1.path e.1.name e.2 .inline entries) [])
  return .table .inline entries

/-- A value that nests lists and tables up to a given depth. -/
def item : Nat → Reader Item
  | 0 => do return .value (← scalar)
  | depth + 1 =>
      list (item depth) <|> inlineTable (item depth) <|> do return .value (← scalar)

/-- How deep lists and tables may nest. -/
def maxDepth : Nat := 80

/-! ## Lines -/

/-- What a line says. -/
inductive Line where
  /-- Nothing. -/
  | blank
  | table (key : Key)
  /-- A table starts that is an element of a list. -/
  | element (key : Key)
  | entry (key : Key) (item : Item)

/-- A header between brackets. -/
def header (opening closing : Text) : Reader Key := do
  exactly opening
  blank
  let k ← key
  exactly closing
  return k

/-- A line. -/
def line : Reader Line := do
  blank
  let content ←
    (do return .element (← header ['[', '['] [']', ']'])) <|>
      (do return .table (← header ['['] [']'])) <|>
      (do let (k, i) ← entry blank (item maxDepth); return .entry k i) <|>
      pure .blank
  restOfLine
  return content

/-! ## Files -/

/-- What was read of a file. -/
structure State where
  root : Entries
  /-- The place of the current table. -/
  current : List String

/-- The state after one more line. -/
def State.step (s : State) : Line → Option State
  | .blank => some s
  | .table k => (Item.open? false k.path k.name s.root).map fun root => ⟨root, k.parts⟩
  | .element k => (Item.open? true k.path k.name s.root).map fun root => ⟨root, k.parts⟩
  | .entry k i =>
      (Item.atPath false (Item.insert? k.path k.name i) s.current .header s.root).map fun root =>
        ⟨root, s.current⟩

/-- The text without a byte order mark. -/
def withoutMark : Text → Text
  | '\uFEFF' :: r => r
  | t => t

/-- The value of a configuration file. -/
def read? (text : Text) : Option Value := do
  let lines ← (many line).all (withoutMark text)
  let state ← lines.foldlM State.step ⟨[], []⟩
  return .table (Item.entryValues state.root)

example : number? "-1_000.5e3".toList = some true := by decide +kernel
example : number? "01".toList = none := by decide +kernel
example : number? "1e999".toList = some false := by decide +kernel
example : hexChar? "1F600".toList = some '😀' := by decide
example : hexChar? "d800".toList = none := by decide

end Toml
end Stache
