/-!
# Environments

The program reads and writes files by their paths.  An `Environment` says how,
so that a run is the same function over the disk of a machine and over files
that are only kept in memory.
-/

namespace Stache

/-- Access to files. -/
structure Environment (m : Type → Type) where
  /-- Something stands at a path, a file or a folder. -/
  present : String → m Bool
  /-- The text of the file at a path, or why it cannot be read. -/
  readText : String → m (Except String String)
  /-- A text is put into the file at a path, or it is said why this fails. -/
  writeText : String → String → m (Except String Unit)
  /-- The path of the user's own configuration file, if users have one. -/
  userConfig : Option String

end Stache
