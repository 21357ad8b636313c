import Stache.Command.Environment

/-!
# Files in memory

A `Disk` is a tree of folders and text files below a working folder.  Paths are
relative to that folder.  Each component of a path but the last must be a
folder, and nothing outside of the working folder can be reached.  A name has at
most 255 bytes, a path at most 4095, and neither has a NUL.
-/

namespace Stache

/-- The components of a path, outermost first. -/
abbrev Route := List String

/-- Files and folders below a working folder. -/
structure Disk where
  files : List (Route × String)
  /-- Folders that may hold no file. -/
  folders : List Route

namespace Disk

/-- The text of a file. -/
def text? (d : Disk) (r : Route) : Option String :=
  (d.files.find? fun f => f.1 == r).map Prod.snd

/-- The route is that of the working folder, of a folder, or of one that holds
something. -/
def isFolder (d : Disk) (r : Route) : Bool :=
  r.isEmpty || (d.folders.any fun f => r.isPrefixOf f) ||
    d.files.any fun f => r.isPrefixOf f.1 && f.1 != r

/-- The component can be the name of a file or a folder. -/
def isName (c : String) : Bool := c.utf8ByteSize ≤ 255 && !c.contains '\x00'

/-- The route of a path from a folder, by the path's components. -/
def follow (d : Disk) (here : Route) : Route → Option Route
  | [] => some here
  | c :: rest =>
      if !d.isFolder here then none
      else if c = "" || c = "." then d.follow here rest
      else if c = ".." then if here.isEmpty then none else d.follow here.dropLast rest
      else if isName c then d.follow (here ++ [c]) rest
      else none

/-- The components of a path. -/
def components (path : String) : Route := path.splitOn "/"

/-- The route of a path.  The empty path, a path that is too long and a path from
the root of the machine have none. -/
def route? (d : Disk) (path : String) : Option Route :=
  if path.isEmpty || 4095 < path.utf8ByteSize || path.startsWith "/" then none
  else d.follow [] (components path)

/-- Something stands at a path. -/
def present (d : Disk) (path : String) : Bool :=
  match d.route? path with
  | some r => d.isFolder r || (d.text? r).isSome
  | none => false

/-- The text at a path. -/
def read (d : Disk) (path : String) : Except String String :=
  match d.route? path with
  | none => .error "no such file or folder"
  | some r =>
      if d.isFolder r then .error "it is a folder"
      else
        match d.text? r with
        | some text => .ok text
        | none => .error "no such file or folder"

/-- The disk with a text at a path. -/
def write (d : Disk) (path text : String) : Except String Disk :=
  match d.route? path with
  | none => .error "no such file or folder"
  | some r =>
      if d.isFolder r then .error "it is a folder"
      else if !d.isFolder r.dropLast then .error "no such file or folder"
      else .ok { d with files := (r, text) :: d.files.filter fun f => f.1 != r }

/-- A disk as the environment of a run. -/
def environment (userConfig : Option String) : Environment (StateM Disk) where
  present path := return (← get).present path
  readText path := return (← get).read path
  writeText path text := do
    match (← get).write path text with
    | .ok d => set d; return .ok ()
    | .error reason => return .error reason
  userConfig := userConfig

end Disk

end Stache
