/-!
# Arguments

The words of a command line, read from left to right.  A word that starts with
a dash is an option, unless it is a dash alone or stands behind `--`.  The only
other word is the input.

An option with a value takes it from the same word, behind `=` or right behind
its letter, or from the next word, which then may not look like an option.  No
option may come twice.  A request for the version or for help is answered as
soon as it is read, and so is an error.
-/

namespace Stache

/-- The switches and options of the program. -/
structure Arguments where
  input : String
  /-- The path of the file to write, if it is not the standard output. -/
  output : Option String := none
  /-- The path of the configuration file, if it is named. -/
  config : Option String := none
  logLevel : String := "info"
  /-- The whitespace stays as it is written. -/
  raw : Bool := false
  /-- The padding around tags that stand alone stays. -/
  ignoreStandalone : Bool := false
deriving DecidableEq, Repr

/-- What a command line asks for. -/
inductive Invocation where
  | process (arguments : Arguments)
  | version
  | help
deriving DecidableEq, Repr

/-- Why a command line cannot be read. -/
inductive UsageError where
  /-- A word that is no option, or an input too many. -/
  | unexpected (word : String)
  /-- An option comes twice. -/
  | repeated (option : String)
  /-- An option lacks its value. -/
  | missingValue (option : String)
  /-- A switch has a value. -/
  | needlessValue (option : String)
  | missingInput
deriving DecidableEq, Repr

/-- The message of an error. -/
def UsageError.message : UsageError → String
  | .unexpected word => "unexpected argument '" ++ word ++ "' found"
  | .repeated option => "the argument '" ++ option ++ "' cannot be used multiple times"
  | .missingValue option => "a value is required for '" ++ option ++ "'"
  | .needlessValue option => "unexpected value for '" ++ option ++ "'"
  | .missingInput => "the input is missing"

namespace Arguments

/-! ## Options -/

/-- An option that takes a value. -/
inductive Setting where
  | output
  | config
  | logLevel
deriving DecidableEq, Repr

/-- An option without a value. -/
inductive Switch where
  | raw
  | ignoreStandalone
  | version
  | help
deriving DecidableEq, Repr

/-- An option. -/
inductive Flag where
  | setting (s : Setting)
  | switch (s : Switch)
deriving DecidableEq, Repr

/-- The option with a long name. -/
def ofLong? : String → Option Flag
  | "output" => some (.setting .output)
  | "config" => some (.setting .config)
  | "log-level" => some (.setting .logLevel)
  | "raw" => some (.switch .raw)
  | "ignore-standalone" => some (.switch .ignoreStandalone)
  | "version" => some (.switch .version)
  | "help" => some (.switch .help)
  | _ => none

/-- The option with a letter. -/
def ofShort? : Char → Option Flag
  | 'o' => some (.setting .output)
  | 'c' => some (.setting .config)
  | 'V' => some (.switch .version)
  | 'h' => some (.switch .help)
  | _ => none

/-- The long spelling of an option with a value. -/
def Setting.name : Setting → String
  | .output => "--output"
  | .config => "--config"
  | .logLevel => "--log-level"

/-- The long spelling of an option without a value. -/
def Switch.name : Switch → String
  | .raw => "--raw"
  | .ignoreStandalone => "--ignore-standalone"
  | .version => "--version"
  | .help => "--help"

/-! ## What was read -/

/-- What the words read so far say. -/
structure Draft where
  input : Option String := none
  settings : List (Setting × String) := []
  switches : List Switch := []

/-- Why reading stops before the last word. -/
inductive Stop where
  /-- The words so far are all that matters. -/
  | answer (invocation : Invocation)
  /-- The words so far are wrong. -/
  | error (error : UsageError)

namespace Draft

/-- One more value of an option. -/
def set (p : Draft) (s : Setting) (value : String) : Except Stop Draft :=
  if p.settings.any fun e => e.1 == s then .error (.error (.repeated s.name))
  else .ok { p with settings := (s, value) :: p.settings }

/-- One more switch. -/
def turnOn (p : Draft) (s : Switch) : Except Stop Draft :=
  match s with
  | .version => .error (.answer .version)
  | .help => .error (.answer .help)
  | s =>
      if p.switches.contains s then .error (.error (.repeated s.name))
      else .ok { p with switches := s :: p.switches }

/-- One more word that is no option. -/
def operand (p : Draft) (word : String) : Except Stop Draft :=
  match p.input with
  | none => .ok { p with input := some word }
  | some _ => .error (.error (.unexpected word))

/-- The value of an option. -/
def value? (p : Draft) (s : Setting) : Option String :=
  (p.settings.find? fun e => e.1 == s).map Prod.snd

/-- What all words together ask for. -/
def finish (p : Draft) : Except UsageError Invocation :=
  match p.input with
  | none => .error .missingInput
  | some input =>
      .ok (.process
        { input := input
          output := p.value? .output
          config := p.value? .config
          logLevel := (p.value? .logLevel).getD "info"
          raw := p.switches.contains .raw
          ignoreStandalone := p.switches.contains .ignoreStandalone })

end Draft

/-! ## Words -/

/-- A word by its form. -/
inductive Word where
  /-- `--`: all that follows are operands. -/
  | separator
  /-- `--name` or `--name=value`. -/
  | long (name : String) (value : Option String)
  /-- `-letters`, of which the first takes the rest as its value if it takes
  one. -/
  | short (letters : List Char)
  /-- Any other word. -/
  | operand
deriving DecidableEq, Repr

/-- The form of a word. -/
def Word.ofString (word : String) : Word :=
  match word.toList with
  | ['-', '-'] => .separator
  | '-' :: '-' :: r =>
      .long (.ofList (r.takeWhile (· != '=')))
        ((r.dropWhile (· != '=')).tail?.map String.ofList)
  | '-' :: c :: r => .short (c :: r)
  | _ => .operand

/-- What options read so far leave: the state, and an option that still waits
for its value in the next word. -/
abbrev Pending := Draft × Option Setting

/-- The letters of a word, read. -/
def readShort (p : Draft) : List Char → Except Stop Pending
  | [] => .ok (p, none)
  | c :: r =>
      match ofShort? c with
      | none => .error (.error (.unexpected (.ofList ['-', c])))
      | some (.switch s) =>
          match p.turnOn s with
          | .ok p => readShort p r
          | .error e => .error e
      | some (.setting s) =>
          match r with
          | [] => .ok (p, some s)
          | '=' :: value => (p.set s (.ofList value)).map fun p => (p, none)
          | value => (p.set s (.ofList value)).map fun p => (p, none)

/-- A long option, read. -/
def readLong (p : Draft) (name : String) (value : Option String) : Except Stop Pending :=
  match ofLong? name, value with
  | none, _ => .error (.error (.unexpected ("--" ++ name)))
  | some (.switch s), none => (p.turnOn s).map fun p => (p, none)
  | some (.switch s), some _ => .error (.error (.needlessValue s.name))
  | some (.setting s), none => .ok (p, some s)
  | some (.setting s), some value => (p.set s value).map fun p => (p, none)

/-- The words that are operands whatever they look like. -/
def readOperands (p : Draft) (words : List String) : Except Stop Draft :=
  words.foldlM Draft.operand p

/-- The words of a command line, read.  `waiting` is an option that needs the
next word as its value. -/
def readWords (p : Draft) (waiting : Option Setting) : List String → Except Stop Draft
  | [] =>
      match waiting with
      | none => .ok p
      | some s => .error (.error (.missingValue s.name))
  | word :: rest =>
      match Word.ofString word, waiting with
      | .operand, some s => do readWords (← p.set s word) none rest
      | .operand, none => do readWords (← p.operand word) none rest
      | _, some s => .error (.error (.missingValue s.name))
      | .separator, none => readOperands p rest
      | .long name value, none => do
          let (p, waiting) ← readLong p name value
          readWords p waiting rest
      | .short letters, none => do
          let (p, waiting) ← readShort p letters
          readWords p waiting rest

/-- What a command line asks for. -/
def read (words : List String) : Except UsageError Invocation :=
  match readWords {} none words with
  | .ok p => p.finish
  | .error (.answer invocation) => .ok invocation
  | .error (.error e) => .error e

example : read ["a", "-o", "b", "--raw"]
    = .ok (.process { input := "a", output := some "b", raw := true }) := by cbv
example : read ["--raw", "--raw", "-V"] = .error (.repeated "--raw") := by cbv
example : read ["-V", "--raw", "--raw"] = .ok .version := by cbv
example : read ["a", "-o", "-V"] = .error (.missingValue "--output") := by cbv
example : read ["--", "--raw"] = .ok (.process { input := "--raw" }) := by cbv

end Arguments

end Stache
