import DocQuery.CommandLine.Command

/-! The arguments of the program: options, a command, and the source text. -/

namespace DocQuery

inductive Flag where
  | verbose
  | pretty
  | help
  | version
deriving DecidableEq, Repr

inductive Request where
  /-- Runs a command on the given text, or on standard input. -/
  | run (command : Command) (sql : Option String)
  | help (command : Option Command)
  | version
deriving DecidableEq, Repr

namespace Request

/-- An argument by its shape. A flag that nobody knows is `none`. -/
inductive Argument where
  | separator
  | flags (flags : List (Option Flag))
  | value (text : String)

def longFlag? (name : List Char) : Option Flag :=
  [("verbose", Flag.verbose), ("pretty", .pretty), ("help", .help), ("version", .version)].lookup
    (String.ofList name)

def shortFlag? (c : Char) : Option Flag :=
  [('v', Flag.verbose), ('p', .pretty), ('h', .help), ('V', .version)].lookup c

/-- A lone `--` ends the options and a lone `-` is a value; short flags may stand together. -/
def classify (argument : String) : Argument :=
  match argument.toList with
  | ['-', '-'] => .separator
  | '-' :: '-' :: name => .flags [longFlag? name]
  | '-' :: c :: flags => .flags ((c :: flags).map shortFlag?)
  | _ => .value argument

/-- Flags as they are read: those seen so far, or a request that ends the reading. -/
inductive Flags where
  | seen (flags : List Flag)
  | ask (flag : Flag)
  | invalid

/-- Reads flags one after another. A flag that is not allowed here or that is given twice is
refused; help and version are answered at once. -/
def readFlags (allowed : List Flag) (seen : List Flag) : List (Option Flag) → Flags
  | [] => .seen seen
  | none :: _ => .invalid
  | some flag :: flags =>
    if !allowed.contains flag then .invalid
    else if flag = .help ∨ flag = .version then .ask flag
    else if seen.contains flag then .invalid
    else readFlags allowed (flag :: seen) flags

/-- At most one value in all. -/
def readValue (sql : Option String) : List String → Option (Option String)
  | [] => some sql
  | value :: values => if sql.isSome ∨ values ≠ [] then none else some (some value)

/-- The arguments of a command; `make` is told whether to print indented. -/
def readCommand (allowed : List Flag) (make : Bool → Command) (seen : List Flag)
    (sql : Option String) : List String → Option Request
  | [] => some (.run (make (seen.contains .pretty)) sql)
  | argument :: arguments =>
    match classify argument with
    | .separator =>
      (readValue sql arguments).map fun sql => .run (make (seen.contains .pretty)) sql
    | .flags flags =>
      match readFlags allowed seen flags with
      | .seen seen => readCommand allowed make seen sql arguments
      | .ask _ => some (.help (some (make false)))
      | .invalid => none
    | .value text =>
      if sql.isSome then none else readCommand allowed make seen (some text) arguments

def readHelp : List String → Option Request
  | [] => some (.help none)
  | "translate" :: _ => some (.help (some (.translate false)))
  | "check" :: _ => some (.help (some .check))
  | "help" :: _ => some (.help none)
  | _ => none

/-- What the arguments of the program ask for; `none` when they are misused. -/
def readFrom (seen : List Flag) : List String → Option Request
  | [] => none
  | argument :: arguments =>
    match classify argument with
    | .separator => none
    | .flags flags =>
      match readFlags [.verbose, .help, .version] seen flags with
      | .seen seen => readFrom seen arguments
      | .ask .version => some .version
      | .ask _ => some (.help none)
      | .invalid => none
    | .value "translate" =>
      readCommand [.verbose, .pretty, .help] .translate [] none arguments
    | .value "check" => readCommand [.verbose, .help] (fun _ => .check) [] none arguments
    | .value "help" => readHelp arguments
    | .value _ => none

def read (arguments : List String) : Option Request :=
  readFrom [] arguments

end Request

end DocQuery
