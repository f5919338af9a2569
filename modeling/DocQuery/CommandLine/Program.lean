import DocQuery.CommandLine.Arguments

/-! The whole program as a function of its arguments and its standard input. -/

namespace DocQuery

structure Outcome where
  exitCode : Nat
  stdout : String
  stderr : String
deriving DecidableEq, Repr

namespace Program

def versionText : String :=
  "sql2mongo 0.2.0\n"

def usageText : String :=
  "Usage: sql2mongo [OPTIONS] <COMMAND>\n"

def lines (texts : List String) : String :=
  String.join (texts.map (· ++ "\n"))

def helpText : Option Command → String
  | none =>
    lines
      ["Translate SQL SELECT statements into MongoDB find queries and aggregation pipelines",
       "",
       "Usage: sql2mongo [OPTIONS] <COMMAND>",
       "",
       "Commands:",
       "  translate  Translate a SELECT statement and print the query as JSON",
       "  check      Check that a SELECT statement translates, without printing it",
       "  help       Print this message or the help of the given subcommand(s)",
       "",
       "Options:",
       "  -v, --verbose  Log translation steps to stderr",
       "  -h, --help     Print help",
       "  -V, --version  Print version"]
  | some (.translate _) =>
    lines
      ["Translate a SELECT statement and print the query as JSON",
       "",
       "Usage: sql2mongo translate [OPTIONS] [SQL]",
       "",
       "Arguments:",
       "  [SQL]  The SQL statement (reads from stdin if not provided)",
       "",
       "Options:",
       "  -p, --pretty   Pretty-print the output",
       "  -v, --verbose  Log translation steps to stderr",
       "  -h, --help     Print help"]
  | some .check =>
    lines
      ["Check that a SELECT statement translates, without printing it",
       "",
       "Usage: sql2mongo check [OPTIONS] [SQL]",
       "",
       "Arguments:",
       "  [SQL]  The SQL statement (reads from stdin if not provided)",
       "",
       "Options:",
       "  -v, --verbose  Log translation steps to stderr",
       "  -h, --help     Print help"]

/-- The source text: the argument if there is one, otherwise standard input. -/
def sourceText (sql : Option String) (stdin : ByteArray) : Except CommandError String :=
  match sql with
  | some text => .ok text
  | none =>
    match String.fromUTF8? stdin with
    | some text => .ok text
    | none => .error .notUtf8

/-- Misuse ends with 2, and a text without a query with 1. -/
def run (arguments : List String) (stdin : ByteArray) : Outcome :=
  match Request.read arguments with
  | none => ⟨2, "", usageText⟩
  | some .version => ⟨0, versionText, ""⟩
  | some (.help command) => ⟨0, helpText command, ""⟩
  | some (.run command sql) =>
    match sourceText sql stdin >>= command.run with
    | .ok text => ⟨0, text ++ "\n", ""⟩
    | .error e => ⟨1, "", e.message ++ "\n"⟩

end Program

end DocQuery
