import DocQuery.CommandLine.Program

/-! The command line. -/

namespace DocQuery.Program

/-- Standard input is read only when the arguments name no source text. -/
def readInput (arguments : List String) : IO ByteArray := do
  match Request.read arguments with
  | some (.run _ none) => (← IO.getStdin).readBinToEnd
  | _ => return ByteArray.empty

end DocQuery.Program

def main (arguments : List String) : IO UInt32 := do
  let outcome := DocQuery.Program.run arguments (← DocQuery.Program.readInput arguments)
  IO.print outcome.stdout
  IO.eprint outcome.stderr
  return outcome.exitCode.toUInt32
