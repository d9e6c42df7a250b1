import Pipeline.Tool.Basic

/-!
# The program

Connects `Pipeline.Tool.run` with the command line and the standard streams.
-/

namespace Pipeline.Tool

/-- What is printed when help is asked for, or a command line has no meaning. -/
def usage : List String :=
  ["Usage: pipeline [OPTIONS] [TEXT]",
   "",
   "Reads the specification TEXT, or standard input, and prints it in canonical form.",
   "",
   "Options:",
   "  -r, --rule <RULE>         literal, argument, source or sink [default: sink]",
   "      --ast                 print the tree as JSON instead",
   "      --check               fail unless the text is canonical",
   "      --spaced-empty-calls  write calls without arguments as name( )",
   "  -h, --help                print this help"]

/-- All bytes of `stream`, behind those read before. -/
partial def readBytes (stream : IO.FS.Stream) (before : ByteArray) : IO ByteArray := do
  let bytes ← stream.read 65536
  if bytes.isEmpty then return before
  else readBytes stream (before ++ bytes)

end Pipeline.Tool

open Pipeline.Tool

/-- Reads standard input only if the command line has no text. -/
def main (args : List String) : IO UInt32 := do
  match Request.ofArgs args with
  | .help =>
    usage.forM IO.println
    return 0
  | .misuse =>
    usage.forM IO.eprintln
    return 2
  | .run s =>
    let stdin ← if s.text.isSome then pure .empty else readBytes (← IO.getStdin) .empty
    let report := run s stdin
    IO.print report.stdout
    for w in report.warnings do
      IO.eprintln ("warning: " ++ w)
    IO.eprint report.stderr
    return report.code.toUInt32
