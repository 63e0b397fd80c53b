import PredictiveParsing.CommandLine

/-!
# The program

Standard input, files and the two output streams around `CommandLine.respond`.
-/

namespace PredictiveParsing.CommandLine

/-- All bytes of a stream. -/
partial def readAll (stream : IO.FS.Stream) (bytes : ByteArray) : IO ByteArray := do
  let more ← stream.read 65536
  if more.isEmpty then return bytes else readAll stream (bytes ++ more)

/-- The fault behind an error of the operating system. -/
def faultOf : IO.Error → SourceFault
  | .noFileOrDirectory .. => .missing
  | .inappropriateType .. => .directory
  | e => .other (toString e).toList

/-- The text of a file, or of standard input. -/
def fetch (file? : Option Text) : IO (Except SourceFault Text) := do
  let bytes : IO ByteArray :=
    match file? with
    | some file => IO.FS.readBinFile (String.ofList file)
    | none => do readAll (← IO.getStdin) .empty
  try return decode (← bytes)
  catch e => return .error (faultOf e)

end PredictiveParsing.CommandLine

open PredictiveParsing.CommandLine in
/-- Answers the arguments, prints the outcome, and returns its exit code. -/
def main (args : List String) : IO UInt32 := do
  let outcome ← respond (args.map String.toList) fetch
  IO.print (String.ofList outcome.stdout)
  IO.eprint (String.ofList outcome.stderr)
  return outcome.code.toUInt32
