import ProtectedMedia.CommandLine.Run
import ProtectedMedia.Media.Registry

/-!
# The program

Reads the files that a command line names, carries the command line out, writes the output file
and prints. Nothing is decided here.
-/

namespace ProtectedMedia.Program

open CommandLine

/-- Whether a code of the system stands for an error number; some calls negate the number. -/
def isNumber (code number : UInt32) : Bool := code = number || code = 0 - number

/-- A system error as the fault of a file. -/
def fileFault : IO.Error → FileFault
  | .noFileOrDirectory .. => .notFound
  | .inappropriateType _ code _ => if isNumber code 20 then .notDirectory else .isDirectory
  | .invalidArgument file code details =>
    if isNumber code 36 then .nameTooLong
    else .other (toString (IO.Error.invalidArgument file code details))
  | e => .other (toString e)

def readFile (path : String) : IO (Except FileFault Bytes) := do
  try
    let data ← IO.FS.readBinFile path
    return .ok data.toList
  catch e => return .error (fileFault e)

def writeFile (path : String) (data : Bytes) : IO (Option FileFault) := do
  try
    IO.FS.writeBinFile path (ByteArray.mk data.toArray)
    return none
  catch e => return some (fileFault e)

/-- Reads files beforehand, so that pure code can look them up. -/
def readFiles (paths : List String) : IO ReadFile := do
  let table ← paths.mapM fun path => do return (path, ← readFile path)
  return fun path => (table.lookup path).getD (.error .notFound)

def report (color : Bool) (url : String) : Command → IO Report
  | .decrypt args => do
    let draft := args.draft (← readFiles (args.init.toList ++ args.inputs))
    match draft.result with
    | .error _ => return args.report draft fun _ => none
    | .ok data =>
      let fault ← writeFile args.output data
      return args.report draft fun _ => fault
  | .probe args => do
    return args.run color (← readFiles (args.input :: args.init.toList))
  | .typeSupported args => return args.run color url

def randomBlock : IO Block := do
  let bytes ← IO.getRandomBytes 16
  return (Block.ofBytes? bytes.toList).getD Block.zero

def print (o : Outcome) : IO UInt32 := do
  (← IO.getStdout).putStr o.output
  for line in o.errorLines do
    (← IO.getStderr).putStrLn line.text
  return UInt32.ofNat o.exitCode

def run (args : List String) : IO UInt32 := do
  match Invocation.ofArgs args with
  | .error stop => print stop.outcome
  | .ok i =>
    let color := i.settings.isColored (← (← IO.getStderr).isTty)
    let r ← report color (BlobUrl.ofRandom (← randomBlock)) i.command
    print (r.outcome i.settings color)

end ProtectedMedia.Program

def main (args : List String) : IO UInt32 := ProtectedMedia.Program.run args
