import DomQuery.CommandLine.Run

/-!
# The Program

The command between its arguments and files on one side and its streams and exit
code on the other. What is answered is decided by `CommandLine.run`; what is
left here is to read the one file that a request can name and to write what came
out.
-/

namespace DomQuery

namespace CommandLine

/-- Why the system could not read a file. -/
def ReadError.ofSystem : IO.Error → ReadError
  | .noFileOrDirectory .. => .notFound
  | .permissionDenied .. => .permissionDenied
  | .inappropriateType _ code _ => if code = 20 then .notDirectory else .isDirectory
  | .invalidArgument _ code reason => if code = 36 then .nameTooLong else .other reason
  | error => .other (toString error)

/-- The bytes of a file, or why there are none. -/
def contentsOf (path : String) : IO Contents := do
  match ← (IO.FS.readBinFile path).toBaseIO with
  | .ok bytes => return .ok bytes
  | .error error => return .error (.ofSystem error)

/-- Reads the document that the arguments name, if they name one, and gives the
    answer. -/
def program (texts : List String) : IO UInt32 := do
  let path? := match Arguments.read texts with
    | .ok arguments => arguments.request.document?
    | .error _ => none
  let contents ← match path? with
    | some path => contentsOf path
    | none => pure (.error .notFound)
  let stdout ← IO.getStdout
  let outcome := run (fun _ => contents) (← stdout.isTty) texts
  stdout.putStr outcome.stdout
  (← IO.getStderr).putStr outcome.stderr
  return outcome.code.toUInt32

end CommandLine

end DomQuery

def main (texts : List String) : IO UInt32 := DomQuery.CommandLine.program texts
