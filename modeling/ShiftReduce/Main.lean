import ShiftReduce.Command.Reply

/-!
The program: reads the grammar file of a command, carries the command out and writes what it
answers.
-/

namespace ShiftReduce.Program

/-- A fault by its number, which some calls of the system give with its sign reversed. -/
def numbered (code : UInt32) (details : String) : FileFault :=
  let number := if code ≤ 4095 then code else 0 - code
  match number.toNat with
  | 2 => .noSuchFile
  | 13 => .permissionDenied
  | 20 => .notADirectory
  | 21 => .isDirectory
  | 36 => .nameTooLong
  | n => .other (details ++ " (os error " ++ toString n ++ ")")

def faultOf : IO.Error → FileFault
  | .noFileOrDirectory _ code details => numbered code details
  | .inappropriateType _ code details => numbered code details
  | .invalidArgument _ code details => numbered code details
  | .permissionDenied _ code details => numbered code details
  | .resourceExhausted _ code details => numbered code details
  | .noSuchThing _ code details => numbered code details
  | .otherError code details => numbered code details
  | e => .other (toString e)

def attempt {α : Type} (act : IO α) : IO (Except FileFault α) := do
  match ← act.toBaseIO with
  | .ok a => return .ok a
  | .error e => return .error (faultOf e)

def perform : Effect → IO Reply
  | .reply r => return r
  | .write path text => return .ofWrite path (← attempt (IO.FS.writeFile path text))

def replyTo (words : List String) : IO Reply :=
  match Invocation.ofWords words with
  | .help topic => return .help topic
  | .misuse => return .misuse
  | .command c => do perform (c.effect (← attempt (IO.FS.readBinFile c.grammarPath)))

end ShiftReduce.Program

def main (words : List String) : IO UInt32 := do
  let r ← ShiftReduce.Program.replyTo words
  (← IO.getStdout).putStr r.stdout
  (← IO.getStderr).putStr r.stderr
  return r.code.toUInt32
