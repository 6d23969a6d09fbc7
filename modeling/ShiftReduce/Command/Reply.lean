import ShiftReduce.Machine
import ShiftReduce.Command.Help

/-!
What a command answers. The files that it reads and writes are given and taken as bytes, so all of
it is decided here; a failure has code 1 and names its cause, and misuse has code 2.
-/

namespace ShiftReduce

inductive FileFault where
  | noSuchFile
  | permissionDenied
  | isDirectory
  | notADirectory
  | nameTooLong
  | notUnicode
  | other (text : String)
deriving DecidableEq

def FileFault.text : FileFault → String
  | noSuchFile => "No such file or directory (os error 2)"
  | permissionDenied => "Permission denied (os error 13)"
  | isDirectory => "Is a directory (os error 21)"
  | notADirectory => "Not a directory (os error 20)"
  | nameTooLong => "File name too long (os error 36)"
  | notUnicode => "stream did not contain valid UTF-8"
  | other text => text

structure Reply where
  code : Nat
  stdout : String
  stderr : String
deriving DecidableEq

inductive Effect where
  | reply (r : Reply)
  | write (path text : String)
deriving DecidableEq

namespace Reply

def success (stdout : String) : Reply := ⟨0, stdout, ""⟩

def failure (stdout text : String) : Reply := ⟨1, stdout, "Error: " ++ text ++ "\n"⟩

def failureBecause (text cause : String) : Reply :=
  ⟨1, "", "Error: " ++ text ++ "\n\nCaused by:\n    " ++ cause ++ "\n"⟩

def help (topic : Topic) : Reply := success topic.page

def misuse : Reply := ⟨2, "", Topic.program.page⟩

def ofWrite (path : String) : Except FileFault Unit → Reply
  | .ok () => success ""
  | .error fault => failureBecause ("cannot create " ++ path) fault.text

end Reply

namespace Command

def grammarPath : Command → String
  | table grammar _ _ => grammar
  | parse grammar _ => grammar
  | dot grammar _ => grammar

def conflictLines (c : Construction) : List String :=
  if c.isSLR1 then [] else ["", toString c.conflicts.length ++ " conflicts"]

def ofRun : Run → Reply
  | .ended t =>
      match t.failure? with
      | none => .success t.text
      | some cause => .failure t.text cause.message
  | _ => .failure "" "the parse has no end"

def onConstruction (c : Construction) : Command → Effect
  | table _ states sets =>
      .reply (.success (Text.unlines (c.listingLines states sets ++ conflictLines c)))
  | parse _ input => .reply (ofRun (c.parse input))
  | dot _ none => .reply (.success c.diagram.toDot)
  | dot _ (some path) => .write path c.diagram.toDot

def textOf? (file : Except FileFault ByteArray) : Except FileFault String :=
  file.bind fun bytes =>
    match String.fromUTF8? bytes with
    | some text => .ok text
    | none => .error .notUnicode

def effect (command : Command) (file : Except FileFault ByteArray) : Effect :=
  match textOf? file with
  | .error fault =>
      .reply (.failureBecause ("cannot read grammar " ++ command.grammarPath) fault.text)
  | .ok text =>
      match Construction.ofText text with
      | .error cause =>
          .reply (.failureBecause ("invalid grammar " ++ command.grammarPath) cause.message)
      | .ok c => command.onConstruction c

end Command

end ShiftReduce
