import ShiftReduce.Command.Reply

/-!
Commands over files that are held in memory. A path is followed part by part, through a working
directory that holds the given files, the directories above it and the root, where nothing else is.
Writing follows all parts but the last, which may be missing.
-/

namespace ShiftReduce

/-- Where places are counted from: the root, or the directory so many levels above the folder. -/
inductive Base where
  | root
  | above (levels : Nat)
deriving DecidableEq

/-- The root is above itself. -/
def Base.parent : Base → Base
  | root => root
  | above n => above (n + 1)

structure Place where
  base : Base
  names : List String
deriving DecidableEq

namespace Place

def parent (p : Place) : Place :=
  if p.names.isEmpty then ⟨p.base.parent, []⟩ else ⟨p.base, p.names.dropLast⟩

def child (p : Place) (name : String) : Place := ⟨p.base, p.names ++ [name]⟩

def isBelow (p q : Place) : Bool :=
  p.base == q.base && q.names.isPrefixOf p.names && p.names.length > q.names.length

theorem parent_child (p : Place) (name : String) : (p.child name).parent = p := by
  simp [child, parent]

end Place

namespace Path

def parts (path : String) : List String := (path.toList.splitOnP (· == '/')).map String.ofList

def endsInSlash (path : String) : Bool := path.toList.getLast? == some '/'

def origin (path : String) : Place :=
  if path.toList.head? = some '/' then ⟨.root, []⟩ else ⟨.above 0, []⟩

def longestName : Nat := 255

def longestPath : Nat := 4095

/-- Why a path leads nowhere, whatever files there are. -/
def fault? (path : String) : Option FileFault :=
  if path.isEmpty then some .noSuchFile
  else if path.utf8ByteSize > longestPath then some .nameTooLong
  else none

def check (path : String) : Except FileFault Unit :=
  match fault? path with
  | some fault => .error fault
  | none => .ok ()

end Path

structure Folder where
  files : List (Place × ByteArray)

namespace Folder

def ofFiles (files : List (String × ByteArray)) : Folder :=
  ⟨files.map fun (path, bytes) => (⟨.above 0, Path.parts path⟩, bytes)⟩

def find? (f : Folder) (place : Place) : Option ByteArray := f.files.lookup place

/-- The places that paths are counted from, and whatever has a file below it. -/
def isDirectory (f : Folder) (place : Place) : Bool :=
  place.names.isEmpty || f.files.any fun (p, _) => p.isBelow place

def holds (f : Folder) (place : Place) : Bool := (f.find? place).isSome || f.isDirectory place

def step (f : Folder) (place : Place) (part : String) : Except FileFault Place :=
  if !f.isDirectory place then .error .notADirectory
  else if part.isEmpty || part == "." then .ok place
  else if part == ".." then .ok place.parent
  else if part.utf8ByteSize > Path.longestName then .error .nameTooLong
  else if f.holds (place.child part) then .ok (place.child part)
  else .error .noSuchFile

def follow (f : Folder) (start : Place) (parts : List String) : Except FileFault Place :=
  parts.foldlM f.step start

def read (f : Folder) (path : String) : Except FileFault ByteArray := do
  Path.check path
  let place ← f.follow (Path.origin path) (Path.parts path)
  if f.isDirectory place then .error .isDirectory
  else
    match f.find? place with
    | some bytes => .ok bytes
    | none => .error .noSuchFile

def put (f : Folder) (place : Place) (bytes : ByteArray) : Folder :=
  ⟨(place, bytes) :: f.files.filter fun (p, _) => p != place⟩

/-- Where a file can be written that a path names by its last part. A slash behind that part asks
for a directory, and then the part itself does not matter. -/
def destination (f : Folder) (path : String) : Except FileFault Place :=
  match (Path.parts path).reverse.dropWhile String.isEmpty with
  | [] => .error .isDirectory
  | last :: way => do
      let place ← f.follow (Path.origin path) way.reverse
      if !f.isDirectory place then .error .notADirectory
      else if last == "." || last == ".." || Path.endsInSlash path then .error .isDirectory
      else if last.utf8ByteSize > Path.longestName then .error .nameTooLong
      else if f.isDirectory (place.child last) then .error .isDirectory
      else .ok (place.child last)

def write (f : Folder) (path : String) (bytes : ByteArray) : Except FileFault Folder := do
  Path.check path
  return f.put (← f.destination path) bytes

theorem find?_put (f : Folder) (place : Place) (bytes : ByteArray) :
    (f.put place bytes).find? place = some bytes := by
  simp [put, find?]

def perform (f : Folder) : Effect → Reply × Folder
  | .reply r => (r, f)
  | .write path text =>
      match f.write path text.toUTF8 with
      | .ok g => (.ofWrite path (.ok ()), g)
      | .error fault => (.ofWrite path (.error fault), f)

def run (f : Folder) (words : List String) : Reply × Folder :=
  match Invocation.ofWords words with
  | .help topic => (.help topic, f)
  | .misuse => (.misuse, f)
  | .command c => f.perform (c.effect (f.read c.grammarPath))

end Folder

end ShiftReduce
