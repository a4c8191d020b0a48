import ProtectedMedia.CommandLine.Path

/-!
# Disks

What the command line sees of a file system: it reads whole files and writes one. The files it can
see lie in a working directory and in directories below. Of the directories above nothing is known
but that they are there; at the root there are the directories that every system has, and the null
device.

A path is followed name by name, and the first name that leads nowhere decides the fault. To read
is to follow all of a path. To write is to follow it up to the last name and then to look that one
up, because it may be missing.
-/

namespace ProtectedMedia

inductive FileFault where
  | notFound
  | notDirectory
  | isDirectory
  | nameTooLong
  /-- Anything else, in the words of the system. -/
  | other (reason : String)
  deriving DecidableEq

def FileFault.message : FileFault → String
  | .notFound => "No such file or directory (os error 2)"
  | .notDirectory => "Not a directory (os error 20)"
  | .isDirectory => "Is a directory (os error 21)"
  | .nameTooLong => "File name too long (os error 36)"
  | .other reason => reason

def Path.Fault.toFileFault : Path.Fault → FileFault
  | .empty => .notFound
  | .tooLong => .nameTooLong

namespace Disk

/-- A directory that is there whatever the files are. -/
inductive Base where
  /-- So many levels above the working directory; it is itself at level zero. -/
  | above (levels : Nat)
  | root
  deriving DecidableEq

/-- A place in the file system: names to follow from a base. -/
structure Location where
  base : Base
  names : List String
  deriving DecidableEq

namespace Location

def workingDirectory : Location := ⟨.above 0, []⟩

def root : Location := ⟨.root, []⟩

def nullDevice : Location := ⟨.root, ["dev", "null"]⟩

/-- The directories that every system has at the root. -/
def systemDirectories : List String :=
  ["bin", "dev", "etc", "home", "lib", "media", "mnt", "opt", "proc", "root", "run", "sbin", "srv",
    "sys", "tmp", "usr", "var"]

def child (l : Location) (name : String) : Location := { l with names := l.names ++ [name] }

/-- One level up; there is nothing above the root. -/
def parent (l : Location) : Location :=
  match l.base, l.names with
  | .root, [] => l
  | .above levels, [] => ⟨.above (levels + 1), []⟩
  | _, names => { l with names := names.dropLast }

/-- Whether a location is inside another one, or is that one. -/
def isWithin (l dir : Location) : Bool := l.base = dir.base && dir.names.isPrefixOf l.names

/-- Whether a location is a directory on every disk. -/
def isFixedDirectory (l : Location) : Bool :=
  match l.base, l.names with
  | _, [] => true
  | .root, [name] => systemDirectories.contains name
  | _, _ => false

end Location

inductive Place where
  | directory (location : Location)
  | file (location : Location) (data : Bytes)
  /-- What reads as empty and forgets what is written. -/
  | nullDevice
  /-- Nothing, but in a directory that is there. -/
  | absent (location : Location)
  deriving DecidableEq

end Disk

/-- The files that are known, by location. -/
structure Disk where
  files : List (Disk.Location × Bytes)
  deriving DecidableEq

namespace Disk

/-- A disk with files of the given paths in the working directory. -/
def ofFiles (files : List (String × Bytes)) : Disk :=
  ⟨files.map fun (path, data) => (⟨.above 0, (Path.split path).names⟩, data)⟩

def placeAt (d : Disk) (l : Location) : Place :=
  match d.files.lookup l with
  | some data => .file l data
  | none =>
    if l = Location.nullDevice then .nullDevice
    else if l.isFixedDirectory || d.files.any fun f => f.1.isWithin l then .directory l
    else .absent l

/-- Follows one name of a path, which is possible only from a directory. -/
def follow (d : Disk) (place : Place) (name : String) : Except FileFault Place :=
  match place with
  | .file .. | .nullDevice => .error .notDirectory
  | .absent _ => .error .notFound
  | .directory l =>
    if name = "." then .ok place
    else if name = ".." then .ok (.directory l.parent)
    else if !Path.fitsName name then .error .nameTooLong
    else .ok (d.placeAt (l.child name))

def start (path : Path) : Place :=
  .directory (if path.absolute then Location.root else Location.workingDirectory)

/-- Follows all of a path. What ends in a slash has to be a directory. -/
def resolve (d : Disk) (path : Path) : Except FileFault Place := do
  let place ← path.names.foldlM d.follow (start path)
  if path.endsInSlash then d.follow place "." else return place

/-- Follows a path to where something is to be written. What ends in a slash is taken for a
directory: its last name is not even looked up. -/
def resolveTarget (d : Disk) (path : Path) : Except FileFault Place := do
  let parent ← path.names.dropLast.foldlM d.follow (start path)
  d.follow parent (if path.endsInSlash then "." else path.names.getLastD ".")

def locate (follow : Path → Except FileFault Place) (text : String) : Except FileFault Place :=
  match Path.ofText text with
  | .error fault => .error fault.toFileFault
  | .ok path => follow path

def read (d : Disk) (path : String) : Except FileFault Bytes :=
  match locate d.resolve path with
  | .error fault => .error fault
  | .ok (.file _ data) => .ok data
  | .ok .nullDevice => .ok []
  | .ok (.absent _) => .error .notFound
  | .ok (.directory _) => .error .isDirectory

/-- The disk with a file at a location, in place of what was there. -/
def put (d : Disk) (l : Location) (data : Bytes) : Disk :=
  ⟨(l, data) :: d.files.filter fun f => f.1 ≠ l⟩

def write (d : Disk) (path : String) (data : Bytes) : Except FileFault Disk :=
  match locate d.resolveTarget path with
  | .error fault => .error fault
  | .ok (.file l _) | .ok (.absent l) => .ok (d.put l data)
  | .ok .nullDevice => .ok d
  | .ok (.directory _) => .error .isDirectory

end Disk

end ProtectedMedia
