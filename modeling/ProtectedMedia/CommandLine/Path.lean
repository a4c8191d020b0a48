import ProtectedMedia.Text.Blank
import ProtectedMedia.Text.Utf8

/-!
# Paths

A path is a list of names with slashes between them. Repeated slashes count once. A slash at the
front makes it start at the root, and one at the end says that it is meant to be the path of a
directory. Names and whole paths are limited in size, counted in bytes of UTF-8.
-/

namespace ProtectedMedia

/-- A path by its names, of which none is empty. -/
structure Path where
  absolute : Bool
  names : List String
  endsInSlash : Bool
  deriving DecidableEq

inductive Path.Fault where
  | empty
  | tooLong
  deriving DecidableEq

namespace Path

def maxSize : Nat := 4095

def maxNameSize : Nat := 255

/-- Takes a text apart, whatever its size. -/
def split (text : String) : Path where
  absolute := text.startsWith "/"
  names := ((Text.splitAll '/' text.toList).filter (· ≠ [])).map String.ofList
  endsInSlash := text.endsWith "/"

def ofText (text : String) : Except Fault Path :=
  if text = "" then .error .empty
  else if maxSize < (Text.utf8 text).length then .error .tooLong
  else .ok (split text)

def fitsName (name : String) : Bool := (Text.utf8 name).length ≤ maxNameSize

end Path

end ProtectedMedia
