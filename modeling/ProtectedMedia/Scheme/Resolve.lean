import ProtectedMedia.Error

/-!
# Recognising a protection scheme

A file names its scheme by a code and may give a pattern with it. The code has to be one of the
four that are known, and only then is the pattern looked at: a scheme without patterns takes none.
-/

namespace ProtectedMedia.Scheme

/-- The scheme that a code and a pattern together stand for. -/
def resolve (code : FourCC) (pattern : Pattern) : Except Error Scheme :=
  match ofCode? code with
  | none => .error (.unsupported (.scheme code))
  | some scheme =>
    if !scheme.allowsPattern && !pattern.isNone then
      .error (.layout (.patternNotAllowed scheme))
    else .ok scheme

end ProtectedMedia.Scheme
