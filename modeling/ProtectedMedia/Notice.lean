/-!
# Notices

What an operation has to say beside its result. Pure code returns notices or derives them from the
cause of a failure; the command line prints them.
-/

namespace ProtectedMedia

inductive Level where
  | error
  | warning
  | info
  deriving DecidableEq

structure Notice where
  level : Level
  text : String
  deriving DecidableEq

end ProtectedMedia
