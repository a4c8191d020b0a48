import ProtectedMedia.DecryptionModule

/-!
# Modules that follow a script

A scripted module answers each call with the next status of a list, the last one again and again,
and writes the complement of every byte it is given. It keeps the calls it got, each with the size
of its destination, so that it shows how a module is used.
-/

namespace ProtectedMedia

structure Call where
  request : Request
  destSize : Nat
  deriving DecidableEq

namespace DecryptionModule

/-- Writes the complement of the data over the front of a destination. -/
def complement : Bytes → Bytes → Bytes
  | x :: data, _ :: dest => ~~~x :: complement data dest
  | _, dest => dest

theorem length_complement (data dest : Bytes) :
    (complement data dest).length = dest.length := by
  induction data generalizing dest with
  | nil => simp [complement]
  | cons x data ih => cases dest <;> simp [complement, ih]

/-- The status of call number `n` by a script. -/
def scriptedStatus (script : List Status) (n : Nat) : Status :=
  (script[n]?).getD (script.getLastD .success)

/-- A module that follows a script. Its state is the list of calls so far, latest last. -/
def scripted (script : List Status) : DecryptionModule (List Call) where
  decrypt calls r dest :=
    ⟨scriptedStatus script calls.length, complement r.data dest, calls ++ [⟨r, dest.length⟩]⟩
  length_dest _ r dest := length_complement r.data dest

end DecryptionModule

end ProtectedMedia
