import ProtectedMedia.Scheme

/-!
# Decryption modules

A content decryption module takes one contiguous protected run at a time. It is handed the run and
a destination, writes into the destination and answers with a status. A module may keep a state
from call to call, for instance a log; it can never change the size of a destination.
-/

namespace ProtectedMedia

inductive Status where
  | success
  | notSupported
  | keyNotFound
  | unknown
  deriving DecidableEq

/-- One protected run to decrypt. `blockOffset` is the position of its first byte inside the first
block and has a meaning in counter mode only. -/
structure Request where
  mode : CipherMode
  pattern : Pattern
  blockOffset : Nat
  keyId : Bytes
  iv : Bytes
  data : Bytes
  deriving DecidableEq

/-- What a call leaves behind: the status, the destination and the state of the module. -/
structure Reply (σ : Type) where
  status : Status
  dest : Bytes
  state : σ

/-- A decryption module with states in `σ`. -/
structure DecryptionModule (σ : Type) where
  decrypt : σ → Request → Bytes → Reply σ
  length_dest : ∀ s r dest, (decrypt s r dest).dest.length = dest.length

end ProtectedMedia
