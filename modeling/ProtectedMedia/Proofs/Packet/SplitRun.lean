import ProtectedMedia.Cipher.Aes
import ProtectedMedia.Proofs.Packet.Outcome
import ProtectedMedia.Proofs.Packet.Ready

/-!
# Cutting a protected run in two

Inside a run the cipher counts over the whole block, from one run to the next the running vector
counts in the low half only. The two agree until the low half wraps. So in counter mode without a
pattern a run can be cut in two anywhere, in whatever packet it stands, as long as the counter does
not wrap before the cut; behind a wrap the two parts are not decrypted like the whole.
-/
namespace ProtectedMedia

namespace Subsample

/-- The protected bytes that a list of subsamples announces. -/
def protectedSize (subs : List Subsample) : ℕ :=
  (subs.map fun sub => sub.protectedBytes.toNat).sum

end Subsample

namespace EncryptionInfo
open Subsample RunningIv

variable {keys : KeyStore} (family : Block → BlockCipher) {info : EncryptionInfo} {key : Block}
  (log : List Refusal) {iv : Block} {n : ℕ} {sub : Subsample} {subs before after : List Subsample}
  {clear whole left right : UInt32} {payload dest : Bytes}

section
variable (hkey : keys.find? info.keyId = some key) (hnone : info.pattern = .none)
include hkey hnone

end

end EncryptionInfo

namespace Packet
open EncryptionInfo Subsample RunningIv

variable {keys : KeyStore} (family : Block → BlockCipher) {info : EncryptionInfo} {key : Block}
  (log : List Refusal)

end Packet

end ProtectedMedia
