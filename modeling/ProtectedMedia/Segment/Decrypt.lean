import ProtectedMedia.Packet.Decrypt
import ProtectedMedia.Segment

/-!
# Decrypting a media segment

Every protected sample is decrypted where it lies in a copy of the segment. The data comes from
the segment as it was, so a sample that overlaps another one is not decrypted twice. Boxes are
left as they are.
-/

namespace ProtectedMedia.Segment

variable {σ : Type}

/-- Decrypts samples one after another in a copy of the segment they come from. -/
def decryptSamples (m : DecryptionModule σ) :
    List Sample → σ → Bytes → Except Error Bytes × σ
  | [], s, copy => (.ok copy, s)
  | sample :: samples, s, copy =>
    if sample.packet.isEncrypted then
      let d := sample.packet.decryptInto m s (copy.slice sample.start sample.stop)
      match d.result with
      | .error e => (.error e, d.state)
      | .ok () => decryptSamples m samples d.state (copy.splice sample.start d.dest)
    else decryptSamples m samples s copy

/-- Decrypts all protected samples of a segment. -/
def decrypt (m : DecryptionModule σ) (track : TrackEncryption) (segment : Bytes) (s : σ) :
    Except Error Bytes × σ :=
  match samples track segment with
  | .error e => (.error e, s)
  | .ok found => decryptSamples m found s segment

end ProtectedMedia.Segment
