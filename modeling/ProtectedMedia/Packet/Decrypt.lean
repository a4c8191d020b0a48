import ProtectedMedia.DecryptionModule
import ProtectedMedia.Packet
import ProtectedMedia.RunningIv
import ProtectedMedia.Scheme.Resolve

/-!
# Decrypting a packet

The payload is walked along its subsamples. Clear runs are copied, protected runs are handed to
the decryption module one by one, and the running vector moves over each of them afterwards. A
packet without subsamples is one call for the whole payload.

Whatever was written before a failure stays written: a destination is part of every outcome.
-/

namespace ProtectedMedia

variable {σ : Type}

/-- What decryption leaves behind, whether it succeeds or not. -/
structure Decryption (σ : Type) where
  result : Except Error Unit
  dest : Bytes
  state : σ

/-- A broken promise of the caller of a decryption. -/
inductive Packet.Misuse where
  | notEncrypted
  | destTooSmall (dest payload : Nat)
  deriving DecidableEq

def Packet.Misuse.message : Packet.Misuse → String
  | .notEncrypted => "This packet isn't encrypted"
  | .destTooSmall dest payload =>
    "Output buffer (" ++ toString dest ++ " bytes) is smaller than the packet (" ++
      toString payload ++ " bytes)"

def Status.toResult (keyId : Bytes) : Status → Except Error Unit
  | .success => .ok ()
  | .notSupported => .error (.unsupported .content)
  | .keyNotFound => .error (.keyNotFound (Hex.encode keyId))
  | .unknown => .error .unknown

namespace EncryptionInfo

/-- The request for a protected run that starts at a running vector. -/
def request (info : EncryptionInfo) (scheme : Scheme) (iv : RunningIv) (run : Bytes) : Request where
  mode := scheme.mode
  pattern := info.pattern
  blockOffset := iv.offset
  keyId := info.keyId
  iv := iv.block.toBytes
  data := run

/-- Decrypts a payload along a list of subsamples. `dest` is what is left of the destination; it
is at least as long as the payload. -/
def decryptRuns (m : DecryptionModule σ) (info : EncryptionInfo) (scheme : Scheme) :
    List Subsample → RunningIv → σ → (payload dest : Bytes) → Decryption σ
  | [], _, s, payload, dest =>
    ⟨if payload.isEmpty then .ok () else .error (.layout .payloadLeftOver), dest, s⟩
  | sub :: subs, iv, s, payload, dest =>
    if !payload.atLeast sub.size then ⟨.error (.layout .subsampleTooLong), dest, s⟩
    else
      let clear := payload.take sub.clearBytes.toNat
      let payload := payload.drop sub.clearBytes.toNat
      let dest := dest.drop sub.clearBytes.toNat
      if sub.protectedBytes = 0 then
        let after := decryptRuns m info scheme subs iv s payload dest
        { after with dest := clear ++ after.dest }
      else
        let run := payload.take sub.protectedBytes.toNat
        let payload := payload.drop sub.protectedBytes.toNat
        let reply := m.decrypt s (info.request scheme iv run) (dest.take sub.protectedBytes.toNat)
        let dest := dest.drop sub.protectedBytes.toNat
        match reply.status.toResult info.keyId with
        | .error e => ⟨.error e, clear ++ reply.dest ++ dest, reply.state⟩
        | .ok () =>
          match iv.advance scheme info.pattern run with
          | .error e => ⟨.error e, clear ++ reply.dest ++ dest, reply.state⟩
          | .ok iv =>
            let after := decryptRuns m info scheme subs iv reply.state payload dest
            { after with dest := clear ++ reply.dest ++ after.dest }

/-- Decrypts a payload with its parameters. The module gets nothing to do unless scheme, pattern
and vector are in order. -/
def decrypt (m : DecryptionModule σ) (info : EncryptionInfo) (s : σ) (payload dest : Bytes) :
    Decryption σ :=
  match Scheme.resolve info.scheme info.pattern with
  | .error e => ⟨.error e, dest, s⟩
  | .ok scheme =>
    match RunningIv.ofBytes info.iv with
    | .error e => ⟨.error e, dest, s⟩
    | .ok iv =>
      if info.subsamples.isEmpty then
        let reply := m.decrypt s (info.request scheme iv payload) dest
        ⟨reply.status.toResult info.keyId, reply.dest, reply.state⟩
      else decryptRuns m info scheme info.subsamples iv s payload dest

end EncryptionInfo

namespace Packet

/-- Decrypts the payload of an encrypted packet into a destination of at least its size. -/
def decryptInto (m : DecryptionModule σ) (p : Packet) (s : σ) (dest : Bytes) : Decryption σ :=
  match p.encryptionInfo with
  | .error e => ⟨.error e, dest, s⟩
  | .ok none => ⟨.error .unknown, dest, s⟩
  | .ok (some info) => info.decrypt m s p.data dest

/-- Checks what the caller of `decryptInto` promises. -/
def misuse? (p : Packet) (destSize : Nat) : Option Misuse :=
  if !p.isEncrypted then some .notEncrypted
  else if destSize < p.data.length then some (.destTooSmall destSize p.data.length)
  else none

/-- Decrypts the payload into a fresh destination of its size, which is returned on success. -/
def decryptToBytes (m : DecryptionModule σ) (p : Packet) (s : σ) : Except Error Bytes × σ :=
  let d := p.decryptInto m s (List.replicate p.data.length 0)
  (d.result.map fun _ => d.dest, d.state)

end Packet

end ProtectedMedia
