import ProtectedMedia.Bytes.Reader
import ProtectedMedia.Error

/-!
# Packets

A packet is a piece of compressed media with side data attached to it. The encryption parameters
travel as side data of their own kind, in a layout of big-endian words: six fixed fields, then the
key identifier, the initialization vector and the subsamples.
-/

namespace ProtectedMedia

/-- A clear run followed by a protected run. -/
structure Subsample where
  clearBytes : UInt32
  protectedBytes : UInt32
  deriving DecidableEq, Inhabited

/-- The encryption parameters of one packet. Without subsamples all of the payload is protected. -/
structure EncryptionInfo where
  scheme : FourCC
  pattern : Pattern
  keyId : Bytes
  iv : Bytes
  subsamples : List Subsample
  deriving DecidableEq

namespace Subsample

def size (s : Subsample) : Nat := s.clearBytes.toNat + s.protectedBytes.toNat

/-- The eight bytes of a subsample in side data. -/
def encode (s : Subsample) : Bytes := Bytes.ofUInt32 s.clearBytes ++ Bytes.ofUInt32 s.protectedBytes

end Subsample

namespace EncryptionInfo

def headerSize : Nat := 24

/-- The parameters as side data. Lengths are written as 32-bit words. -/
def encode (info : EncryptionInfo) : Bytes :=
  Bytes.ofUInt32 info.scheme ++ Bytes.ofUInt32 info.pattern.crypt ++
    Bytes.ofUInt32 info.pattern.skip ++ Bytes.ofNat 4 info.keyId.length ++
    Bytes.ofNat 4 info.iv.length ++ Bytes.ofNat 4 info.subsamples.length ++
    info.keyId ++ info.iv ++ info.subsamples.flatMap Subsample.encode

instance : HasReadFault SideDataFault := ⟨.field⟩

def readSubsample : Reader SideDataFault Subsample := do
  let clearBytes ← Reader.word
  let protectedBytes ← Reader.word
  return ⟨clearBytes, protectedBytes⟩

/-- Reads all of the parameters. The subsamples have to fit into what follows the fixed fields
before anything else of it is read. -/
def read : Reader SideDataFault EncryptionInfo := do
  let scheme ← Reader.word
  let crypt ← Reader.word
  let skip ← Reader.word
  let keyIdSize ← Reader.word
  let ivSize ← Reader.word
  let count ← Reader.word
  if (← Reader.remaining) < count.toNat * 8 then throw .subsampleTable
  let keyId ← Reader.bytes keyIdSize.toNat
  let iv ← Reader.bytes ivSize.toNat
  let subsamples ← Reader.times count.toNat readSubsample
  return ⟨scheme, ⟨crypt, skip⟩, keyId, iv, subsamples⟩

/-- Reads parameters from side data; bytes after them count for nothing. -/
def decode (data : Bytes) : Except Error EncryptionInfo :=
  if data.length < headerSize then .error (.sideData (.noHeader data.length))
  else
    match read (Cursor.ofBytes data) with
    | .ok (info, _) => .ok info
    | .error fault => .error (.sideData fault)

end EncryptionInfo

inductive SideDataKind where
  | encryptionInfo
  | newExtradata
  | other (tag : UInt32)
  deriving DecidableEq

structure SideData where
  kind : SideDataKind
  data : Bytes
  deriving DecidableEq

structure Packet where
  data : Bytes
  sideData : List SideData
  deriving DecidableEq

namespace Packet

def ofData (data : Bytes) : Packet := ⟨data, []⟩

/-- Attaches side data after what is there. -/
def attach (p : Packet) (kind : SideDataKind) (data : Bytes) : Packet :=
  { p with sideData := p.sideData ++ [⟨kind, data⟩] }

def encrypted (data : Bytes) (info : EncryptionInfo) : Packet :=
  (ofData data).attach .encryptionInfo info.encode

def sideData? (p : Packet) (kind : SideDataKind) : Option Bytes :=
  (p.sideData.find? fun s => s.kind = kind).map (·.data)

/-- Whether a packet has encryption parameters, readable or not. -/
def isEncrypted (p : Packet) : Bool := (p.sideData? .encryptionInfo).isSome

/-- The encryption parameters of a packet, none for a clear one. -/
def encryptionInfo (p : Packet) : Except Error (Option EncryptionInfo) :=
  match p.sideData? .encryptionInfo with
  | none => .ok none
  | some data => (EncryptionInfo.decode data).map some

end Packet

end ProtectedMedia
