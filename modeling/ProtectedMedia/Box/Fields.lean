import ProtectedMedia.Box
import ProtectedMedia.Packet

/-!
# The fields of boxes

What the boxes that matter for encryption hold: the scheme and the defaults of a track, and the
header, the runs and the encryption of the samples of a track fragment. Bits of the flags say
which fields are there. Fields that nobody needs are passed over.

The sample tables declare their length first. It is checked against the segment and against the
bytes that are left before any entry is read, because an entry may take no bytes at all.
-/

namespace ProtectedMedia

structure SchemeType where
  scheme : FourCC
  version : UInt32
  deriving DecidableEq

/-- The encryption that the samples of a track have unless something else is said. -/
structure EncryptionDefaults where
  pattern : Pattern
  isProtected : Bool
  ivSize : UInt8
  keyId : Block
  constantIv : Option Bytes
  deriving DecidableEq

structure FragmentHeader where
  track : UInt32
  baseOffset : Option UInt64
  sampleSize : Option UInt32
  deriving DecidableEq

/-- A run of samples: where it starts, and the size of each sample where it is not the default. -/
structure TrackRun where
  offset : Option Int
  sizes : List (Option UInt32)
  deriving DecidableEq

/-- The encryption of one sample. -/
structure SampleEncryption where
  iv : Bytes
  subsamples : List Subsample
  deriving DecidableEq

namespace Box

def hasFlag (b : Box) (mask : UInt32) : Bool := b.flags &&& mask ≠ 0

def when {α : Type} (present : Bool) (r : Reader BoxFault α) : Reader BoxFault (Option α) :=
  if present then some <$> r else pure none

def readSchemeType : Reader BoxFault SchemeType := do
  let scheme ← Reader.word
  let version ← Reader.word
  return ⟨scheme, version⟩

/-- The pattern in the two halves of a byte, which boxes of version zero do not have. -/
def patternOfByte (version : UInt32) (x : UInt8) : Pattern :=
  if version = 0 then .none else ⟨(x >>> 4).toUInt32, (x &&& 0xf).toUInt32⟩

def readBlock : Reader BoxFault Block := do
  let data ← Reader.bytes 16
  match Block.ofBytes? data with
  | some x => return x
  | none => throw (.field .readPastEnd)

/-- Reads encryption defaults. A constant vector is there just if samples are protected and have
none of their own. -/
def readEncryptionDefaults (b : Box) : Reader BoxFault EncryptionDefaults := do
  Reader.skip 1
  let halves ← Reader.byte
  let flag ← Reader.byte
  let ivSize ← Reader.byte
  let keyId ← readBlock
  let isProtected := flag ≠ 0
  let constantIv ← when (isProtected && ivSize = 0) do
    let size ← Reader.byte
    Reader.bytes size.toNat
  return ⟨patternOfByte b.version halves, isProtected, ivSize, keyId, constantIv⟩

def readFragmentHeader (b : Box) : Reader BoxFault FragmentHeader := do
  let track ← Reader.word
  let baseOffset ← when (b.hasFlag 0x1) (UInt64.ofNat <$> Reader.unsigned 8)
  let _ ← when (b.hasFlag 0x2) (Reader.skip 4)
  let _ ← when (b.hasFlag 0x8) (Reader.skip 4)
  let sampleSize ← when (b.hasFlag 0x10) Reader.word
  return ⟨track, baseOffset, sampleSize⟩

/-- Refuses a sample table with more entries than it may have. -/
def checkCount (table : String) (count most : Nat) : Reader BoxFault Unit :=
  if most < count then throw (.moreThanSegment table count) else pure ()

/-- Refuses a sample table whose entries, of at least `size` bytes each, do not fit. -/
def checkRoom (table : String) (count size : Nat) : Reader BoxFault Unit := do
  let left ← Reader.remaining
  if left < count * size then throw (.moreThanTable table count left) else pure ()

/-- The size of an entry of a run: four bytes for each field that the flags announce. -/
def runEntrySize (b : Box) : Nat :=
  4 * ([0x100, 0x200, 0x400, 0x800].filter b.hasFlag).length

/-- Reads one entry of a run: duration, size, flags and time offset, each if announced. -/
def readRunEntry (b : Box) : Reader BoxFault (Option UInt32) := do
  let _ ← when (b.hasFlag 0x100) (Reader.skip 4)
  let size ← when (b.hasFlag 0x200) Reader.word
  let _ ← when (b.hasFlag 0x400) (Reader.skip 4)
  let _ ← when (b.hasFlag 0x800) (Reader.skip 4)
  return size

def readTrackRun (b : Box) (most : Nat) : Reader BoxFault TrackRun := do
  let count ← Reader.unsigned 4
  checkCount "trun" count most
  let offset ← when (b.hasFlag 0x1) Reader.signedWord
  let _ ← when (b.hasFlag 0x4) (Reader.skip 4)
  checkRoom "trun" count b.runEntrySize
  let sizes ← Reader.times count b.readRunEntry
  return ⟨offset, sizes⟩

def readSubsample : Reader BoxFault Subsample := do
  let clearBytes ← Reader.unsigned 2
  let protectedBytes ← Reader.word
  return ⟨UInt32.ofNat clearBytes, protectedBytes⟩

def readSampleEntry (b : Box) (ivSize : Nat) : Reader BoxFault SampleEncryption := do
  let iv ← Reader.bytes ivSize
  let subsamples ← when (b.hasFlag 0x2) do
    let count ← Reader.unsigned 2
    Reader.times count readSubsample
  return ⟨iv, subsamples.getD []⟩

/-- Reads the encryption of at most `most` samples with vectors of `ivSize` bytes. -/
def readSampleEncryption (b : Box) (ivSize most : Nat) :
    Reader BoxFault (List SampleEncryption) := do
  let count ← Reader.unsigned 4
  checkCount "senc" count most
  checkRoom "senc" count ivSize
  Reader.times count (b.readSampleEntry ivSize)

def parse {α : Type} (b : Box) (r : Reader BoxFault α) : Except Error α :=
  match r (Cursor.ofBytes b.payload) with
  | .ok (a, _) => .ok a
  | .error fault => .error (.box fault)

end Box

end ProtectedMedia
