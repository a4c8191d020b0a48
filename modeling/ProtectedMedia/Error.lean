import ProtectedMedia.Bytes.Cursor
import ProtectedMedia.Notice
import ProtectedMedia.Scheme

/-!
# Causes of failure

Everything that can go wrong with protected media, by cause. The outer constructor of an `Error`
is the class that callers tell apart; the inner one is the cause. The wording of each is in
`Error.message`, and what is to be logged beside the error in `Error.notice?`.
-/

namespace ProtectedMedia

/-- Encryption parameters that contradict each other or the payload. -/
inductive LayoutFault where
  /-- A pattern comes with a scheme that knows none. -/
  | patternNotAllowed (scheme : Scheme)
  | ivSize (size : Nat)
  /-- A run of a chained scheme without pattern does not consist of whole blocks. -/
  | partialBlock
  /-- A subsample is longer than what is left of the payload. -/
  | subsampleTooLong
  /-- The subsamples end before the payload does. -/
  | payloadLeftOver
  deriving DecidableEq

def LayoutFault.message : LayoutFault → String
  | .patternNotAllowed _ => "encryption pattern given for a scheme without pattern support"
  | .ivSize _ => "IV must be 8 or 16 bytes"
  | .partialBlock => "cbc1 protected run is not a multiple of the AES block size"
  | .subsampleTooLong => "subsample exceeds the remaining payload"
  | .payloadLeftOver => "subsamples do not cover the whole payload"

def LayoutFault.remark : LayoutFault → String
  | .patternNotAllowed scheme =>
    "Cannot specify encryption pattern with '" ++ scheme.name ++ "' scheme."
  | .ivSize size => "Invalid IV size " ++ toString size ++ " (expected 8 or 16 bytes)"
  | .partialBlock => "'cbc1' requires subsamples to be a multiple of the AES block size."
  | .subsampleTooLong => "Invalid subsample size"
  | .payloadLeftOver => "Extra remaining data after subsample handling"

/-- What cannot be served. -/
inductive Unsupported where
  | scheme (code : FourCC)
  | content
  /-- A protected track has fragments without per sample encryption data. -/
  | sampleEncryption (track : UInt32)
  | other (what : String)
  deriving DecidableEq

def Unsupported.message : Unsupported → String
  | .scheme code => "protection scheme " ++ code.display
  | .content => "the CDM cannot decrypt this content"
  | .sampleEncryption track => "protected track " ++ toString track ++ " has no senc box"
  | .other what => what

/-- Side data that cannot be turned into encryption parameters. -/
inductive SideDataFault where
  /-- Shorter than the fixed fields: `size` bytes. -/
  | noHeader (size : Nat)
  | subsampleTable
  | field (fault : ReadFault)
  deriving DecidableEq

def SideDataFault.remark : SideDataFault → String
  | .noHeader size =>
    "Encryption info side data is " ++ toString size ++ " bytes, smaller than its header."
  | .subsampleTable =>
    "Could not read encryption info side data: subsample table exceeds side data"
  | .field fault => "Could not read encryption info side data: " ++ fault.message

/-- Why an mp4 box could not be used. -/
inductive BoxFault where
  | field (fault : ReadFault)
  /-- The declared size does not even cover the size and type fields. -/
  | sizeBelowHeader (type : FourCC) (size : Nat)
  /-- The declared size leads past the last 64-bit position. -/
  | sizeOverflow (type : FourCC) (size : Nat)
  | pastEnd (type : FourCC)
  /-- A sample table declares more samples than the segment has bytes. -/
  | moreThanSegment (table : String) (count : Nat)
  /-- A sample table declares more samples than its own bytes can hold. -/
  | moreThanTable (table : String) (count left : Nat)
  | noFragmentHeader
  /-- A run starts before the first position or past the last one. -/
  | runOffset (offset : Int)
  /-- A sample has neither a size of its own nor a default one. -/
  | noSampleSize (track : UInt32)
  | sampleStart (position size : Nat)
  | sampleEnd (start stop segment : Nat)
  /-- The per sample encryption data is for another number of samples. -/
  | sampleCount (described present : Nat)
  | refused (reason : String)
  deriving DecidableEq

def BoxFault.message : BoxFault → String
  | .field fault => fault.message
  | .sizeBelowHeader type size =>
    type.name ++ " box declares size " ++ toString size ++ " smaller than its header"
  | .sizeOverflow type size => type.name ++ " box size " ++ toString size ++ " overflows"
  | .pastEnd type => type.name ++ " box runs past the end of the data"
  | .moreThanSegment table count =>
    table ++ " declares " ++ toString count ++ " samples, more than the segment can hold"
  | .moreThanTable table count left =>
    table ++ " declares " ++ toString count ++ " samples but holds " ++ toString left ++ " bytes"
  | .noFragmentHeader => "traf box without a tfhd box"
  | .runOffset offset =>
    "trun data offset " ++ toString offset ++ " points before the segment"
  | .noSampleSize track => "no sample size for a sample of track " ++ toString track
  | .sampleStart position size =>
    "sample data at " ++ toString position ++ " (" ++ toString size ++
      " bytes) lies outside the segment"
  | .sampleEnd start stop segment =>
    "sample data " ++ toString start ++ ".." ++ toString stop ++ " lies outside the segment (" ++
      toString segment ++ " bytes)"
  | .sampleCount described present =>
    "senc describes " ++ toString described ++ " samples but trun describes " ++ toString present
  | .refused reason => reason

/-- A failure of an operation on protected media. -/
inductive Error where
  | layout (fault : LayoutFault)
  | unsupported (what : Unsupported)
  | keyNotFound (keyId : String)
  | unknown
  | sideData (fault : SideDataFault)
  | hex (fault : Hex.Fault)
  /-- A key or key identifier has `size` bytes instead of sixteen. -/
  | keySize (size : Nat)
  | noKeys
  | keyPair (text : String)
  | box (fault : BoxFault)
  deriving DecidableEq

namespace Error

def message : Error → String
  | .layout fault => "invalid container data: " ++ fault.message
  | .unsupported what => "not supported: " ++ what.message
  | .keyNotFound keyId => "key not found for KID: " ++ keyId
  | .unknown => "unknown decryption error"
  | .sideData _ => "could not allocate encryption info from packet side data"
  | .hex fault => "invalid hex string: " ++ fault.message
  | .keySize size => "invalid key size: expected 16 bytes, got " ++ toString size ++ " bytes"
  | .noKeys => "no decryption keys provided - use .key(kid, key) to add keys"
  | .keyPair text => "invalid key format '" ++ text ++ "' (expected KID:KEY)"
  | .box fault => "cannot read mp4 box: " ++ fault.message

/-- The text of an error with that of its own cause, if it has one, repeated after it. -/
def chain : Error → List String
  | .hex fault => [(Error.hex fault).message, fault.message]
  | e => [e.message]

def notice? : Error → Option Notice
  | .layout fault => some ⟨.error, fault.remark⟩
  | .unsupported (.scheme code) =>
    some ⟨.error, "Scheme 0x" ++ Hex.ofNat 8 code.toNat ++ " is unsupported"⟩
  | .sideData fault => some ⟨.error, fault.remark⟩
  | _ => none

end Error

end ProtectedMedia
