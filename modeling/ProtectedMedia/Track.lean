import ProtectedMedia.Box.Fields
import ProtectedMedia.Box.Walk

/-!
# The encryption of a track

An init segment describes its tracks down to the scheme and the encryption defaults of each
protected sample entry. The first defaults that a walk meets are those of the track, and the first
scheme is its scheme.
-/

namespace ProtectedMedia

/-- The encryption of a track: the defaults of its samples and the scheme. -/
structure TrackEncryption extends EncryptionDefaults where
  scheme : FourCC
  deriving DecidableEq

namespace TrackEncryption

/-- The boxes of an init segment on the way to the encryption of a track. -/
def layout : Layout :=
  [(.moov, ⟨false, .boxes⟩), (.trak, ⟨false, .boxes⟩), (.mdia, ⟨false, .boxes⟩),
    (.minf, ⟨false, .boxes⟩), (.stbl, ⟨false, .boxes⟩), (.stsd, ⟨true, .sampleDescription⟩),
    (.encv, ⟨false, .visualEntry⟩), (.enca, ⟨false, .audioEntry⟩), (.sinf, ⟨false, .boxes⟩),
    (.schi, ⟨false, .boxes⟩), (.schm, ⟨true, .leaf⟩), (.tenc, ⟨true, .leaf⟩)]

structure Found where
  scheme : Option FourCC
  defaults : Option EncryptionDefaults
  deriving DecidableEq

/-- Takes note of schemes and defaults. Later ones are read too, but do not count. -/
def note (found : Found) : Event → Except Error Found
  | .opened b =>
    if b.type = .schm then do
      let read ← b.parse Box.readSchemeType
      return { found with scheme := found.scheme <|> some read.scheme }
    else if b.type = .tenc then do
      let read ← b.parse b.readEncryptionDefaults
      return { found with defaults := found.defaults <|> some read }
    else return found
  | .closed _ => return found

/-- The encryption of the first protected track of an init segment, none if no track is protected.
The data may end early. A track without a scheme has the scheme `cenc`. -/
def ofInit (data : Bytes) : Except Error (Option TrackEncryption) := do
  let found ← (Walk.trace layout true data).run note ⟨none, none⟩
  return found.defaults.map fun d => ⟨d, found.scheme.getD Scheme.cenc.code⟩

def info (track : TrackEncryption) (iv : Bytes) (subsamples : List Subsample) : EncryptionInfo :=
  ⟨track.scheme, track.pattern, track.keyId.toBytes, iv, subsamples⟩

end TrackEncryption

end ProtectedMedia
