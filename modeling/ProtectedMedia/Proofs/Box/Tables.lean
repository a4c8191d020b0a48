import ProtectedMedia.Proofs.Box.EncryptionTable
import ProtectedMedia.Proofs.Box.RunTable

/-!
# Writing the tables of a fragment

The header of a fragment that names its track only, a run with an offset and with the size of every
sample, and the encryption of every sample with its subsamples, as they are written and read.
-/
namespace ProtectedMedia

open Reader

/-! ### How the tables are written -/

def SampleEncryption.write (e : SampleEncryption) : Bytes :=
  e.iv ++ (Bytes.ofNat 2 e.subsamples.length ++ e.subsamples.flatMap Subsample.write)

/-- A run that starts `offset` bytes behind its base. -/
def writeTrackRun (offset : ℕ) (sizes : List UInt32) : Bytes :=
  Bytes.ofNat 4 sizes.length ++ (Bytes.ofNat 4 offset ++ sizes.flatMap Bytes.ofUInt32)

def writeSampleEncryption (entries : List SampleEncryption) : Bytes :=
  Bytes.ofNat 4 entries.length ++ entries.flatMap SampleEncryption.write

theorem length_writeTrackRun (offset : ℕ) (sizes : List UInt32) :
    (writeTrackRun offset sizes).length = 8 + sizes.length * 4 := by
  rw [writeTrackRun, List.length_append, List.length_append,
    Bytes.length_flatMap sizes Bytes.length_ofUInt32, Bytes.length_ofNat, Bytes.length_ofNat]
  omega

/-- The same run with fields that are not announced. -/
def RunTable.plain (offset : ℕ) (sizes : List UInt32) : RunTable :=
  ⟨Int32.ofNat offset, 0, sizes.map fun size => ⟨0, size, 0, 0⟩⟩

/-! ### How they are read -/

namespace Box

variable {b : Box}

theorem reads_fragmentHeader (hflags : b.flags = 0x020000) (track : UInt32) :
    Reads b.readFragmentHeader (Bytes.ofUInt32 track) ⟨track, none, none⟩ := by
  unfold readFragmentHeader
  rw [← List.append_nil (Bytes.ofUInt32 track)]
  refine (reads_word track).bind ?_
  simp only [hasFlag_eq hflags]
  exact (reads_when_false _).bind_nil ((reads_when_false _).bind_nil
    ((reads_when_false _).bind_nil ((reads_when_false _).bind_nil (reads_pure _))))

theorem write_plain (hflags : b.flags = 0x201) {offset : ℕ} (hoffset : offset < 2 ^ 31)
    (sizes : List UInt32) : (RunTable.plain offset sizes).write b = writeTrackRun offset sizes := by
  have hword : (Int32.ofNat offset).toUInt32.toNat = offset := by
    rw [Int32.toUInt32_ofNat', UInt32.toNat_ofNat_of_lt' (hoffset.trans (by decide))]
  have hentry (size : UInt32) : RunEntry.write b ⟨0, size, 0, 0⟩ = Bytes.ofUInt32 size := by
    simp only [RunEntry.write, announced, hasFlag_eq hflags]
    exact List.append_nil _
  simp only [RunTable.plain, RunTable.write, writeTrackRun, announced, hasFlag_eq hflags,
    Bytes.ofUInt32, hword, List.length_map, List.flatMap_map, hentry]
  rfl

theorem run_plain (hflags : b.flags = 0x201) {offset : ℕ} (hoffset : offset < 2 ^ 31)
    (sizes : List UInt32) :
    (RunTable.plain offset sizes).run b = ⟨some offset, sizes.map some⟩ := by
  have hsize : RunEntry.sizeIn b = fun e => some e.size := by
    simp only [funext_iff, RunEntry.sizeIn, hasFlag_eq hflags]
    exact fun _ => rfl
  simp only [RunTable.plain, RunTable.run, hsize, hasFlag_eq hflags,
    Int32.toInt_ofNat_of_lt hoffset, List.map_map]
  rfl

theorem reads_trackRun (hflags : b.flags = 0x201) {offset most : ℕ} {sizes : List UInt32}
    (hoffset : offset < 2 ^ 31) (hcount : sizes.length ≤ most) (hmost : sizes.length < 2 ^ 32) :
    Reads (b.readTrackRun most) (writeTrackRun offset sizes) ⟨some offset, sizes.map some⟩ := by
  have hlength : (RunTable.plain offset sizes).entries.length = sizes.length := List.length_map _
  have hnone : ∀ mask ∈ [0x4, 0x100, 0x400, 0x800], b.hasFlag mask = false := by
    simp only [List.forall_mem_cons, hasFlag_eq hflags]
    exact ⟨rfl, rfl, rfl, rfl, nofun⟩
  rw [← write_plain hflags hoffset, ← run_plain hflags hoffset]
  refine reads_of_below fun limit => readsBelow_trackRun (fun mask hmask hflag => ?_) ?_ ?_
  · rw [hnone mask hmask] at hflag
    cases hflag
  · rwa [hlength]
  · rwa [hlength]

theorem reads_sampleEncryption (hflags : b.flags = 0x2) {entries : List SampleEncryption}
    {ivSize most : ℕ} (fits : ∀ e ∈ entries, e.Fits ivSize) (hcount : entries.length ≤ most)
    (hmost : entries.length < 2 ^ 32) :
    Reads (b.readSampleEncryption ivSize most) (writeSampleEncryption entries) entries := by
  have hflag : b.hasFlag 0x2 = true := hasFlag_eq hflags 0x2
  have hwrite : b.writeSamples entries = writeSampleEncryption entries := by
    have hentry : SampleEncryption.writeIn b = SampleEncryption.write :=
      funext fun e => congrArg (e.iv ++ ·) (if_pos hflag)
    rw [writeSamples, hentry, writeSampleEncryption]
  have hnot (hfalse : b.hasFlag 0x2 = false) : False := by
    rw [hflag] at hfalse
    cases hfalse
  rw [← hwrite]
  exact reads_samples ⟨hcount, hmost, fun e he => ⟨fits e he, fun h => (hnot h).elim⟩⟩

end Box

end ProtectedMedia
