import ProtectedMedia.Proofs.Segment.Frame
import ProtectedMedia.Proofs.Segment.Portable

/-!
# Segments one behind the other

Samples are decrypted between other bytes as they are decrypted alone, and a key store answers the
same whatever it was asked before. So segments that can stand one behind the other are decrypted
together as if each were alone.
-/
namespace ProtectedMedia.Segment

open Event Walk

variable {σ : Type} {m : DecryptionModule σ} {s t : σ} {n : ℕ} {track : TrackEncryption}
  {first second copy out : Bytes} {xs ys : List Sample}

/-- Samples are decrypted between other bytes as they are decrypted alone. -/
theorem decryptSamples_moved (front tail : Bytes) (hxs : ∀ x ∈ xs, x.Inside copy.length) :
    decryptSamples m (xs.map (Sample.moved front.length)) s (front ++ (copy ++ tail)) =
      ((decryptSamples m xs s copy).1.map fun out => front ++ (out ++ tail),
        (decryptSamples m xs s copy).2) := by
  induction xs generalizing s copy with
  | nil => rfl
  | cons x xs ih =>
      have hx := hxs x List.mem_cons_self
      have hrest : ∀ y ∈ xs, y.Inside copy.length := fun y hy => hxs y (List.mem_cons_of_mem x hy)
      rw [List.map_cons]
      cases hencrypted : x.packet.isEncrypted with
      | false =>
          have hclear : (x.moved front.length).packet.isEncrypted = false := hencrypted
          rw [decryptSamples_clear hclear, decryptSamples_clear hencrypted]
          exact ih hrest
      | true =>
          have hslice := Bytes.slice_between front tail hx.start_le hx.stop_le
          have hdest := length_dest (m := m) (s := s) hx rfl
          have hroom : x.start + (x.packet.decryptInto m s (copy.slice x.start x.stop)).dest.length ≤
              copy.length := by
            rw [hdest]
            exact hx.stop_le
          have hsplice := Bytes.splice_between front tail hroom
          have hmoved : (x.moved front.length).packet.isEncrypted = true := hencrypted
          rw [decryptSamples, if_pos hmoved, decryptSamples, if_pos hencrypted]
          dsimp only [Sample.moved]
          rw [hslice]
          cases hresult : (x.packet.decryptInto m s (copy.slice x.start x.stop)).result with
          | error e => rfl
          | ok u =>
              dsimp only
              rw [hsplice]
              exact ih (by rwa [Bytes.length_splice hroom])

/-- Samples that have been decrypted are followed by the others. -/
theorem decryptSamples_append (h : decryptSamples m xs s copy = (.ok out, t)) :
    decryptSamples m (xs ++ ys) s copy = decryptSamples m ys t out := by
  induction xs generalizing s copy with
  | nil =>
      cases h
      rfl
  | cons x xs ih =>
      cases hencrypted : x.packet.isEncrypted with
      | false =>
          rw [decryptSamples_clear hencrypted] at h
          rw [List.cons_append, decryptSamples_clear hencrypted]
          exact ih h
      | true =>
          rw [decryptSamples, if_pos hencrypted] at h
          rw [List.cons_append, decryptSamples, if_pos hencrypted]
          dsimp only at h ⊢
          cases hresult : (x.packet.decryptInto m s (copy.slice x.start x.stop)).result with
          | error e => rw [hresult] at h; cases h
          | ok u =>
              rw [hresult] at h
              exact ih h

/-- With an oblivious module, the state does not matter. -/
theorem decryptSamples_oblivious (hm : m.Oblivious) (hxs : ∀ x ∈ xs, x.Inside n)
    (hcopy : copy.length = n) (h : (decryptSamples m xs s copy).1 = .ok out) (t : σ) :
    (decryptSamples m xs t copy).1 = .ok out := by
  induction xs generalizing s t copy with
  | nil => exact h
  | cons x xs ih =>
      have hx := hxs x List.mem_cons_self
      have hrest : ∀ y ∈ xs, y.Inside n := fun y hy => hxs y (List.mem_cons_of_mem x hy)
      cases hencrypted : x.packet.isEncrypted with
      | false =>
          rw [decryptSamples_clear hencrypted] at h ⊢
          exact ih hrest hcopy h t
      | true =>
          obtain ⟨d, hd, hresult, -, -, hlength, hnext⟩ :=
            decryptSamples_encrypted hencrypted hx hcopy h
          have hsize := length_slice_copy hx hcopy
          have hlike := Packet.decryptInto_endsLike (s := s) (t := t) hm hsize hsize
          rw [hd] at hlike
          rw [decryptSamples, if_pos hencrypted]
          dsimp only
          rw [← hlike.result, hresult, ← hlike.dest hresult]
          exact ih hrest hlength hnext _

/-- Two segments that are decrypted one behind the other give both results. -/
theorem decrypt_append (hm : m.Oblivious) {outFirst outSecond : Bytes}
    (hfirst : (decrypt m track first s).1 = .ok outFirst)
    (hsecond : (decrypt m track second t).1 = .ok outSecond) (framed : Framed first)
    (movable : Movable first.length second) (self : SelfContained second)
    (hend : (first ++ second).length < 2 ^ 63) (u : σ) :
    (decrypt m track (first ++ second) u).1 = .ok (outFirst ++ outSecond) := by
  obtain ⟨foundFirst, hsamplesFirst, hokFirst⟩ := decrypt_eq_ok hfirst
  obtain ⟨foundSecond, hsamplesSecond, hokSecond⟩ := decrypt_eq_ok hsecond
  have hinsideFirst := inside_of_samples hsamplesFirst
  have hinsideSecond := inside_of_samples hsamplesSecond
  have hlength : outFirst.length = first.length := (decryptSamples_frame hinsideFirst rfl hokFirst).1
  have hokFirst' := decryptSamples_oblivious hm hinsideFirst rfl hokFirst u
  have hfront := decryptSamples_moved (m := m) (s := u) [] second hinsideFirst
  rw [List.length_nil, Sample.moved_zero, List.map_id, hokFirst'] at hfront
  obtain ⟨v, hv⟩ : ∃ v, decryptSamples m foundFirst u (first ++ second) =
      (.ok (outFirst ++ second), v) := ⟨_, hfront⟩
  have hback := decryptSamples_moved (m := m) (s := v) outFirst [] hinsideSecond
  rw [decryptSamples_oblivious hm hinsideSecond rfl hokSecond v, List.append_nil] at hback
  rw [decrypt, samples_append hsamplesFirst hsamplesSecond framed movable self hend]
  dsimp only
  rw [decryptSamples_append hv, ← hlength, hback]
  exact congrArg (fun x => Except.ok (outFirst ++ x)) (List.append_nil outSecond)

/-- With a key store, a segment whose boxes end where it ends can be put in front of another one that
is self-contained and whose sizes do not lead past the last 64-bit position from there: both are
decrypted as if they were alone, and the samples are those of the first and, further on by its size,
those of the second. -/
theorem segments_concatenate (track : TrackEncryption) (keys : KeyStore)
    (family : Block → BlockCipher) {first second outFirst outSecond : Bytes}
    {log log' : List Refusal}
    (hfirst : (decrypt (keys.toModule family) track first log).1 = .ok outFirst)
    (hsecond : (decrypt (keys.toModule family) track second log').1 = .ok outSecond)
    (framed : Framed first) (movable : Movable first.length second) (self : SelfContained second)
    (hend : (first ++ second).length < 2 ^ 63) :
    (∀ log'', (decrypt (keys.toModule family) track (first ++ second) log'').1 =
      .ok (outFirst ++ outSecond)) ∧
    ∃ foundFirst foundSecond, samples track first = .ok foundFirst ∧
      samples track second = .ok foundSecond ∧
      samples track (first ++ second) =
        .ok (foundFirst ++ foundSecond.map (Sample.moved first.length)) := by
  obtain ⟨foundFirst, hsamplesFirst, -⟩ := decrypt_eq_ok hfirst
  obtain ⟨foundSecond, hsamplesSecond, -⟩ := decrypt_eq_ok hsecond
  refine ⟨?_, foundFirst, foundSecond, hsamplesFirst, hsamplesSecond, ?_⟩
  · exact decrypt_append (keys.oblivious_toModule family) hfirst hsecond framed movable self hend
  · exact samples_append hsamplesFirst hsamplesSecond framed movable self hend

theorem framed_twoSamples : Framed twoSamples.segment :=
  framed_write (twoSamples.fits length_twoSamples) (length_twoSamples.trans (by decide))

theorem selfContained_twoSamples : SelfContained twoSamples.segment := by
  have htrace : trace layout false twoSamples.segment = ⟨twoSamples.forest.events layout 0, none⟩ :=
    trace_write (twoSamples.fits length_twoSamples) (length_twoSamples.trans (by decide))
  constructor
  · rw [htrace]
    decide
  · rw [htrace]
    decide

/-- The same segment twice, with two protected samples in each. -/
theorem two_samples_twice :
    Framed twoSamples.segment ∧ Movable twoSamples.segment.length twoSamples.segment ∧
      SelfContained twoSamples.segment ∧
      (twoSamples.segment ++ twoSamples.segment).length < 2 ^ 63 ∧
      ∃ out, (decrypt (zeroKey.toModule fun _ => ⟨id, id⟩) cencTrack twoSamples.segment []).1 =
          .ok out ∧
        (decrypt (zeroKey.toModule fun _ => ⟨id, id⟩) cencTrack
          (twoSamples.segment ++ twoSamples.segment) []).1 = .ok (out ++ out) := by
  have hsize := length_twoSamples
  have movable : Movable twoSamples.segment.length twoSamples.segment :=
    framed_twoSamples.movable (by omega)
  have hend : (twoSamples.segment ++ twoSamples.segment).length < 2 ^ 63 := by
    rw [List.length_append]
    omega
  refine ⟨framed_twoSamples, movable, selfContained_twoSamples, hend, _, decrypt_twoSamples, ?_⟩
  exact (segments_concatenate cencTrack zeroKey _ decrypt_twoSamples decrypt_twoSamples
    framed_twoSamples movable selfContained_twoSamples hend).1 []

def freeType : FourCC := .ofChars 'f' 'r' 'e' 'e'

/-- An empty box. -/
def freeBox : Bytes := Bytes.ofNat 4 8 ++ Bytes.ofUInt32 freeType

/-- A box that declares to end at the last 64-bit position. -/
def longestBox : Bytes := Bytes.ofNat 4 1 ++ Bytes.ofUInt32 freeType ++ Bytes.ofNat 8 (2 ^ 64 - 1)

theorem trace_freeBox : trace layout false freeBox = ⟨[], none⟩ := by
  have hfits : (Forest.leaf ⟨freeType, none, false⟩ [] .nil).Fits layout := by decide
  exact trace_write hfits (by decide)

theorem trace_longestBox : trace layout false longestBox = ⟨[], none⟩ := by
  have hstep : box layout false 0 (Cursor.ofBytes longestBox) =
      .ok (none, (Cursor.ofBytes longestBox).toEnd) := rfl
  exact (boxes_passed (by decide) hstep).trans (boxes_nil rfl)

theorem trace_freeBox_longestBox : trace layout false (freeBox ++ longestBox) =
    .failed (.sizeOverflow freeType (2 ^ 64 - 1)) := by
  have hfirst : box layout false 0 (Cursor.ofBytes (freeBox ++ longestBox)) =
      .ok (none, (Cursor.ofBytes (freeBox ++ longestBox)).forward 8) := rfl
  have hsecond : box layout false 0 ((Cursor.ofBytes (freeBox ++ longestBox)).forward 8) =
      .error (.sizeOverflow freeType (2 ^ 64 - 1)) := rfl
  exact (boxes_passed (by decide) hfirst).trans (boxes_failed (by decide) hsecond)

/-- Behind another box, the end that the longest one declares is no position any more. -/
theorem longest_box_behind :
    Framed freeBox ∧ SelfContained longestBox ∧
      (decrypt (zeroKey.toModule fun _ => ⟨id, id⟩) cencTrack freeBox []).1 = .ok freeBox ∧
      (decrypt (zeroKey.toModule fun _ => ⟨id, id⟩) cencTrack longestBox []).1 = .ok longestBox ∧
      (decrypt (zeroKey.toModule fun _ => ⟨id, id⟩) cencTrack (freeBox ++ longestBox) []).1 =
        .error (.box (.sizeOverflow freeType (2 ^ 64 - 1))) ∧
      samples cencTrack (freeBox ++ longestBox) =
        .error (.box (.sizeOverflow freeType (2 ^ 64 - 1))) := by
  have hfits : (Forest.leaf ⟨freeType, none, false⟩ [] .nil).Fits layout := by decide
  have framed : Framed freeBox := framed_write hfits (by decide)
  have self : SelfContained longestBox := by
    constructor <;> rw [trace_longestBox] <;> exact nofun
  refine ⟨framed, self, ?_, ?_, ?_, ?_⟩
  · rw [decrypt, samples, trace_freeBox]
    rfl
  · rw [decrypt, samples, trace_longestBox]
    rfl
  · rw [decrypt, samples, trace_freeBox_longestBox]
    rfl
  · rw [samples, trace_freeBox_longestBox]
    rfl

end ProtectedMedia.Segment
