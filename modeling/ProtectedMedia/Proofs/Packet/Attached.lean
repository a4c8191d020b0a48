import ProtectedMedia.Packet
import ProtectedMedia.Proofs.Bytes.Written

/-!
# Parameters survive as side data

Parameters whose lengths fit into words of 32 bits are read back from their side data as they were
written, whatever follows. So a packet keeps the parameters that it was made with.
-/
namespace ProtectedMedia

open Reader

namespace EncryptionInfo

variable {info : EncryptionInfo}

/-- The three lengths that side data writes as words. -/
structure FitsWords (info : EncryptionInfo) : Prop where
  keyId : info.keyId.length < 2 ^ 32
  iv : info.iv.length < 2 ^ 32
  subsamples : info.subsamples.length < 2 ^ 32

theorem reads_subsample (sub : Subsample) : Reads readSubsample sub.encode sub := by
  rw [Subsample.encode, ← List.append_nil (Bytes.ofUInt32 sub.protectedBytes)]
  exact (reads_word _).bind ((reads_word _).bind (reads_pure _))

/-- A length that fits is read back from its word. -/
theorem reads_length {n : ℕ} (h : n < 2 ^ 32) :
    Reads (word : Reader SideDataFault UInt32) (Bytes.ofNat 4 n) (UInt32.ofNat n) :=
  (reads_unsigned h).map UInt32.ofNat

theorem length_flatMap_encode (subs : List Subsample) :
    (subs.flatMap Subsample.encode).length = subs.length * 8 := by
  apply Bytes.length_flatMap
  intro sub
  rw [Subsample.encode, List.length_append, Bytes.length_ofUInt32, Bytes.length_ofUInt32]

theorem reads_encode (h : info.FitsWords) : Reads read info.encode info := by
  have hkey : (UInt32.ofNat info.keyId.length).toNat = info.keyId.length :=
    UInt32.toNat_ofNat_of_lt' h.keyId
  have hiv : (UInt32.ofNat info.iv.length).toNat = info.iv.length :=
    UInt32.toNat_ofNat_of_lt' h.iv
  have hcount : (UInt32.ofNat info.subsamples.length).toNat = info.subsamples.length :=
    UInt32.toNat_ofNat_of_lt' h.subsamples
  have hsubs : Reads (times info.subsamples.length readSubsample)
      (info.subsamples.flatMap Subsample.encode) info.subsamples :=
    reads_times fun sub _ => reads_subsample sub
  simp only [encode, List.append_assoc]
  unfold read
  refine (reads_word info.scheme).bind ((reads_word info.pattern.crypt).bind
    ((reads_word info.pattern.skip).bind ((reads_length h.keyId).bind
    ((reads_length h.iv).bind ((reads_length h.subsamples).bind ?_)))))
  refine Reads.of_remaining fun left hleft => ?_
  rw [hkey, hiv, hcount]
  have hroom : ¬left < info.subsamples.length * 8 := by
    simp only [List.length_append, length_flatMap_encode] at hleft
    omega
  rw [if_neg hroom]
  have hlist : Reads (times info.subsamples.length readSubsample >>= fun subsamples =>
        (pure { info with subsamples := subsamples } : Reader SideDataFault EncryptionInfo))
      (info.subsamples.flatMap Subsample.encode) info := by
    rw [← List.append_nil (info.subsamples.flatMap Subsample.encode)]
    exact hsubs.bind (reads_pure info)
  exact (reads_bytes rfl).bind ((reads_bytes rfl).bind hlist)

theorem length_encode (info : EncryptionInfo) :
    info.encode.length =
      headerSize + info.keyId.length + info.iv.length + info.subsamples.length * 8 := by
  simp only [encode, List.length_append, Bytes.length_ofUInt32, Bytes.length_ofNat,
    length_flatMap_encode, headerSize]

theorem decode_encode (h : info.FitsWords) (tail : Bytes) :
    decode (info.encode ++ tail) = .ok info := by
  have hlen : ¬(info.encode ++ tail).length < headerSize := by
    rw [List.length_append, length_encode]
    omega
  rw [decode, if_neg hlen, reads_encode h (Cursor.ofBytes (info.encode ++ tail)) tail rfl]

end EncryptionInfo

theorem Packet.encryptionInfo_encrypted (data : Bytes) {info : EncryptionInfo}
    (h : info.FitsWords) : (Packet.encrypted data info).encryptionInfo = .ok (some info) := by
  have hdecode := EncryptionInfo.decode_encode h []
  rw [List.append_nil] at hdecode
  change (EncryptionInfo.decode info.encode).map some = _
  rw [hdecode]
  rfl

end ProtectedMedia
