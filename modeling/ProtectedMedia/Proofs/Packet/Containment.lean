import ProtectedMedia.Proofs.Packet.Account

/-!
# What a decryption may touch

Of its destination a decryption touches no more than the payload is long, even if it fails, and
nothing at all for a packet that is not in order. Along the subsamples it touches no more than those
whose runs the module was asked for, and it asks for none behind the one at which it fails. The
account of the walk says so; here the payload that is decrypted as a whole is put beside it.
-/
namespace ProtectedMedia.Packet
open EncryptionInfo Subsample RunningIv

variable {σ : Type} {m : DecryptionModule σ} {p : Packet} {dest : Bytes}

theorem length_le_of_misuse?_eq_none {destSize : ℕ} (h : p.misuse? destSize = none) :
    p.data.length ≤ destSize := by
  unfold misuse? at h
  split at h
  · cases h
  · split at h
    · cases h
    · omega

/-- Bytes behind what the walk touched are bytes behind the payload, too. -/
theorem drop_dest_of_inOrder {info : EncryptionInfo} {scheme : Scheme} (hm : m.KeepsTail)
    (h : p.InOrder info scheme) (hd : p.data.length ≤ dest.length) (s : σ) :
    (p.decryptInto m s dest).dest.drop p.data.length = dest.drop p.data.length := by
  by_cases hne : info.subsamples = []
  · rw [h.decryptInto_whole hne]
    exact hm s (info.request scheme ⟨widened info.iv, 0⟩ p.data) dest
  · obtain ⟨passed, rest, tried, -, haccount⟩ := h.exists_account hne m s hd
    have hsplit : p.data.length = extent tried + (p.data.length - extent tried) :=
      (Nat.add_sub_cancel' haccount.fits).symm
    rw [hsplit, ← List.drop_drop, haccount.untouched, List.drop_drop]

/-- What a decryption touches and which calls it makes, whether it succeeds or fails. -/
theorem decryption_contained (hm : m.KeepsTail) (h : p.misuse? dest.length = none) (s : σ) :
    (p.decryptInto m s dest).dest.drop p.data.length = dest.drop p.data.length ∧
    ((∀ info scheme, ¬p.InOrder info scheme) →
      (∃ e, (p.decryptInto m s dest).result = .error e) ∧
        (p.decryptInto m s dest).dest = dest ∧ p.exchanges m s dest = []) ∧
    ∀ info scheme, p.InOrder info scheme → info.subsamples ≠ [] →
      ∃ passed rest tried, info.subsamples = passed ++ rest ∧
        Account m info scheme ⟨widened info.iv, 0⟩ p.data dest passed rest tried
          (p.exchanges m s dest) (p.decryptInto m s dest).result (p.decryptInto m s dest).dest := by
  have hd := length_le_of_misuse?_eq_none h
  refine ⟨?_, ?_, fun info scheme horder hne => horder.exists_account hne m s hd⟩
  · by_cases horder : ∃ info scheme, p.InOrder info scheme
    · obtain ⟨info, scheme, horder⟩ := horder
      exact drop_dest_of_inOrder hm horder hd s
    · obtain ⟨e, he⟩ := p.exists_refusal fun info scheme h => horder ⟨info, scheme, h⟩
      rw [he]
  · intro hrefused
    obtain ⟨e, he⟩ := p.exists_refusal hrefused
    rw [exchanges, he, he]
    exact ⟨⟨e, rfl⟩, rfl, rfl⟩

/-- A chain whose second run ends inside a block: the module has written the run by then, and the
third subsample and the bytes behind the payload stay as they were. -/
theorem decryption_contained_unaligned :
    ∃ passed rest tried, [⟨1, 16⟩, ⟨2, 20⟩, ⟨0, 3⟩] = passed ++ rest ∧
      Account (DecryptionModule.scripted [.success])
        (infoOfZeros .cbc1 .none (List.replicate 8 7) [⟨1, 16⟩, ⟨2, 20⟩, ⟨0, 3⟩]) .cbc1
        ⟨widened (List.replicate 8 7), 0⟩ (List.replicate 42 0) (List.replicate 45 238)
        passed rest tried
        ((ofZeros .cbc1 .none (List.replicate 8 7) [⟨1, 16⟩, ⟨2, 20⟩, ⟨0, 3⟩]).exchanges
          (.scripted [.success]) [] (List.replicate 45 238))
        (.error (.layout .partialBlock))
        ([0] ++ List.replicate 16 255 ++ [0, 0] ++ List.replicate 20 255 ++
          List.replicate 6 238) := by
  have horder : (ofZeros .cbc1 .none (List.replicate 8 7) [⟨1, 16⟩, ⟨2, 20⟩, ⟨0, 3⟩]).InOrder
      (infoOfZeros .cbc1 .none (List.replicate 8 7) [⟨1, 16⟩, ⟨2, 20⟩, ⟨0, 3⟩]) .cbc1 :=
    ⟨rfl, rfl, .inl rfl⟩
  exact (decryption_contained (DecryptionModule.keepsTail_scripted [.success]) rfl []).2.2 _ _
    horder (by decide)

end ProtectedMedia.Packet
