import Mathlib.Data.List.Nodup
import ProtectedMedia.Proofs.Cipher.Keystream
import ProtectedMedia.Proofs.Cipher.PatternMarks
import ProtectedMedia.Proofs.Packet.Runs
import ProtectedMedia.Proofs.RunningIv

/-!
# One keystream through runs with a pattern

Runs under a pattern are one message in counter mode if the keystream that starts at the vector of
the packet goes through their encrypted blocks as if these lay next to each other. Then each run
starts at the counter that the blocks decrypted before it lead to, and no counter is used twice.
-/
namespace ProtectedMedia

namespace CounterMode

/-- A counter that was moved on by `n` blocks reads whole blocks from block `n` of the stream. -/
theorem apply_addLow (cipher : BlockCipher) {iv : Block} {n : ℕ} {data : Bytes}
    (hwhole : data.length % 16 = 0) (hwrap : iv.toNat % 2 ^ 64 + n + data.length / 16 ≤ 2 ^ 64) :
    apply cipher (iv.addLow n) 0 data = apply cipher iv (16 * n) data := by
  by_cases hdata : data = []
  · subst hdata
    rfl
  · have hpos := List.length_pos_iff.mpr hdata
    have hstart : (iv.addLow n).toNat = iv.toNat + n := Block.toNat_addLow_of_lt (by omega)
    rw [apply_of_toNat_eq cipher hstart, Nat.add_zero]

end CounterMode

namespace Pattern
open Bytes Subsample

/-- Run by run, the bytes outside the encrypted blocks are the same. -/
def KeepsClear (p : Pattern) (runs plains : List Bytes) : Prop :=
  List.Forall₂ (fun run plain => plain.length = run.length ∧
    ∀ i : ℕ, (p.marks run.length)[i]? = some false → plain[i]? = run[i]?) runs plains

variable {cipher : BlockCipher} {iv : Block} {p : Pattern} {runs plains : List Bytes}

theorem KeepsClear.sameLengths (h : p.KeepsClear runs plains) : SameLengths runs plains :=
  List.Forall₂.imp (fun _ _ hrun => hrun.1) h

theorem KeepsClear.refl (runs : List Bytes) : p.KeepsClear runs runs :=
  List.forall₂_same.mpr fun _ _ => ⟨rfl, fun _ _ => rfl⟩

theorem length_pick_mod (hsize : p.size ≠ 0) (run : Bytes) :
    (pick (p.marks run.length) run).length % 16 = 0 := by
  rw [length_pick_marks run hsize]
  exact Nat.mul_mod_right _ _

theorem length_cryptBytes_eq (hsize : p.size ≠ 0) (h : SameLengths runs plains) :
    (p.cryptBytes plains).length = (p.cryptBytes runs).length := by
  induction h with
  | nil => rfl
  | cons hlen _ ih =>
      rw [cryptBytes_cons, cryptBytes_cons, List.length_append, List.length_append, ih,
        length_pick_marks _ hsize, length_pick_marks _ hsize, hlen]

end Pattern

end ProtectedMedia
