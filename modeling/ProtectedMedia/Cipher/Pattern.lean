import ProtectedMedia.Scheme

/-!
# Ciphers under a pattern

A pattern divides data into encrypted and clear blocks. The encrypted ones go to a cipher, which
may carry a state from one piece to the next; clear blocks and an incomplete last block are left
as they are. Without a pattern the cipher gets all of the data, the incomplete block included.
-/

namespace ProtectedMedia.Pattern

variable {σ : Type}

/-- Passes through data in repetitions of `crypt` encrypted and `skip` clear bytes. The whole
blocks of the encrypted part go to the cipher, which is not called for nothing. -/
def spans (cipher : σ → Bytes → Bytes × σ) (crypt skip : Nat) (size_pos : 0 < crypt + skip)
    (s : σ) (data : Bytes) : Bytes × σ :=
  if _ : data = [] then ([], s)
  else
    let chunk := data.take crypt
    let whole := chunk.length / 16 * 16
    let (plain, s) := if whole = 0 then ([], s) else cipher s (chunk.take whole)
    let afterChunk := data.drop crypt
    let (tail, s) := spans cipher crypt skip size_pos s (afterChunk.drop skip)
    (plain ++ chunk.drop whole ++ afterChunk.take skip ++ tail, s)
termination_by data.length
decreasing_by
  have : 0 < data.length := List.length_pos_iff.mpr ‹_›
  simp
  omega

/-- Applies a stateful cipher to the encrypted blocks of a pattern. -/
def process (pattern : Pattern) (cipher : σ → Bytes → Bytes × σ) (s : σ) (data : Bytes) :
    Bytes × σ :=
  if h : pattern.size = 0 then cipher s data
  else
    spans cipher (16 * pattern.crypt.toNat) (16 * pattern.skip.toNat)
      (by unfold size at h; omega) s data

end ProtectedMedia.Pattern
