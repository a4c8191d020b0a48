import ProtectedMedia.Error

/-!
# The running initialization vector

A packet declares one initialization vector, but its protected bytes may come in several runs. The
running vector says where the next run starts: the vector to use and the position inside its first
block. How it moves over a run depends on the scheme. In counter mode the counter grows by the
encrypted blocks of the run; a chained scheme without pattern goes on from the last ciphertext
block; a chained scheme with pattern starts each run afresh.
-/

namespace ProtectedMedia

/-- The vector for the next protected run and the position in its first block. -/
structure RunningIv where
  block : Block
  offset : Nat
  deriving DecidableEq

namespace RunningIv

/-- A vector of sixteen bytes is taken as it is; one of eight becomes the high half of a counter
that starts at zero. -/
def ofBytes (iv : Bytes) : Except Error RunningIv :=
  if h : iv.length = 16 then .ok ⟨⟨iv.toArray, Block.size_toArray h⟩, 0⟩
  else if h : iv.length = 8 then .ok ⟨⟨(iv ++ List.replicate 8 0).toArray, by simp [h]⟩, 0⟩
  else .error (.layout (.ivSize iv.length))

/-- The 32-bit word at byte `i`, first byte most significant. -/
def word (b : Block) (i : Nat) : UInt32 := UInt32.ofNat (Bytes.toNat (Bytes.slice b.toBytes i (i + 4)))

/-- Adds to the counter in the low half of a block. The counter is a pair of 32-bit words: when
the low word overflows one is carried into the high word, which wraps in turn. -/
def addToCounter (b : Block) (count : UInt32) : Block :=
  let low := word b 12 + count
  let high := if low < count then word b 8 + 1 else word b 8
  ⟨(b.toBytes.take 8 ++ Bytes.ofUInt32 high ++ Bytes.ofUInt32 low).toArray, by
    simp [Bytes.ofUInt32]⟩

/-- The encrypted blocks among `blocks` blocks laid out by a pattern. A repetition that is cut
short counts only if its encrypted part is complete. -/
def patternBlocks (pattern : Pattern) (blocks : Nat) : Nat :=
  let whole := blocks / pattern.size * pattern.crypt.toNat
  if pattern.crypt.toNat ≤ blocks % pattern.size then whole + pattern.crypt.toNat else whole

/-- Moves the counter by `blocks` blocks and the offset over `size` bytes. -/
def advanceCounter (s : RunningIv) (blocks size : Nat) : RunningIv :=
  ⟨addToCounter s.block (UInt32.ofNat blocks), (s.offset + size) % 16⟩

/-- The state for the run after one with the ciphertext `run`. -/
def advance (s : RunningIv) (scheme : Scheme) (pattern : Pattern) (run : Bytes) :
    Except Error RunningIv :=
  let size := run.length
  match scheme with
  | .cenc => .ok (s.advanceCounter ((s.offset + size) / 16) size)
  | .cens =>
    if pattern.isNone then .ok (s.advanceCounter ((s.offset + size) / 16) size)
    else .ok (s.advanceCounter (patternBlocks pattern (size / 16)) size)
  | .cbc1 =>
    match Block.ofBytes? (run.drop (size - 16)) with
    | some last => if size % 16 = 0 then .ok ⟨last, s.offset⟩ else .error (.layout .partialBlock)
    | none => .error (.layout .partialBlock)
  | .cbcs => .ok s

end RunningIv

end ProtectedMedia
