import ProtectedMedia.Cipher

/-!
# Counter mode

The keystream is the sequence of encrypted counters: block `n` is the encryption of the start
value plus `n`, counted modulo `2 ^ 128` over the whole block. Data is added to it bytewise, from
any byte position of the stream on.
-/

namespace ProtectedMedia.CounterMode

/-- Block `n` of the keystream. -/
def block (cipher : BlockCipher) (start : Block) (n : Nat) : Block :=
  cipher.encrypt (Block.ofNat (start.toNat + n))

/-- The `length` bytes of the keystream from byte `position` on. -/
def keystream (cipher : BlockCipher) (start : Block) (position length : Nat) : Bytes :=
  let count := (position % 16 + length + 15) / 16
  let stream := (List.range count).flatMap fun i => (block cipher start (position / 16 + i)).toBytes
  (stream.drop (position % 16)).take length

/-- Adds the keystream from byte `position` on to the data; encrypts and decrypts alike. -/
def apply (cipher : BlockCipher) (start : Block) (position : Nat) (data : Bytes) : Bytes :=
  Bytes.xor data (keystream cipher start position data.length)

end ProtectedMedia.CounterMode
