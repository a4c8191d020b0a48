import ProtectedMedia.Cipher

/-!
# Cipher block chaining

Each plaintext block is the decrypted ciphertext block plus the ciphertext block before it; the
first one uses the initialization vector instead.
-/

namespace ProtectedMedia.Chaining

/-- The plaintext of a list of ciphertext blocks that follow the block `previous`. -/
def decryptBlocks (cipher : BlockCipher) (previous : Block) (blocks : List Block) : List Block :=
  List.zipWith (fun before x => (cipher.decrypt x).xor before) (previous :: blocks) blocks

/-- Decrypts the whole blocks at the front of the data and keeps the bytes after them. The second
component is the ciphertext block that the next piece of the message follows. -/
def decrypt (cipher : BlockCipher) (previous : Block) (data : Bytes) : Bytes × Block :=
  let blocks := Block.split data
  ((decryptBlocks cipher previous blocks).flatMap Block.toBytes ++ data.drop (16 * blocks.length),
    blocks.getLastD previous)

end ProtectedMedia.Chaining
