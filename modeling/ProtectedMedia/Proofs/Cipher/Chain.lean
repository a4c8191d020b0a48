import ProtectedMedia.Cipher.Chaining
import ProtectedMedia.Proofs.Bytes.Blocks

/-!
# One chain, decrypted in pieces

A chained message may be cut after any whole block: the piece behind the cut is decrypted with the
last ciphertext block before it. `plaintext` says what decryption of a whole message means, block
by block, without a state that is passed along.
-/
namespace ProtectedMedia.Chaining

variable (cipher : BlockCipher) (previous : Block)

/-- Block `i` of the plaintext is the deciphered block `i` plus the ciphertext block before it;
the vector stands before the first block. -/
def plaintext (iv : Block) (message : Bytes) : Bytes :=
  let blocks := Block.split message
  (blocks.mapIdx fun i x => (cipher.decrypt x).xor ((iv :: blocks).getD i iv)).flatMap
    Block.toBytes

@[simp] theorem decryptBlocks_nil : decryptBlocks cipher previous [] = [] := rfl

theorem decryptBlocks_cons (x : Block) (xs : List Block) :
    decryptBlocks cipher previous (x :: xs) =
      (cipher.decrypt x).xor previous :: decryptBlocks cipher x xs := rfl

@[simp] theorem length_decryptBlocks (xs : List Block) :
    (decryptBlocks cipher previous xs).length = xs.length := by
  simp [decryptBlocks]

theorem decryptBlocks_append (xs ys : List Block) :
    decryptBlocks cipher previous (xs ++ ys) =
      decryptBlocks cipher previous xs ++ decryptBlocks cipher (xs.getLastD previous) ys := by
  induction xs generalizing previous with
  | nil => rfl
  | cons x xs ih =>
      rw [List.cons_append, decryptBlocks_cons, ih, decryptBlocks_cons, List.getLastD_cons]
      rfl

theorem decryptBlocks_eq_mapIdx (xs : List Block) :
    decryptBlocks cipher previous xs =
      xs.mapIdx fun i x => (cipher.decrypt x).xor ((previous :: xs).getD i previous) := by
  apply List.ext_getElem (by simp)
  intro i h _
  have hi : i < xs.length := by simpa using h
  simp [decryptBlocks, List.getElem_zipWith, List.getD_eq_getElem?_getD,
    List.getElem?_eq_getElem (show i < (previous :: xs).length by simp; omega)]

theorem flatMap_decryptBlocks_split (iv : Block) (message : Bytes) :
    (decryptBlocks cipher iv (Block.split message)).flatMap Block.toBytes =
      plaintext cipher iv message := by
  rw [decryptBlocks_eq_mapIdx]
  rfl

@[simp] theorem length_plaintext (iv : Block) (message : Bytes) :
    (plaintext cipher iv message).length = 16 * (message.length / 16) := by
  rw [← flatMap_decryptBlocks_split, Block.length_flatMap_toBytes, length_decryptBlocks,
    Block.length_split]

@[simp] theorem plaintext_nil (iv : Block) : plaintext cipher iv [] = [] := by
  simp [plaintext]

/-- A message cut after a whole block goes on from the last block before the cut. -/
theorem plaintext_append (iv : Block) {a : Bytes} (b : Bytes) (h : a.length % 16 = 0) :
    plaintext cipher iv (a ++ b) =
      plaintext cipher iv a ++ plaintext cipher ((Block.split a).getLastD iv) b := by
  simp only [← flatMap_decryptBlocks_split]
  rw [Block.split_append b h, decryptBlocks_append, List.flatMap_append]

theorem decrypt_fst (data : Bytes) :
    (decrypt cipher previous data).1 =
      plaintext cipher previous data ++ data.drop (16 * (data.length / 16)) := by
  rw [decrypt, flatMap_decryptBlocks_split, Block.length_split]

theorem decrypt_snd (data : Bytes) :
    (decrypt cipher previous data).2 = (Block.split data).getLastD previous := rfl

@[simp] theorem length_decrypt (data : Bytes) :
    (decrypt cipher previous data).1.length = data.length := by
  rw [decrypt_fst, List.length_append, length_plaintext, List.length_drop]
  omega

theorem decrypt_nil : decrypt cipher previous [] = ([], previous) := by
  simp [decrypt]

theorem decrypt_of_whole {data : Bytes} (h : data.length % 16 = 0) :
    (decrypt cipher previous data).1 = plaintext cipher previous data := by
  rw [decrypt_fst, List.drop_of_length_le (by omega), List.append_nil]

/-- Decryption of data in two pieces, the first one of whole blocks, passes the chain on. -/
theorem decrypt_append {a : Bytes} (b : Bytes) (h : a.length % 16 = 0) :
    decrypt cipher previous (a ++ b) =
      ((decrypt cipher previous a).1 ++ (decrypt cipher (decrypt cipher previous a).2 b).1,
        (decrypt cipher (decrypt cipher previous a).2 b).2) := by
  have hd : 16 * ((a ++ b).length / 16) = a.length + 16 * (b.length / 16) := by
    rw [List.length_append]
    omega
  apply Prod.ext
  · rw [decrypt_of_whole cipher previous h, decrypt_fst, plaintext_append cipher previous b h, hd,
      List.drop_length_add_append, List.append_assoc, ← decrypt_snd, ← decrypt_fst]
  · rw [decrypt_snd, decrypt_snd, decrypt_snd, Block.split_append b h]
    simp only [List.getLastD_eq_getLast?, List.getLast?_append]
    cases (Block.split b).getLast? <;> rfl

end ProtectedMedia.Chaining
