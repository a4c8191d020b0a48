import ProtectedMedia.Cipher

/-!
# AES-128

The block cipher of common encryption. A state is a block read column by column: byte `i` stands
in row `i % 4` and column `i / 4`. The substitution box and the products of the column mixing are
tabulated from their definitions in the field with 256 elements.
-/

namespace ProtectedMedia.Aes

/-- The product with `x` in the field of polynomials modulo `x ^ 8 + x ^ 4 + x ^ 3 + x + 1`. -/
def double (a : UInt8) : UInt8 :=
  if a &&& 0x80 = 0 then a <<< 1 else (a <<< 1) ^^^ 0x1b

/-- The product of two field elements, from the low `bits` of the first. -/
def productFrom : Nat → UInt8 → UInt8 → UInt8
  | 0, _, _ => 0
  | bits + 1, a, b =>
    (if a &&& 1 = 0 then 0 else b) ^^^ productFrom bits (a >>> 1) (double b)

def product (a b : UInt8) : UInt8 := productFrom 8 a b

/-- The inverse of a field element, which is its 254th power; zero goes to zero. -/
def inverse (a : UInt8) : UInt8 :=
  let a2 := product a a
  let a4 := product a2 a2
  let a8 := product a4 a4
  let a16 := product a8 a8
  let a32 := product a16 a16
  let a64 := product a32 a32
  let a128 := product a64 a64
  product a128 (product a64 (product a32 (product a16 (product a8 (product a4 a2)))))

/-- A byte rotated to the left by `k` bits, `0 < k < 8`. -/
def rotate (a k : UInt8) : UInt8 := (a <<< k) ||| (a >>> (8 - k))

def tabulate (f : UInt8 → UInt8) : Vector UInt8 256 :=
  Vector.ofFn fun i => f (UInt8.ofNat i.val)

/-- The substitution box: the field inverse, followed by an affine map over bits. -/
def sBox : Vector UInt8 256 :=
  tabulate fun a =>
    let b := inverse a
    b ^^^ rotate b 1 ^^^ rotate b 2 ^^^ rotate b 3 ^^^ rotate b 4 ^^^ 0x63

def inverseSBox : Vector UInt8 256 :=
  tabulate fun a => inverse (rotate a 1 ^^^ rotate a 3 ^^^ rotate a 6 ^^^ 0x05)

/-- The products with the entries of the mixing matrix and of its inverse. -/
def times2 : Vector UInt8 256 := tabulate (product 2)
@[inherit_doc times2] def times3 : Vector UInt8 256 := tabulate (product 3)
@[inherit_doc times2] def times9 : Vector UInt8 256 := tabulate (product 9)
@[inherit_doc times2] def times11 : Vector UInt8 256 := tabulate (product 11)
@[inherit_doc times2] def times13 : Vector UInt8 256 := tabulate (product 13)
@[inherit_doc times2] def times14 : Vector UInt8 256 := tabulate (product 14)

def substitute (table : Vector UInt8 256) (s : Block) : Block := s.map fun a => table[a.toFin]

/-- Byte `i` of a state, with positions taken modulo sixteen. -/
def at16 (s : Block) (i : Nat) : UInt8 := s.get ⟨i % 16, Nat.mod_lt _ (by decide)⟩

/-- Moves row `r` to the left by `r` columns. -/
def shiftRows (s : Block) : Block := Vector.ofFn fun i => at16 s (i.val + 4 * (i.val % 4))

def unshiftRows (s : Block) : Block := Vector.ofFn fun i => at16 s (i.val + 12 * (i.val % 4))

/-- The byte `k` rows below byte `i` in its column, from the top again after the last row. -/
def below (s : Block) (i k : Nat) : UInt8 := at16 s (i - i % 4 + (i + k) % 4)

/-- Multiplies each column by the mixing matrix. -/
def mixColumns (s : Block) : Block :=
  Vector.ofFn fun i =>
    times2[(below s i 0).toFin] ^^^ times3[(below s i 1).toFin] ^^^ below s i 2 ^^^ below s i 3

def unmixColumns (s : Block) : Block :=
  Vector.ofFn fun i =>
    times14[(below s i 0).toFin] ^^^ times11[(below s i 1).toFin] ^^^
      times13[(below s i 2).toFin] ^^^ times9[(below s i 3).toFin]

/-- The round key after `key`: each column is added to the one before it, and the first to the
substituted and turned last column with the round constant. -/
def nextKey (constant : UInt8) (key : Block) : Block :=
  Vector.ofFn fun i =>
    let row := i.val % 4
    let turned := sBox[(at16 key (12 + (row + 1) % 4)).toFin]
    let start := if row = 0 then turned ^^^ constant else turned
    (List.range (i.val / 4 + 1)).foldl (fun a column => a ^^^ at16 key (4 * column + row)) start

/-- The `rounds` round keys that follow `key`. -/
def followingKeys : Nat → UInt8 → Block → List Block
  | 0, _, _ => []
  | rounds + 1, constant, key =>
    let next := nextKey constant key
    next :: followingKeys rounds (double constant) next

/-- The rounds of encryption after the first key was added; the last one does not mix. -/
def encryptRounds : Block → List Block → Block
  | s, [] => s
  | s, [last] => (shiftRows (substitute sBox s)).xor last
  | s, key :: keys => encryptRounds ((mixColumns (shiftRows (substitute sBox s))).xor key) keys

/-- The rounds of decryption after the last key was added; the keys come last to first. -/
def decryptRounds : Block → List Block → Block
  | s, [] => s
  | s, [first] => (substitute inverseSBox (unshiftRows s)).xor first
  | s, key :: keys =>
    decryptRounds (unmixColumns ((substitute inverseSBox (unshiftRows s)).xor key)) keys

def cipher (key : Block) : BlockCipher :=
  let keys := followingKeys 10 1 key
  let final := keys.getLastD key
  let backwards := (key :: keys).reverse.tail
  { encrypt := fun s => encryptRounds (s.xor key) keys
    decrypt := fun s => decryptRounds (s.xor final) backwards }

end ProtectedMedia.Aes
