import ProtectedMedia.Bytes

/-!
# Block ciphers

A block cipher is a pair of functions on sixteen-byte blocks. The cipher modes take any such pair
and assume nothing about it, not even that the two functions undo each other.
-/

namespace ProtectedMedia

/-- The two directions of a block cipher under a fixed key. -/
structure BlockCipher where
  encrypt : Block → Block
  decrypt : Block → Block

end ProtectedMedia
