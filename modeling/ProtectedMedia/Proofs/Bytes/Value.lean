import Mathlib.Tactic.Ring
import Mathlib.Tactic.Linarith
import ProtectedMedia.Bytes

/-!
# The numbers that byte strings spell

Among byte strings of one length the spelled number is a faithful view: it is below the power of
256 for the length, every number below that power is spelled, and two strings that spell the same
number are equal. Counters are compared through this view, never byte by byte.
-/
namespace ProtectedMedia

namespace Bytes

theorem foldl_toNat (b : Bytes) (n : ℕ) :
    b.foldl (fun n x => n * 256 + x.toNat) n = n * 256 ^ b.length + b.toNat := by
  induction b generalizing n with
  | nil => simp [toNat]
  | cons x b ih =>
      simp only [toNat, List.foldl_cons, List.length_cons, Nat.zero_mul, Nat.zero_add]
      rw [ih, ih x.toNat, pow_succ]
      ring

@[simp] theorem toNat_nil : toNat [] = 0 := rfl

theorem toNat_cons (x : UInt8) (b : Bytes) :
    toNat (x :: b) = x.toNat * 256 ^ b.length + b.toNat := by
  have h := foldl_toNat b x.toNat
  simpa only [toNat, List.foldl_cons, Nat.zero_mul, Nat.zero_add] using h

theorem toNat_append (a b : Bytes) :
    toNat (a ++ b) = a.toNat * 256 ^ b.length + b.toNat := by
  have h := foldl_toNat b a.toNat
  simpa only [toNat, List.foldl_append] using h

theorem toNat_lt (b : Bytes) : b.toNat < 256 ^ b.length := by
  induction b with
  | nil => simp
  | cons x b ih =>
      have hx : x.toNat < 256 := x.toNat_lt
      rw [toNat_cons, List.length_cons, pow_succ]
      calc x.toNat * 256 ^ b.length + toNat b
          < x.toNat * 256 ^ b.length + 256 ^ b.length := by omega
        _ = (x.toNat + 1) * 256 ^ b.length := by ring
        _ ≤ 256 * 256 ^ b.length := Nat.mul_le_mul_right _ hx
        _ = 256 ^ b.length * 256 := Nat.mul_comm _ _

theorem ofNat_succ (k n : ℕ) : ofNat (k + 1) n = UInt8.ofNat (n / 256 ^ k) :: ofNat k n := by
  have hpow : 2 ^ (8 * k) = 256 ^ k := pow_mul 2 8 k
  rw [ofNat, Nat.shiftRight_eq_div_pow, hpow]

theorem toNat_ofNat (k n : ℕ) : toNat (ofNat k n) = n % 256 ^ k := by
  induction k with
  | zero => simp [ofNat, Nat.mod_one]
  | succ k ih =>
      rw [ofNat_succ, toNat_cons, length_ofNat, ih, Nat.mod_pow_succ]
      simp only [UInt8.toNat_ofNat']
      ring

/-- Strings of one length are told apart by what they spell. -/
theorem toNat_inj {a b : Bytes} (hl : a.length = b.length) (h : a.toNat = b.toNat) : a = b := by
  induction a generalizing b with
  | nil => exact (List.eq_nil_of_length_eq_zero (by simpa using hl.symm)).symm
  | cons x a ih =>
      cases b with
      | nil => simp at hl
      | cons y b =>
          have hl' : a.length = b.length := by simpa using hl
          have ha := toNat_lt a
          have hb := toNat_lt b
          rw [toNat_cons, toNat_cons, hl'] at h
          rw [hl'] at ha
          have hxy : x.toNat = y.toNat := by
            have hq := congrArg (· / 256 ^ b.length) h
            have hp : 0 < 256 ^ b.length := by positivity
            simpa only [Nat.mul_comm _ (256 ^ b.length), Nat.mul_add_div hp,
              Nat.div_eq_of_lt ha, Nat.div_eq_of_lt hb, Nat.add_zero] using hq
          rw [hxy] at h
          rw [UInt8.toNat_inj.mp hxy, ih hl' (by omega)]

theorem ofNat_toNat (b : Bytes) : ofNat b.length b.toNat = b := by
  apply toNat_inj (length_ofNat _ _)
  rw [toNat_ofNat, Nat.mod_eq_of_lt (toNat_lt b)]

@[simp] theorem length_xor (a b : Bytes) : (xor a b).length = min a.length b.length := by
  simp [xor]

@[simp] theorem length_slice (b : Bytes) (start stop : ℕ) :
    (slice b start stop).length = min (stop - start) (b.length - start) := by
  simp [slice]

theorem length_ofUInt32 (w : UInt32) : (ofUInt32 w).length = 4 := length_ofNat 4 w.toNat

theorem toNat_ofUInt32 (w : UInt32) : toNat (ofUInt32 w) = w.toNat := by
  rw [ofUInt32, toNat_ofNat]
  exact Nat.mod_eq_of_lt (w.toNat_lt.trans_eq (by norm_num))

/-- Any four bytes are a word. -/
theorem exists_word {d : Bytes} (h : 4 ≤ d.length) :
    ∃ (w : UInt32) (rest : Bytes), d = Bytes.ofNat 4 w.toNat ++ rest ∧ rest.length + 4 = d.length := by
  have hlength : (d.take 4).length = 4 := List.length_take_of_le h
  have hlt : toNat (d.take 4) < 2 ^ 32 := by
    have := toNat_lt (d.take 4)
    rwa [hlength] at this
  have hspelled := ofNat_toNat (d.take 4)
  rw [hlength] at hspelled
  refine ⟨UInt32.ofNat (toNat (d.take 4)), d.drop 4, ?_, ?_⟩
  · rw [UInt32.toNat_ofNat_of_lt' hlt, hspelled, List.take_append_drop]
  · rw [List.length_drop]
    omega

end Bytes

namespace Block

theorem toBytes_inj {x y : Block} (h : x.toBytes = y.toBytes) : x = y :=
  Vector.toList_inj.mp h

theorem toNat_inj {x y : Block} (h : x.toNat = y.toNat) : x = y :=
  toBytes_inj (Bytes.toNat_inj (by simp) h)

theorem toNat_lt (x : Block) : x.toNat < 2 ^ 128 := by
  have h := Bytes.toNat_lt x.toBytes
  rw [length_toBytes] at h
  exact h.trans_eq (by norm_num)

@[simp] theorem toBytes_mk (b : Bytes) (h : b.toArray.size = 16) :
    toBytes ⟨b.toArray, h⟩ = b := by
  simp [toBytes, Vector.toList]

theorem toNat_ofNat (n : ℕ) : (ofNat n).toNat = n % 2 ^ 128 := by
  rw [ofNat, toNat, toBytes_mk, Bytes.toNat_ofNat]
  norm_num

theorem ofNat_toNat (x : Block) : ofNat x.toNat = x := by
  apply toNat_inj
  rw [toNat_ofNat, Nat.mod_eq_of_lt x.toNat_lt]

theorem ofBytes?_toBytes (x : Block) : ofBytes? x.toBytes = some x := by
  unfold ofBytes?
  rw [dif_pos x.length_toBytes]
  exact congrArg some (toBytes_inj (toBytes_mk _ _))

end Block

end ProtectedMedia
