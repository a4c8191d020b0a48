import Mathlib
import ProtectedMedia.Bytes.Hex
import ProtectedMedia.Text.Blank

/-!
# What hexadecimal text spells

A text of an even number of hexadecimal digits is read as the bytes that are written, in lower case,
like the text in lower case. Any other text is refused, for its length or else for its first byte that
is no digit.
-/
namespace ProtectedMedia.Hex

/-- The number of a character 0 to 9, A to F or a to f. -/
def IsDigit (n : ℕ) : Prop := 0x30 ≤ n ∧ n ≤ 0x39 ∨ 0x41 ≤ n ∧ n ≤ 0x46 ∨ 0x61 ≤ n ∧ n ≤ 0x66

instance (n : ℕ) : Decidable (IsDigit n) :=
  inferInstanceAs (Decidable (0x30 ≤ n ∧ n ≤ 0x39 ∨ 0x41 ≤ n ∧ n ≤ 0x46 ∨ 0x61 ≤ n ∧ n ≤ 0x66))

/-- The value of the digit with this number. -/
def valueOf (n : ℕ) : ℕ := if n ≤ 0x39 then n - 0x30 else if n ≤ 0x46 then n - 0x37 else n - 0x57

/-- Bytes below 128 as text. -/
def chars (t : Bytes) : List Char := t.map fun x => Char.ofNat x.toNat

variable {n k : ℕ} {c : Char} {x : UInt8} {t : Bytes}

/-! ### Single digits -/

theorem IsDigit.lt (h : IsDigit n) : n < 128 := by
  unfold IsDigit at h
  omega

theorem IsDigit.valueOf_lt (h : IsDigit n) : valueOf n < 16 := by
  unfold IsDigit at h
  unfold valueOf
  split
  · omega
  · split <;> omega

theorem IsDigit.toLower_eq (h : IsDigit c.toNat) : c.toLower = digit (valueOf c.toNat) := by
  have hdigits : ∀ n < 128, IsDigit n → (Char.ofNat n).toLower = digit (valueOf n) := by
    decide
  have hc := hdigits c.toNat h.lt h
  rwa [Char.ofNat_toNat] at hc

/-- Nothing but a digit becomes a digit in lower case. -/
theorem isDigit_of_toLower (hn : n < 16) (h : c.toLower = digit n) : IsDigit c.toNat := by
  by_cases hupper : c.isUpper
  · have hletters : ∀ m < 128, ∀ n < 16, (Char.ofNat m).toLower = digit n → IsDigit m := by
      decide
    have hlt : c.toNat < 128 := by
      simp [Char.isUpper, UInt32.le_iff_toNat_le] at hupper
      omega
    exact hletters c.toNat hlt n hn (by rwa [Char.ofNat_toNat])
  · have hlower : ∀ n < 16, IsDigit (digit n).toNat := by decide
    rw [Char.toLower_eq_of_not_isUpper hupper] at h
    rw [h]
    exact hlower n hn

theorem digit_inj {m : ℕ} (hm : m < 16) (hn : n < 16) (h : digit m = digit n) : m = n := by
  have hall : ∀ m < 16, ∀ n < 16, digit m = digit n → m = n := by decide
  exact hall m hm n hn h

theorem digitValue?_eq (x : UInt8) :
    digitValue? x = if IsDigit x.toNat then some (UInt8.ofNat (valueOf x.toNat)) else none := by
  have hall : ∀ n < 256, digitValue? (UInt8.ofNat n) =
      if IsDigit n then some (UInt8.ofNat (valueOf n)) else none := by
    decide +kernel
  have hx := hall x.toNat x.toNat_lt
  rwa [UInt8.ofNat_toNat] at hx

theorem digitValue?_of_isDigit (h : IsDigit x.toNat) :
    digitValue? x = some (UInt8.ofNat (valueOf x.toNat)) := by
  rw [digitValue?_eq, if_pos h]

theorem digitValue?_of_not_isDigit (h : ¬IsDigit x.toNat) : digitValue? x = none := by
  rw [digitValue?_eq, if_neg h]

/-! ### Bytes and their two digits -/

theorem ofByte_pair {high low : ℕ} (hhigh : high < 16) (hlow : low < 16) :
    ofByte (UInt8.ofNat high * 16 + UInt8.ofNat low) = [digit high, digit low] := by
  have hvalue : (UInt8.ofNat high * 16 + UInt8.ofNat low).toNat = high * 16 + low := by
    simp
    omega
  have hdiv : (high * 16 + low) / 16 = high := by omega
  have hmod : (high * 16 + low) % 16 = low := by omega
  rw [ofByte, hvalue, hdiv, hmod]

theorem ofByte_inj {x y : UInt8} (h : ofByte x = ofByte y) : x = y := by
  rw [ofByte, ofByte, List.cons.injEq, List.cons.injEq] at h
  have hx := x.toNat_lt
  have hy := y.toNat_lt
  have hhigh := digit_inj (by omega) (by omega) h.1
  have hlow := digit_inj (Nat.mod_lt _ (by decide)) (Nat.mod_lt _ (by decide)) h.2.1
  exact UInt8.toNat_inj.mp (by omega)

theorem length_flatMap_ofByte (b : Bytes) : (b.flatMap ofByte).length = 2 * b.length := by
  induction b with
  | nil => rfl
  | cons x b ih =>
      rw [List.flatMap_cons, List.length_append, ih, List.length_cons, Nat.mul_succ, Nat.add_comm]
      rfl

theorem flatMap_ofByte_inj {a b : Bytes} (h : a.flatMap ofByte = b.flatMap ofByte) : a = b := by
  induction a generalizing b with
  | nil =>
      have hlen := congrArg List.length h
      rw [length_flatMap_ofByte, length_flatMap_ofByte] at hlen
      cases b with
      | nil => rfl
      | cons y b => simp at hlen
  | cons x a ih =>
      cases b with
      | nil =>
          have hlen := congrArg List.length h
          rw [length_flatMap_ofByte, length_flatMap_ofByte] at hlen
          simp at hlen
      | cons y b =>
          rw [List.flatMap_cons, List.flatMap_cons] at h
          obtain ⟨hfirst, hrest⟩ := List.append_inj h rfl
          rw [ofByte_inj hfirst, ih hrest]

/-- The digits of bytes are digits. -/
theorem isDigit_of_lower {s : List Char} {b : Bytes} (h : Text.lower s = b.flatMap ofByte) :
    ∀ c ∈ s, IsDigit c.toNat := by
  intro c hc
  have hmem : c.toLower ∈ b.flatMap ofByte := h ▸ List.mem_map_of_mem hc
  obtain ⟨x, -, hx⟩ := List.mem_flatMap.mp hmem
  have hlt := x.toNat_lt
  rw [ofByte, List.mem_cons, List.mem_singleton] at hx
  rcases hx with hhigh | hlow
  · exact isDigit_of_toLower (by omega) hhigh
  · exact isDigit_of_toLower (Nat.mod_lt _ (by decide)) hlow

/-! ### Reading -/

theorem readPairs_pair {high low : UInt8} (hhigh : IsDigit high.toNat) (hlow : IsDigit low.toNat)
    (rest : Bytes) (k : ℕ) :
    readPairs (high :: low :: rest) k = (readPairs rest (k + 2)).map
      ((UInt8.ofNat (valueOf high.toNat) * 16 + UInt8.ofNat (valueOf low.toNat)) :: ·) := by
  rw [readPairs, digitValue?_of_isDigit hhigh, digitValue?_of_isDigit hlow]

theorem toLower_char (h : IsDigit x.toNat) :
    (Char.ofNat x.toNat).toLower = digit (valueOf x.toNat) := by
  have hvalid : x.toNat.isValidChar := .inl (Nat.lt_trans h.lt (by decide))
  have hsame : (Char.ofNat x.toNat).toNat = x.toNat := by rw [Char.toNat_ofNat, if_pos hvalid]
  have hlower := IsDigit.toLower_eq (c := Char.ofNat x.toNat) (by rwa [hsame])
  rwa [hsame] at hlower

/-- Digits in pairs are read as the bytes that they spell. -/
theorem readPairs_of_digits (t : Bytes) (k : ℕ) (ht : ∀ x ∈ t, IsDigit x.toNat)
    (heven : t.length % 2 = 0) :
    ∃ b, readPairs t k = .ok b ∧ Text.lower (chars t) = b.flatMap ofByte := by
  induction t using List.twoStepInduction generalizing k with
  | nil => exact ⟨[], rfl, rfl⟩
  | singleton x => cases heven
  | cons_cons high low rest ih _ =>
      rw [List.forall_mem_cons, List.forall_mem_cons] at ht
      obtain ⟨hhigh, hlow, hrest⟩ := ht
      rw [List.length_cons, List.length_cons] at heven
      obtain ⟨b, hb, hspelled⟩ := ih (k + 2) hrest (by omega)
      refine ⟨(UInt8.ofNat (valueOf high.toNat) * 16 + UInt8.ofNat (valueOf low.toNat)) :: b, ?_, ?_⟩
      · rw [readPairs_pair hhigh hlow, hb]
        rfl
      · rw [List.flatMap_cons, ofByte_pair hhigh.valueOf_lt hlow.valueOf_lt, ← hspelled,
          ← toLower_char hhigh, ← toLower_char hlow]
        rfl

/-- The first byte that is no digit is reported with its place, whether it comes first or second in
its pair. -/
theorem readPairs_of_bad (before behind : Bytes) (k : ℕ) (hbefore : ∀ y ∈ before, IsDigit y.toNat)
    (hx : ¬IsDigit x.toNat) (heven : (before ++ x :: behind).length % 2 = 0) :
    readPairs (before ++ x :: behind) k = .error (.badDigit x (k + before.length)) := by
  induction before using List.twoStepInduction generalizing k with
  | nil =>
      cases behind with
      | nil => cases heven
      | cons low rest => rw [List.nil_append, readPairs, digitValue?_of_not_isDigit hx]; rfl
  | singleton high =>
      rw [List.forall_mem_singleton] at hbefore
      rw [List.singleton_append, readPairs, digitValue?_of_isDigit hbefore,
        digitValue?_of_not_isDigit hx]
      rfl
  | cons_cons high low rest ih _ =>
      rw [List.forall_mem_cons, List.forall_mem_cons] at hbefore
      obtain ⟨hhigh, hlow, hrest⟩ := hbefore
      rw [List.cons_append, List.cons_append, List.length_cons, List.length_cons] at heven
      have hplace : k + (high :: low :: rest).length = k + 2 + rest.length := by
        rw [List.length_cons, List.length_cons]
        omega
      rw [List.cons_append, List.cons_append, readPairs_pair hhigh hlow,
        ih (k + 2) hrest (by omega), hplace]
      rfl

/-! ### Whole texts -/

theorem decode_of_odd (h : t.length % 2 = 1) : decode t = .error .oddLength := if_pos h

theorem decode_of_even (h : t.length % 2 = 0) : decode t = readPairs t 0 :=
  if_neg (by omega)

theorem decode_of_bad {before behind : Bytes} (hbefore : ∀ y ∈ before, IsDigit y.toNat)
    (hx : ¬IsDigit x.toNat) (heven : (before ++ x :: behind).length % 2 = 0) :
    decode (before ++ x :: behind) = .error (.badDigit x before.length) := by
  rw [decode_of_even heven, readPairs_of_bad before behind 0 hbefore hx heven, Nat.zero_add]

theorem decode_of_digits (ht : ∀ x ∈ t, IsDigit x.toNat) (heven : t.length % 2 = 0) :
    ∃ b, decode t = .ok b ∧ Text.lower (chars t) = b.flatMap ofByte := by
  rw [decode_of_even heven]
  exact readPairs_of_digits t 0 ht heven

/-- A text that does not consist of digits has a first byte that is none. -/
theorem exists_first_bad (h : ¬∀ x ∈ t, IsDigit x.toNat) :
    ∃ before x behind, t = before ++ x :: behind ∧ (∀ y ∈ before, IsDigit y.toNat) ∧
      ¬IsDigit x.toNat := by
  cases hfound : t.find? (fun x => ¬IsDigit x.toNat) with
  | none => exact absurd (by simpa using hfound) h
  | some x =>
      obtain ⟨hx, before, behind, rfl, hbefore⟩ := List.find?_eq_some_iff_append.mp hfound
      exact ⟨before, x, behind, rfl, by simpa using hbefore, by simpa using hx⟩

/-- What is read is what the digits spell, and nothing but digits is read. -/
theorem decode_eq_ok_iff {b : Bytes} :
    decode t = .ok b ↔ (∀ x ∈ t, IsDigit x.toNat) ∧ Text.lower (chars t) = b.flatMap ofByte := by
  constructor
  · intro hread
    have heven : t.length % 2 = 0 := by
      by_contra hodd
      rw [decode_of_odd (by omega)] at hread
      cases hread
    have hdigits : ∀ x ∈ t, IsDigit x.toNat := by
      by_contra hbad
      obtain ⟨before, x, behind, rfl, hbefore, hx⟩ := exists_first_bad hbad
      rw [decode_of_bad hbefore hx heven] at hread
      cases hread
    obtain ⟨b', hb', hspelled⟩ := decode_of_digits hdigits heven
    rw [hb'] at hread
    cases hread
    exact ⟨hdigits, hspelled⟩
  · rintro ⟨hdigits, hspelled⟩
    have hlength := congrArg List.length hspelled
    rw [length_flatMap_ofByte, Text.lower, chars, List.length_map, List.length_map] at hlength
    obtain ⟨b', hb', hspelled'⟩ := decode_of_digits hdigits (by omega)
    rw [hb', flatMap_ofByte_inj (hspelled'.symm.trans hspelled)]

end ProtectedMedia.Hex
