import ProtectedMedia.DecryptionModule.KeyText
import ProtectedMedia.Proofs.Bytes.Hex
import ProtectedMedia.Proofs.DecryptionModule.Answers
import ProtectedMedia.Proofs.Text.Utf8

/-!
# Which texts are keys

Hyphens are dropped from a text before anything else, so places and lengths are those of what is
left, in bytes. What is left is a key if it consists of 32 hexadecimal digits of either case, and the
key is then the one that is written like the text in lower case. Everything else is refused: for an odd
length, then for the first byte that is no digit, then for the number of bytes that the digits spell.
-/
namespace ProtectedMedia.Block

/-- A text without its hyphens. -/
def undashed (text : List Char) : List Char := text.filter (· ≠ '-')

/-- The bytes that a text has without its hyphens. -/
def undashedBytes (text : List Char) : Bytes := Text.utf8 (String.ofList (undashed text))

variable {text : List Char} {x : Block}

/-! ### Texts of digits -/

theorem forall_mem_undashedBytes_iff :
    (∀ x ∈ undashedBytes text, Hex.IsDigit x.toNat) ↔ ∀ c ∈ undashed text, Hex.IsDigit c.toNat :=
  Text.forall_mem_utf8_iff (fun _ h => h.lt) _

theorem undashedBytes_eq (h : ∀ c ∈ undashed text, Hex.IsDigit c.toNat) :
    undashedBytes text = (undashed text).map fun c => UInt8.ofNat c.toNat :=
  Text.utf8_of_lt fun c hc => (h c hc).lt

theorem length_undashedBytes (h : ∀ c ∈ undashed text, Hex.IsDigit c.toNat) :
    (undashedBytes text).length = (undashed text).length := by
  rw [undashedBytes_eq h, List.length_map]

theorem chars_undashedBytes (h : ∀ c ∈ undashed text, Hex.IsDigit c.toNat) :
    Hex.chars (undashedBytes text) = undashed text := by
  have hback : ∀ c ∈ undashed text, Char.ofNat (UInt8.ofNat c.toNat).toNat = c := fun c hc => by
    rw [Text.toNat_ofNat_of_lt (Nat.lt_trans (h c hc).lt (by decide)), Char.ofNat_toNat]
  rw [undashedBytes_eq h, Hex.chars, List.map_map]
  exact (List.map_congr_left hback).trans (List.map_id _)

/-- A text is read as bytes just if it spells them. -/
theorem decode_undashedBytes_eq_ok_iff {b : Bytes} :
    Hex.decode (undashedBytes text) = .ok b ↔ Text.lower (undashed text) = b.flatMap Hex.ofByte := by
  rw [Hex.decode_eq_ok_iff, forall_mem_undashedBytes_iff]
  constructor
  · rintro ⟨h, hspelled⟩
    rwa [chars_undashedBytes h] at hspelled
  · intro hspelled
    have h := Hex.isDigit_of_lower hspelled
    exact ⟨h, by rwa [chars_undashedBytes h]⟩

/-! ### Keys -/

theorem ofText_of_fault {fault : Hex.Fault} (h : Hex.decode (undashedBytes text) = .error fault) :
    ofText text = .error (.hex fault) := by
  unfold undashedBytes undashed at h
  rw [ofText, h]

theorem ofText_of_block (h : Hex.decode (undashedBytes text) = .ok x.toBytes) : ofText text = .ok x := by
  unfold undashedBytes undashed at h
  rw [ofText, h]
  simp only [ofBytes?_toBytes]

theorem ofText_of_size {b : Bytes} (h : Hex.decode (undashedBytes text) = .ok b) (hb : b.length ≠ 16) :
    ofText text = .error (.keySize b.length) := by
  unfold undashedBytes undashed at h
  rw [ofText, h]
  simp only [ofBytes?_eq_none hb]

theorem ofText_eq_ok_iff : ofText text = .ok x ↔ Hex.decode (undashedBytes text) = .ok x.toBytes := by
  refine ⟨fun h => ?_, ofText_of_block⟩
  cases hread : Hex.decode (undashedBytes text) with
  | error fault =>
      rw [ofText_of_fault hread] at h
      cases h
  | ok b =>
      by_cases hb : b.length = 16
      · obtain ⟨y, rfl⟩ := exists_eq_toBytes hb
        rw [ofText_of_block hread] at h
        cases h
        rfl
      · rw [ofText_of_size hread hb] at h
        cases h

theorem ofText_eq_ok_iff_spells :
    ofText text = .ok x ↔ Text.lower (undashed text) = (Hex.encode x.toBytes).toList := by
  rw [ofText_eq_ok_iff, decode_undashedBytes_eq_ok_iff, Hex.encode, String.toList_ofList]

theorem exists_ofText_iff :
    (∃ x, ofText text = .ok x) ↔
      (undashed text).length = 32 ∧ ∀ c ∈ undashed text, Hex.IsDigit c.toNat := by
  simp only [ofText_eq_ok_iff]
  constructor
  · rintro ⟨x, h⟩
    rw [decode_undashedBytes_eq_ok_iff] at h
    have hlength := congrArg List.length h
    rw [Hex.length_flatMap_ofByte, length_toBytes, Text.lower, List.length_map] at hlength
    exact ⟨hlength, Hex.isDigit_of_lower h⟩
  · rintro ⟨hlength, h⟩
    obtain ⟨b, hb, hspelled⟩ := Hex.decode_of_digits (forall_mem_undashedBytes_iff.mpr h)
      (by rw [length_undashedBytes h, hlength])
    have hb16 := congrArg List.length hspelled
    rw [Hex.length_flatMap_ofByte, chars_undashedBytes h, Text.lower, List.length_map, hlength] at hb16
    obtain ⟨x, rfl⟩ := exists_eq_toBytes (b := b) (by omega)
    exact ⟨x, hb⟩

theorem ofText_of_bad {before behind : Bytes} {x : UInt8}
    (hbytes : undashedBytes text = before ++ x :: behind)
    (heven : (undashedBytes text).length % 2 = 0) (hbefore : ∀ y ∈ before, Hex.IsDigit y.toNat)
    (hx : ¬Hex.IsDigit x.toNat) : ofText text = .error (.hex (.badDigit x before.length)) := by
  apply ofText_of_fault
  rw [hbytes] at heven ⊢
  exact Hex.decode_of_bad hbefore hx heven

theorem ofText_of_digits (heven : (undashedBytes text).length % 2 = 0)
    (hdigits : ∀ y ∈ undashedBytes text, Hex.IsDigit y.toNat)
    (hsize : (undashedBytes text).length ≠ 32) :
    ofText text = .error (.keySize ((undashedBytes text).length / 2)) := by
  obtain ⟨b, hb, hspelled⟩ := Hex.decode_of_digits hdigits heven
  have hlength := congrArg List.length hspelled
  rw [Hex.length_flatMap_ofByte, Text.lower, Hex.chars, List.length_map, List.length_map] at hlength
  have hhalf : (undashedBytes text).length / 2 = b.length := by omega
  rw [hhalf]
  exact ofText_of_size hb (by omega)

/-- A text is read as the key that it spells. It has to consist of 32 digits apart from its hyphens;
of what is wrong with any other text an odd length comes first, then the first byte that is no digit,
then the number of bytes that are spelled. -/
theorem key_read_or_refused (text : List Char) :
    (∀ x, ofText text = .ok x ↔ Text.lower (undashed text) = (Hex.encode x.toBytes).toList) ∧
    ((∃ x, ofText text = .ok x) ↔
      (undashed text).length = 32 ∧ ∀ c ∈ undashed text, Hex.IsDigit c.toNat) ∧
    ((undashedBytes text).length % 2 = 1 → ofText text = .error (.hex .oddLength)) ∧
    (∀ before x behind, undashedBytes text = before ++ x :: behind →
      (undashedBytes text).length % 2 = 0 → (∀ y ∈ before, Hex.IsDigit y.toNat) →
      ¬Hex.IsDigit x.toNat → ofText text = .error (.hex (.badDigit x before.length))) ∧
    ((undashedBytes text).length % 2 = 0 → (∀ y ∈ undashedBytes text, Hex.IsDigit y.toNat) →
      (undashedBytes text).length ≠ 32 →
      ofText text = .error (.keySize ((undashedBytes text).length / 2))) := by
  refine ⟨fun x => ofText_eq_ok_iff_spells, exists_ofText_iff, fun hodd => ?_, ?_, ofText_of_digits⟩
  · exact ofText_of_fault (Hex.decode_of_odd hodd)
  · intro before x behind hbytes heven hbefore hx
    exact ofText_of_bad hbytes heven hbefore hx

theorem key_read_or_refused_four_texts :
    ofText "00112233-4455-6677-8899-AAbbCCddeEFf".toList =
      .ok ⟨#[0x00, 0x11, 0x22, 0x33, 0x44, 0x55, 0x66, 0x77, 0x88, 0x99, 0xaa, 0xbb, 0xcc, 0xdd,
        0xee, 0xff], rfl⟩ ∧
    ofText "0-g0".toList = .error (.hex .oddLength) ∧
    ofText "0-0é".toList = .error (.hex (.badDigit 0xc3 2)) ∧
    ofText "a-bcd-".toList = .error (.keySize 2) := by
  have hsize : (undashedBytes "a-bcd-".toList).length = 4 := by decide +kernel
  refine ⟨((key_read_or_refused _).1 _).mpr (by decide),
    (key_read_or_refused _).2.2.1 (by decide +kernel),
    (key_read_or_refused "0-0é".toList).2.2.2.1 [0x30, 0x30] 0xc3 [0xa9] (by decide +kernel)
      (by decide +kernel) (by decide +kernel) (by decide), ?_⟩
  have hshort := (key_read_or_refused "a-bcd-".toList).2.2.2.2
  rw [hsize] at hshort
  exact hshort rfl (by decide +kernel) (by decide)

end ProtectedMedia.Block
