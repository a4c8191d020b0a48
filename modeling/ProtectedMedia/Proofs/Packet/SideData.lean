import ProtectedMedia.Proofs.Bytes.Splice
import ProtectedMedia.Proofs.Bytes.Taken
import ProtectedMedia.Proofs.Packet.Attached

/-!
# Parameters as side data

The fixed fields of side data declare how long it is. Side data that is at least that long holds
exactly one set of parameters, which is written as the declared part of it again. Anything shorter
is refused. Lengths are words of 32 bits, so parameters that were read have no longer parts.
-/
namespace ProtectedMedia

/-- The number that the word at a position spells. -/
def Bytes.wordAt (d : Bytes) (k : ℕ) : ℕ := toNat (d.slice k (k + 4))

theorem Bytes.wordAt_append {front : Bytes} {k n : ℕ} (rest : Bytes) (hfront : front.length = k)
    (hn : n < 2 ^ 32) : (front ++ (Bytes.ofNat 4 n ++ rest)).wordAt k = n := by
  rw [wordAt, slice, List.drop_left' hfront, List.take_left' (by rw [length_ofNat]; omega),
    toNat_ofNat]
  exact Nat.mod_eq_of_lt hn

namespace EncryptionInfo

open Reader

variable {info : EncryptionInfo} {d : Bytes} {c c' : Cursor}

/-- The size of side data by its own fixed fields: that of these, of the key identifier and of the
vector, and eight bytes for each subsample. -/
def declaredSize (d : Bytes) : ℕ := headerSize + d.wordAt 12 + d.wordAt 16 + d.wordAt 20 * 8

/-! ### What was read -/

theorem took_subsample {sub : Subsample} (h : readSubsample c = .ok (sub, c')) :
    c.Took sub.encode c' := by
  obtain ⟨clear, c₁, hclear, h⟩ := bind_eq_ok.mp h
  obtain ⟨protected', c₂, hprotected, h⟩ := bind_eq_ok.mp h
  cases h
  exact (took_word hclear).trans (took_word hprotected)

/-- Parameters are read from what they are written as, and from nothing else. -/
theorem took_read (h : read c = .ok (info, c')) : info.FitsWords ∧ c.Took info.encode c' := by
  unfold read at h
  obtain ⟨scheme, c₁, hscheme, h⟩ := bind_eq_ok.mp h
  obtain ⟨crypt, c₂, hcrypt, h⟩ := bind_eq_ok.mp h
  obtain ⟨skip, c₃, hskip, h⟩ := bind_eq_ok.mp h
  obtain ⟨keyIdSize, c₄, hkeyIdSize, h⟩ := bind_eq_ok.mp h
  obtain ⟨ivSize, c₅, hivSize, h⟩ := bind_eq_ok.mp h
  obtain ⟨count, c₆, hcount, h⟩ := bind_eq_ok.mp h
  obtain ⟨left, c₇, hleft, h⟩ := bind_eq_ok.mp h
  cases hleft
  split_ifs at h with htable
  · cases h
  obtain ⟨keyId, c₈, hkeyId, h⟩ := bind_eq_ok.mp h
  obtain ⟨iv, c₉, hiv, h⟩ := bind_eq_ok.mp h
  obtain ⟨subsamples, c₁₀, hsubsamples, h⟩ := bind_eq_ok.mp h
  cases h
  obtain ⟨hkeyIdLength, hkeyIdTook⟩ := took_bytes hkeyId
  obtain ⟨hivLength, hivTook⟩ := took_bytes hiv
  have hcountLength : subsamples.length = count.toNat := length_of_times hsubsamples
  have htook := (took_word hscheme).trans ((took_word hcrypt).trans ((took_word hskip).trans
    ((took_word hkeyIdSize).trans ((took_word hivSize).trans ((took_word hcount).trans
    (hkeyIdTook.trans (hivTook.trans (took_times (fun _ _ _ => took_subsample) hsubsamples))))))))
  constructor
  · constructor
    · rw [hkeyIdLength]
      exact keyIdSize.toNat_lt
    · rw [hivLength]
      exact ivSize.toNat_lt
    · rw [hcountLength]
      exact count.toNat_lt
  · simp only [encode, List.append_assoc, hkeyIdLength, hivLength, hcountLength]
    exact htook

theorem read_of_decode (h : decode d = .ok info) :
    info.FitsWords ∧ ∃ tail, d = info.encode ++ tail := by
  unfold decode at h
  split_ifs at h
  cases hread : read (Cursor.ofBytes d) with
  | error fault => rw [hread] at h; cases h
  | ok r =>
      rw [hread] at h
      cases h
      obtain ⟨hfits, htook⟩ := took_read hread
      exact ⟨hfits, r.2.rest, htook.rest⟩

theorem decode_error {e : Error} (h : decode d = .error e) : ∃ fault, e = .sideData fault := by
  unfold decode at h
  split_ifs at h with hshort
  · cases h
    exact ⟨_, rfl⟩
  · cases hread : read (Cursor.ofBytes d) with
    | error fault =>
        rw [hread] at h
        cases h
        exact ⟨fault, rfl⟩
    | ok r => rw [hread] at h; cases h

/-! ### What the fixed fields declare -/

theorem declaredSize_fields {first : Bytes} {keyId iv count : ℕ} (rest : Bytes)
    (hfirst : first.length = 12) (hkeyId : keyId < 2 ^ 32) (hiv : iv < 2 ^ 32)
    (hcount : count < 2 ^ 32) :
    declaredSize (first ++ (Bytes.ofNat 4 keyId ++ (Bytes.ofNat 4 iv ++
      (Bytes.ofNat 4 count ++ rest)))) = headerSize + keyId + iv + count * 8 := by
  have h₁₆ : (first ++ Bytes.ofNat 4 keyId).length = 16 := by
    rw [List.length_append, hfirst, Bytes.length_ofNat]
  have h₂₀ : (first ++ Bytes.ofNat 4 keyId ++ Bytes.ofNat 4 iv).length = 20 := by
    rw [List.length_append, h₁₆, Bytes.length_ofNat]
  rw [declaredSize, Bytes.wordAt_append _ hfirst hkeyId, ← List.append_assoc first,
    Bytes.wordAt_append _ h₁₆ hiv, ← List.append_assoc (first ++ _),
    Bytes.wordAt_append _ h₂₀ hcount]

/-- Written parameters declare their own size, whatever follows. -/
theorem declaredSize_encode (h : info.FitsWords) (tail : Bytes) :
    declaredSize (info.encode ++ tail) = info.encode.length := by
  have hfirst : (Bytes.ofUInt32 info.scheme ++ (Bytes.ofUInt32 info.pattern.crypt ++
      Bytes.ofUInt32 info.pattern.skip)).length = 12 := by
    simp only [List.length_append, Bytes.length_ofUInt32]
  have hsize := declaredSize_fields
    (info.keyId ++ (info.iv ++ (info.subsamples.flatMap Subsample.encode ++ tail))) hfirst
    h.keyId h.iv h.subsamples
  rw [length_encode, ← hsize]
  simp only [encode, List.append_assoc]

/-- Any eight bytes are a subsample. -/
theorem exists_subsamples {n : ℕ} {d : Bytes} (h : n * 8 ≤ d.length) :
    ∃ (subs : List Subsample) (tail : Bytes), subs.length = n ∧
      d = subs.flatMap Subsample.encode ++ tail := by
  refine Bytes.exists_flatMap (fun d hd => ?_) h
  obtain ⟨clear, d₁, rfl, hd₁⟩ := Bytes.exists_word (d := d) (by omega)
  obtain ⟨protected', d₂, rfl, hd₂⟩ := Bytes.exists_word (d := d₁) (by omega)
  refine ⟨⟨clear, protected'⟩, d₂, ?_, by omega⟩
  rw [Subsample.encode, List.append_assoc]
  rfl

/-- Side data that is as long as it declares is some parameters and whatever follows them. -/
theorem exists_encode_of_declaredSize (h : declaredSize d ≤ d.length) :
    ∃ info tail, FitsWords info ∧ d = info.encode ++ tail := by
  have hheader : 24 ≤ d.length := by
    rw [declaredSize, headerSize] at h
    omega
  obtain ⟨scheme, d₁, hd, hd₁⟩ := Bytes.exists_word (d := d) (by omega)
  obtain ⟨crypt, d₂, rfl, hd₂⟩ := Bytes.exists_word (d := d₁) (by omega)
  obtain ⟨skip, d₃, rfl, hd₃⟩ := Bytes.exists_word (d := d₂) (by omega)
  obtain ⟨keyIdSize, d₄, rfl, hd₄⟩ := Bytes.exists_word (d := d₃) (by omega)
  obtain ⟨ivSize, d₅, rfl, hd₅⟩ := Bytes.exists_word (d := d₄) (by omega)
  obtain ⟨count, d₆, rfl, hd₆⟩ := Bytes.exists_word (d := d₅) (by omega)
  have hfirst : (Bytes.ofUInt32 scheme ++ (Bytes.ofUInt32 crypt ++
      Bytes.ofUInt32 skip)).length = 12 := by
    simp only [List.length_append, Bytes.length_ofUInt32]
  have hsize := declaredSize_fields d₆ hfirst keyIdSize.toNat_lt ivSize.toNat_lt count.toNat_lt
  simp only [List.append_assoc, Bytes.ofUInt32, ← hd, headerSize] at hsize
  have hroom : keyIdSize.toNat + ivSize.toNat + count.toNat * 8 ≤ d₆.length := by omega
  have hkeyId : (d₆.take keyIdSize.toNat).length = keyIdSize.toNat := by
    rw [List.length_take]
    omega
  have hiv : ((d₆.drop keyIdSize.toNat).take ivSize.toNat).length = ivSize.toNat := by
    rw [List.length_take, List.length_drop]
    omega
  obtain ⟨subs, tail, hsubs, htail⟩ := exists_subsamples (n := count.toNat)
    (d := (d₆.drop keyIdSize.toNat).drop ivSize.toNat) (by simp only [List.length_drop]; omega)
  refine ⟨⟨scheme, ⟨crypt, skip⟩, _, _, subs⟩, tail, ⟨hkeyId ▸ keyIdSize.toNat_lt,
    hiv ▸ ivSize.toNat_lt, hsubs ▸ count.toNat_lt⟩, ?_⟩
  simp only [encode, hkeyId, hiv, hsubs, Bytes.ofUInt32, List.append_assoc]
  rw [← htail, List.take_append_drop, List.take_append_drop, hd]

/-! ### Exactness -/

/-- Parameters that fit are read back whatever follows them. All other side data that is as long as
it declares holds parameters, too, and these are written as its declared part again. Side data that
is shorter is refused for want of memory. -/
theorem decode_exact :
    (∀ info : EncryptionInfo, info.FitsWords → ∀ tail, decode (info.encode ++ tail) = .ok info) ∧
      ∀ d : Bytes,
        (declaredSize d ≤ d.length →
          ∃ info, decode d = .ok info ∧ info.encode = d.take (declaredSize d)) ∧
        (d.length < declaredSize d → ∃ fault, decode d = .error (.sideData fault)) := by
  refine ⟨fun info h => decode_encode h, fun d => ⟨fun h => ?_, fun h => ?_⟩⟩
  · obtain ⟨info, tail, hfits, rfl⟩ := exists_encode_of_declaredSize h
    refine ⟨info, decode_encode hfits tail, ?_⟩
    rw [declaredSize_encode hfits, List.take_left]
  · cases hd : decode d with
    | error e =>
        obtain ⟨fault, rfl⟩ := decode_error hd
        exact ⟨fault, rfl⟩
    | ok info =>
        obtain ⟨hfits, tail, rfl⟩ := read_of_decode hd
        rw [declaredSize_encode hfits, List.length_append] at h
        omega

def twoSubsamples : EncryptionInfo where
  scheme := Scheme.cens.code
  pattern := ⟨1, 9⟩
  keyId := List.replicate 16 0x11
  iv := List.replicate 8 0x22
  subsamples := [⟨100, 160⟩, ⟨0, 160⟩]

/-- They are read back in front of three more bytes, and refused without their last byte. -/
theorem decode_exact_two_subsamples :
    (twoSubsamples.FitsWords ∧
      decode (twoSubsamples.encode ++ [1, 2, 3]) = .ok twoSubsamples) ∧
    (declaredSize (twoSubsamples.encode ++ [1, 2, 3]) ≤
        (twoSubsamples.encode ++ [1, 2, 3]).length ∧
      ∃ info, decode (twoSubsamples.encode ++ [1, 2, 3]) = .ok info ∧
        info.encode = (twoSubsamples.encode ++ [1, 2, 3]).take
          (declaredSize (twoSubsamples.encode ++ [1, 2, 3]))) ∧
    twoSubsamples.encode.dropLast.length < declaredSize twoSubsamples.encode.dropLast ∧
      ∃ fault, decode twoSubsamples.encode.dropLast = .error (.sideData fault) := by
  obtain ⟨hencoded, hdecoded⟩ := decode_exact
  have hfits : twoSubsamples.FitsWords := ⟨by decide, by decide, by decide⟩
  have hlong : declaredSize (twoSubsamples.encode ++ [1, 2, 3]) ≤
      (twoSubsamples.encode ++ [1, 2, 3]).length := by decide
  have hshort : twoSubsamples.encode.dropLast.length <
      declaredSize twoSubsamples.encode.dropLast := by decide
  exact ⟨⟨hfits, hencoded _ hfits _⟩, ⟨hlong, (hdecoded _).1 hlong⟩, hshort,
    (hdecoded _).2 hshort⟩

end EncryptionInfo

/-- The parameters of a packet have fewer than `2 ^ 32` subsamples. -/
theorem Packet.length_subsamples_lt {p : Packet} {info : EncryptionInfo}
    (h : p.encryptionInfo = .ok (some info)) : info.subsamples.length < 2 ^ 32 := by
  unfold encryptionInfo at h
  split at h
  · cases h
  · rename_i data _
    cases hd : EncryptionInfo.decode data with
    | error e => rw [hd] at h; cases h
    | ok found =>
      rw [hd] at h
      cases h
      exact (EncryptionInfo.read_of_decode hd).1.subsamples

end ProtectedMedia
