import ProtectedMedia.Proofs.Box.Announced

/-!
# The encryption of samples, written and read

Every sample has a vector, which may be empty, and if the flags announce subsamples, their number and
the subsamples. Entries differ in size, so only their vectors can be checked for room before they are
read. A table is read from what it is written as, and from nothing else.
-/
namespace ProtectedMedia

open Reader

def Subsample.write (s : Subsample) : Bytes :=
  Bytes.ofNat 2 s.clearBytes.toNat ++ Bytes.ofUInt32 s.protectedBytes

namespace SampleEncryption

/-- Vectors have the size that the track says, and counts and clear runs fit into 16 bits. -/
structure Fits (e : SampleEncryption) (ivSize : ℕ) : Prop where
  iv : e.iv.length = ivSize
  count : e.subsamples.length < 2 ^ 16
  clear : ∀ s ∈ e.subsamples, s.clearBytes.toNat < 2 ^ 16

instance decidableFits (e : SampleEncryption) (ivSize : ℕ) : Decidable (e.Fits ivSize) :=
  decidable_of_iff (e.iv.length = ivSize ∧ e.subsamples.length < 2 ^ 16 ∧
      ∀ s ∈ e.subsamples, s.clearBytes.toNat < 2 ^ 16)
    ⟨fun fits => ⟨fits.1, fits.2.1, fits.2.2⟩, fun fits => ⟨fits.iv, fits.count, fits.clear⟩⟩

/-- Subsamples are there only if the flags announce them. -/
structure FitsIn (b : Box) (e : SampleEncryption) (ivSize : ℕ) : Prop extends e.Fits ivSize where
  announced : b.hasFlag 0x2 = false → e.subsamples = []

def writeIn (b : Box) (e : SampleEncryption) : Bytes :=
  e.iv ++ if b.hasFlag 0x2 then
    Bytes.ofNat 2 e.subsamples.length ++ e.subsamples.flatMap Subsample.write else []

theorem FitsIn.le_length {b : Box} {e : SampleEncryption} {ivSize : ℕ} (fits : e.FitsIn b ivSize) :
    ivSize ≤ (e.writeIn b).length := by
  rw [writeIn, List.length_append, fits.iv]
  exact Nat.le_add_right _ _

end SampleEncryption

namespace Box

variable {b : Box} {ivSize most : ℕ} {c c' : Cursor} {e : SampleEncryption}
  {entries : List SampleEncryption}

def writeSamples (b : Box) (entries : List SampleEncryption) : Bytes :=
  Bytes.ofNat 4 entries.length ++ entries.flatMap (SampleEncryption.writeIn b)

/-- A table of at most `most` entries, as many as its word can count. -/
structure SampleTable (b : Box) (ivSize most : ℕ) (entries : List SampleEncryption) : Prop where
  most : entries.length ≤ most
  count : entries.length < 2 ^ 32
  fits : ∀ e ∈ entries, e.FitsIn b ivSize

/-! ### Reading what was written -/

theorem reads_subsample {s : Subsample} (h : s.clearBytes.toNat < 2 ^ 16) :
    Reads readSubsample s.write s := by
  unfold readSubsample
  refine (reads_unsigned h).bind ?_
  rw [← List.append_nil (Bytes.ofUInt32 s.protectedBytes), UInt32.ofNat_toNat]
  exact (reads_word _).bind (reads_pure s)

theorem reads_sampleEntry (fits : e.FitsIn b ivSize) :
    Reads (b.readSampleEntry ivSize) (e.writeIn b) e := by
  have hsubs : Reads (unsigned 2 >>= fun count => times count readSubsample)
      (Bytes.ofNat 2 e.subsamples.length ++ e.subsamples.flatMap Subsample.write) e.subsamples :=
    (reads_unsigned fits.count).bind (reads_times fun s hs => reads_subsample (fits.clear s hs))
  unfold readSampleEntry
  refine (reads_bytes fits.iv).bind ?_
  cases hflag : b.hasFlag 0x2 with
  | false =>
      have hnone := fits.announced hflag
      exact (reads_when_false _).bind_nil (by rw [Option.getD_none, ← hnone]; exact reads_pure e)
  | true =>
      rw [if_pos rfl, ← List.append_nil (Bytes.ofNat 2 e.subsamples.length ++ _)]
      exact (reads_when_true hsubs).bind (reads_pure e)

theorem reads_samples (table : b.SampleTable ivSize most entries) :
    Reads (b.readSampleEncryption ivSize most) (b.writeSamples entries) entries := by
  have hentries : Reads (times entries.length (b.readSampleEntry ivSize))
      (entries.flatMap (SampleEncryption.writeIn b)) entries :=
    reads_times fun e he => reads_sampleEntry (table.fits e he)
  unfold readSampleEncryption
  refine (reads_unsigned table.count).bind ((reads_checkCount table.most).bind_nil ?_)
  exact reads_checkRoom (Bytes.le_length_flatMap fun e he => (table.fits e he).le_length) hentries

/-! ### Writing what was read -/

theorem took_subsample {s : Subsample} (h : readSubsample c = .ok (s, c')) :
    s.clearBytes.toNat < 2 ^ 16 ∧ c.Took s.write c' := by
  obtain ⟨n, c₁, hclear, h⟩ := bind_eq_ok.mp h
  obtain ⟨protectedBytes, c₂, hprotected, h⟩ := bind_eq_ok.mp h
  cases h
  have hlt : n < 2 ^ 16 := lt_of_unsigned hclear
  have hvalue : (UInt32.ofNat n).toNat = n := UInt32.toNat_ofNat_of_lt' (hlt.trans (by decide))
  rw [Subsample.write, hvalue]
  exact ⟨hlt, (took_unsigned hclear).trans (took_word hprotected)⟩

theorem took_sampleEntry (h : b.readSampleEntry ivSize c = .ok (e, c')) :
    e.FitsIn b ivSize ∧ c.Took (e.writeIn b) c' := by
  obtain ⟨iv, c₁, hiv, h⟩ := bind_eq_ok.mp h
  obtain ⟨subsamples, c₂, hsubs, h⟩ := bind_eq_ok.mp h
  cases h
  obtain ⟨hlength, htook⟩ := took_bytes hiv
  rw [when_eq_ok] at hsubs
  rw [SampleEncryption.writeIn]
  split_ifs at hsubs ⊢ with hflag
  · obtain ⟨subs, rfl, hsubs⟩ := hsubs
    obtain ⟨count, c₃, hcount, hsubs⟩ := bind_eq_ok.mp hsubs
    obtain rfl : subs.length = count := length_of_times hsubs
    have hclear := forall_of_times (fun _ _ _ hs => (took_subsample hs).1) hsubs
    refine ⟨⟨⟨hlength, lt_of_unsigned hcount, hclear⟩, fun hnot => ?_⟩, ?_⟩
    · rw [hflag] at hnot
      cases hnot
    · exact htook.trans ((took_unsigned hcount).trans
        (took_times (fun _ _ _ hs => (took_subsample hs).2) hsubs))
  · obtain ⟨rfl, rfl⟩ := hsubs
    exact ⟨⟨⟨hlength, Nat.two_pow_pos 16, nofun⟩, fun _ => rfl⟩, htook.trans (.refl _)⟩

theorem took_samples (h : b.readSampleEncryption ivSize most c = .ok (entries, c')) :
    b.SampleTable ivSize most entries ∧ c.Took (b.writeSamples entries) c' := by
  obtain ⟨count, c₁, rcount, h⟩ := bind_eq_ok.mp h
  obtain ⟨_, c₂, rmost, h⟩ := bind_eq_ok.mp h
  obtain ⟨_, c₃, rroom, rentries⟩ := bind_eq_ok.mp h
  obtain rfl : entries.length = count := length_of_times rentries
  obtain ⟨hmost, rfl⟩ := checkCount_eq_ok.mp rmost
  obtain ⟨-, rfl⟩ := checkRoom_eq_ok.mp rroom
  refine ⟨⟨hmost, lt_of_unsigned rcount, ?_⟩, ?_⟩
  · exact forall_of_times (fun _ _ _ he => (took_sampleEntry he).1) rentries
  · exact (took_unsigned rcount).trans
      (took_times (fun _ _ _ he => (took_sampleEntry he).2) rentries)

/-- A table is read from what it is written as, and from nothing else. -/
theorem readSampleEncryption_eq_ok :
    b.readSampleEncryption ivSize most c = .ok (entries, c') ↔
      b.SampleTable ivSize most entries ∧ c.Took (b.writeSamples entries) c' := by
  constructor
  · exact took_samples
  · rintro ⟨table, htook⟩
    rw [reads_samples table c c'.rest htook.rest, ← htook.eq]

/-- Whatever follows a table that was written, reading yields the table and leaves what follows. And
whatever is read, the bytes that were taken are what the result is written as. -/
theorem samples_exact (b : Box) (ivSize most : ℕ) (c : Cursor) :
    (∀ (entries : List SampleEncryption) (tail : Bytes), b.SampleTable ivSize most entries →
      c.rest = b.writeSamples entries ++ tail →
        ∃ c', b.readSampleEncryption ivSize most c = .ok (entries, c') ∧ c'.rest = tail) ∧
    (∀ entries c', b.readSampleEncryption ivSize most c = .ok (entries, c') →
      entries.length ≤ most ∧ (∀ e ∈ entries, e.FitsIn b ivSize) ∧
        c.rest = b.writeSamples entries ++ c'.rest ∧
        c' = c.forward (b.writeSamples entries).length) := by
  constructor
  · intro entries tail table hrest
    have htook := Cursor.took_of_rest hrest
    refine ⟨_, readSampleEncryption_eq_ok.mpr ⟨table, htook⟩, ?_⟩
    exact List.append_cancel_left (htook.rest.symm.trans hrest)
  · intro entries c' h
    obtain ⟨table, htook⟩ := readSampleEncryption_eq_ok.mp h
    exact ⟨table.most, table.fits, htook.rest, htook.eq⟩

/-- A box of sample encryption with subsamples. -/
def withSubsamples : Box := ⟨.senc, 0, 0, some ⟨0, 0x2⟩, false, []⟩

/-- Two samples without vectors of their own, the second without subsamples too. -/
def bareEntries : List SampleEncryption := [⟨[], [⟨3, 16⟩, ⟨0, 32⟩]⟩, ⟨[], []⟩]

/-- A table without vectors, and a byte behind it. -/
theorem samples_exact_bare :
    withSubsamples.SampleTable 0 2 bareEntries ∧
      ∃ c', withSubsamples.readSampleEncryption 0 2
          (Cursor.ofBytes (withSubsamples.writeSamples bareEntries ++ [9])) =
        .ok (bareEntries, c') ∧ c'.rest = [9] := by
  have hfits : ∀ e ∈ bareEntries, e.Fits 0 := by decide
  have table : withSubsamples.SampleTable 0 2 bareEntries :=
    ⟨by decide, by decide, fun e he => ⟨hfits e he, fun h => absurd h (by decide)⟩⟩
  obtain ⟨hwritten, -⟩ := samples_exact withSubsamples 0 2
    (Cursor.ofBytes (withSubsamples.writeSamples bareEntries ++ [9]))
  exact ⟨table, hwritten bareEntries [9] table rfl⟩

end Box

end ProtectedMedia
