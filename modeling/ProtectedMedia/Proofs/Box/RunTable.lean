import ProtectedMedia.Proofs.Box.Announced

/-!
# Runs with all their fields

A run is written with every field that its flags announce: in front of the entries their number, an
offset and the flags of the first sample, and in each entry a duration, a size, flags and a time offset.
Of these the offset and the sizes are read and all others passed over. All entries have one size, so
the number of entries and the flags tell how long a run is, and a run is read if there are that many
bytes and if there may be that many entries.
-/
namespace ProtectedMedia

open Reader

/-- An entry of a run with all fields that it may have. -/
structure RunEntry where
  duration : UInt32
  size : UInt32
  flags : UInt32
  timeOffset : UInt32

/-- A run with all fields that it may have. -/
structure RunTable where
  offset : Int32
  firstFlags : UInt32
  entries : List RunEntry

namespace RunEntry

def write (b : Box) (e : RunEntry) : Bytes :=
  b.announced 0x100 e.duration ++ (b.announced 0x200 e.size ++
    (b.announced 0x400 e.flags ++ b.announced 0x800 e.timeOffset))

/-- The size of the sample, if sizes are announced. -/
def sizeIn (b : Box) (e : RunEntry) : Option UInt32 := if b.hasFlag 0x200 then some e.size else none

end RunEntry

namespace RunTable

def write (b : Box) (t : RunTable) : Bytes :=
  Bytes.ofNat 4 t.entries.length ++ (b.announced 0x1 t.offset.toUInt32 ++
    (b.announced 0x4 t.firstFlags ++ t.entries.flatMap (RunEntry.write b)))

/-- What a reader is to make of the run. -/
def run (b : Box) (t : RunTable) : TrackRun where
  offset := if b.hasFlag 0x1 then some t.offset.toInt else none
  sizes := t.entries.map (RunEntry.sizeIn b)

end RunTable

namespace Box

variable {b : Box} {limit most : ℕ} {c c' : Cursor}

/-- The size of what stands in front of the entries of a run. -/
def runHeadSize (b : Box) : ℕ := 4 + (b.announcedSize 0x1 + b.announcedSize 0x4)

/-- The number of entries that bytes declare in front. -/
def runCount (d : Bytes) : ℕ := Bytes.toNat (d.take 4)

theorem runCount_lt (d : Bytes) : runCount d < 2 ^ 32 := by
  have hlt := Bytes.toNat_lt (d.take 4)
  have hpow : 256 ^ (d.take 4).length ≤ 256 ^ 4 :=
    Nat.pow_le_pow_right (by omega) (List.length_take_le 4 d)
  exact hlt.trans_le hpow

theorem runCount_append {n : ℕ} {rest : Bytes} (h : n < 2 ^ 32) :
    runCount (Bytes.ofNat 4 n ++ rest) = n := by
  rw [runCount, List.take_left' (Bytes.length_ofNat 4 n), Bytes.toNat_ofNat]
  exact Nat.mod_eq_of_lt h

/-! ### Sizes -/

theorem runEntrySize_eq (b : Box) :
    b.runEntrySize = b.announcedSize 0x100 + (b.announcedSize 0x200 +
      (b.announcedSize 0x400 + b.announcedSize 0x800)) := by
  have hword (mask : UInt32) (masks : List UInt32) :
      4 * ((mask :: masks).filter b.hasFlag).length =
        b.announcedSize mask + 4 * (masks.filter b.hasFlag).length := by
    rw [List.filter_cons, announcedSize]
    split
    · rw [List.length_cons]
      omega
    · exact (Nat.zero_add _).symm
  simp only [runEntrySize, hword, List.filter_nil, List.length_nil, Nat.mul_zero, Nat.add_zero]

theorem runEntrySize_le (b : Box) : b.runEntrySize ≤ 16 := by
  have h := List.length_filter_le b.hasFlag [0x100, 0x200, 0x400, 0x800]
  exact Nat.mul_le_mul_left 4 h

theorem runHeadSize_le (b : Box) : b.runHeadSize ≤ 12 := by
  have hoffset := b.announcedSize_le 0x1
  have hflags := b.announcedSize_le 0x4
  rw [runHeadSize]
  omega

theorem length_writeRunEntry (b : Box) (e : RunEntry) : (e.write b).length = b.runEntrySize := by
  simp only [RunEntry.write, List.length_append, length_announced, runEntrySize_eq]

theorem length_writeRun (b : Box) (t : RunTable) :
    (t.write b).length = b.runHeadSize + t.entries.length * b.runEntrySize := by
  simp only [RunTable.write, List.length_append, length_announced, Bytes.length_ofNat,
    Bytes.length_flatMap t.entries (b.length_writeRunEntry), runHeadSize, Nat.add_assoc]

/-! ### Reading what was written -/

theorem signed32_toUInt32 (i : Int32) : Cursor.signed32 i.toUInt32.toNat = i.toInt := by
  have hlt : i.toUInt32.toNat < 2 ^ 32 := i.toUInt32.toNat_lt
  have hsize : UInt32.size = 2 ^ 32 := rfl
  have hvalue : i.toInt = if 2 * i.toUInt32.toNat < 2 ^ 32 then (i.toUInt32.toNat : ℤ)
      else i.toUInt32.toNat - (2 ^ 32 : ℕ) := BitVec.toInt_eq_toNat_cond i.toBitVec
  rw [Cursor.signed32, hvalue, hsize]
  split_ifs <;> omega

/-- If the flags announce words to be passed over, then the limit is a position. -/
def Passable (b : Box) (limit : ℕ) : Prop :=
  ∀ mask ∈ [0x4, 0x100, 0x400, 0x800], b.hasFlag mask = true → limit ≤ 2 ^ 64

theorem readsBelow_passed {mask : UInt32} (hlimit : b.hasFlag mask = true → limit ≤ 2 ^ 64)
    (x : UInt32) : ReadsBelow limit (when (b.hasFlag mask) (skip 4)) (b.announced mask x)
      (if b.hasFlag mask then some () else none) := by
  refine readsBelow_announced fun hflag => ?_
  have h := readsBelow_skip (ε := BoxFault) (hlimit hflag) (Bytes.ofUInt32 x)
  rwa [Bytes.length_ofUInt32] at h

theorem readsBelow_runEntry (hlimit : b.Passable limit) (e : RunEntry) :
    ReadsBelow limit b.readRunEntry (e.write b) (e.sizeIn b) := by
  unfold readRunEntry
  rw [RunEntry.write, ← List.append_nil (b.announced 0x800 e.timeOffset)]
  exact (readsBelow_passed (hlimit 0x100 (by decide)) e.duration).bind
    ((readsBelow_announced fun _ => (reads_word e.size).below limit).bind
    ((readsBelow_passed (hlimit 0x400 (by decide)) e.flags).bind
    ((readsBelow_passed (hlimit 0x800 (by decide)) e.timeOffset).bind
    ((reads_pure _).below limit))))

/-- A run is read as what was written, whatever follows. -/
theorem readsBelow_trackRun (hlimit : b.Passable limit) {t : RunTable}
    (hmost : t.entries.length ≤ most) (hcount : t.entries.length < 2 ^ 32) :
    ReadsBelow limit (b.readTrackRun most) (t.write b) (t.run b) := by
  have hoffset : Reads (signedWord : Reader BoxFault ℤ) (Bytes.ofUInt32 t.offset.toUInt32)
      t.offset.toInt := by
    rw [← signed32_toUInt32]
    exact reads_signed t.offset.toUInt32.toNat_lt
  have hentries : ReadsBelow limit (times t.entries.length b.readRunEntry)
      (t.entries.flatMap (RunEntry.write b)) (t.entries.map (RunEntry.sizeIn b)) :=
    readsBelow_times fun e _ => readsBelow_runEntry hlimit e
  have hroom : t.entries.length * b.runEntrySize ≤
      (t.entries.flatMap (RunEntry.write b)).length :=
    (Bytes.length_flatMap t.entries b.length_writeRunEntry).ge
  unfold readTrackRun
  refine ((reads_unsigned hcount).below limit).bind ?_
  refine ((reads_checkCount hmost).below limit).bind_nil ?_
  refine (readsBelow_announced fun _ => hoffset.below limit).bind ?_
  refine (readsBelow_passed (hlimit 0x4 (by decide)) t.firstFlags).bind ?_
  refine readsBelow_checkRoom hroom ?_
  rw [← List.append_nil (t.entries.flatMap (RunEntry.write b))]
  exact hentries.bind ((reads_pure _).below limit)

/-! ### What any bytes hold -/

theorem exists_runEntry {d : Bytes} (h : b.runEntrySize ≤ d.length) :
    ∃ (e : RunEntry) (rest : Bytes), d = e.write b ++ rest ∧
      rest.length + b.runEntrySize = d.length := by
  rw [runEntrySize_eq] at h ⊢
  obtain ⟨duration, d₁, rfl, h₁⟩ := b.exists_announced 0x100 (d := d) (by omega)
  obtain ⟨size, d₂, rfl, h₂⟩ := b.exists_announced 0x200 (d := d₁) (by omega)
  obtain ⟨flags, d₃, rfl, h₃⟩ := b.exists_announced 0x400 (d := d₂) (by omega)
  obtain ⟨timeOffset, d₄, rfl, h₄⟩ := b.exists_announced 0x800 (d := d₃) (by omega)
  refine ⟨⟨duration, size, flags, timeOffset⟩, d₄, ?_, by omega⟩
  simp only [RunEntry.write, List.append_assoc]

/-- Bytes that have room for a run begin with one. -/
theorem exists_run {d : Bytes} (hroom : b.runHeadSize + runCount d * b.runEntrySize ≤ d.length) :
    ∃ (t : RunTable) (rest : Bytes), d = t.write b ++ rest ∧ t.entries.length = runCount d := by
  rw [runHeadSize] at hroom
  obtain ⟨count, d₁, rfl, h₁⟩ := Bytes.exists_word (d := d) (by omega)
  rw [runCount_append count.toNat_lt] at hroom ⊢
  obtain ⟨offset, d₂, rfl, h₂⟩ := b.exists_announced 0x1 (d := d₁) (by omega)
  obtain ⟨firstFlags, d₃, rfl, h₃⟩ := b.exists_announced 0x4 (d := d₂) (by omega)
  obtain ⟨entries, rest, hcount, rfl⟩ := Bytes.exists_flatMap (n := count.toNat) (d := d₃)
    (fun _ => exists_runEntry (b := b)) (by omega)
  refine ⟨⟨offset.toInt32, firstFlags, entries⟩, rest, ?_, hcount⟩
  simp only [RunTable.write, hcount, UInt32.toUInt32_toInt32, List.append_assoc]

/-! ### What was read -/

/-- A word that may be there takes its size. -/
theorem room_of_announced {α : Type} {r : Reader BoxFault α} {mask : UInt32} {x : Option α}
    (hr : ∀ a, r c = .ok (a, c') → 4 ≤ c.rest.length ∧ c' = c.forward 4)
    (h : when (b.hasFlag mask) r c = .ok (x, c')) :
    b.announcedSize mask ≤ c.rest.length ∧ c' = c.forward (b.announcedSize mask) := by
  rw [announcedSize]
  rw [when_eq_ok] at h
  split_ifs at h ⊢
  · obtain ⟨a, -, ha⟩ := h
    exact hr a ha
  · exact ⟨Nat.zero_le _, h.2.trans (Cursor.eq_of_position rfl rfl)⟩

/-- A run that was read had room for its entries. Only the words in front of them are taken apart; that
the entries can be read then follows from writing them. -/
theorem room_of_readTrackRun {run : TrackRun} (hdata : c.data.length < 2 ^ 63)
    (h : b.readTrackRun most c = .ok (run, c')) :
    b.runHeadSize + runCount c.rest * b.runEntrySize ≤ c.rest.length ∧ runCount c.rest ≤ most := by
  unfold readTrackRun at h
  obtain ⟨count, c₁, rcount, h⟩ := bind_eq_ok.mp h
  obtain ⟨hcount, rfl, rfl⟩ := unsigned_eq_ok.mp rcount
  obtain ⟨_, c₂, rmost, h⟩ := bind_eq_ok.mp h
  obtain ⟨hmost, rfl⟩ := checkCount_eq_ok.mp rmost
  obtain ⟨offset, c₃, roffset, h⟩ := bind_eq_ok.mp h
  obtain ⟨hoffset, rfl⟩ :=
    room_of_announced (fun i hi => (signedWord_eq_ok.mp hi).imp_right And.right) roffset
  rw [Cursor.forward_forward] at h
  have hposition : (c.forward (4 + b.announcedSize 0x1)).position + 4 < 2 ^ 64 := by
    have hstart := c.position_lt_of_rest (by omega)
    have hsize := b.announcedSize_le 0x1
    rw [Cursor.position_forward]
    omega
  obtain ⟨_, c₄, rflags, h⟩ := bind_eq_ok.mp h
  obtain ⟨hflags, rfl⟩ := room_of_announced (fun u hu => (skip_eq_ok hposition).mp hu) rflags
  obtain ⟨_, c₅, rroom, h⟩ := bind_eq_ok.mp h
  obtain ⟨hroom, rfl⟩ := checkRoom_eq_ok.mp rroom
  simp only [Cursor.rest_forward, List.length_drop] at hoffset hflags hroom
  have hfits : 4 + (b.announcedSize 0x1 + b.announcedSize 0x4) +
      Bytes.toNat (c.rest.take 4) * b.runEntrySize ≤ c.rest.length := by omega
  exact ⟨hfits, hmost⟩

/-- No run is so long that a word in it could not be passed over. -/
theorem readTrackRun_write (hdata : c.data.length < 2 ^ 63) {t : RunTable} {tail : Bytes}
    (hmost : t.entries.length ≤ most) (hcount : t.entries.length < 2 ^ 32)
    (hrest : c.rest = t.write b ++ tail) :
    b.readTrackRun most c = .ok (t.run b, c.forward (t.write b).length) := by
  have hhead := b.runHeadSize_le
  have hsize := Nat.mul_le_mul hcount.le b.runEntrySize_le
  have hlength := b.length_writeRun t
  have hstart : c.position < c.data.length := by
    apply c.position_lt_of_rest
    rw [hrest, List.length_append, hlength, runHeadSize]
    omega
  exact readsBelow_trackRun (fun _ _ _ => Nat.le_refl _) hmost hcount c tail hrest (by omega)

/-- In data of less than `2 ^ 63` bytes, which is what memory can hold, a run is read just if what its
flags announce and as many entries as it declares are there, and if it may have so many. Then exactly
that is taken, and what is made of it is the run that is written there. A run that was written is read
again, whatever follows. The size of the entries is always a number of 64 bits. -/
theorem trackRun_exact (b : Box) (most : ℕ) (c : Cursor) (hdata : c.data.length < 2 ^ 63) :
    ((∃ run c', b.readTrackRun most c = .ok (run, c')) ↔
      b.runHeadSize + runCount c.rest * b.runEntrySize ≤ c.rest.length ∧
        runCount c.rest ≤ most) ∧
    (∀ run c', b.readTrackRun most c = .ok (run, c') →
      c' = c.forward (b.runHeadSize + runCount c.rest * b.runEntrySize) ∧
        ∃ t : RunTable, t.entries.length = runCount c.rest ∧ c.Took (t.write b) c' ∧
          run = t.run b) ∧
    (∀ (t : RunTable) (tail : Bytes), t.entries.length ≤ most → t.entries.length < 2 ^ 32 →
      c.rest = t.write b ++ tail →
        ∃ c', b.readTrackRun most c = .ok (t.run b, c') ∧ c'.rest = tail) ∧
    runCount c.rest * b.runEntrySize < 2 ^ 64 := by
  have hlt : runCount c.rest < 2 ^ 32 := runCount_lt c.rest
  -- Where a run has room, one is written, and it is read as what was written.
  have hread (hroom : b.runHeadSize + runCount c.rest * b.runEntrySize ≤ c.rest.length)
      (hmost : runCount c.rest ≤ most) : ∃ (t : RunTable) (rest : Bytes),
        t.entries.length = runCount c.rest ∧ c.rest = t.write b ++ rest ∧
          b.readTrackRun most c = .ok (t.run b, c.forward (t.write b).length) := by
    obtain ⟨t, rest, hrest, hcount⟩ := exists_run hroom
    exact ⟨t, rest, hcount, hrest,
      readTrackRun_write hdata (hcount ▸ hmost) (hcount ▸ hlt) hrest⟩
  refine ⟨⟨?_, ?_⟩, ?_, ?_, ?_⟩
  · rintro ⟨run, c', h⟩
    exact room_of_readTrackRun hdata h
  · rintro ⟨hroom, hmost⟩
    obtain ⟨t, _, -, -, h⟩ := hread hroom hmost
    exact ⟨_, _, h⟩
  · intro run c' h
    obtain ⟨hroom, hmost⟩ := room_of_readTrackRun hdata h
    obtain ⟨t, rest, hcount, hrest, ht⟩ := hread hroom hmost
    rw [ht] at h
    cases h
    rw [length_writeRun, hcount]
    refine ⟨rfl, t, hcount, ?_, rfl⟩
    rw [← hcount, ← length_writeRun]
    exact Cursor.took_of_rest hrest
  · intro t tail hmost hcount hrest
    refine ⟨_, readTrackRun_write hdata hmost hcount hrest, ?_⟩
    rw [Cursor.rest_forward, hrest, List.drop_left]
  · have hsize := Nat.mul_le_mul hlt.le b.runEntrySize_le
    omega

/-- A box of runs with all fields. -/
def allFields : Box := ⟨.trun, 0, 0, some ⟨0, 0xf05⟩, false, []⟩

def twoEntries : RunTable := ⟨-8, 7, [⟨1, 5, 2, 3⟩, ⟨4, 6, 5, 9⟩]⟩

/-- A run with all fields of which its offset and two sizes are kept, and two bytes behind it. -/
theorem trackRun_exact_two_entries :
    (Cursor.ofBytes (twoEntries.write allFields ++ [1, 2])).data.length < 2 ^ 63 ∧
      runCount (twoEntries.write allFields) = 2 ∧
      ∃ c', allFields.readTrackRun 2 (Cursor.ofBytes (twoEntries.write allFields ++ [1, 2])) =
        .ok (⟨some (-8), [some 5, some 6]⟩, c') ∧ c'.rest = [1, 2] := by
  have hdata : (Cursor.ofBytes (twoEntries.write allFields ++ [1, 2])).data.length < 2 ^ 63 := by
    decide
  obtain ⟨-, -, hwritten, -⟩ := trackRun_exact allFields 2 _ hdata
  exact ⟨hdata, by decide, hwritten twoEntries [1, 2] (by decide) (by decide) rfl⟩

end Box

end ProtectedMedia
