import ProtectedMedia.Proofs.RunningIv

/-!
# How far the counter grows over many runs

Under a pattern each run moves the counter by the blocks that are counted for it, and the offset by its
bytes. Everything that is computed for a run of less than `2 ^ 32` bytes fits into the word that holds
it, so that nothing gets lost on the way: over any number of runs the counter grows by the sum of the
counted blocks, and only the wrap at 64 bits is left.
-/
namespace ProtectedMedia.RunningIv

variable {v v' : RunningIv} {p : Pattern} {run : Bytes} {runs : List Bytes}

/-- The blocks that are counted for a run. -/
def counted (p : Pattern) (run : Bytes) : ℕ := patternBlocks p (run.length / 16)

/-- The counter in the low half of the vector. -/
def counter (v : RunningIv) : ℕ := Bytes.toNat (v.block.toBytes.drop 8)

/-- The vector behind runs under a pattern. -/
def advanceAll (v : RunningIv) (p : Pattern) (runs : List Bytes) : Except Error RunningIv :=
  runs.foldlM (fun v run => v.advance .cens p run) v

/-- The encrypted blocks among `blocks` blocks as words of 64 bits count them, whose sums and products
wrap. -/
def wordBlocks (p : Pattern) (blocks : UInt64) : UInt64 :=
  let size := p.crypt.toUInt64 + p.skip.toUInt64
  let whole := blocks / size * p.crypt.toUInt64
  if p.crypt.toUInt64 ≤ blocks % size then whole + p.crypt.toUInt64 else whole

/-- All that is computed to move the vector over a run is what it is without bounds. The size of the
pattern, by which the blocks are divided, is not zero. That size, the blocks of the whole repetitions,
the same with those of an incomplete one, and the position inside a block fit into 64 bits. No more
blocks are counted than there are, and words count as many, also after they are cut to 32 bits. -/
structure MovesExactly (v : RunningIv) (p : Pattern) (run : Bytes) : Prop where
  divisor_pos : 0 < p.size
  divisor_lt : p.size < 2 ^ 64
  whole_lt : run.length / 16 / p.size * p.crypt.toNat < 2 ^ 64
  counted_lt : run.length / 16 / p.size * p.crypt.toNat + p.crypt.toNat < 2 ^ 64
  position_lt : v.offset + run.length < 2 ^ 64
  counted_le : counted p run ≤ run.length / 16
  narrowed : (wordBlocks p (UInt64.ofNat (run.length / 16))).toUInt32.toNat = counted p run

/-! ### One run -/

theorem whole_le (p : Pattern) (blocks : ℕ) : blocks / p.size * p.crypt.toNat ≤ blocks := by
  have hcrypt : p.crypt.toNat ≤ p.size := Nat.le_add_right _ _
  calc blocks / p.size * p.crypt.toNat
      ≤ blocks / p.size * p.size := Nat.mul_le_mul_left _ hcrypt
    _ ≤ blocks := Nat.div_mul_le_self _ _

/-- What is counted in words is at most the number of blocks, so that nothing wraps. -/
theorem toNat_wordBlocks (p : Pattern) (blocks : UInt64) :
    (wordBlocks p blocks).toNat = patternBlocks p blocks.toNat := by
  have hcrypt := p.crypt.toNat_lt
  have hskip := p.skip.toNat_lt
  have hblocks := blocks.toNat_lt
  have hsize : (p.crypt.toUInt64 + p.skip.toUInt64).toNat = p.size := by
    rw [UInt64.toNat_add, UInt32.toNat_toUInt64, UInt32.toNat_toUInt64, Pattern.size]
    omega
  have hwhole : (blocks / (p.crypt.toUInt64 + p.skip.toUInt64) * p.crypt.toUInt64).toNat =
      blocks.toNat / p.size * p.crypt.toNat := by
    have hle := whole_le p blocks.toNat
    rw [UInt64.toNat_mul, UInt64.toNat_div, hsize, UInt32.toNat_toUInt64]
    omega
  have hle := patternBlocks_le p blocks.toNat
  simp only [wordBlocks, patternBlocks, UInt64.le_iff_toNat_le, UInt64.toNat_mod, hsize,
    UInt32.toNat_toUInt64] at hle ⊢
  split_ifs at hle ⊢
  · rw [UInt64.toNat_add, hwhole, UInt32.toNat_toUInt64]
    omega
  · exact hwhole

theorem movesExactly (hp : p.size ≠ 0) (hoffset : v.offset < 2 ^ 32) (hrun : run.length < 2 ^ 32) :
    v.MovesExactly p run := by
  have hcrypt := p.crypt.toNat_lt
  have hskip := p.skip.toNat_lt
  have hsize : p.size = p.crypt.toNat + p.skip.toNat := rfl
  have hwhole := whole_le p (run.length / 16)
  have hcounted := patternBlocks_le p (run.length / 16)
  refine ⟨Nat.pos_of_ne_zero hp, by omega, by omega, by omega, by omega, hcounted, ?_⟩
  have hblocks : (UInt64.ofNat (run.length / 16)).toNat = run.length / 16 :=
    UInt64.toNat_ofNat_of_lt' (by rw [UInt64.size]; omega)
  rw [UInt64.toNat_toUInt32, toNat_wordBlocks, hblocks, counted]
  omega

theorem advance_counted (hp : p.size ≠ 0) (hrun : run.length < 2 ^ 32) :
    v.advance .cens p run =
      .ok ⟨v.block.addLow (counted p run), (v.offset + run.length) % 16⟩ :=
  advance_cens v hp hrun

/-! ### Many runs -/

theorem advanceAll_cons (hp : p.size ≠ 0) (hrun : run.length < 2 ^ 32) :
    v.advanceAll p (run :: runs) =
      advanceAll ⟨v.block.addLow (counted p run), (v.offset + run.length) % 16⟩ p runs := by
  rw [advanceAll, List.foldlM_cons, advance_counted hp hrun]
  rfl

/-- Only without any run an offset of sixteen or more can be left. -/
theorem advanceAll_eq (hp : p.size ≠ 0) (hruns : ∀ run ∈ runs, run.length < 2 ^ 32) :
    ∃ v', v.advanceAll p runs = .ok v' ∧
      v'.block = v.block.addLow (runs.map (counted p)).sum ∧
      v'.offset = if runs = [] then v.offset
        else (v.offset + (runs.map List.length).sum) % 16 := by
  induction runs generalizing v with
  | nil => exact ⟨v, rfl, (v.block.addLow_zero).symm, rfl⟩
  | cons run runs ih =>
      rw [List.forall_mem_cons] at hruns
      obtain ⟨v', hv', hblock, hoffset⟩ :=
        ih (v := ⟨v.block.addLow (counted p run), (v.offset + run.length) % 16⟩) hruns.2
      refine ⟨v', ?_, ?_, ?_⟩
      · rw [advanceAll_cons hp hruns.1, hv']
      · rw [hblock, Block.addLow_addLow, List.map_cons, List.sum_cons]
      · rw [if_neg (List.cons_ne_nil run runs), hoffset, List.map_cons, List.sum_cons]
        split_ifs with hnil
        · rw [hnil, List.map_nil, List.sum_nil, Nat.add_zero]
        · dsimp only
          omega

/-- However many runs there are, each moves the vector by exact arithmetic. In the end the high half of
the vector is as it was, the counter has grown by all blocks that were counted, modulo `2 ^ 64`, and
the offset has moved over all bytes, modulo the size of a block. -/
theorem counter_grows_by_counted (v : RunningIv) (hoffset : v.offset < 2 ^ 32) (p : Pattern)
    (hp : p ≠ .none) (runs : List Bytes) (hruns : ∀ run ∈ runs, run.length < 2 ^ 32) :
    (∀ before run behind, runs = before ++ run :: behind →
      ∃ w, v.advanceAll p before = .ok w ∧ w.MovesExactly p run) ∧
    ∃ v', v.advanceAll p runs = .ok v' ∧
      v'.block.toBytes.take 8 = v.block.toBytes.take 8 ∧
      v'.counter = (v.counter + (runs.map (counted p)).sum) % 2 ^ 64 ∧
      (v.offset < 16 ∨ runs ≠ [] →
        v'.offset = (v.offset + (runs.map List.length).sum) % 16) := by
  have hsize : p.size ≠ 0 := fun hzero => hp (Pattern.eq_none_of_size hzero)
  constructor
  · rintro before run behind rfl
    rw [List.forall_mem_append, List.forall_mem_cons] at hruns
    obtain ⟨w, hw, -, hmoved⟩ := advanceAll_eq (v := v) hsize hruns.1
    refine ⟨w, hw, movesExactly hsize ?_ hruns.2.1⟩
    rw [hmoved]
    split_ifs
    · exact hoffset
    · omega
  · obtain ⟨v', hv', hblock, hmoved⟩ := advanceAll_eq (v := v) hsize hruns
    refine ⟨v', hv', ?_, ?_, fun hfrom => ?_⟩
    · rw [hblock, Block.take_addLow]
    · rw [counter, hblock, Block.drop_addLow, counter]
    · rw [hmoved]
      split_ifs with hnil
      · have hlt : v.offset < 16 := hfrom.resolve_right (not_not.mpr hnil)
        rw [hnil, List.map_nil, List.sum_nil, Nat.add_zero, Nat.mod_eq_of_lt hlt]
      · rfl

/-- A vector one block in front of the wrap, three bytes into a block. -/
def beforeWrap : RunningIv :=
  ⟨⟨#[7, 7, 7, 7, 7, 7, 7, 7, 255, 255, 255, 255, 255, 255, 255, 255], rfl⟩, 3⟩

/-- Runs of ten blocks and of twenty-five blocks and five bytes. -/
def twoRuns : List Bytes := [List.replicate 160 0, List.replicate 405 0]

/-- One block of ten is counted for the first run and three for the second one. -/
theorem counter_grows_by_counted_past_wrap :
    beforeWrap.offset < 2 ^ 32 ∧ (⟨1, 9⟩ : Pattern) ≠ .none ∧
    (∀ run ∈ twoRuns, run.length < 2 ^ 32) ∧
    ∃ v', beforeWrap.advanceAll ⟨1, 9⟩ twoRuns = .ok v' ∧
      v'.block.toBytes.take 8 = List.replicate 8 7 ∧ v'.counter = 3 ∧ v'.offset = 8 := by
  have hlengths : twoRuns.map List.length = [160, 405] := by
    simp only [twoRuns, List.map_cons, List.map_nil, List.length_replicate]
  have hcounted : (twoRuns.map (counted ⟨1, 9⟩)).sum = 4 := by
    simp only [twoRuns, counted, List.map_cons, List.map_nil, List.length_replicate]
    decide
  have hshort : ∀ n ∈ twoRuns.map List.length, n < 2 ^ 32 := by
    rw [hlengths]
    decide
  have hruns : ∀ run ∈ twoRuns, run.length < 2 ^ 32 := fun run hrun =>
    hshort run.length (List.mem_map_of_mem hrun)
  obtain ⟨-, v', hv', hhigh, hcounter, hoffset⟩ :=
    counter_grows_by_counted beforeWrap (by decide) ⟨1, 9⟩ (by decide) twoRuns hruns
  refine ⟨by decide, by decide, hruns, v', hv', hhigh, ?_, ?_⟩
  · rw [hcounter, hcounted]
    decide
  · rw [hoffset (.inl (by decide)), hlengths]
    decide

end ProtectedMedia.RunningIv
