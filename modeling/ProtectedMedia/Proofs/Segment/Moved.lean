import ProtectedMedia.Proofs.Box.Moved
import ProtectedMedia.Proofs.Segment.Samples

/-!
# Samples further on

If a fragment is found further on in a longer segment, its samples are the same, but lie as much
further on. This needs offsets that count from the movie fragment, not from the start of the segment.
-/
namespace ProtectedMedia

/-- The same sample `n` bytes further on. -/
def Sample.moved (n : ℕ) (x : Sample) : Sample := { x with start := n + x.start, stop := n + x.stop }

theorem Sample.moved_zero : Sample.moved 0 = id := by
  funext x
  rw [Sample.moved, Nat.zero_add, Nat.zero_add]
  rfl

namespace Box

open Reader

variable {b : Box} {limit limit' : ℕ}

/-- A count that was accepted is also accepted if more entries are allowed. -/
theorem checkCount_grown {table : String} {count : ℕ} {c : Cursor} {r : Unit × Cursor}
    (h : checkCount table count limit c = .ok r) (hlimit : limit ≤ limit') :
    checkCount table count limit' c = .ok r := by
  rw [checkCount] at h ⊢
  split at h
  · cases h
  · rwa [if_neg (by omega)]

/-- So is a table that begins with its count. -/
theorem parse_table_grown {α : Type} {table : String} {entries : ℕ → Reader BoxFault α} {a : α}
    (h : b.parse (unsigned 4 >>= fun count => checkCount table count limit >>= fun _ =>
      entries count) = .ok a) (hlimit : limit ≤ limit') :
    b.parse (unsigned 4 >>= fun count => checkCount table count limit' >>= fun _ =>
      entries count) = .ok a := by
  obtain ⟨c, h⟩ := parse_eq_ok.mp h
  obtain ⟨count, c₁, hcount, h⟩ := bind_eq_ok.mp h
  obtain ⟨u, c₂, hcheck, h⟩ := bind_eq_ok.mp h
  refine parse_eq_ok.mpr ⟨c, bind_eq_ok.mpr ⟨count, c₁, hcount, ?_⟩⟩
  exact bind_eq_ok.mpr ⟨u, c₂, checkCount_grown hcheck hlimit, h⟩

theorem parse_trackRun_grown {run : TrackRun} (h : b.parse (b.readTrackRun limit) = .ok run)
    (hlimit : limit ≤ limit') : b.parse (b.readTrackRun limit') = .ok run :=
  parse_table_grown h hlimit

theorem parse_sampleEncryption_grown {ivSize : ℕ} {entries : List SampleEncryption}
    (h : b.parse (b.readSampleEncryption ivSize limit) = .ok entries) (hlimit : limit ≤ limit') :
    b.parse (b.readSampleEncryption ivSize limit') = .ok entries :=
  parse_table_grown h hlimit

/-- A header has no base of its own if the flags announce none. -/
theorem baseOffset_of_parse {header : FragmentHeader} (hflag : b.hasFlag 0x1 = false)
    (h : b.parse b.readFragmentHeader = .ok header) : header.baseOffset = none := by
  obtain ⟨c, h⟩ := parse_eq_ok.mp h
  obtain ⟨id, c₁, -, h⟩ := bind_eq_ok.mp h
  obtain ⟨base, c₂, hbase, h⟩ := bind_eq_ok.mp h
  obtain ⟨_, c₃, -, h⟩ := bind_eq_ok.mp h
  obtain ⟨_, c₄, -, h⟩ := bind_eq_ok.mp h
  obtain ⟨size, c₅, -, h⟩ := bind_eq_ok.mp h
  cases h
  rw [hflag] at hbase
  cases hbase
  rfl

/-- Offsets are 32-bit numbers with a sign. -/
theorem offset_lt_of_parse {run : TrackRun} (h : b.parse (b.readTrackRun limit) = .ok run) :
    ∀ offset ∈ run.offset, offset < 2 ^ 31 := by
  obtain ⟨c, h⟩ := parse_eq_ok.mp h
  obtain ⟨count, c₁, -, h⟩ := bind_eq_ok.mp h
  obtain ⟨_, c₂, -, h⟩ := bind_eq_ok.mp h
  obtain ⟨offset, c₃, hoffset, h⟩ := bind_eq_ok.mp h
  obtain ⟨_, c₄, -, h⟩ := bind_eq_ok.mp h
  obtain ⟨_, c₅, -, h⟩ := bind_eq_ok.mp h
  obtain ⟨sizes, c₆, -, h⟩ := bind_eq_ok.mp h
  cases h
  intro x hx
  rw [when] at hoffset
  split at hoffset
  · obtain ⟨y, hy, rfl⟩ := map_eq_ok.mp hoffset
    cases hx
    exact lt_of_signedWord hy
  · cases hoffset
    cases hx

end Box

namespace Segment

def Located.moved (n : ℕ) (l : Located) : Located :=
  { l with start := n + l.start, stop := n + l.stop }

theorem Located.moved_zero : Located.moved 0 = id := by
  funext l
  rw [Located.moved, Nat.zero_add, Nat.zero_add]
  rfl

/-- The same place `n` bytes further on. -/
def movedSpan (n : ℕ) (span : ℕ × ℕ) : ℕ × ℕ := (n + span.1, n + span.2)

variable {track : TrackEncryption} {header : FragmentHeader} {n limit limit' base position last : ℕ}
  {sizes : List (Option UInt32)} {spans : List (ℕ × ℕ)} {run : TrackRun} {runs : List TrackRun}
  {start : ℕ}

theorem Placed.moved (h : Placed header limit position sizes spans last) (hlimit : n + limit ≤ limit') :
    Placed header limit' (n + position) sizes (spans.map (movedSpan n)) (n + last) := by
  induction h with
  | nil position => exact .nil _
  | @cons position own size sizes spans last hsize hstop _ ih =>
      rw [← Nat.add_assoc] at ih
      rw [List.map_cons, movedSpan, ← Nat.add_assoc]
      exact .cons hsize (by omega) ih

/-- No run starts past the last 64-bit position when its base is moved. -/
def OffsetsFit (n base : ℕ) (runs : List TrackRun) : Prop :=
  ∀ run ∈ runs, ∀ offset ∈ run.offset, ∀ start : ℕ,
    (start : ℤ) = base + offset → start < 2 ^ 64 → n + start < 2 ^ 64

theorem offsetsFit_zero (base : ℕ) (runs : List TrackRun) : OffsetsFit 0 base runs := by
  intro _ _ _ _ start _ hlt
  rwa [Nat.zero_add]

theorem offsetsFit_of_lt (hbase : n + base < 2 ^ 63)
    (hruns : ∀ run ∈ runs, ∀ offset ∈ run.offset, offset < 2 ^ 31) : OffsetsFit n base runs := by
  intro run hrun offset hoffset start hstart hlt
  have := hruns run hrun offset hoffset
  omega

theorem StartsAt.moved (h : StartsAt base position run start) (hrun : run ∈ runs)
    (hfit : OffsetsFit n base runs) : StartsAt (n + base) (n + position) run (n + start) := by
  rw [StartsAt] at h ⊢
  cases hoffset : run.offset with
  | none =>
      rw [hoffset] at h
      exact congrArg (n + ·) h
  | some offset =>
      rw [hoffset] at h
      obtain ⟨hstart, hlt⟩ := h
      refine ⟨?_, hfit run hrun offset hoffset start hstart hlt⟩
      push_cast
      omega

theorem RunsPlaced.moved {spans : List (List (ℕ × ℕ))}
    (h : RunsPlaced header limit base position runs spans) (hlimit : n + limit ≤ limit')
    (hfit : OffsetsFit n base runs) :
    RunsPlaced header limit' (n + base) (n + position) runs (spans.map (List.map (movedSpan n))) := by
  induction h with
  | nil position => exact .nil _
  | cons hstart hplaced _ ih =>
      refine .cons (hstart.moved List.mem_cons_self hfit) (hplaced.moved hlimit) (ih ?_)
      exact fun run hrun => hfit run (List.mem_cons_of_mem _ hrun)

theorem protect_moved {encryption : Option (List SampleEncryption)} {placed : List (ℕ × ℕ)}
    {located : List Located} (h : protect track header encryption placed = .ok located) (n : ℕ) :
    protect track header encryption (placed.map (movedSpan n)) =
      .ok (located.map (Located.moved n)) := by
  cases hprotected : track.isProtected with
  | false =>
      rw [protect_of_unprotected hprotected] at h ⊢
      cases h
      rw [List.map_map, List.map_map]
      rfl
  | true =>
      cases encryption with
      | none => rw [protect, hprotected] at h; cases h
      | some entries =>
          by_cases hlength : entries.length = placed.length
          · rw [protect_of_protected hprotected hlength] at h
            cases h
            rw [protect_of_protected hprotected (by rwa [List.length_map]), List.map_zipWith,
              List.zipWith_map_left]
            rfl
          · rw [protect, hprotected, if_neg (by simp)] at h
            dsimp only at h
            rw [if_pos hlength] at h
            cases h

theorem origin_of_none {movie : ℕ} (h : header.baseOffset = none) : origin header movie = movie := by
  rw [origin, h]
  rfl

/-- The samples of a fragment whose base moves with it. -/
theorem locate_moved {movie movie' : ℕ} {f : Fragment} {located : List Located}
    (h : locate track limit movie f = .ok located) (hlimit : n + limit ≤ limit')
    (hbase : ∀ header ∈ f.header, origin header movie' = n + origin header movie)
    (hfit : ∀ header ∈ f.header, OffsetsFit n (origin header movie) f.runs) :
    locate track limit' movie' f = .ok (located.map (Located.moved n)) := by
  cases hheader : f.header with
  | none => rw [locate, hheader] at h; cases h
  | some header =>
      rw [locate, hheader] at h ⊢
      obtain ⟨placed, hplaced, h⟩ := Error.bind_eq_ok.mp h
      obtain ⟨spans, hspans, rfl⟩ := placeRuns_eq_ok.mp hplaced
      have hmoved : placeRuns header limit' (n + origin header movie) (n + origin header movie)
          f.runs = .ok (spans.map (List.map (movedSpan n))).flatten :=
        placeRuns_eq_ok.mpr ⟨_, hspans.moved hlimit (hfit header hheader), rfl⟩
      change (placeRuns header limit' (origin header movie') (origin header movie') f.runs >>=
        fun placed => protect track header f.encryption placed) = _
      rw [hbase header hheader, hmoved, ← List.map_flatten]
      exact protect_moved h n

/-! ### Fields in a longer segment -/

variable {b : Box} {f f' g : Fragment}

/-- A box is read in a longer segment as in a shorter one, and alike in equal fragments. -/
theorem readField_grown (h : readField track limit f b = .ok g) (hlimit : limit ≤ limit')
    (f' : Fragment) :
    ∃ g', readField track limit' f' b = .ok g' ∧ (f' = f → g' = g) := by
  cases readField_eq_ok.mp h with
  | header htype hparse =>
      exact ⟨_, readField_eq_ok.mpr (.header htype hparse), fun hf => by rw [hf]⟩
  | run htype hparse =>
      have hgrown := Box.parse_trackRun_grown hparse hlimit
      exact ⟨_, readField_eq_ok.mpr (.run htype hgrown), fun hf => by rw [hf]⟩
  | encryption htype hparse =>
      have hgrown := Box.parse_sampleEncryption_grown hparse hlimit
      exact ⟨_, readField_eq_ok.mpr (.encryption htype hgrown), fun hf => by rw [hf]⟩
  | other htfhd htrun hsenc => exact ⟨f', readField_eq_ok.mpr (.other htfhd htrun hsenc), id⟩

end Segment

end ProtectedMedia
