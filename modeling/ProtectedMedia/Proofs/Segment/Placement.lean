import Mathlib.Algebra.Group.Nat.Defs
import Mathlib.Data.List.Forall2
import Mathlib.Data.Nat.Notation
import ProtectedMedia.Segment

/-!
# Where samples lie

The samples of a run lie one after another from where the run starts, each as long as its own size
or else the default one says. A run with an offset starts at that offset from the base of its
fragment, and any other where the run before it ended. Placement yields exactly this, and only if
every sample lies inside the segment.
-/
namespace ProtectedMedia

namespace Error

variable {α β : Type} {x : Except Error α} {b : β}

/-- A sequence of two steps succeeds just when both do. -/
theorem bind_eq_ok {f : α → Except Error β} :
    (x >>= f) = .ok b ↔ ∃ a, x = .ok a ∧ f a = .ok b := by
  constructor
  · intro h
    cases x with
    | error e => cases h
    | ok a => exact ⟨a, rfl, h⟩
  · rintro ⟨a, rfl, hf⟩
    exact hf

theorem map_eq_ok {f : α → β} : x.map f = .ok b ↔ ∃ a, x = .ok a ∧ f a = b := by
  constructor
  · intro h
    cases x with
    | error e => cases h
    | ok a =>
        cases h
        exact ⟨a, rfl, rfl⟩
  · rintro ⟨a, rfl, rfl⟩
    rfl

end Error

namespace Segment

/-- Samples of the given sizes lie one after another from a position on, inside a segment of
`segment` bytes; `last` is the position behind them. -/
inductive Placed (header : FragmentHeader) (segment : ℕ) :
    (position : ℕ) → (sizes : List (Option UInt32)) → (spans : List (ℕ × ℕ)) → (last : ℕ) → Prop
  | nil (position : ℕ) : Placed header segment position [] [] position
  | cons {position : ℕ} {own : Option UInt32} {size : UInt32} {sizes : List (Option UInt32)}
      {spans : List (ℕ × ℕ)} {last : ℕ} (hsize : (own <|> header.sampleSize) = some size)
      (hstop : position + size.toNat ≤ segment)
      (hrest : Placed header segment (position + size.toNat) sizes spans last) :
      Placed header segment position (own :: sizes)
        ((position, position + size.toNat) :: spans) last

/-- Where a run starts, if the run before it ended at `position`. -/
def StartsAt (base position : ℕ) (run : TrackRun) (start : ℕ) : Prop :=
  match run.offset with
  | none => start = position
  | some offset => (start : ℤ) = base + offset ∧ start < 2 ^ 64

/-- The samples of runs, run by run. -/
inductive RunsPlaced (header : FragmentHeader) (segment base : ℕ) :
    (position : ℕ) → (runs : List TrackRun) → (spans : List (List (ℕ × ℕ))) → Prop
  | nil (position : ℕ) : RunsPlaced header segment base position [] []
  | cons {position start last : ℕ} {run : TrackRun} {runs : List TrackRun}
      {spans : List (ℕ × ℕ)} {others : List (List (ℕ × ℕ))}
      (hstart : StartsAt base position run start)
      (hplaced : Placed header segment start run.sizes spans last)
      (hrest : RunsPlaced header segment base last runs others) :
      RunsPlaced header segment base position (run :: runs) (spans :: others)

variable {header : FragmentHeader} {segment base position start last : ℕ}
  {sizes : List (Option UInt32)} {spans : List (ℕ × ℕ)} {run : TrackRun} {runs : List TrackRun}

theorem Placed.length_eq (h : Placed header segment position sizes spans last) :
    spans.length = sizes.length := by
  induction h with
  | nil => rfl
  | cons _ _ _ ih => exact congrArg (· + 1) ih

theorem Placed.bounds (h : Placed header segment position sizes spans last) :
    ∀ span ∈ spans, span.1 ≤ span.2 ∧ span.2 ≤ segment := by
  induction h with
  | nil => simp
  | cons _ hstop _ ih =>
      intro span hspan
      rcases List.mem_cons.mp hspan with rfl | hspan
      · exact ⟨Nat.le_add_right _ _, hstop⟩
      · exact ih span hspan

theorem placeSizes_cons {own : Option UInt32} {size : UInt32}
    (hsize : (own <|> header.sampleSize) = some size) (hstop : position + size.toNat ≤ segment) :
    placeSizes header segment position (own :: sizes) = do
      let (placed, last) ← placeSizes header segment (position + size.toNat) sizes
      return ((position, position + size.toNat) :: placed, last) := by
  rw [placeSizes, hsize]
  dsimp only
  rw [if_neg (by omega), if_neg (by omega)]

theorem placeSizes_eq_ok : placeSizes header segment position sizes = .ok (spans, last) ↔
    Placed header segment position sizes spans last := by
  constructor
  · intro h
    induction sizes generalizing position spans with
    | nil =>
        cases h
        exact .nil _
    | cons own sizes ih =>
        cases hsize : own <|> header.sampleSize with
        | none => rw [placeSizes, hsize] at h; cases h
        | some size =>
            by_cases hstop : position + size.toNat ≤ segment
            · rw [placeSizes_cons hsize hstop] at h
              obtain ⟨⟨placed, end'⟩, hplaced, hok⟩ := Error.bind_eq_ok.mp h
              cases hok
              exact .cons hsize hstop (ih hplaced)
            · rw [placeSizes, hsize] at h
              dsimp only at h
              split at h
              · cases h
              · rw [if_pos (by omega)] at h
                cases h
  · intro h
    induction h with
    | nil => rfl
    | cons hsize hstop _ ih =>
        rw [placeSizes_cons hsize hstop, ih]
        rfl

theorem runStart_eq_ok : runStart base position run = .ok start ↔
    StartsAt base position run start := by
  rw [runStart, StartsAt]
  cases run.offset with
  | none => exact ⟨fun h => by cases h; rfl, fun h => by rw [h]⟩
  | some offset =>
      have hsize : UInt64.size = 2 ^ 64 := rfl
      simp only [positionAt, hsize]
      split
      · simp only [Except.ok.injEq]
        omega
      · simp only [reduceCtorEq, false_iff]
        omega

theorem placeRuns_eq_ok {placed : List (ℕ × ℕ)} :
    placeRuns header segment base position runs = .ok placed ↔
      ∃ spans, RunsPlaced header segment base position runs spans ∧ spans.flatten = placed := by
  constructor
  · intro h
    induction runs generalizing position placed with
    | nil =>
        cases h
        exact ⟨[], .nil _, rfl⟩
    | cons run runs ih =>
        rw [placeRuns] at h
        obtain ⟨start, hstart, h⟩ := Error.bind_eq_ok.mp h
        obtain ⟨⟨spans, last⟩, hplaced, h⟩ := Error.bind_eq_ok.mp h
        obtain ⟨others, hothers, h⟩ := Error.bind_eq_ok.mp h
        cases h
        obtain ⟨rest, hrest, hflat⟩ := ih hothers
        refine ⟨spans :: rest, ?_, congrArg (spans ++ ·) hflat⟩
        exact .cons (runStart_eq_ok.mp hstart) (placeSizes_eq_ok.mp hplaced) hrest
  · rintro ⟨spans, h, rfl⟩
    induction h with
    | nil => rfl
    | cons hstart hplaced _ ih =>
        rw [placeRuns, runStart_eq_ok.mpr hstart]
        dsimp only [bind, Except.bind]
        rw [placeSizes_eq_ok.mpr hplaced]
        dsimp only
        rw [ih]
        rfl

theorem RunsPlaced.bounds {spans : List (List (ℕ × ℕ))}
    (h : RunsPlaced header segment base position runs spans) :
    ∀ span ∈ spans.flatten, span.1 ≤ span.2 ∧ span.2 ≤ segment := by
  induction h with
  | nil => simp
  | cons _ hplaced _ ih =>
      intro span hspan
      rw [List.flatten_cons, List.mem_append] at hspan
      rcases hspan with hspan | hspan
      · exact hplaced.bounds span hspan
      · exact ih span hspan

/-- Every run has one sample for each of its entries. -/
theorem RunsPlaced.lengths {spans : List (List (ℕ × ℕ))}
    (h : RunsPlaced header segment base position runs spans) :
    List.Forall₂ (fun (run : TrackRun) placed => placed.length = run.sizes.length) runs spans := by
  induction h with
  | nil => exact .nil
  | cons _ hplaced _ ih => exact .cons hplaced.length_eq ih

/-! ### Fragments -/

def Located.span (l : Located) : ℕ × ℕ := (l.start, l.stop)

/-- What the offsets of a fragment count from. -/
def origin (header : FragmentHeader) (movie : ℕ) : ℕ :=
  (header.baseOffset.map UInt64.toNat).getD movie

variable {track : TrackEncryption} {encryption : Option (List SampleEncryption)}
  {placed : List (ℕ × ℕ)} {located : List Located}

/-- The encryption entries go with the placed samples in order. -/
def describe (track : TrackEncryption) (span : ℕ × ℕ) (entry : SampleEncryption) : Located :=
  ⟨span.1, span.2, some (track.info (sampleIv track entry) entry.subsamples)⟩

theorem protect_of_unprotected (h : track.isProtected = false) :
    protect track header encryption placed =
      .ok (placed.map fun span => ⟨span.1, span.2, none⟩) := by
  rw [protect.eq_def, h]
  rfl

theorem protect_of_protected {entries : List SampleEncryption} (h : track.isProtected = true)
    (hlength : entries.length = placed.length) :
    protect track header (some entries) placed =
      .ok (List.zipWith (describe track) placed entries) := by
  rw [protect, h, if_neg (by simp)]
  dsimp only
  rw [if_neg (not_not.mpr hlength)]
  rfl

theorem span_zipWith_describe {entries : List SampleEncryption}
    (hlength : entries.length = placed.length) :
    (List.zipWith (describe track) placed entries).map Located.span = placed := by
  induction placed generalizing entries with
  | nil => rfl
  | cons span placed ih =>
      cases entries with
      | nil => cases hlength
      | cons entry entries =>
          rw [List.zipWith_cons_cons, List.map_cons, ih (Nat.succ.inj hlength)]
          rfl

/-- Samples keep their places, and are encrypted just if the track is. -/
theorem protect_keeps (h : protect track header encryption placed = .ok located) :
    located.map Located.span = placed ∧ ∀ l ∈ located, l.info.isSome = track.isProtected := by
  cases hprotected : track.isProtected with
  | false =>
      rw [protect_of_unprotected hprotected] at h
      cases h
      constructor
      · rw [List.map_map]
        exact List.map_id placed
      · intro l hl
        obtain ⟨span, -, rfl⟩ := List.mem_map.mp hl
        rfl
  | true =>
      cases encryption with
      | none => rw [protect, hprotected] at h; cases h
      | some entries =>
          by_cases hlength : entries.length = placed.length
          · rw [protect_of_protected hprotected hlength] at h
            cases h
            refine ⟨span_zipWith_describe hlength, ?_⟩
            intro l hl
            obtain ⟨i, hi, rfl⟩ := List.mem_iff_getElem.mp hl
            rw [List.getElem_zipWith]
            rfl
          · rw [protect, hprotected, if_neg (by simp)] at h
            dsimp only at h
            rw [if_pos hlength] at h
            cases h

theorem locate_eq_ok {movie : ℕ} {f : Fragment} (h : locate track segment movie f = .ok located) :
    ∃ header spans, f.header = some header ∧
      RunsPlaced header segment (origin header movie) (origin header movie) f.runs spans ∧
      located.map Located.span = spans.flatten ∧
      ∀ l ∈ located, l.info.isSome = track.isProtected := by
  cases hheader : f.header with
  | none => rw [locate, hheader] at h; cases h
  | some header =>
      rw [locate, hheader] at h
      obtain ⟨placed, hplaced, h⟩ := Error.bind_eq_ok.mp h
      obtain ⟨spans, hspans, rfl⟩ := placeRuns_eq_ok.mp hplaced
      obtain ⟨hkeeps, hinfo⟩ := protect_keeps h
      exact ⟨header, spans, rfl, hspans, hkeeps, hinfo⟩

end Segment

end ProtectedMedia
