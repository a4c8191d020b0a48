import ProtectedMedia.Proofs.Bytes.Splice
import ProtectedMedia.Proofs.Cipher.PatternMarks

/-!
# Pattern by pieces

A pattern goes through its data in pieces, which lie one behind the other and depend on the length of
the data alone. Each piece is written once: the whole blocks of the encrypted part of a repetition are
one call of the cipher, everything else is copied. The cipher may be any function with a state, and it
may also look at the destination; every call finds its part of it as it was at the start.
-/
namespace ProtectedMedia.Pattern
open Bytes

/-- A stretch of the data that is written at once. -/
structure Piece where
  encrypted : Bool
  start : ℕ
  size : ℕ
  deriving DecidableEq

namespace Piece

/-- The bytes of a byte string that a piece is about. -/
def part (piece : Piece) (b : Bytes) : Bytes := b.slice piece.start (piece.start + piece.size)

def positions (piece : Piece) : List ℕ := List.range' piece.start piece.size

/-- The numbers of the blocks of a piece that consists of whole blocks. -/
def blocks (piece : Piece) : List ℕ := List.range' (piece.start / 16) (piece.size / 16)

/-- A piece, unless it has no bytes. -/
def unlessEmpty (encrypted : Bool) (start size : ℕ) : List Piece :=
  if size = 0 then [] else [⟨encrypted, start, size⟩]

/-- The pieces lie one behind the other from `lo` to `hi`. -/
inductive Tiles : ℕ → List Piece → ℕ → Prop
  | done (k : ℕ) : Tiles k [] k
  | next {lo hi : ℕ} {piece : Piece} {pieces : List Piece} (start_eq : piece.start = lo)
      (rest : Tiles (lo + piece.size) pieces hi) : Tiles lo (piece :: pieces) hi

variable {lo mid hi start size : ℕ} {encrypted : Bool} {pieces more : List Piece}

theorem length_part (piece : Piece) {b : Bytes} (h : piece.start + piece.size ≤ b.length) :
    (piece.part b).length = piece.size := by
  rw [part, slice, List.length_take, List.length_drop]
  omega

theorem blocks_unlessEmpty :
    (unlessEmpty encrypted start size).flatMap blocks = List.range' (start / 16) (size / 16) := by
  unfold unlessEmpty
  split_ifs with h
  · rw [h]
    rfl
  · simp [blocks]

theorem tiles_unlessEmpty : Tiles start (unlessEmpty encrypted start size) (start + size) := by
  unfold unlessEmpty
  split_ifs with h
  · rw [h]
    exact .done start
  · exact .next rfl (.done _)

theorem Tiles.le (h : Tiles lo pieces hi) : lo ≤ hi := by
  induction h with
  | done => exact Nat.le_refl _
  | next _ _ ih => omega

theorem Tiles.append (h : Tiles lo pieces mid) (h' : Tiles mid more hi) :
    Tiles lo (pieces ++ more) hi := by
  induction h with
  | done => exact h'
  | next start_eq _ ih => exact .next start_eq (ih h')

theorem Tiles.positions_eq (h : Tiles lo pieces hi) :
    pieces.flatMap positions = List.range' lo (hi - lo) := by
  induction h with
  | done k => simp
  | @next lo hi piece pieces start_eq rest ih =>
      have hle := rest.le
      have hsplit : hi - lo = piece.size + (hi - (lo + piece.size)) := by omega
      rw [List.flatMap_cons, ih, positions, start_eq, hsplit, List.range'_append_1]

end Piece

/-! ### The pieces of a pattern -/

/-- How much of `n` bytes the first repetition takes up. -/
def turn (p : Pattern) (n : ℕ) : ℕ := min n (16 * p.size)

/-- The pieces for the `n` bytes behind `start`: of every repetition the whole blocks that are
encrypted, then what is copied. No piece is empty. -/
def pieces (p : Pattern) (start n : ℕ) : List Piece :=
  if _ : n = 0 ∨ p.size = 0 then []
  else
    Piece.unlessEmpty true start (p.lead n) ++
      Piece.unlessEmpty false (start + p.lead n) (p.turn n - p.lead n) ++
        pieces p (start + p.turn n) (n - p.turn n)
termination_by n
decreasing_by
  unfold turn
  omega

/-- The pieces that go to the cipher. -/
def calls (p : Pattern) (start n : ℕ) : List Piece := (p.pieces start n).filter (·.encrypted)

section
variable (p : Pattern)

theorem lead_le_turn (n : ℕ) : p.lead n ≤ p.turn n := by
  unfold lead turn size
  omega

theorem turn_le (n : ℕ) : p.turn n ≤ n := Nat.min_le_left _ _

/-- The first repetition is a whole one or the last one. -/
theorem turn_cases (n : ℕ) : p.turn n = 16 * p.size ∨ n - p.turn n = 0 := by
  unfold turn
  omega

theorem pieces_zero (start : ℕ) : p.pieces start 0 = [] := by
  rw [pieces, dif_pos (.inl rfl)]

theorem calls_zero (start : ℕ) : p.calls start 0 = [] := by
  rw [calls, pieces_zero]
  rfl

/-- The blocks of a repetition that starts at block `p.size * k`. -/
theorem filter_blocks (k : ℕ) {count : ℕ} (hcount : count ≤ p.size) :
    (List.range' (p.size * k) count).filter (fun b => b % p.size < p.crypt.toNat) =
      List.range' (p.size * k) (min count p.crypt.toNat) := by
  have hmod {j : ℕ} (hj : j < p.size) : (p.size * k + j) % p.size = j := by
    rw [Nat.mul_add_mod, Nat.mod_eq_of_lt hj]
  have hsplit : count = min count p.crypt.toNat + (count - p.crypt.toNat) := by omega
  conv_lhs => rw [hsplit]
  rw [← List.range'_append_1, List.filter_append, List.filter_eq_self.mpr, List.filter_eq_nil_iff.mpr,
    List.append_nil]
  · intro b hb
    obtain ⟨j, hj, rfl⟩ := List.mem_range'.mp hb
    have hinside : min count p.crypt.toNat + j < p.size := by omega
    rw [Nat.one_mul, Nat.add_assoc, hmod hinside, decide_eq_true_eq]
    omega
  · intro b hb
    obtain ⟨j, hj, rfl⟩ := List.mem_range'.mp hb
    rw [Nat.one_mul, hmod (by omega), decide_eq_true_eq]
    omega

variable {p} (h : p.size ≠ 0) {start n : ℕ}
include h

theorem turn_pos (hn : n ≠ 0) : 0 < p.turn n := by
  unfold turn
  omega

/-- Induction on the repetitions that are left. -/
theorem turn_induction {motive : ℕ → ℕ → Prop} (start n : ℕ)
    (done : ∀ start, motive start 0)
    (next : ∀ start n, n ≠ 0 → motive (start + p.turn n) (n - p.turn n) → motive start n) :
    motive start n := by
  induction n using Nat.strongRecOn generalizing start with
  | ind n ih =>
    by_cases hn : n = 0
    · rw [hn]
      exact done start
    · have hpos := turn_pos h hn
      exact next start n hn (ih _ (by omega) _)

theorem pieces_turn (hn : n ≠ 0) :
    p.pieces start n = Piece.unlessEmpty true start (p.lead n) ++
      Piece.unlessEmpty false (start + p.lead n) (p.turn n - p.lead n) ++
        p.pieces (start + p.turn n) (n - p.turn n) := by
  rw [pieces, dif_neg (by simp [hn, h])]

theorem calls_turn (hn : n ≠ 0) :
    p.calls start n = Piece.unlessEmpty true start (p.lead n) ++
      p.calls (start + p.turn n) (n - p.turn n) := by
  have hcalled : (Piece.unlessEmpty true start (p.lead n)).filter (·.encrypted) =
      Piece.unlessEmpty true start (p.lead n) := by
    unfold Piece.unlessEmpty
    split_ifs <;> rfl
  have hcopied : (Piece.unlessEmpty false (start + p.lead n) (p.turn n - p.lead n)).filter
      (·.encrypted) = [] := by
    unfold Piece.unlessEmpty
    split_ifs <;> rfl
  rw [calls, pieces_turn h hn, List.filter_append, List.filter_append, hcalled, hcopied,
    List.append_nil, calls]

theorem tiles_pieces (start n : ℕ) : Piece.Tiles start (p.pieces start n) (start + n) := by
  induction start, n using turn_induction h with
  | done start =>
      rw [pieces_zero]
      exact .done start
  | next start n hn ih =>
      have hcopied : start + p.turn n = start + p.lead n + (p.turn n - p.lead n) := by
        rw [Nat.add_assoc, Nat.add_sub_cancel' (p.lead_le_turn n)]
      have hrest : start + n = start + p.turn n + (n - p.turn n) := by
        rw [Nat.add_assoc, Nat.add_sub_cancel' (p.turn_le n)]
      rw [pieces_turn h hn, hrest]
      refine (Piece.tiles_unlessEmpty.append ?_).append ih
      rw [hcopied]
      exact Piece.tiles_unlessEmpty

/-- The calls are about the blocks that a pattern encrypts, in order. -/
theorem blocks_calls (k : ℕ) (hstart : start = 16 * (p.size * k)) :
    (p.calls start n).flatMap Piece.blocks =
      (List.range' (p.size * k) (n / 16)).filter fun b => b % p.size < p.crypt.toNat := by
  induction start, n using turn_induction h generalizing k with
  | done start =>
      rw [calls_zero]
      rfl
  | next start n hn ih =>
      have hlead : p.lead n / 16 = min (min (n / 16) p.size) p.crypt.toNat := by
        unfold lead size
        omega
      have hfirst : (List.range' (p.size * k) (min (n / 16) p.size)).filter
          (fun b => b % p.size < p.crypt.toNat) = List.range' (p.size * k) (p.lead n / 16) := by
        rw [p.filter_blocks k (Nat.min_le_right _ _), hlead]
      have hblock : start / 16 = p.size * k := by omega
      rw [calls_turn h hn, List.flatMap_append, Piece.blocks_unlessEmpty, hblock, ← hfirst]
      rcases p.turn_cases n with hturn | hlast
      · have hcount : n / 16 = min (n / 16) p.size + (n - p.turn n) / 16 := by
          unfold turn at hturn ⊢
          omega
        have hnext : p.size * k + min (n / 16) p.size = p.size * (k + 1) := by
          unfold turn at hturn
          rw [Nat.mul_succ]
          omega
        have hstart' : start + p.turn n = 16 * (p.size * (k + 1)) := by
          rw [hturn, Nat.mul_succ]
          omega
        rw [ih (k + 1) hstart', ← List.filter_append, ← hnext, List.range'_append_1, ← hcount]
      · have hcount : n / 16 = min (n / 16) p.size := by
          unfold turn at hlast
          omega
        rw [hlast, calls_zero, List.flatMap_nil, List.append_nil, ← hcount]

/-- Every call is about whole blocks and about one block at least. -/
theorem aligned_calls (hstart : start % 16 = 0) :
    ∀ piece ∈ p.calls start n, piece.size ≠ 0 ∧ piece.start % 16 = 0 ∧ piece.size % 16 = 0 := by
  induction start, n using turn_induction h with
  | done start =>
      intro piece hpiece
      rw [calls_zero] at hpiece
      cases hpiece
  | next start n hn ih =>
      intro piece hpiece
      rw [calls_turn h hn, List.mem_append] at hpiece
      rcases hpiece with hfirst | hrest
      · unfold Piece.unlessEmpty at hfirst
        split_ifs at hfirst with hlead
        · cases hfirst
        · rw [List.mem_singleton.mp hfirst]
          exact ⟨hlead, hstart, p.lead_mod n⟩
      · rcases p.turn_cases n with hturn | hlast
        · exact ih (by omega) piece hrest
        · rw [hlast, calls_zero] at hrest
          cases hrest

end

/-! ### Writing the pieces -/

/-- A cipher with a state that fills parts of a destination. It is given the data for a part and what
the part holds, and it writes as many bytes as the data has. -/
structure Filler (σ : Type) where
  fill : σ → (data dest : Bytes) → Bytes × σ
  length_fill : ∀ s data dest, (fill s data dest).1.length = data.length

namespace Filler

variable {σ : Type} (f : Filler σ) (data dest : Bytes)

/-- What is written for a piece. -/
def written (piece : Piece) (s : σ) : Bytes × σ :=
  if piece.encrypted then f.fill s (piece.part data) (piece.part dest) else (piece.part data, s)

/-- Writes one piece after the other into a destination. -/
def carryOut : List Piece → σ → (dest : Bytes) → Bytes × σ
  | [], s, dest => (dest, s)
  | piece :: pieces, s, dest =>
    let w := f.written data dest piece s
    carryOut pieces w.2 (dest.splice piece.start w.1)

/-- What is written for the pieces, each with its part of the destination as it was at the start. -/
def joined : List Piece → σ → Bytes × σ
  | [], s => ([], s)
  | piece :: pieces, s =>
    let w := f.written data dest piece s
    let rest := joined pieces w.2
    (w.1 ++ rest.1, rest.2)

/-- The same cipher with a record of its calls beside its state, latest last: a note on what it was given
and on what the part of the destination held. -/
def recorded {α : Type} (note : Bytes → Bytes → α) : Filler (σ × List α) where
  fill s data dest :=
    let w := f.fill s.1 data dest
    (w.1, w.2, s.2 ++ [note data dest])
  length_fill s data dest := f.length_fill s.1 data dest

variable {f data dest} {dest' : Bytes} {s : σ} {lo hi : ℕ} {pieces : List Piece} {piece : Piece}

theorem length_written (h : piece.start + piece.size ≤ data.length) :
    (f.written data dest piece s).1.length = piece.size := by
  unfold written
  split_ifs
  · rw [f.length_fill, piece.length_part h]
  · exact piece.length_part h

theorem joined_append (before after : List Piece) (s : σ) :
    f.joined data dest (before ++ after) s =
      let first := f.joined data dest before s
      let rest := f.joined data dest after first.2
      (first.1 ++ rest.1, rest.2) := by
  induction before generalizing s with
  | nil => rfl
  | cons piece before ih => simp only [List.cons_append, joined, ih, List.append_assoc]

theorem joined_congr (ht : Piece.Tiles lo pieces hi)
    (h : ∀ k, lo ≤ k → dest[k]? = dest'[k]?) (s : σ) :
    f.joined data dest pieces s = f.joined data dest' pieces s := by
  induction ht generalizing s with
  | done => rfl
  | @next lo hi piece pieces start_eq rest ih =>
      have hpart : piece.part dest = piece.part dest' :=
        slice_congr fun k hk _ => h k (start_eq ▸ hk)
      have hwritten : f.written data dest piece s = f.written data dest' piece s := by
        rw [written, hpart, written]
      rw [joined, joined, hwritten, ih fun k hk => h k (by omega)]

/-- No piece is written twice, so that writing into the destination is joining what is written. -/
theorem carryOut_eq (ht : Piece.Tiles lo pieces hi) (hdata : hi ≤ data.length)
    (hdest : dest.length = data.length) (s : σ) :
    f.carryOut data pieces s dest =
      (dest.take lo ++ (f.joined data dest pieces s).1 ++ dest.drop hi,
        (f.joined data dest pieces s).2) := by
  induction ht generalizing s dest with
  | done k => simp [carryOut, joined]
  | @next lo hi piece pieces start_eq rest ih =>
      have hle := rest.le
      have hlen : (f.written data dest piece s).1.length = piece.size := length_written (by omega)
      have hfits : piece.start + (f.written data dest piece s).1.length ≤ dest.length := by omega
      have hkept : ∀ k, lo + piece.size ≤ k →
          (dest.splice piece.start (f.written data dest piece s).1)[k]? = dest[k]? :=
        fun k hk => getElem?_splice_of_le hfits (by omega)
      have htake : (dest.splice piece.start (f.written data dest piece s).1).take (lo + piece.size) =
          dest.take lo ++ (f.written data dest piece s).1 := by
        rw [← start_eq, ← hlen]
        exact take_splice (by omega)
      rw [carryOut, ih hdata ((length_splice hfits).trans hdest), joined_congr rest hkept, joined,
        htake, drop_splice (by omega) (by omega)]
      simp only [List.append_assoc]

theorem length_joined (ht : Piece.Tiles lo pieces hi) (hdata : hi ≤ data.length) (s : σ) :
    (f.joined data dest pieces s).1.length = hi - lo := by
  induction ht generalizing s with
  | done k => exact (Nat.sub_self k).symm
  | next start_eq rest ih =>
      have hle := rest.le
      rw [joined, List.length_append, length_written (by omega), ih hdata]
      omega

/-- Where no call is about, the data is copied. -/
theorem getElem?_joined (ht : Piece.Tiles lo pieces hi) (hdata : hi ≤ data.length) {i : ℕ}
    (hlo : lo ≤ i) (hhi : i < hi)
    (hclear : ∀ piece ∈ pieces, piece.encrypted = true → i ∉ piece.positions) (s : σ) :
    (f.joined data dest pieces s).1[i - lo]? = data[i]? := by
  induction ht generalizing s with
  | done k => omega
  | @next lo hi piece pieces start_eq rest ih =>
      have hle := rest.le
      have hlen : (f.written data dest piece s).1.length = piece.size := length_written (by omega)
      rw [joined]
      by_cases hinside : i < lo + piece.size
      · have hcopied : piece.encrypted = false := by
          by_contra hcalled
          refine hclear piece List.mem_cons_self (by simpa using hcalled) ?_
          rw [Piece.positions, List.mem_range'_1]
          omega
        rw [List.getElem?_append_left (by omega), written, hcopied, if_neg Bool.false_ne_true,
          ← start_eq]
        exact (getElem?_eq_slice (by omega) (by omega)).symm
      · rw [List.getElem?_append_right (by omega), hlen, Nat.sub_sub]
        exact ih hdata (by omega) hhi
          (fun piece hpiece => hclear piece (List.mem_cons_of_mem _ hpiece)) _

theorem joined_recorded {α : Type} (note : Bytes → Bytes → α) (pieces : List Piece)
    (s : σ × List α) :
    ((f.recorded note).joined data dest pieces s).2.2 =
      s.2 ++ (pieces.filter (·.encrypted)).map fun piece =>
        note (piece.part data) (piece.part dest) := by
  induction pieces generalizing s with
  | nil => exact (List.append_nil _).symm
  | cons piece pieces ih =>
      rw [joined, ih, written]
      cases hcalled : piece.encrypted with
      | true => simp [hcalled, recorded]
      | false => simp [hcalled]

end Filler

/-! ### What a pattern does -/

section
variable {σ : Type} {p : Pattern} {f : Filler σ} {cipher : σ → Bytes → Bytes × σ} {data dest : Bytes}

/-- A cipher that does not look at the destination makes of the pieces what the pattern makes of the
data. -/
theorem joined_pieces (h : p.size ≠ 0) (hf : ∀ s a b, f.fill s a b = cipher s a)
    (hp : 0 < 16 * p.crypt.toNat + 16 * p.skip.toNat) {start n : ℕ} (hn : start + n = data.length)
    (s : σ) :
    f.joined data dest (p.pieces start n) s =
      spans cipher (16 * p.crypt.toNat) (16 * p.skip.toNat) hp s (data.drop start) := by
  induction start, n using turn_induction h generalizing s with
  | done start =>
      have hend : data.drop start = [] := List.drop_of_length_le hn.ge
      rw [pieces_zero, hend, spans_nil, Filler.joined]
  | next start n h0 ih =>
      have hlen : (data.drop start).length = n := by
        rw [List.length_drop]
        omega
      have hturn := p.turn_le n
      have hlead := p.lead_le_turn n
      have hne : data.drop start ≠ [] := by
        rw [← List.length_pos_iff, hlen]
        omega
      have hfirst (s : σ) : f.joined data dest (Piece.unlessEmpty true start (p.lead n)) s =
          if p.lead n = 0 then ([], s) else cipher s ((data.drop start).take (p.lead n)) := by
        unfold Piece.unlessEmpty
        split_ifs
        · rfl
        · simp [Filler.joined, Filler.written, hf, Piece.part, slice]
      have hcopied (s : σ) : f.joined data dest
          (Piece.unlessEmpty false (start + p.lead n) (p.turn n - p.lead n)) s =
            (((data.drop start).take (16 * p.size)).drop (p.lead n), s) := by
        have htake : (data.drop start).take (16 * p.size) = (data.drop start).take (p.turn n) := by
          rw [List.take_eq_take_min, hlen, Nat.min_comm, turn]
        rw [htake, List.drop_take, List.drop_drop]
        unfold Piece.unlessEmpty
        split_ifs with hsize
        · rw [hsize]
          rfl
        · simp [Filler.joined, Filler.written, Piece.part, slice]
      have hrest : (data.drop start).drop (16 * p.size) = data.drop (start + p.turn n) := by
        rw [List.drop_drop]
        rcases p.turn_cases n with hwhole | hlast
        · rw [hwhole]
        · have hle : p.turn n ≤ 16 * p.size := Nat.min_le_right _ _
          rw [List.drop_of_length_le (by omega), List.drop_of_length_le (by omega)]
      rw [pieces_turn h h0, Filler.joined_append, Filler.joined_append, spans_turn cipher hp s hne,
        hlen, hrest]
      simp only [hfirst, hcopied]
      rw [ih (by omega)]

/-- A byte that a call is about lies in a whole block that the pattern encrypts. -/
theorem encrypted_of_mem_calls (h : p.size ≠ 0) {n i : ℕ} {piece : Piece}
    (hpiece : piece ∈ p.calls 0 n) (hi : i ∈ piece.positions) :
    i / 16 < n / 16 ∧ i / 16 % p.size < p.crypt.toNat := by
  obtain ⟨-, hstart, hsize⟩ := aligned_calls h (Nat.zero_mod 16) piece hpiece
  rw [Piece.positions, List.mem_range'_1] at hi
  have hblock : i / 16 ∈ (p.calls 0 n).flatMap Piece.blocks := by
    refine List.mem_flatMap.mpr ⟨piece, hpiece, ?_⟩
    rw [Piece.blocks, List.mem_range'_1]
    omega
  rw [blocks_calls h 0 (Nat.mul_zero 16).symm, Nat.mul_zero, List.mem_filter, List.mem_range'_1, decide_eq_true_eq] at hblock
  exact ⟨by omega, hblock.2⟩

/-- A cipher with the runs that it was called for beside its state, latest last. -/
def noted (cipher : σ → Bytes → Bytes × σ) (s : σ × List Bytes) (run : Bytes) :
    Bytes × σ × List Bytes :=
  let w := cipher s.1 run
  (w.1, w.2, s.2 ++ [run])

/-- Every byte of the destination is written once, and the cipher is called for the blocks that the
pattern encrypts, in order, for some blocks in a row each time. All other bytes are copied. This holds
of every cipher, and of one that does not look at the destination `process` makes the same. -/
theorem process_in_pieces (hp : p ≠ none) (data dest : Bytes) (hdest : dest.length = data.length) :
    (p.pieces 0 data.length).flatMap Piece.positions = List.range data.length ∧
    (p.calls 0 data.length).flatMap Piece.blocks =
      (List.range (data.length / 16)).filter (fun b => b % p.size < p.crypt.toNat) ∧
    (∀ piece ∈ p.calls 0 data.length,
      piece.size ≠ 0 ∧ piece.start % 16 = 0 ∧ piece.size % 16 = 0) ∧
    ∀ {σ : Type} (f : Filler σ) (s : σ),
      ((f.recorded Prod.mk).carryOut data (p.pieces 0 data.length) (s, []) dest).2.2 =
        (p.calls 0 data.length).map (fun piece => (piece.part data, piece.part dest)) ∧
      (f.carryOut data (p.pieces 0 data.length) s dest).1.length = data.length ∧
      (∀ i < data.length, ¬(i / 16 < data.length / 16 ∧ i / 16 % p.size < p.crypt.toNat) →
        (f.carryOut data (p.pieces 0 data.length) s dest).1[i]? = data[i]?) ∧
      ∀ cipher, (∀ s a b, f.fill s a b = cipher s a) →
        p.process cipher s data = f.carryOut data (p.pieces 0 data.length) s dest ∧
        (p.process (noted cipher) (s, []) data).2.2 =
          (p.calls 0 data.length).map (·.part data) := by
  have h : p.size ≠ 0 := fun hsize => hp (eq_none_of_size hsize)
  have htiles := tiles_pieces h 0 data.length
  rw [Nat.zero_add] at htiles
  have hjoined {τ : Type} (f : Filler τ) (s : τ) :
      f.carryOut data (p.pieces 0 data.length) s dest =
        f.joined data dest (p.pieces 0 data.length) s := by
    rw [Filler.carryOut_eq htiles (Nat.le_refl _) hdest, List.take_zero,
      List.drop_of_length_le (by omega), List.nil_append, List.append_nil]
  have hprocess {τ : Type} (f : Filler τ) {cipher : τ → Bytes → Bytes × τ}
      (hf : ∀ s a b, f.fill s a b = cipher s a) (s : τ) :
      p.process cipher s data = f.joined data dest (p.pieces 0 data.length) s := by
    rw [process, dif_neg h, joined_pieces h hf (by unfold size at h; omega) (Nat.zero_add _),
      List.drop_zero]
  refine ⟨?_, ?_, aligned_calls h (Nat.zero_mod 16), fun f s => ⟨?_, ?_, ?_, ?_⟩⟩
  · rw [htiles.positions_eq, Nat.sub_zero, List.range_eq_range']
  · rw [blocks_calls h 0 (Nat.mul_zero 16).symm, Nat.mul_zero, List.range_eq_range']
  · rw [hjoined, Filler.joined_recorded, List.nil_append, calls]
  · rw [hjoined, Filler.length_joined htiles (Nat.le_refl _), Nat.sub_zero]
  · intro i hi hcopied
    rw [hjoined]
    refine Filler.getElem?_joined htiles (Nat.le_refl _) (Nat.zero_le i) hi ?_ s
    intro piece hpiece hcalled hmem
    exact hcopied (encrypted_of_mem_calls h (List.mem_filter.mpr ⟨hpiece, hcalled⟩) hmem)
  · intro cipher hf
    have hnoted : ∀ s a b, (f.recorded fun a _ => a).fill s a b = noted cipher s a := by
      intro s a b
      simp only [Filler.recorded, noted, hf]
    constructor
    · rw [hjoined, hprocess f hf]
    · rw [hprocess _ hnoted, Filler.joined_recorded, List.nil_append, calls]

/-- A cipher that adds the number of the call to every byte. -/
def numbering : Filler UInt8 where
  fill n data _ := (data.map (· + n), n + 1)
  length_fill _ _ _ := List.length_map _

/-- The data ends behind the first block of an encrypted part, with five more bytes. -/
theorem process_in_pieces_cut_short :
    ((⟨2, 1⟩ : Pattern).calls 0 69).flatMap Piece.blocks = [0, 1, 3] ∧
    (⟨2, 1⟩ : Pattern).process (fun n data => numbering.fill n data []) 1 (List.replicate 69 7) =
      (List.replicate 32 8 ++ List.replicate 16 7 ++ List.replicate 16 9 ++ List.replicate 5 7,
        3) := by
  obtain ⟨-, hblocks, -, hwritten⟩ := process_in_pieces (p := ⟨2, 1⟩) (by decide)
    (List.replicate 69 7) (List.replicate 69 238) (by simp)
  obtain ⟨-, -, -, hprocess⟩ := hwritten numbering 1
  refine ⟨?_, (hprocess _ fun _ _ _ => rfl).1.trans (by decide +kernel)⟩
  rw [List.length_replicate] at hblocks
  exact hblocks.trans (by decide)

end

end ProtectedMedia.Pattern
