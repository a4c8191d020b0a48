import ProtectedMedia.Cipher.Pattern
import ProtectedMedia.Proofs.Bytes.Marks
import ProtectedMedia.RunningIv

/-!
# The blocks that a pattern encrypts

Of a run, a pattern encrypts the whole blocks whose number falls into the encrypted part of a
repetition; skipped blocks and the incomplete block at the end stay clear. `Pattern.marks` says so
byte by byte. A cipher that may be fed in pieces of whole blocks and is applied under a pattern
replaces just the marked bytes, and it sees them as one message.
-/
namespace ProtectedMedia

/-- How many bytes lie in whole blocks. -/
def Bytes.wholeSize (b : Bytes) : ℕ := 16 * (b.length / 16)

theorem Bytes.length_take_wholeSize (b : Bytes) : (b.take b.wholeSize).length = b.wholeSize := by
  rw [List.length_take, wholeSize]
  omega

theorem Bytes.length_drop_wholeSize (b : Bytes) :
    (b.drop b.wholeSize).length = b.length % 16 := by
  rw [List.length_drop, wholeSize]
  omega

namespace Pattern
open Bytes

/-- Whether block `b` of a run is encrypted. -/
def encrypts (p : Pattern) (b : ℕ) : Bool := p.isNone || b % p.size < p.crypt.toNat

/-- The bytes that lie in encrypted whole blocks of a run of `n` bytes. -/
def marks (p : Pattern) (n : ℕ) : List Bool :=
  (List.range n).map fun i => i / 16 < n / 16 && p.encrypts (i / 16)

/-- The bytes of a list of runs that lie in encrypted blocks, in order. -/
def cryptBytes (p : Pattern) (runs : List Bytes) : Bytes :=
  runs.flatMap fun run => pick (p.marks run.length) run

/-- A cipher that goes on, after a piece of whole blocks, as if the data had come at once. -/
structure Streams {σ : Type} (cipher : σ → Bytes → Bytes × σ) : Prop where
  nil : ∀ s, cipher s [] = ([], s)
  append : ∀ s (a b : Bytes), a.length % 16 = 0 → cipher s (a ++ b) =
    ((cipher s a).1 ++ (cipher (cipher s a).2 b).1, (cipher (cipher s a).2 b).2)
  length_eq : ∀ s (a : Bytes), (cipher s a).1.length = a.length

variable (p : Pattern)

theorem isNone_eq_false_of_size (h : p.size ≠ 0) : p.isNone = false := by
  by_contra hn
  simp only [isNone, Bool.not_eq_false, Bool.and_eq_true, decide_eq_true_eq] at hn
  exact h (by simp [size, hn.1, hn.2])

theorem eq_none_of_size {p : Pattern} (h : p.size = 0) : p = none := by
  have hc : p.crypt = 0 := UInt32.toNat_inj.mp (Nat.eq_zero_of_add_eq_zero_right h)
  have hs : p.skip = 0 := UInt32.toNat_inj.mp (Nat.eq_zero_of_add_eq_zero_left h)
  exact congr (congrArg Pattern.mk hc) hs

theorem size_ne_zero_of_crypt (h : p.crypt ≠ 0) : p.size ≠ 0 := by
  have : p.crypt.toNat ≠ 0 := fun hc => h (UInt32.toNat_inj.mp hc)
  unfold size
  omega

@[simp] theorem length_marks (n : ℕ) : (p.marks n).length = n := by simp [marks]

theorem getElem?_marks {n i : ℕ} (h : i < n) :
    (p.marks n)[i]? = some (decide (i / 16 < n / 16) && p.encrypts (i / 16)) := by
  rw [marks, List.getElem?_map, List.getElem?_range h]
  rfl

theorem marks_none (n : ℕ) :
    none.marks n = List.replicate (16 * (n / 16)) true ++ List.replicate (n % 16) false := by
  apply List.ext_getElem?
  intro i
  by_cases hi : i < n
  · rw [getElem?_marks none hi, List.getElem?_append, List.length_replicate]
    have henc : none.encrypts (i / 16) = true := rfl
    split_ifs with hw
    · rw [List.getElem?_replicate, if_pos hw, henc, decide_eq_true (by omega)]
      rfl
    · rw [List.getElem?_replicate, if_pos (by omega), decide_eq_false (by omega)]
      rfl
  · rw [List.getElem?_eq_none (by rw [length_marks]; omega), List.getElem?_eq_none]
    simp only [List.length_append, List.length_replicate]
    omega

/-- Without a pattern the marked bytes are those of the whole blocks at the front. -/
theorem replaces_whole {data plain : Bytes} (h : plain.length = data.wholeSize) :
    Replaces (none.marks data.length) plain data (plain ++ data.drop data.wholeSize) := by
  have hall := (Replaces.all (h.trans data.length_take_wholeSize.symm)).append (by simp)
    (Replaces.refl (data.drop data.wholeSize))
  rw [List.append_nil, length_take_wholeSize, length_drop_wholeSize, List.take_append_drop] at hall
  rw [marks_none]
  exact hall

theorem pick_whole (data : Bytes) :
    pick (none.marks data.length) data = data.take data.wholeSize := by
  have h := (replaces_whole data.length_take_wholeSize).marked
  rwa [List.take_append_drop] at h

theorem cryptBytes_cons (run : Bytes) (runs : List Bytes) :
    p.cryptBytes (run :: runs) = pick (p.marks run.length) run ++ p.cryptBytes runs :=
  List.flatMap_cons

theorem cryptBytes_of_flatten_nil {runs : List Bytes} (h : runs.flatten = []) :
    p.cryptBytes runs = [] := by
  rw [cryptBytes, List.flatMap_eq_nil_iff]
  intro run hrun
  rw [List.flatten_eq_nil_iff.mp h run hrun]
  exact pick_nil_right _

/-- How many bytes of a run of `n` bytes are encrypted in its first repetition. -/
def lead (n : ℕ) : ℕ := min (16 * (n / 16)) (16 * p.crypt.toNat)

theorem lead_mod (n : ℕ) : p.lead n % 16 = 0 := by
  unfold lead
  omega

variable {p}

/-- The marks of a run are those of its first repetition and of the rest. -/
theorem marks_step (h : p.size ≠ 0) (n : ℕ) :
    p.marks n = List.replicate (p.lead n) true ++
      List.replicate (min n (16 * p.size) - p.lead n) false ++ p.marks (n - 16 * p.size) := by
  have hc : p.crypt.toNat ≤ p.size := Nat.le_add_right _ _
  have hlead : p.lead n = min (16 * (n / 16)) (16 * p.crypt.toNat) := rfl
  have henc (b : ℕ) : p.encrypts b = decide (b % p.size < p.crypt.toNat) := by
    rw [encrypts, p.isNone_eq_false_of_size h, Bool.false_or]
  apply List.ext_getElem?
  intro i
  by_cases hi : i < n
  · rw [getElem?_marks p hi, henc, List.append_assoc, List.getElem?_append, List.length_replicate]
    split_ifs with hw
    · -- inside the encrypted part of the first repetition
      have hmod : i / 16 % p.size = i / 16 := Nat.mod_eq_of_lt (by omega)
      rw [List.getElem?_replicate, if_pos hw, hmod, decide_eq_true (by omega),
        decide_eq_true (by omega)]
      rfl
    · rw [List.getElem?_append, List.length_replicate]
      split_ifs with hs
      · -- inside its skipped part, or in the incomplete block that ends the run
        have hmod : i / 16 % p.size = i / 16 := Nat.mod_eq_of_lt (by omega)
        rw [List.getElem?_replicate, if_pos hs, hmod, ← Bool.decide_and, decide_eq_false (by omega)]
      · have hsub : i - p.lead n - (min n (16 * p.size) - p.lead n) = i - 16 * p.size := by omega
        have hdiv : (i - 16 * p.size) / 16 = i / 16 - p.size := by omega
        have hlt : (i - 16 * p.size) / 16 < (n - 16 * p.size) / 16 ↔ i / 16 < n / 16 := by omega
        rw [hsub, getElem?_marks p (by omega), henc, decide_eq_decide.mpr hlt, hdiv,
          ← Nat.mod_eq_sub_mod (by omega)]
  · rw [List.getElem?_eq_none (by rw [length_marks]; omega), List.getElem?_eq_none]
    simp only [List.length_append, List.length_replicate, length_marks]
    omega

section
variable (data : Bytes)

/-- A run is the encrypted bytes of its first repetition, the copied ones, and the rest. -/
theorem pieces_eq : data.take (p.lead data.length) ++
    (data.take (16 * p.size)).drop (p.lead data.length) ++ data.drop (16 * p.size) = data := by
  have hle : p.lead data.length ≤ 16 * p.size := by unfold lead size; omega
  have htake : data.take (p.lead data.length) =
      (data.take (16 * p.size)).take (p.lead data.length) := by
    rw [List.take_take, Nat.min_eq_left hle]
  rw [htake, List.take_append_drop, List.take_append_drop]

theorem length_lead : (data.take (p.lead data.length)).length = p.lead data.length := by
  rw [List.length_take]
  unfold lead
  omega

theorem marks_pieces (h : p.size ≠ 0) :
    p.marks data.length = List.replicate (data.take (p.lead data.length)).length true ++
      List.replicate ((data.take (16 * p.size)).drop (p.lead data.length)).length false ++
        p.marks (data.drop (16 * p.size)).length := by
  rw [length_lead, List.length_drop, List.length_take, List.length_drop, Nat.min_comm]
  exact marks_step h data.length

theorem pick_marks_step (h : p.size ≠ 0) :
    pick (p.marks data.length) data = data.take (p.lead data.length) ++
      pick (p.marks (data.drop (16 * p.size)).length) (data.drop (16 * p.size)) := by
  have hdata := pieces_eq (p := p) data
  rw [marks_pieces data h]
  conv_lhs => arg 2; rw [← hdata]
  rw [pick_append (by simp), pick_append (by simp), pick_replicate_true, pick_replicate_false,
    List.append_nil]

/-- A pattern encrypts its part of every repetition, and of the last one what is there of it. -/
theorem length_pick_marks (h : p.size ≠ 0) :
    (pick (p.marks data.length) data).length =
      16 * (data.length / 16 / p.size * p.crypt.toNat +
        min (data.length / 16 % p.size) p.crypt.toNat) := by
  have hc : p.crypt.toNat ≤ p.size := Nat.le_add_right _ _
  have hp : 0 < p.size := Nat.pos_of_ne_zero h
  induction hn : data.length using Nat.strongRecOn generalizing data with
  | ind n ih =>
    have hlead : (data.take (p.lead data.length)).length =
        min (16 * (data.length / 16)) (16 * p.crypt.toNat) := length_lead data
    rw [← hn, pick_marks_step data h, List.length_append, hlead]
    by_cases hs : data.length / 16 < p.size
    · -- the run does not reach the end of the first repetition
      have hnone : pick (p.marks (data.drop (16 * p.size)).length) (data.drop (16 * p.size)) = [] := by
        have hnil : data.drop (16 * p.size) = [] :=
          List.drop_of_length_le (by omega)
        rw [hnil]
        exact pick_nil _
      rw [hnone, Nat.div_eq_of_lt hs, Nat.mod_eq_of_lt hs, List.length_nil]
      omega
    · have hlen : (data.drop (16 * p.size)).length = data.length - 16 * p.size :=
        List.length_drop
      have hblocks : data.length / 16 = (data.drop (16 * p.size)).length / 16 + p.size := by
        omega
      rw [ih _ (by omega) _ rfl, hblocks, Nat.add_div_right _ hp, Nat.add_mod_right,
        Nat.add_mul (_ / p.size) 1 p.crypt.toNat]
      omega

end

section
variable {σ : Type} {cipher : σ → Bytes → Bytes × σ}

theorem spans_nil (cipher : σ → Bytes → Bytes × σ) {crypt skip : ℕ} (hp : 0 < crypt + skip)
    (s : σ) : spans cipher crypt skip hp s [] = ([], s) := by
  rw [spans, dif_pos rfl]

/-- One repetition: the whole blocks of its encrypted part go to the cipher if there are any, the rest
of it is copied. -/
theorem spans_turn (cipher : σ → Bytes → Bytes × σ)
    (hp : 0 < 16 * p.crypt.toNat + 16 * p.skip.toNat) (s : σ) {data : Bytes} (hd : data ≠ []) :
    spans cipher (16 * p.crypt.toNat) (16 * p.skip.toNat) hp s data =
      let first := if p.lead data.length = 0 then ([], s)
        else cipher s (data.take (p.lead data.length))
      let rest := spans cipher (16 * p.crypt.toNat) (16 * p.skip.toNat) hp first.2
        (data.drop (16 * p.size))
      (first.1 ++ (data.take (16 * p.size)).drop (p.lead data.length) ++ rest.1, rest.2) := by
  have hsize : 16 * p.size = 16 * p.crypt.toNat + 16 * p.skip.toNat := Nat.mul_add _ _ _
  have hwhole : (data.take (16 * p.crypt.toNat)).length / 16 * 16 = p.lead data.length := by
    rw [List.length_take]
    unfold lead
    omega
  have hfirst : (data.take (16 * p.crypt.toNat)).take (p.lead data.length) =
      data.take (p.lead data.length) := by
    rw [List.take_take, Nat.min_eq_left (by unfold lead; omega)]
  have hcopied : (data.take (16 * p.crypt.toNat)).drop (p.lead data.length) ++
      (data.drop (16 * p.crypt.toNat)).take (16 * p.skip.toNat) =
        (data.take (16 * p.size)).drop (p.lead data.length) := by
    rw [hsize, List.take_add, List.drop_append_of_le_length]
    rw [List.length_take]
    unfold lead
    omega
  rw [spans, dif_neg hd]
  dsimp only
  rw [hwhole, hfirst, List.drop_drop, ← hsize, List.append_assoc _ _ (List.take _ _), hcopied]

/-- To a cipher that goes on an empty piece may be thought to go, too. -/
theorem spans_step (hc : Streams cipher) (hp : 0 < 16 * p.crypt.toNat + 16 * p.skip.toNat) (s : σ)
    (data : Bytes) :
    spans cipher (16 * p.crypt.toNat) (16 * p.skip.toNat) hp s data =
      let first := cipher s (data.take (p.lead data.length))
      let rest := spans cipher (16 * p.crypt.toNat) (16 * p.skip.toNat) hp first.2
        (data.drop (16 * p.size))
      (first.1 ++ (data.take (16 * p.size)).drop (p.lead data.length) ++ rest.1, rest.2) := by
  by_cases hd : data = []
  · subst hd
    simp [spans_nil, hc.nil]
  · rw [spans_turn cipher hp s hd]
    split_ifs with hw
    · rw [hw, List.take_zero, hc.nil]
    · rfl

/-- Under a pattern a cipher replaces the marked bytes, as one message. -/
theorem spans_replaces (hc : Streams cipher) (h : p.size ≠ 0)
    (hp : 0 < 16 * p.crypt.toNat + 16 * p.skip.toNat) (s : σ) (data : Bytes) :
    Replaces (p.marks data.length) (cipher s (pick (p.marks data.length) data)).1 data
      (spans cipher (16 * p.crypt.toNat) (16 * p.skip.toNat) hp s data).1 := by
  induction hn : data.length using Nat.strongRecOn generalizing s data with
  | ind n ih =>
    by_cases hd : data = []
    · subst hd
      subst hn
      rw [spans_nil, show pick (p.marks ([] : Bytes).length) [] = [] from rfl, hc.nil]
      exact ⟨rfl, fun _ _ => rfl, rfl⟩
    · have hpos : 0 < data.length := List.length_pos_iff.mpr hd
      have hrest := ih (data.drop (16 * p.size)).length (by rw [List.length_drop]; omega)
        (cipher s (data.take (p.lead data.length))).2 _ rfl
      have hmod : (data.take (p.lead data.length)).length % 16 = 0 := by
        rw [length_lead, lead_mod]
      have hfirst := Replaces.all (hc.length_eq s (data.take (p.lead data.length)))
      have hcopied := Replaces.refl ((data.take (16 * p.size)).drop (p.lead data.length))
      have hall := (hfirst.append (by simp) hcopied).append (by simp) hrest
      rw [← marks_pieces data h, pieces_eq, List.append_nil] at hall
      rw [← hn, spans_step hc, pick_marks_step data h, hc.append s _ _ hmod]
      exact hall

theorem process_replaces (hc : Streams cipher) (h : p.size ≠ 0) (s : σ) (data : Bytes) :
    Replaces (p.marks data.length) (cipher s (pick (p.marks data.length) data)).1 data
      (p.process cipher s data).1 := by
  rw [process, dif_neg h]
  exact spans_replaces hc h _ s data

end

end Pattern

end ProtectedMedia
