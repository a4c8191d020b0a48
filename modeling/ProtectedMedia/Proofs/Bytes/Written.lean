import ProtectedMedia.Proofs.Bytes.Reader
import ProtectedMedia.Proofs.Bytes.Value

/-!
# Reading what was written

A reader reads `written` as `a` if it yields `a` from every cursor in front of `written`, whatever
follows, and stops right behind it. Readers in sequence read what was written in sequence. A reader
that skips does so only in front of the last 64-bit position, so it reads what ends below a limit.
-/
namespace ProtectedMedia

namespace Reader

variable {ε α β γ : Type} {limit : ℕ} {v w : Bytes} {a : α} {b : β}

/-- The reader takes `written`, whatever follows it, and yields `a`. -/
def Reads (r : Reader ε α) (written : Bytes) (a : α) : Prop :=
  ∀ (c : Cursor) (tail : Bytes), c.rest = written ++ tail →
    r c = .ok (a, c.forward written.length)

/-- The same for what ends in front of the position `limit`. -/
def ReadsBelow (limit : ℕ) (r : Reader ε α) (written : Bytes) (a : α) : Prop :=
  ∀ (c : Cursor) (tail : Bytes), c.rest = written ++ tail → c.position + written.length < limit →
    r c = .ok (a, c.forward written.length)

theorem Reads.below {r : Reader ε α} (h : Reads r w a) (limit : ℕ) : ReadsBelow limit r w a :=
  fun c tail hrest _ => h c tail hrest

theorem reads_of_below {r : Reader ε α} (h : ∀ limit, ReadsBelow limit r w a) : Reads r w a :=
  fun c tail hrest => h _ c tail hrest (Nat.lt_succ_self _)

theorem reads_pure (a : α) : Reads (pure a : Reader ε α) [] a := fun _ _ _ => rfl

theorem ReadsBelow.bind {r : Reader ε α} {f : α → Reader ε β} (hr : ReadsBelow limit r v a)
    (hf : ReadsBelow limit (f a) w b) : ReadsBelow limit (r >>= f) (v ++ w) b := by
  intro c tail h hlimit
  rw [List.append_assoc] at h
  rw [List.length_append] at hlimit
  have hrest : (c.forward v.length).rest = w ++ tail := by
    rw [Cursor.rest_forward, h, List.drop_left]
  have hposition : (c.forward v.length).position + w.length < limit := by
    rw [Cursor.position_forward]
    omega
  rw [bind_eq_ok]
  refine ⟨a, c.forward v.length, hr c _ h (by omega), ?_⟩
  rw [hf _ tail hrest hposition, Cursor.forward_forward, List.length_append]

theorem Reads.bind {r : Reader ε α} {f : α → Reader ε β} (hr : Reads r v a)
    (hf : Reads (f a) w b) : Reads (r >>= f) (v ++ w) b :=
  reads_of_below fun limit => (hr.below limit).bind (hf.below limit)

/-- A step that takes nothing. -/
theorem ReadsBelow.bind_nil {r : Reader ε α} {f : α → Reader ε β} (hr : ReadsBelow limit r [] a)
    (hf : ReadsBelow limit (f a) w b) : ReadsBelow limit (r >>= f) w b :=
  hr.bind hf

theorem Reads.bind_nil {r : Reader ε α} {f : α → Reader ε β} (hr : Reads r [] a)
    (hf : Reads (f a) w b) : Reads (r >>= f) w b :=
  hr.bind hf

theorem ReadsBelow.map {r : Reader ε α} (hr : ReadsBelow limit r w a) (f : α → β) :
    ReadsBelow limit (f <$> r) w (f a) := by
  intro c tail h hlimit
  change (r c >>= fun p => Except.ok (f p.1, p.2)) = _
  rw [hr c tail h hlimit]
  rfl

theorem Reads.map {r : Reader ε α} (hr : Reads r w a) (f : α → β) : Reads (f <$> r) w (f a) :=
  reads_of_below fun limit => (hr.below limit).map f

/-- A reader may look at how much is left, which is at least what it goes on to read. -/
theorem ReadsBelow.of_remaining {f : ℕ → Reader ε β}
    (hf : ∀ left, w.length ≤ left → ReadsBelow limit (f left) w b) :
    ReadsBelow limit (remaining >>= f) w b := by
  intro c tail h hlimit
  rw [bind_eq_ok]
  refine ⟨c.rest.length, c, rfl, hf _ ?_ c tail h hlimit⟩
  rw [h, List.length_append]
  omega

theorem Reads.of_remaining {f : ℕ → Reader ε β}
    (hf : ∀ left, w.length ≤ left → Reads (f left) w b) : Reads (remaining >>= f) w b :=
  reads_of_below fun limit => .of_remaining fun left hleft => (hf left hleft).below limit

variable [HasReadFault ε]

theorem reads_unsigned {width n : ℕ} (h : n < 256 ^ width) :
    Reads (unsigned width : Reader ε ℕ) (Bytes.ofNat width n) n := by
  intro c tail hrest
  rw [unsigned_eq_ok, hrest, List.length_append, Bytes.length_ofNat]
  refine ⟨by omega, ?_, rfl⟩
  rw [List.take_left' (Bytes.length_ofNat width n), Bytes.toNat_ofNat, Nat.mod_eq_of_lt h]

theorem reads_word (w : UInt32) : Reads (word : Reader ε UInt32) (Bytes.ofUInt32 w) w := by
  have hlt : w.toNat < 256 ^ 4 := w.toNat_lt
  have h : Reads (word : Reader ε UInt32) (Bytes.ofUInt32 w) (UInt32.ofNat w.toNat) :=
    (reads_unsigned hlt).map UInt32.ofNat
  rwa [UInt32.ofNat_toNat] at h

theorem reads_signed {n : ℕ} (h : n < 2 ^ 32) :
    Reads (signedWord : Reader ε ℤ) (Bytes.ofNat 4 n) (Cursor.signed32 n) := by
  intro c tail hrest
  rw [signedWord_eq_ok, hrest, List.length_append, Bytes.length_ofNat]
  refine ⟨by omega, ?_, rfl⟩
  rw [List.take_left' (Bytes.length_ofNat 4 n), Bytes.toNat_ofNat]
  exact congrArg Cursor.signed32 (Nat.mod_eq_of_lt h).symm

theorem reads_bytes {n : ℕ} {b : Bytes} (h : b.length = n) :
    Reads (bytes n : Reader ε Bytes) b b := by
  intro c tail hrest
  rw [bytes_eq_ok, hrest, List.length_append]
  exact ⟨by omega, (List.take_left' h).symm, by rw [h]⟩

/-- A skip in front of the last 64-bit position takes any bytes. -/
theorem readsBelow_skip (hlimit : limit ≤ 2 ^ 64) (w : Bytes) :
    ReadsBelow limit (skip w.length : Reader ε Unit) w () := by
  intro c tail hrest hposition
  rw [skip_eq_ok (by omega), hrest, List.length_append]
  exact ⟨Nat.le_add_right _ _, rfl⟩

omit [HasReadFault ε] in
/-- A table whose entries are read one by one, each as its value. -/
theorem readsBelow_times {r : Reader ε α} {write : γ → Bytes} {value : γ → α} {xs : List γ}
    (h : ∀ x ∈ xs, ReadsBelow limit r (write x) (value x)) :
    ReadsBelow limit (times xs.length r) (xs.flatMap write) (xs.map value) := by
  induction xs with
  | nil => exact (reads_pure []).below limit
  | cons x xs ih =>
      rw [List.length_cons, times_succ, List.flatMap_cons]
      have hrest := ih fun y hy => h y (List.mem_cons_of_mem x hy)
      refine (h x List.mem_cons_self).bind ?_
      rw [← List.append_nil (xs.flatMap write)]
      exact hrest.bind ((reads_pure _).below limit)

omit [HasReadFault ε] in
theorem reads_times {r : Reader ε α} {write : α → Bytes} {as : List α}
    (h : ∀ a ∈ as, Reads r (write a) a) : Reads (times as.length r) (as.flatMap write) as := by
  refine reads_of_below fun limit => ?_
  have hvalues : ReadsBelow limit (times as.length r) (as.flatMap write) (as.map id) :=
    readsBelow_times fun a ha => (h a ha).below limit
  rwa [List.map_id] at hvalues

end Reader

/-- A table whose entries have one size. -/
theorem Bytes.length_flatMap {α : Type} {write : α → Bytes} {k : ℕ} (as : List α)
    (h : ∀ a, (write a).length = k) : (as.flatMap write).length = as.length * k := by
  induction as with
  | nil => exact (Nat.zero_mul k).symm
  | cons a as ih =>
      rw [List.flatMap_cons, List.length_append, ih, h, List.length_cons, Nat.succ_mul,
        Nat.add_comm]

/-- Entries that have at least one size. -/
theorem Bytes.le_length_flatMap {α : Type} {write : α → Bytes} {k : ℕ} {as : List α}
    (h : ∀ a ∈ as, k ≤ (write a).length) : as.length * k ≤ (as.flatMap write).length := by
  induction as with
  | nil => exact (Nat.zero_mul k).le
  | cons a as ih =>
      have ha := h a List.mem_cons_self
      have hrest := ih fun a' ha' => h a' (List.mem_cons_of_mem a ha')
      rw [List.flatMap_cons, List.length_append, List.length_cons, Nat.succ_mul]
      omega

/-- If any `k` bytes are an entry, then any bytes with room for a table begin with one. -/
theorem Bytes.exists_flatMap {α : Type} {write : α → Bytes} {k n : ℕ} {d : Bytes}
    (h : ∀ d : Bytes, k ≤ d.length → ∃ a rest, d = write a ++ rest ∧ rest.length + k = d.length)
    (hroom : n * k ≤ d.length) :
    ∃ (as : List α) (rest : Bytes), as.length = n ∧ d = as.flatMap write ++ rest := by
  induction n generalizing d with
  | zero => exact ⟨[], d, rfl, rfl⟩
  | succ n ih =>
      rw [Nat.succ_mul] at hroom
      obtain ⟨a, d', rfl, hlength⟩ := h d (by omega)
      obtain ⟨as, rest, rfl, rfl⟩ := ih (d := d') (by omega)
      exact ⟨a :: as, rest, rfl, by rw [List.flatMap_cons, List.append_assoc]⟩

end ProtectedMedia
