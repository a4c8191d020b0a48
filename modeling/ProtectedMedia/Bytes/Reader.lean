import ProtectedMedia.Bytes.Cursor

/-!
# Readers

A reader takes a cursor and yields a value and the cursor after it, or fails. Readers are composed
from the operations of a cursor; what a failed operation does to the cursor is of no interest any
more, because a failure ends the whole reader.

A reader never consumes less than its parts do. `Consumes` says by how much the rest of the data
shrinks, which is what recursion over nested structures needs.
-/

namespace ProtectedMedia

/-- Failures among which are those of a cursor. -/
class HasReadFault (ε : Type) where
  ofReadFault : ReadFault → ε

abbrev Reader (ε : Type) := StateT Cursor (Except ε)

namespace Reader

variable {ε α β : Type}

/-- An operation of a cursor as a reader. -/
def lift [HasReadFault ε] (operation : Cursor → Except ReadFault α × Cursor) : Reader ε α := fun c =>
  match operation c with
  | (.ok a, c) => .ok (a, c)
  | (.error fault, _) => .error (HasReadFault.ofReadFault fault)

variable [HasReadFault ε]

/-- An unsigned number of `width` bytes. -/
def unsigned (width : Nat) : Reader ε Nat := lift (Cursor.readUnsigned width)

def byte : Reader ε UInt8 := UInt8.ofNat <$> unsigned 1

def word : Reader ε UInt32 := UInt32.ofNat <$> unsigned 4

def signedWord : Reader ε Int := lift Cursor.readSigned32

def bytes (n : Nat) : Reader ε Bytes := lift (Cursor.readBytes n)

def skip (n : Nat) : Reader ε Unit := lift (Cursor.skip n)

def remaining : Reader ε Nat := return (← get).remaining

def times (n : Nat) (r : Reader ε α) : Reader ε (List α) := (List.replicate n ()).mapM fun _ => r

/-- Whenever the reader yields `a`, at least `cost a` bytes of the rest are gone. -/
def Consumes (r : Reader ε α) (cost : α → Nat) : Prop :=
  ∀ c a c', r c = .ok (a, c') → cost a + c'.rest.length ≤ c.rest.length

omit [HasReadFault ε] in
theorem Consumes.mono {r : Reader ε α} {cost less : α → Nat} (h : Consumes r cost)
    (le : ∀ a, less a ≤ cost a) : Consumes r less := fun c a c' e => by
  have := h c a c' e
  have := le a
  omega

omit [HasReadFault ε] in
theorem consumes_pure (a : α) : Consumes (pure a : Reader ε α) fun _ => 0 := by
  intro c b c' h
  cases h
  simp

omit [HasReadFault ε] in
theorem consumes_throw (e : ε) (cost : α → Nat) : Consumes (throw e : Reader ε α) cost := by
  intro c b c' h
  cases h

omit [HasReadFault ε] in
theorem consumes_get : Consumes (get : Reader ε Cursor) fun _ => 0 := by
  intro c b c' h
  cases h
  simp

omit [HasReadFault ε] in
/-- What the first reader surely consumes adds to what the second one consumes. -/
theorem Consumes.bind {r : Reader ε α} {f : α → Reader ε β} {k : Nat} {cost : β → Nat}
    (hr : Consumes r fun _ => k) (hf : ∀ a, Consumes (f a) cost) :
    Consumes (r >>= f) fun b => k + cost b := by
  intro c b c' h
  change (r c >>= fun p => f p.1 p.2) = .ok (b, c') at h
  cases hc : r c with
  | error e => rw [hc] at h; cases h
  | ok p =>
    rw [hc] at h
    have h₁ := hr c p.1 p.2 hc
    have h₂ := hf p.1 p.2 b c' h
    dsimp only at h₁ ⊢
    omega

omit [HasReadFault ε] in
theorem Consumes.mapCost {r : Reader ε α} {f : α → β} {cost : α → Nat} {cost' : β → Nat}
    (hr : Consumes r cost) (le : ∀ a, cost' (f a) ≤ cost a) : Consumes (f <$> r) cost' := by
  intro c b c' h
  change (r c >>= fun p => Except.ok (f p.1, p.2)) = .ok (b, c') at h
  cases hc : r c with
  | error e => rw [hc] at h; cases h
  | ok p =>
    rw [hc] at h
    cases h
    have h₁ := hr c p.1 p.2 hc
    have h₂ := le p.1
    omega

omit [HasReadFault ε] in
theorem Consumes.map {r : Reader ε α} {f : α → β} {k : Nat} (hr : Consumes r fun _ => k) :
    Consumes (f <$> r) fun _ => k := hr.mapCost fun _ => Nat.le_refl k

omit [HasReadFault ε] in
theorem consumes_ite {p : Prop} [Decidable p] {r s : Reader ε α} {cost : α → Nat}
    (hr : Consumes r cost) (hs : Consumes s cost) : Consumes (if p then r else s) cost := by
  split <;> assumption

theorem consumes_unsigned (width : Nat) :
    Consumes (unsigned width : Reader ε Nat) fun _ => width := by
  intro c n c' h
  unfold unsigned lift Cursor.readUnsigned at h
  by_cases hw : width ≤ c.rest.length
  · simp [hw] at h
    obtain ⟨-, rfl⟩ := h
    simp [Cursor.forward]
    omega
  · simp [hw] at h

theorem consumes_word : Consumes (word : Reader ε UInt32) fun _ => 4 :=
  (consumes_unsigned 4).map

theorem consumes_bytes (n : Nat) : Consumes (bytes n : Reader ε Bytes) List.length := by
  intro c b c' h
  unfold bytes lift Cursor.readBytes at h
  by_cases hn : n ≤ c.rest.length
  · simp [hn] at h
    obtain ⟨rfl, rfl⟩ := h
    simp [Cursor.forward]
    omega
  · simp [hn] at h

end Reader

end ProtectedMedia
