import Mathlib.Data.Nat.Notation
import ProtectedMedia.DecryptionModule.Scripted

/-!
# A record of all calls

A recorder stands in front of a decryption module. It passes every request on and writes down what
was asked and how it was answered, so that its record tells which calls the module got.
-/
namespace ProtectedMedia

/-- A call of a module: the request, the size of the destination that came with it, the answer. -/
structure Exchange where
  request : Request
  destSize : ℕ
  status : Status
  deriving DecidableEq

namespace DecryptionModule

variable {σ τ : Type}

/-- The same module with a record of its calls beside its state, latest last. -/
def recorded (m : DecryptionModule σ) : DecryptionModule (σ × List Exchange) where
  decrypt s r dest :=
    let reply := m.decrypt s.1 r dest
    ⟨reply.status, reply.dest, (reply.state, s.2 ++ [⟨r, dest.length, reply.status⟩])⟩
  length_dest s r dest := m.length_dest s.1 r dest

/-- The module accepts every request. What it writes is its own affair. -/
def AlwaysSucceeds (m : DecryptionModule σ) : Prop :=
  ∀ s r dest, (m.decrypt s r dest).status = .success

/-- The module writes over no more than as many bytes as it is given. -/
def KeepsTail (m : DecryptionModule σ) : Prop :=
  ∀ s r dest, (m.decrypt s r dest).dest.drop r.data.length = dest.drop r.data.length

/-- A request is answered in the same way in every state. -/
def Stateless (m : DecryptionModule σ) : Prop :=
  ∀ s t r dest, (m.decrypt s r dest).status = (m.decrypt t r dest).status ∧
    (m.decrypt s r dest).dest = (m.decrypt t r dest).dest

/-- Two modules in related states give the same answer, write the same, and stay related. -/
structure Corresponds (m : DecryptionModule σ) (m' : DecryptionModule τ)
    (related : σ → τ → Prop) : Prop where
  status : ∀ {s t}, related s t → ∀ r dest,
    (m.decrypt s r dest).status = (m'.decrypt t r dest).status
  dest : ∀ {s t}, related s t → ∀ r dest, (m.decrypt s r dest).dest = (m'.decrypt t r dest).dest
  state : ∀ {s t}, related s t → ∀ r dest,
    related (m.decrypt s r dest).state (m'.decrypt t r dest).state

theorem corresponds_recorded (m : DecryptionModule σ) :
    m.recorded.Corresponds m fun s t => s.1 = t where
  status h _ _ := h ▸ rfl
  dest h _ _ := h ▸ rfl
  state h _ _ := h ▸ rfl

/-- Without a state of its own a module cannot make two records differ. -/
theorem Stateless.corresponds {m : DecryptionModule σ} (h : m.Stateless) :
    m.recorded.Corresponds m.recorded fun s t => s.2 = t.2 where
  status _ r dest := (h _ _ r dest).1
  dest _ r dest := (h _ _ r dest).2
  state := by
    intro s t hlog r dest
    simp only [recorded, hlog, (h s.1 t.1 r dest).1]

variable (m : DecryptionModule σ) (s : σ × List Exchange) (r : Request) (dest : Bytes)

theorem decrypt_recorded {reply : Reply σ} (h : m.decrypt s.1 r dest = reply) :
    m.recorded.decrypt s r dest =
      ⟨reply.status, reply.dest, (reply.state, s.2 ++ [⟨r, dest.length, reply.status⟩])⟩ := by
  subst h
  rfl

theorem drop_complement (data dest : Bytes) :
    (complement data dest).drop data.length = dest.drop data.length := by
  induction data generalizing dest with
  | nil => simp [complement]
  | cons x data ih =>
      cases dest with
      | nil => rfl
      | cons y dest => exact ih dest

theorem keepsTail_scripted (script : List Status) : (scripted script).KeepsTail :=
  fun _ r dest => drop_complement r.data dest

@[simp] theorem scriptedStatus_singleton (status : Status) (n : ℕ) :
    scriptedStatus [status] n = status := by
  cases n <;> rfl

theorem alwaysSucceeds_scripted : (scripted [.success]).AlwaysSucceeds :=
  fun _ _ _ => scriptedStatus_singleton _ _

/-- A script of one line. -/
theorem stateless_scripted (status : Status) : (scripted [status]).Stateless := by
  intro s t r dest
  simp only [scripted, scriptedStatus_singleton, and_self]

end DecryptionModule

end ProtectedMedia
