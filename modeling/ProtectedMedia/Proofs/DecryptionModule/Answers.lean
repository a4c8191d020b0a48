import ProtectedMedia.Proofs.DecryptionModule.KeyStore
import ProtectedMedia.Proofs.DecryptionModule.Recorded

/-!
# Which answer a key store gives

A key store looks for the key first, then at the sizes, then at the use of a block offset; the first
check that fails decides. A refusal leaves the destination as it is. A plaintext is written over as
many bytes as the data has, and it has nothing to do with what stood there before.
-/
namespace ProtectedMedia

theorem Block.exists_eq_toBytes {b : Bytes} (h : b.length = 16) : ∃ x : Block, b = x.toBytes :=
  ⟨⟨b.toArray, size_toArray h⟩, (toBytes_mk _ _).symm⟩

namespace KeyStore

/-- The store has a key with the identifier. -/
def Holds (keys : KeyStore) (keyId : Bytes) : Prop :=
  ∃ entry ∈ keys.entries, entry.1.toBytes = keyId

instance (keys : KeyStore) (keyId : Bytes) : Decidable (keys.Holds keyId) :=
  inferInstanceAs (Decidable (∃ entry ∈ keys.entries, entry.1.toBytes = keyId))

variable {keys : KeyStore} (family : Block → BlockCipher) (log : List Refusal) {r : Request}
  {destSize : ℕ} {dest plain : Bytes}

theorem find?_eq_none_iff {keyId : Bytes} : keys.find? keyId = none ↔ ¬keys.Holds keyId := by
  simp [find?, Holds]

theorem Holds.exists_find? {keyId : Bytes} (h : keys.Holds keyId) :
    ∃ key, keys.find? keyId = some key := by
  rw [← Option.ne_none_iff_exists']
  exact mt find?_eq_none_iff.mp (not_not.mpr h)

/-! ### The checks, one after the other -/

theorem plaintext_noKey (h : ¬keys.Holds r.keyId) :
    keys.plaintext family r destSize = .error (.noKey r.keyId) := by
  simp only [plaintext, find?_eq_none_iff.mpr h]

section
variable (hheld : keys.Holds r.keyId)
include hheld

theorem plaintext_malformed (h : r.iv.length ≠ 16 ∨ destSize < r.data.length) :
    keys.plaintext family r destSize =
      .error (.malformed r.iv.length r.data.length destSize) := by
  obtain ⟨key, hkey⟩ := hheld.exists_find?
  by_cases hiv : r.iv.length = 16
  · obtain ⟨iv, hblock⟩ := Block.exists_eq_toBytes hiv
    have hdest : destSize < r.data.length := h.resolve_left (not_not.mpr hiv)
    simp only [plaintext, hkey, hblock, Block.ofBytes?_toBytes, if_pos hdest]
  · simp only [plaintext, hkey, Block.ofBytes?_eq_none hiv]

variable (hiv : r.iv.length = 16)
include hiv

theorem plaintext_offset (hdest : r.data.length ≤ destSize) (hoffset : r.blockOffset ≠ 0)
    (h : r.mode = .chaining ∨ r.pattern ≠ .none) :
    ∃ refusal, refusal.status = .notSupported ∧
      keys.plaintext family r destSize = .error refusal := by
  obtain ⟨key, hkey⟩ := hheld.exists_find?
  obtain ⟨iv, hblock⟩ := Block.exists_eq_toBytes hiv
  cases hmode : r.mode with
  | chaining =>
      refine ⟨.offsetWithChaining, rfl, ?_⟩
      simp only [plaintext, hkey, hblock, Block.ofBytes?_toBytes, hmode,
        if_neg (not_lt.mpr hdest), if_pos hoffset]
  | counter =>
      have hpattern : r.pattern ≠ .none := h.resolve_left (by simp [hmode])
      exact ⟨.offsetWithPattern, rfl, plaintext_offsetWithPattern family hkey hblock hdest hmode
        hoffset (mt Pattern.eq_none_of_size hpattern)⟩

/-- A request that passes the checks has a plaintext, the same for every destination that is large
enough. -/
theorem exists_plaintext (h : ¬(r.blockOffset ≠ 0 ∧ (r.mode = .chaining ∨ r.pattern ≠ .none))) :
    ∃ plain, ∀ n, r.data.length ≤ n → keys.plaintext family r n = .ok plain := by
  obtain ⟨key, hkey⟩ := hheld.exists_find?
  obtain ⟨iv, hblock⟩ := Block.exists_eq_toBytes hiv
  cases hmode : r.mode with
  | chaining =>
      have hoffset : r.blockOffset = 0 := by
        by_contra hne
        exact h ⟨hne, .inl hmode⟩
      exact ⟨_, fun n hn => plaintext_chain family hkey hblock hn hmode hoffset⟩
  | counter =>
      have hoffset : r.blockOffset = 0 ∨ r.pattern = .none := by
        by_contra hne
        rw [not_or] at hne
        exact h ⟨hne.1, .inr hne.2⟩
      exact ⟨_, fun n hn => plaintext_counter family hkey hblock hn hmode hoffset⟩

end

/-! ### The answer -/

/-- The status by which a request with a destination of `destSize` bytes is answered. -/
def answer (keys : KeyStore) (r : Request) (destSize : ℕ) : Status :=
  if ¬keys.Holds r.keyId then .keyNotFound
  else if r.iv.length ≠ 16 ∨ destSize < r.data.length then .unknown
  else if r.blockOffset ≠ 0 ∧ (r.mode = .chaining ∨ r.pattern ≠ .none) then .notSupported
  else .success

/-- A request is refused with the status of the first check that fails, or it has a plaintext. -/
theorem plaintext_answer (keys : KeyStore) (r : Request) (destSize : ℕ) :
    (∃ refusal, keys.answer r destSize = refusal.status ∧
      keys.plaintext family r destSize = .error refusal) ∨
    (keys.answer r destSize = .success ∧ r.data.length ≤ destSize ∧
      ∃ plain, ∀ n, r.data.length ≤ n → keys.plaintext family r n = .ok plain) := by
  unfold answer
  split_ifs with hheld hsizes hoffset
  · exact .inl ⟨_, rfl, plaintext_malformed family hheld hsizes⟩
  · rw [not_or, not_not, not_lt] at hsizes
    obtain ⟨refusal, hstatus, hrefused⟩ := plaintext_offset family hheld hsizes.1 hsizes.2
      hoffset.1 hoffset.2
    exact .inl ⟨refusal, hstatus.symm, hrefused⟩
  · rw [not_or, not_not, not_lt] at hsizes
    exact .inr ⟨rfl, hsizes.2, exists_plaintext family hheld hsizes.1 hoffset⟩
  · exact .inl ⟨_, rfl, plaintext_noKey family hheld⟩

theorem decrypt_refused {refusal : Refusal}
    (h : keys.plaintext family r dest.length = .error refusal) :
    (keys.toModule family).decrypt log r dest = ⟨refusal.status, dest, log ++ [refusal]⟩ := by
  simp only [toModule, h]

theorem decrypt_served (hdest : r.data.length ≤ dest.length)
    (h : keys.plaintext family r dest.length = .ok plain) :
    (keys.toModule family).decrypt log r dest =
      ⟨.success, plain ++ dest.drop r.data.length, log⟩ := by
  have hlen := length_plaintext h
  simp only [toModule, h, overwrite_eq (hlen.le.trans hdest), hlen]

/-- The log of refusals is written and never read. -/
theorem stateless_toModule (keys : KeyStore) (family : Block → BlockCipher) :
    (keys.toModule family).Stateless := by
  intro log log' r dest
  simp only [toModule]
  cases keys.plaintext family r dest.length with
  | error refusal => exact ⟨rfl, rfl⟩
  | ok plain => exact ⟨rfl, rfl⟩

/-- The answer to a request, what it leaves of the destination, and what does not matter for it. -/
theorem request_answered (keys : KeyStore) (family : Block → BlockCipher) (log : List Refusal)
    (r : Request) (dest : Bytes) :
    ((keys.toModule family).decrypt log r dest).status =
      (if ¬keys.Holds r.keyId then .keyNotFound
      else if r.iv.length ≠ 16 ∨ dest.length < r.data.length then .unknown
      else if r.blockOffset ≠ 0 ∧ (r.mode = .chaining ∨ r.pattern ≠ .none) then .notSupported
      else .success) ∧
    (((keys.toModule family).decrypt log r dest).status ≠ .success →
      ((keys.toModule family).decrypt log r dest).dest = dest) ∧
    (((keys.toModule family).decrypt log r dest).status = .success →
      ((keys.toModule family).decrypt log r dest).dest.length = dest.length ∧
      ((keys.toModule family).decrypt log r dest).dest.drop r.data.length =
        dest.drop r.data.length ∧
      ∀ (log' : List Refusal) (other : Bytes), r.data.length ≤ other.length →
        ((keys.toModule family).decrypt log' r other).dest.take r.data.length =
          ((keys.toModule family).decrypt log r dest).dest.take r.data.length) := by
  change _ = keys.answer r dest.length ∧ _
  rcases plaintext_answer family keys r dest.length with
    ⟨refusal, hanswer, hrefused⟩ | ⟨hanswer, hdest, plain, hplain⟩
  · rw [decrypt_refused family log hrefused]
    refine ⟨hanswer.symm, fun _ => rfl, fun hsuccess => ?_⟩
    cases refusal <;> cases hsuccess
  · have hlen := length_plaintext (hplain _ hdest)
    rw [decrypt_served family log hdest (hplain _ hdest)]
    refine ⟨hanswer.symm, fun hfailed => absurd rfl hfailed, fun _ => ⟨?_, ?_, ?_⟩⟩
    · rw [List.length_append, List.length_drop, hlen, Nat.add_sub_cancel' hdest]
    · rw [List.drop_left' hlen]
    · intro log' other hother
      rw [decrypt_served family log' hother (hplain _ hother), List.take_left' hlen,
        List.take_left' hlen]

end KeyStore

end ProtectedMedia
