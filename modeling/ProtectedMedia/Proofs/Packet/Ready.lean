import ProtectedMedia.Proofs.DecryptionModule.KeyStore
import ProtectedMedia.Proofs.Packet.Runs
import ProtectedMedia.Proofs.RunningIv

/-!
# Packets that a key store can decrypt

`Ready` collects what has to be in order before a key store can make anything of a packet: readable
parameters, a scheme that may be used with the pattern, a vector of one of the two sizes, a key,
and subsamples that cover the payload. What the runs become is then a matter of the scheme alone.
-/
namespace ProtectedMedia

theorem Scheme.resolve_code {scheme : Scheme} {pattern : Pattern}
    (h : scheme.allowsPattern = true ∨ pattern = .none) :
    resolve scheme.code pattern = .ok scheme := by
  have hcode : ofCode? scheme.code = some scheme := by cases scheme <;> rfl
  have hallowed : (!scheme.allowsPattern && !pattern.isNone) = false := by
    rcases h with h | h
    · rw [h]; rfl
    · rw [h]; exact Bool.and_false _
  rw [resolve, hcode]
  simp only [hallowed, Bool.false_eq_true, if_false]

/-- A scheme is found by its own code. -/
theorem Scheme.eq_iff_of_resolve {code : FourCC} {pattern : Pattern} {scheme : Scheme}
    (h : resolve code pattern = .ok scheme) (other : Scheme) :
    scheme = other ↔ code = other.code := by
  have hcode : scheme.code = code := by
    unfold resolve at h
    cases hfound : ofCode? code with
    | none =>
        rw [hfound] at h
        cases h
    | some found =>
        rw [hfound] at h
        have hmatch := List.find?_some hfound
        dsimp only at h hmatch
        split at h
        · cases h
        · cases h
          exact of_decide_eq_true hmatch
  subst hcode
  constructor
  · intro heq
    rw [heq]
  · cases scheme <;> cases other <;> decide

/-- In counter mode a store that holds the key serves a run that starts at a block or has no
pattern. -/
theorem KeyStore.serves_counter {keys : KeyStore} (family : Block → BlockCipher) {scheme : Scheme}
    {info : EncryptionInfo} {key : Block} (log : List Refusal) {v v' : RunningIv} {run : Bytes}
    (hkey : keys.find? info.keyId = some key) (hmode : scheme.mode = .counter)
    (hoffset : v.offset = 0 ∨ info.pattern = .none)
    (hadvance : v.advance scheme info.pattern run = .ok v') :
    EncryptionInfo.Serves (keys.toModule family) info scheme log v run
      (decryptCounter (family key) v.block (info.request scheme v run)) log v' where
  advance := hadvance
  reply dest hdest := by
    have hplain := plaintext_counter family (r := info.request scheme v run)
      hkey rfl hdest.ge hmode hoffset
    simp only [toModule, hplain]
    rw [overwrite_of_length_eq]
    exact (length_decryptCounter _ _).trans hdest.symm

/-- Scheme, pattern and vector are in order or fail for a cause of their own. Either way the subsamples
have no say in it. -/
theorem EncryptionInfo.resolved_or_refused (info : EncryptionInfo) :
    (∃ scheme, Scheme.resolve info.scheme info.pattern = .ok scheme ∧
      (info.iv.length = 8 ∨ info.iv.length = 16)) ∨
    ∃ e, ∀ {σ : Type} (m : DecryptionModule σ) (subs : List Subsample) (s : σ)
      (payload dest : Bytes),
      { info with subsamples := subs }.decrypt m s payload dest = ⟨.error e, dest, s⟩ := by
  cases hscheme : Scheme.resolve info.scheme info.pattern with
  | error e =>
      refine .inr ⟨e, fun m subs s payload dest => ?_⟩
      simp only [EncryptionInfo.decrypt, hscheme]
  | ok scheme =>
      cases hiv : RunningIv.ofBytes info.iv with
      | error e =>
          refine .inr ⟨e, fun m subs s payload dest => ?_⟩
          simp only [EncryptionInfo.decrypt, hscheme, hiv]
      | ok iv => exact .inl ⟨scheme, rfl, RunningIv.size_of_ofBytes hiv⟩

namespace Packet
open EncryptionInfo Subsample

/-- The parameters can be read, the scheme may be used with the pattern, and the vector has one of the
two sizes. No module is called for a packet that is not in order. -/
structure InOrder (p : Packet) (info : EncryptionInfo) (scheme : Scheme) : Prop where
  info_eq : p.encryptionInfo = .ok (some info)
  scheme_eq : Scheme.resolve info.scheme info.pattern = .ok scheme
  iv_size : info.iv.length = 8 ∨ info.iv.length = 16

section
variable {σ : Type} {p : Packet} {info : EncryptionInfo} {scheme : Scheme}

theorem decryptInto_of_info (h : p.encryptionInfo = .ok (some info)) (m : DecryptionModule σ) (s : σ)
    (dest : Bytes) : p.decryptInto m s dest = info.decrypt m s p.data dest := by
  simp only [decryptInto, h]

/-- A packet with subsamples is decrypted by the walk over its runs. -/
theorem InOrder.decryptInto_eq (h : p.InOrder info scheme) (hne : info.subsamples ≠ [])
    (m : DecryptionModule σ) (s : σ) (dest : Bytes) :
    p.decryptInto m s dest =
      decryptRuns m info scheme info.subsamples ⟨RunningIv.widened info.iv, 0⟩ s p.data dest := by
  have hempty : info.subsamples.isEmpty = false := by
    rw [List.isEmpty_eq_false_iff]
    exact hne
  simp only [decryptInto, h.info_eq, EncryptionInfo.decrypt, h.scheme_eq,
    RunningIv.ofBytes_eq h.iv_size, hempty, Bool.false_eq_true, if_false]

/-- Without subsamples the module is called for the payload as a whole. -/
theorem InOrder.decryptInto_whole (h : p.InOrder info scheme) (hnil : info.subsamples = [])
    (m : DecryptionModule σ) (s : σ) (dest : Bytes) :
    p.decryptInto m s dest =
      let reply := m.decrypt s (info.request scheme ⟨RunningIv.widened info.iv, 0⟩ p.data) dest
      ⟨reply.status.toResult info.keyId, reply.dest, reply.state⟩ := by
  simp only [decryptInto, h.info_eq, EncryptionInfo.decrypt, h.scheme_eq,
    RunningIv.ofBytes_eq h.iv_size, hnil, List.isEmpty_nil, if_true]

/-- What is not in order fails for a cause of its own, before anything happens. -/
theorem exists_refusal (p : Packet) (h : ∀ info scheme, ¬p.InOrder info scheme) :
    ∃ e, ∀ {σ : Type} (m : DecryptionModule σ) (s : σ) (dest : Bytes),
      p.decryptInto m s dest = ⟨.error e, dest, s⟩ := by
  unfold decryptInto
  cases hinfo : p.encryptionInfo with
  | error e => exact ⟨e, fun _ _ _ => rfl⟩
  | ok found =>
      cases found with
      | none => exact ⟨.unknown, fun _ _ _ => rfl⟩
      | some info =>
          rcases info.resolved_or_refused with ⟨scheme, hscheme, hiv⟩ | ⟨e, he⟩
          · exact absurd ⟨hinfo, hscheme, hiv⟩ (h info scheme)
          · exact ⟨e, fun m s dest => he m info.subsamples s p.data dest⟩

end

/-- The packet can be decrypted with `key`, which the store holds for it. -/
structure Ready (keys : KeyStore) (p : Packet) (scheme : Scheme) (info : EncryptionInfo)
    (key : Block) : Prop where
  info_eq : p.encryptionInfo = .ok (some info)
  scheme_eq : info.scheme = scheme.code
  pattern_allowed : scheme.allowsPattern = true ∨ info.pattern = .none
  iv_size : info.iv.length = 8 ∨ info.iv.length = 16
  key_held : keys.find? info.keyId = some key
  covers : Covers info.subsamples p.data

/-- Decryption succeeds and yields `out`, in a fresh destination or at the front of any that is
large enough, and leaves the state of the module as it was. -/
structure DecryptsTo {σ : Type} (m : DecryptionModule σ) (p : Packet) (s : σ) (out : Bytes) :
    Prop where
  length_eq : out.length = p.data.length
  toBytes : p.decryptToBytes m s = (.ok out, s)
  into : ∀ dest : Bytes, p.data.length ≤ dest.length →
    p.decryptInto m s dest = ⟨.ok (), out ++ dest.drop p.data.length, s⟩

theorem DecryptsTo.of_into {σ : Type} {m : DecryptionModule σ} {p : Packet} {s : σ} {out : Bytes}
    (hlen : out.length = p.data.length)
    (h : ∀ dest : Bytes, p.data.length ≤ dest.length →
      p.decryptInto m s dest = ⟨.ok (), out ++ dest.drop p.data.length, s⟩) :
    p.DecryptsTo m s out where
  length_eq := hlen
  into := h
  toBytes := by
    have hfresh := h (List.replicate p.data.length 0) (by rw [List.length_replicate])
    rw [List.drop_of_length_le (by rw [List.length_replicate]), List.append_nil] at hfresh
    rw [decryptToBytes, hfresh]
    rfl

variable {keys : KeyStore} {family : Block → BlockCipher} {p : Packet} {scheme : Scheme}
  {info : EncryptionInfo} {key : Block} {log log' : List Refusal} {v v' : RunningIv}
  {run dest : Bytes} {plains : List Bytes}

namespace Ready

theorem inOrder (h : p.Ready keys scheme info key) : p.InOrder info scheme where
  info_eq := h.info_eq
  scheme_eq := by
    rw [h.scheme_eq]
    exact Scheme.resolve_code h.pattern_allowed
  iv_size := h.iv_size

section
variable (family log)

/-- In a chain the store serves any run without an offset. -/
theorem serves_chain (h : p.Ready keys scheme info key) (hmode : scheme.mode = .chaining)
    (hoffset : v.offset = 0) (hadvance : v.advance scheme info.pattern run = .ok v') :
    Serves (keys.toModule family) info scheme log v run
      (KeyStore.decryptChain (family key) v.block (info.request scheme v run)) log v' where
  advance := hadvance
  reply dest hdest := by
    have hplain := KeyStore.plaintext_chain family (r := info.request scheme v run)
      h.key_held rfl hdest.ge hmode hoffset
    simp only [KeyStore.toModule, hplain]
    rw [KeyStore.overwrite_of_length_eq]
    exact (KeyStore.decryptChain_replaces _ _).length_eq.trans hdest.symm

end

theorem decryptInto_nil (h : p.Ready keys scheme info key) (hnil : info.subsamples = []) :
    p.decryptInto (keys.toModule family) log dest = ⟨.ok (), dest, log⟩ := by
  have hdata : p.data = [] := by
    have hc := h.covers
    rw [hnil] at hc
    exact hc.eq_nil
  have hplain : keys.plaintext family (info.request scheme ⟨RunningIv.widened info.iv, 0⟩ [])
      dest.length = .ok [] := by
    cases hmode : scheme.mode with
    | counter =>
        rw [KeyStore.plaintext_counter family (r := info.request scheme _ _) h.key_held rfl
          (Nat.zero_le _) hmode (.inl rfl)]
        exact congrArg _ (List.eq_nil_of_length_eq_zero (KeyStore.length_decryptCounter _ _))
    | chaining =>
        rw [KeyStore.plaintext_chain family (r := info.request scheme _ _) h.key_held rfl
          (Nat.zero_le _) hmode rfl]
        exact congrArg _ (List.eq_nil_of_length_eq_zero
          (KeyStore.decryptChain_replaces _ _).length_eq)
  rw [h.inOrder.decryptInto_whole hnil]
  simp only [hdata, KeyStore.toModule, hplain, Status.toResult, KeyStore.overwrite,
    List.nil_append, List.length_nil, List.drop_zero, List.take_length]

/-- When the store serves all runs, the packet is decrypted: every clear run stays and every
protected one becomes its plaintext. -/
theorem exists_decryptsTo (h : p.Ready keys scheme info key)
    (hs : ServesAll (keys.toModule family) info scheme log ⟨RunningIv.widened info.iv, 0⟩
      (protectedRuns info.subsamples p.data) plains log v') :
    ∃ out, p.DecryptsTo (keys.toModule family) log out ∧
      clearRuns info.subsamples out = clearRuns info.subsamples p.data ∧
      protectedRuns info.subsamples out = plains := by
  refine ⟨rebuild info.subsamples plains p.data,
    .of_into (length_rebuild h.covers hs.sameLengths) ?_,
    clearRuns_rebuild h.covers hs.sameLengths, protectedRuns_rebuild h.covers hs.sameLengths⟩
  intro dest hdest
  by_cases hne : info.subsamples = []
  · have hc := h.covers
    rw [hne] at hc
    rw [h.decryptInto_nil hne, hne, hc.eq_nil]
    rfl
  · rw [h.inOrder.decryptInto_eq hne]
    exact decryptRuns_of_servesAll h.covers hdest hs

end Ready

def infoOfZeros (scheme : Scheme) (pattern : Pattern) (iv : Bytes) (subs : List Subsample) :
    EncryptionInfo :=
  ⟨scheme.code, pattern, Block.zero.toBytes, iv, subs⟩

/-- A payload of zeros with a key identifier of zeros. -/
def ofZeros (scheme : Scheme) (pattern : Pattern) (iv : Bytes) (subs : List Subsample) : Packet :=
  encrypted (List.replicate (subs.map Subsample.size).sum 0) (infoOfZeros scheme pattern iv subs)

def keyOfZeros : KeyStore := KeyStore.empty.insert Block.zero Block.zero

theorem ready_ofZeros (scheme : Scheme) (pattern : Pattern) (iv : Bytes) (subs : List Subsample)
    (hinfo : (ofZeros scheme pattern iv subs).encryptionInfo =
      .ok (some (infoOfZeros scheme pattern iv subs)))
    (hpattern : scheme.allowsPattern = true ∨ pattern = .none)
    (hiv : iv.length = 8 ∨ iv.length = 16) :
    (ofZeros scheme pattern iv subs).Ready keyOfZeros scheme (infoOfZeros scheme pattern iv subs)
      Block.zero where
  info_eq := hinfo
  scheme_eq := rfl
  pattern_allowed := hpattern
  iv_size := hiv
  key_held := show keyOfZeros.find? Block.zero.toBytes = some Block.zero by decide
  covers := List.length_replicate.symm

end Packet

end ProtectedMedia
