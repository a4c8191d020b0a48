import ProtectedMedia.Proofs.Bytes.Xor
import ProtectedMedia.Proofs.Packet.Account

/-!
# Counter mode adds a mask

What is clear, what is skipped, and which byte of a keystream is added to which byte of the payload
are all settled by sizes. So two payloads of one length that come with the same parameters are
decrypted side by side: both fail with one error, or one mask is added to both. In particular a
second decryption takes the first one back.
-/
namespace ProtectedMedia

theorem RunningIv.advance_congr (iv : RunningIv) {scheme : Scheme} (p : Pattern)
    (hmode : scheme.mode = .counter) {run run' : Bytes} (h : run'.length = run.length) :
    iv.advance scheme p run' = iv.advance scheme p run := by
  unfold advance
  rw [h]
  cases scheme with
  | cenc => rfl
  | cens => rfl
  | cbc1 => cases hmode
  | cbcs => cases hmode

theorem Scheme.mode_of_resolve {code : FourCC} {pattern : Pattern} {scheme : Scheme}
    (hcode : code = Scheme.cenc.code ∨ code = Scheme.cens.code)
    (h : resolve code pattern = .ok scheme) : scheme.mode = .counter := by
  rcases hcode with hcode | hcode
  · rw [(eq_iff_of_resolve h .cenc).mpr hcode]
    rfl
  · rw [(eq_iff_of_resolve h .cens).mpr hcode]
    rfl

/-- Two modules answer requests for one key alike: to data of one length, in counter mode, both add
the same mask, unless both refuse. -/
def DecryptionModule.MasksLike {σ : Type} (m m' : DecryptionModule σ) (keyId : Bytes) : Prop :=
  ∀ (s s' : σ) (r : Request) (data dest dest' : Bytes),
    r.mode = .counter → r.keyId = keyId → data.length = r.data.length →
    dest.length = r.data.length → dest'.length = r.data.length →
      (m.decrypt s r dest).status = (m'.decrypt s' { r with data := data } dest').status ∧
        ((m.decrypt s r dest).status = .success →
          Bytes.SameMask r.data (m.decrypt s r dest).dest data
            (m'.decrypt s' { r with data := data } dest').dest)

/-- Decryptions of two payloads fail with one error, or they succeed and add one mask. -/
structure Decryption.MaskedLike {σ : Type} (payload payload' : Bytes) (d e : Decryption σ) :
    Prop where
  result : d.result = e.result
  dest : d.result = .ok () → Bytes.SameMask payload d.dest payload' e.dest

namespace Decryption.MaskedLike

variable {σ : Type} {d e : Decryption σ}
  {payload payload' rest rest' part part' out out' : Bytes}

theorem of_error {cause : Error} (hd : d.result = .error cause) (he : e.result = .error cause) :
    MaskedLike payload payload' d e where
  result := hd.trans he.symm
  dest hok := by
    rw [hd] at hok
    cases hok

theorem prepend (h : MaskedLike rest rest' d e) (hpart : part ++ rest = payload)
    (hpart' : part' ++ rest' = payload') (hfront : Bytes.SameMask part out part' out') :
    MaskedLike payload payload' { d with dest := out ++ d.dest }
      { e with dest := out' ++ e.dest } where
  result := h.result
  dest hok := by
    rw [← hpart, ← hpart']
    exact hfront.append (h.dest hok)

end Decryption.MaskedLike

/-! ### What a key store makes of data -/

namespace KeyStore
open Bytes

variable {keys keys' : KeyStore} (family : Block → BlockCipher)

theorem masks_decryptCounter (cipher : BlockCipher) (iv : Block) (r : Request) :
    Masks fun data => decryptCounter cipher iv { r with data := data } := by
  have happly : Masks (CounterMode.apply cipher iv r.blockOffset) :=
    ⟨CounterMode.keystream cipher iv r.blockOffset, CounterMode.length_keystream cipher iv _,
      fun _ => rfl⟩
  by_cases hsize : r.pattern.size = 0
  · have hnone := Pattern.eq_none_of_size hsize
    have heq : (fun data => decryptCounter cipher iv { r with data := data }) =
        CounterMode.apply cipher iv r.blockOffset :=
      funext fun _ => decryptCounter_of_none cipher iv hnone
    rw [heq]
    exact happly
  · exact happly.of_replaces r.pattern.length_marks fun data =>
      decryptCounter_replaces cipher iv (r := { r with data := data }) hsize

/-- Whether a request is refused is a matter of its shape. -/
theorem plaintext_masked {r : Request} (hmode : r.mode = .counter)
    (hkeys : keys'.find? r.keyId = keys.find? r.keyId) {data : Bytes}
    (hlen : data.length = r.data.length) :
    (∃ refusal, keys.plaintext family r r.data.length = .error refusal ∧
      keys'.plaintext family { r with data := data } r.data.length = .error refusal) ∨
    ∃ out out', keys.plaintext family r r.data.length = .ok out ∧
      keys'.plaintext family { r with data := data } r.data.length = .ok out' ∧
      SameMask r.data out data out' := by
  unfold plaintext
  simp only [hkeys, hlen, hmode]
  cases keys.find? r.keyId with
  | none => exact .inl ⟨_, rfl, rfl⟩
  | some key =>
      cases Block.ofBytes? r.iv with
      | none => exact .inl ⟨_, rfl, rfl⟩
      | some iv =>
          simp only [lt_irrefl, if_false]
          split_ifs with hrefused
          · exact .inl ⟨_, rfl, rfl⟩
          · exact .inr ⟨_, _, rfl, rfl, (masks_decryptCounter (family key) iv r).sameMask hlen.symm⟩

theorem masksLike_toModule {keyId : Bytes} (hkeys : keys'.find? keyId = keys.find? keyId) :
    (keys.toModule family).MasksLike (keys'.toModule family) keyId := by
  rintro s s' r data dest dest' hmode rfl hlen hd hd'
  simp only [toModule]
  rw [hd, hd']
  rcases plaintext_masked family hmode hkeys hlen with
    ⟨refusal, hrefused, hrefused'⟩ | ⟨out, out', hplain, hplain', hmask⟩
  · rw [hrefused, hrefused']
    refine ⟨rfl, fun hsuccess => ?_⟩
    cases refusal <;> cases hsuccess
  · have hout := (length_plaintext hplain).trans hd.symm
    have hout' := (length_plaintext hplain').trans (hlen.trans hd'.symm)
    simp only [hplain, hplain', overwrite_of_length_eq hout, overwrite_of_length_eq hout']
    exact ⟨trivial, fun _ => hmask⟩

end KeyStore

/-! ### The walk over two payloads -/

namespace EncryptionInfo
open Subsample Bytes

variable {σ : Type} {m m' : DecryptionModule σ} {info : EncryptionInfo} {scheme : Scheme}
  {iv : RunningIv} {s s' : σ} {sub : Subsample} {subs : List Subsample}
  {payload payload' dest dest' : Bytes}

theorem verdict_congr (hmode : scheme.mode = .counter) {run run' : Bytes}
    (h : run'.length = run.length) (status : Status) :
    info.verdict scheme iv run' status = info.verdict scheme iv run status := by
  rw [verdict, verdict, iv.advance_congr info.pattern hmode h]

section
variable (hm : m.MasksLike m' info.keyId) (hmode : scheme.mode = .counter)
include hm hmode

/-- The walks stop at the same run or get over it with the same mask. -/
theorem decryptRuns_cons_maskedLike (hs : sub.size ≤ payload.length) (h0 : sub.protectedBytes ≠ 0)
    (hp : payload'.length = payload.length) (hd : dest.length = payload.length)
    (hd' : dest'.length = payload'.length)
    (hrest : ∀ iv s s', (decryptRuns m info scheme subs iv s (payload.drop sub.size)
        (dest.drop sub.size)).MaskedLike (payload.drop sub.size) (payload'.drop sub.size)
      (decryptRuns m' info scheme subs iv s' (payload'.drop sub.size) (dest'.drop sub.size))) :
    (decryptRuns m info scheme (sub :: subs) iv s payload dest).MaskedLike payload payload'
      (decryptRuns m' info scheme (sub :: subs) iv s' payload' dest') := by
  have hs' : sub.size ≤ payload'.length := hs.trans hp.ge
  have hclear : (payload.take sub.clearBytes.toNat).length =
      (payload'.take sub.clearBytes.toNat).length := by
    rw [length_clearPart hs, length_clearPart hs']
  have hrun : (sub.protectedPart payload').length = (sub.protectedPart payload).length := by
    rw [length_protectedPart hs, length_protectedPart hs']
  obtain ⟨hstatus, hmask⟩ := hm s s' (info.request scheme iv (sub.protectedPart payload))
    (sub.protectedPart payload') _ _ hmode rfl hrun (length_take_dest hs hd.ge)
    ((length_take_dest hs' hd'.ge).trans hrun)
  have hverdict : info.verdict scheme iv (sub.protectedPart payload') (m'.decrypt s'
      (info.request scheme iv (sub.protectedPart payload')) (sub.protectedPart dest')).status =
      info.verdict scheme iv (sub.protectedPart payload) (m.decrypt s
        (info.request scheme iv (sub.protectedPart payload)) (sub.protectedPart dest)).status := by
    rw [verdict_congr hmode hrun, hstatus]
    rfl
  cases hv : info.verdict scheme iv (sub.protectedPart payload) (m.decrypt s
      (info.request scheme iv (sub.protectedPart payload)) (sub.protectedPart dest)).status with
  | error e =>
      rw [decryptRuns_cons_stopped hs h0 rfl hv,
        decryptRuns_cons_stopped hs' h0 rfl (hverdict.trans hv)]
      exact .of_error rfl rfl
  | ok iv' =>
      rw [decryptRuns_cons_passed hs h0 rfl hv,
        decryptRuns_cons_passed hs' h0 rfl (hverdict.trans hv)]
      exact (hrest iv' _ _).prepend (sub.append_parts payload) (sub.append_parts payload')
        ((SameMask.refl hclear).append (hmask (verdict_eq_ok_iff.mp hv).1))

theorem decryptRuns_maskedLike (subs : List Subsample) (iv : RunningIv) (s s' : σ)
    (hp : payload'.length = payload.length) (hd : dest.length = payload.length)
    (hd' : dest'.length = payload'.length) :
    (decryptRuns m info scheme subs iv s payload dest).MaskedLike payload payload'
      (decryptRuns m' info scheme subs iv s' payload' dest') := by
  -- the walks share the vector in front of every run; modules, states and bytes are their own
  induction subs generalizing iv s s' payload payload' dest dest' with
  | nil =>
      cases payload with
      | nil =>
          obtain rfl : payload' = [] := List.eq_nil_of_length_eq_zero hp
          obtain rfl : dest = [] := List.eq_nil_of_length_eq_zero hd
          obtain rfl : dest' = [] := List.eq_nil_of_length_eq_zero hd'
          exact ⟨rfl, fun _ => .refl rfl⟩
      | cons x payload =>
          obtain ⟨y, rest, rfl⟩ := List.exists_cons_of_length_eq_add_one hp
          exact .of_error rfl rfl
  | cons sub subs ih =>
      by_cases hs : sub.size ≤ payload.length
      · have hrest (iv : RunningIv) (s s' : σ) := ih iv s s' (length_drop_eq hp sub.size)
          (length_drop_eq hd sub.size) (length_drop_eq hd' sub.size)
        by_cases h0 : sub.protectedBytes = 0
        · have hs' : sub.size ≤ payload'.length := hs.trans hp.ge
          rw [decryptRuns_cons_empty hs h0, decryptRuns_cons_empty hs' h0]
          refine (hrest iv s s').prepend ?_ ?_ (.refl ?_)
          · rw [size_of_empty h0, List.take_append_drop]
          · rw [size_of_empty h0, List.take_append_drop]
          · rw [length_clearPart hs, length_clearPart hs']
        · exact decryptRuns_cons_maskedLike hm hmode hs h0 hp hd hd' hrest
      · rw [decryptRuns_cons_tooLong (by omega), decryptRuns_cons_tooLong (by omega)]
        exact .of_error rfl rfl

end

theorem decrypt_maskedLike (hm : m.MasksLike m' info.keyId)
    (hcode : info.scheme = Scheme.cenc.code ∨ info.scheme = Scheme.cens.code) (s s' : σ)
    (hp : payload'.length = payload.length) (hd : dest.length = payload.length)
    (hd' : dest'.length = payload'.length) :
    (info.decrypt m s payload dest).MaskedLike payload payload'
      (info.decrypt m' s' payload' dest') := by
  unfold decrypt
  cases hscheme : Scheme.resolve info.scheme info.pattern with
  | error e => exact .of_error rfl rfl
  | ok scheme =>
      have hmode := Scheme.mode_of_resolve hcode hscheme
      cases RunningIv.ofBytes info.iv with
      | error e => exact .of_error rfl rfl
      | ok iv =>
          dsimp only
          split_ifs
          · obtain ⟨hstatus, hmask⟩ := hm s s' (info.request scheme iv payload) payload' dest dest'
              hmode rfl hp hd (hd'.trans hp)
            exact ⟨congrArg (Status.toResult info.keyId) hstatus, fun hok =>
              hmask ((Status.toResult_eq_ok_iff info.keyId _).mp hok)⟩
          · exact decryptRuns_maskedLike hm hmode info.subsamples iv s s' hp hd hd'

end EncryptionInfo

namespace Packet
open Bytes

variable {p q : Packet} {info : EncryptionInfo}

theorem length_of_decryptToBytes {σ : Type} {m : DecryptionModule σ} {s : σ} {out : Bytes}
    (h : (p.decryptToBytes m s).1 = .ok out) : out.length = p.data.length := by
  have hfresh : (List.replicate p.data.length (0 : UInt8)).length = p.data.length :=
    List.length_replicate
  have hdest := length_dest_decryptInto (m := m) (s := s) hfresh.ge
  rw [decryptToBytes] at h
  cases hresult : (p.decryptInto m s (List.replicate p.data.length 0)).result with
  | error e =>
      rw [hresult] at h
      cases h
  | ok _ =>
      rw [hresult] at h
      cases h
      exact hdest.trans hfresh

theorem encryptionInfo_congr (h : q.sideData = p.sideData) :
    q.encryptionInfo = p.encryptionInfo := by
  rw [encryptionInfo, sideData?, h, ← sideData?, ← encryptionInfo]

/-- Of two packets with the same side data and payloads of one length both fail with one error, or
one mask leads to both results. -/
theorem decryptToBytes_masked {σ : Type} {m m' : DecryptionModule σ}
    (hinfo : p.encryptionInfo = .ok (some info))
    (hcode : info.scheme = Scheme.cenc.code ∨ info.scheme = Scheme.cens.code)
    (hm : m.MasksLike m' info.keyId) (hside : q.sideData = p.sideData)
    (hlen : q.data.length = p.data.length) (s s' : σ) :
    (∃ e, (p.decryptToBytes m s).1 = .error e ∧ (q.decryptToBytes m' s').1 = .error e) ∨
    ∃ out out', (p.decryptToBytes m s).1 = .ok out ∧ (q.decryptToBytes m' s').1 = .ok out' ∧
      SameMask p.data out q.data out' := by
  have hinfo' := (encryptionInfo_congr hside).trans hinfo
  have hmasked := EncryptionInfo.decrypt_maskedLike hm hcode s s' hlen
    (List.length_replicate (n := p.data.length) (a := (0 : UInt8)))
    (List.length_replicate (n := q.data.length) (a := (0 : UInt8)))
  simp only [decryptToBytes, decryptInto, hinfo, hinfo', ← hmasked.result]
  cases hresult : (info.decrypt m s p.data (List.replicate p.data.length 0)).result with
  | error e => exact .inl ⟨e, rfl, rfl⟩
  | ok _ => exact .inr ⟨_, _, rfl, rfl, hmasked.dest hresult⟩

/-- In counter mode decryption takes itself back. The side data, the length of the payload and the
key that is held for the packet decide whether it succeeds and with what error it fails, and which
mask is added to the payload. -/
theorem counter_mode_masks {keys : KeyStore} (family : Block → BlockCipher) (log : List Refusal)
    (hinfo : p.encryptionInfo = .ok (some info))
    (hcode : info.scheme = Scheme.cenc.code ∨ info.scheme = Scheme.cens.code) :
    (∀ out, (p.decryptToBytes (keys.toModule family) log).1 = .ok out →
      ∀ log', (({ p with data := out } : Packet).decryptToBytes (keys.toModule family) log').1 =
        .ok p.data) ∧
    ∃ answer : Except Error Bytes, (∀ mask, answer = .ok mask → mask.length = p.data.length) ∧
      ∀ (q : Packet) (keys' : KeyStore) (log' : List Refusal), q.sideData = p.sideData →
        q.data.length = p.data.length → keys'.find? info.keyId = keys.find? info.keyId →
          (q.decryptToBytes (keys'.toModule family) log').1 = answer.map (xor q.data) := by
  have hmasked (q : Packet) (keys' : KeyStore) (log' : List Refusal)
      (hkeys : keys'.find? info.keyId = keys.find? info.keyId) (hside : q.sideData = p.sideData)
      (hlen : q.data.length = p.data.length) :=
    decryptToBytes_masked hinfo hcode (KeyStore.masksLike_toModule family hkeys) hside hlen log log'
  constructor
  · intro out hout log'
    rcases hmasked { p with data := out } keys log' rfl rfl (length_of_decryptToBytes hout) with
      ⟨e, he, -⟩ | ⟨_, out', hok, hout', hmask⟩
    · rw [hout] at he
      cases he
    · rw [hout] at hok
      cases hok
      rw [hout', hmask.eq_of_twice]
  · refine ⟨(p.decryptToBytes (keys.toModule family) log).1.map (xor p.data), ?_, ?_⟩
    · intro mask hmask
      cases hout : (p.decryptToBytes (keys.toModule family) log).1 with
      | error e =>
          rw [hout] at hmask
          cases hmask
      | ok out =>
          rw [hout] at hmask
          cases hmask
          rw [length_xor, length_of_decryptToBytes hout, Nat.min_self]
    · intro q keys' log' hside hlen hkeys
      rcases hmasked q keys' log' hkeys hside hlen with
        ⟨e, he, he'⟩ | ⟨_, _, hout, hout', mask, hmask, -, rfl, rfl⟩
      · rw [he, he']
        rfl
      · rw [hout, hout']
        exact congrArg (fun mask => Except.ok (xor q.data mask)) (xor_cancel_left hmask).symm

/-- A cipher that changes nothing makes the widened vector the mask, here of two runs. -/
theorem counter_mode_masks_two_runs :
    (({ ofZeros .cenc .none (List.replicate 8 7) [⟨1, 5⟩, ⟨2, 11⟩] with
        data := [0, 7, 7, 7, 7, 7, 0, 0, 7, 7, 7, 0, 0, 0, 0, 0, 0, 0, 0] } : Packet).decryptToBytes
      (keyOfZeros.toModule fun _ => ⟨id, id⟩) []).1 = .ok (List.replicate 19 0) := by
  have hinfo : (ofZeros .cenc .none (List.replicate 8 7) [⟨1, 5⟩, ⟨2, 11⟩]).encryptionInfo =
      .ok (some (infoOfZeros .cenc .none (List.replicate 8 7) [⟨1, 5⟩, ⟨2, 11⟩])) := rfl
  exact (counter_mode_masks (fun _ => ⟨id, id⟩) [] hinfo (.inl rfl)).1 _ (by decide) []

end Packet

end ProtectedMedia
