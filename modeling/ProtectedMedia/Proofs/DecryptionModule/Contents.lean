import Mathlib.Data.Set.Card
import ProtectedMedia.Proofs.DecryptionModule.Answers

/-!
# What is in a key store

A key store is a map from key identifiers to keys. A key that is added hides an earlier one of the same
identifier and nothing else, and the size is the number of identifiers. Requests are decided by the
key that is found for them, so two stores in which the same keys are found are one module.
-/
namespace ProtectedMedia.KeyStore

variable {keys keys' : KeyStore} {id id' key key' : Block} {keyId : Bytes}

/-! ### Finding keys -/

theorem find?_insert (keys : KeyStore) (id key : Block) (keyId : Bytes) :
    (keys.insert id key).find? keyId =
      if id.toBytes = keyId then some key else keys.find? keyId := by
  rw [find?, insert]
  split_ifs with h
  · rw [List.find?_cons_of_pos (by exact decide_eq_true h)]
    rfl
  · have hkept (e : Block × Block) :
        decide (decide (e.1 ≠ id) = true ∧ decide (e.1.toBytes = keyId) = true) =
          decide (e.1.toBytes = keyId) := by
      have hne (heq : e.1.toBytes = keyId) : e.1 ≠ id := fun hid => h (hid ▸ heq)
      simp only [decide_eq_true_eq, decide_eq_decide]
      exact ⟨And.right, fun heq => ⟨hne heq, heq⟩⟩
    rw [List.find?_cons_of_neg (by simpa using h), List.find?_filter]
    simp only [hkept, find?]

theorem contains_eq_true_iff : keys.contains keyId = true ↔ keys.Holds keyId := by
  rw [contains, Option.isSome_iff_ne_none, ne_eq, find?_eq_none_iff, not_not]

theorem holds_insert : (keys.insert id key).Holds keyId ↔ id.toBytes = keyId ∨ keys.Holds keyId := by
  simp only [← contains_eq_true_iff, contains, find?_insert]
  split_ifs with h
  · exact ⟨fun _ => .inl h, fun _ => rfl⟩
  · exact ⟨.inr, fun hor => hor.resolve_left h⟩

theorem not_holds_empty : ¬empty.Holds keyId := nofun

theorem holds_toBytes_iff : keys.Holds id.toBytes ↔ id ∈ keys.entries.map (·.1) := by
  rw [List.mem_map]
  exact exists_congr fun e => and_congr_right fun _ => ⟨Block.toBytes_inj, congrArg _⟩

/-- The size is the number of key identifiers. -/
theorem size_eq_ncard (keys : KeyStore) : keys.size = {id : Block | keys.Holds id.toBytes}.ncard := by
  have hnodup : (keys.entries.map (·.1)).Nodup := List.pairwise_map.mpr keys.distinct
  have hset : {id : Block | keys.Holds id.toBytes} = ↑(keys.entries.map (·.1)).toFinset := by
    ext id
    rw [Set.mem_ofPred_eq, holds_toBytes_iff, List.coe_toFinset, Set.mem_ofPred_eq]
  rw [hset, Set.ncard_coe_finset, List.toFinset_card_of_nodup hnodup, List.length_map, size]

/-! ### Stores with the same keys -/

/-- The same key is found for every identifier. -/
def Same (keys keys' : KeyStore) : Prop := ∀ keyId, keys.find? keyId = keys'.find? keyId

theorem Same.insert (same : Same keys keys') (id key : Block) :
    Same (keys.insert id key) (keys'.insert id key) := by
  intro keyId
  rw [find?_insert, find?_insert, same keyId]

/-- Keys of different identifiers can be added in either order. -/
theorem same_insert_insert (keys : KeyStore) (hne : id ≠ id') :
    Same ((keys.insert id key).insert id' key') ((keys.insert id' key').insert id key) := by
  intro keyId
  simp only [find?_insert]
  split_ifs with h' h
  · exact absurd (Block.toBytes_inj (h.trans h'.symm)) hne
  all_goals rfl

theorem Same.holds_iff (same : Same keys keys') : keys.Holds keyId ↔ keys'.Holds keyId := by
  rw [← contains_eq_true_iff, ← contains_eq_true_iff, contains, contains, same keyId]

theorem Same.size_eq (same : Same keys keys') : keys.size = keys'.size := by
  simp only [size_eq_ncard, same.holds_iff]

theorem decrypt_congr (family : Block → BlockCipher) (log : List Refusal) {r : Request}
    (dest : Bytes) (h : keys.find? r.keyId = keys'.find? r.keyId) :
    (keys.toModule family).decrypt log r dest = (keys'.toModule family).decrypt log r dest := by
  simp only [toModule, plaintext, h]

theorem Same.toModule_eq (same : Same keys keys') (family : Block → BlockCipher) :
    keys.toModule family = keys'.toModule family := by
  have hdecrypt : (keys.toModule family).decrypt = (keys'.toModule family).decrypt := by
    funext log r dest
    exact decrypt_congr family log dest (same r.keyId)
  cases hm : keys.toModule family with
  | mk decrypt length_dest =>
      cases hm' : keys'.toModule family with
      | mk decrypt' length_dest' =>
          rw [hm, hm'] at hdecrypt
          cases hdecrypt
          rfl

end ProtectedMedia.KeyStore
