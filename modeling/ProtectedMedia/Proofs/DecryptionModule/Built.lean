import ProtectedMedia.Proofs.DecryptionModule.Additions
import ProtectedMedia.Proofs.DecryptionModule.Contents

/-!
# Stores built from additions

The first bad addition decides the error. If there is none, then the last addition for a key identifier
decides the key, every identifier counts once, and additions for different identifiers can be made in
either order.
-/
namespace ProtectedMedia.KeyStore

open Text

variable {keys keys' : KeyStore} {a : Addition} {additions : List Addition} {id id' key key' : Block}
  {e e' : Error}

/-! ### One addition after the other -/

/-- Adding the keys that the additions denote leads from the first store to the second. -/
inductive Makes : KeyStore → List Addition → KeyStore → Prop where
  | nil (keys : KeyStore) : Makes keys [] keys
  | cons {keys keys' : KeyStore} {a : Addition} {additions : List Addition} {id key : Block}
      (ha : a.Denotes id key) (hrest : Makes (keys.insert id key) additions keys') :
      Makes keys (a :: additions) keys'

theorem foldlM_cons_of_denotes (h : a.Denotes id key) :
    (a :: additions).foldlM add keys = additions.foldlM add (keys.insert id key) := by
  rw [List.foldlM_cons, h.add_eq]
  rfl

theorem foldlM_cons_of_faulty (h : a.Faulty e) :
    (a :: additions).foldlM add keys = .error e := by
  rw [List.foldlM_cons, h.add_eq]
  rfl

theorem makes_of_foldlM (h : additions.foldlM add keys = .ok keys') : Makes keys additions keys' := by
  induction additions generalizing keys with
  | nil =>
      cases h
      exact .nil _
  | cons a additions ih =>
      rcases a.good_or_faulty with ⟨id, key, ha⟩ | ⟨e, ha⟩
      · rw [foldlM_cons_of_denotes ha] at h
        exact .cons ha (ih h)
      · rw [foldlM_cons_of_faulty ha] at h
        cases h

theorem Makes.foldlM_eq (h : Makes keys additions keys') :
    additions.foldlM add keys = .ok keys' := by
  induction h with
  | nil => rfl
  | cons ha _ ih => rw [foldlM_cons_of_denotes ha, ih]

theorem exists_makes (h : ∀ a ∈ additions, a.Good) (keys : KeyStore) :
    ∃ keys', Makes keys additions keys' := by
  induction additions generalizing keys with
  | nil => exact ⟨_, .nil _⟩
  | cons a additions ih =>
      obtain ⟨⟨id, key, ha⟩, hrest⟩ := List.forall_mem_cons.mp h
      obtain ⟨keys', hmakes⟩ := ih hrest (keys.insert id key)
      exact ⟨keys', .cons ha hmakes⟩

theorem Makes.good (h : Makes keys additions keys') : ∀ a ∈ additions, a.Good := by
  induction h with
  | nil => exact nofun
  | cons ha _ ih => exact List.forall_mem_cons.mpr ⟨⟨_, _, ha⟩, ih⟩

/-- The first addition that is not good is bad in this way. -/
def FirstFault (additions : List Addition) (e : Error) : Prop :=
  ∃ before a after, additions = before ++ a :: after ∧ (∀ b ∈ before, b.Good) ∧ a.Faulty e

theorem not_firstFault_nil : ¬FirstFault [] e := by
  rintro ⟨before, a, after, hsplit, -⟩
  cases before <;> cases hsplit

theorem firstFault_cons_of_good (ha : a.Good) :
    FirstFault (a :: additions) e ↔ FirstFault additions e := by
  constructor
  · rintro ⟨before, b, after, hsplit, hbefore, hb⟩
    cases before with
    | nil =>
        cases hsplit
        exact absurd hb ha.not_faulty
    | cons _ before =>
        cases hsplit
        exact ⟨before, b, after, rfl, (List.forall_mem_cons.mp hbefore).2, hb⟩
  · rintro ⟨before, b, after, rfl, hbefore, hb⟩
    exact ⟨a :: before, b, after, rfl, List.forall_mem_cons.mpr ⟨ha, hbefore⟩, hb⟩

theorem firstFault_cons_of_faulty (ha : a.Faulty e') : FirstFault (a :: additions) e ↔ e' = e := by
  constructor
  · rintro ⟨before, b, after, hsplit, hbefore, hb⟩
    cases before with
    | nil =>
        cases hsplit
        exact ha.unique hb
    | cons _ before =>
        cases hsplit
        exact absurd ha (List.forall_mem_cons.mp hbefore).1.not_faulty
  · rintro rfl
    exact ⟨[], a, additions, rfl, nofun, ha⟩

/-- Whatever is in the store, the first bad addition decides the error. -/
theorem foldlM_add_eq_error_iff (keys : KeyStore) :
    additions.foldlM add keys = .error e ↔ FirstFault additions e := by
  induction additions generalizing keys with
  | nil => exact ⟨nofun, fun h => absurd h not_firstFault_nil⟩
  | cons a additions ih =>
      rcases a.good_or_faulty with ⟨id, key, ha⟩ | ⟨e', ha⟩
      · rw [foldlM_cons_of_denotes ha, ih, firstFault_cons_of_good ⟨id, key, ha⟩]
      · rw [foldlM_cons_of_faulty ha, firstFault_cons_of_faulty ha]
        exact ⟨Except.error.inj, congrArg _⟩

/-! ### What is in the store -/

theorem Makes.holds_iff (h : Makes keys additions keys') {keyId : Bytes} :
    keys'.Holds keyId ↔
      keys.Holds keyId ∨ ∃ a ∈ additions, ∃ id key, a.Denotes id key ∧ id.toBytes = keyId := by
  induction h with
  | nil keys => exact ⟨.inl, fun h => h.resolve_right nofun⟩
  | @cons keys keys' a additions id key ha _ ih =>
      have hone : (∃ id' key', a.Denotes id' key' ∧ id'.toBytes = keyId) ↔ id.toBytes = keyId := by
        constructor
        · rintro ⟨id', key', ha', hid⟩
          rwa [(ha.unique ha').1]
        · exact fun hid => ⟨id, key, ha, hid⟩
      rw [ih, holds_insert, List.exists_mem_cons_iff, hone, or_assoc, or_left_comm]

theorem Makes.find?_of_absent (h : Makes keys additions keys')
    (habsent : ∀ a ∈ additions, ∀ key, ¬a.Denotes id key) :
    keys'.find? id.toBytes = keys.find? id.toBytes := by
  induction h with
  | nil => rfl
  | @cons keys keys' a additions id' key ha _ ih =>
      obtain ⟨hfirst, hrest⟩ := List.forall_mem_cons.mp habsent
      have hne : id'.toBytes ≠ id.toBytes := fun heq => hfirst key (Block.toBytes_inj heq ▸ ha)
      rw [ih hrest, find?_insert, if_neg hne]

/-- The last addition for a key identifier decides. -/
theorem Makes.find?_last {before after : List Addition} (h : Makes keys (before ++ a :: after) keys')
    (ha : a.Denotes id key) (habsent : ∀ b ∈ after, ∀ key', ¬b.Denotes id key') :
    keys'.find? id.toBytes = some key := by
  induction before generalizing keys with
  | nil =>
      cases h with
      | cons ha' hrest =>
          obtain ⟨rfl, rfl⟩ := ha.unique ha'
          rw [hrest.find?_of_absent habsent, find?_insert, if_pos rfl]
  | cons b before ih =>
      cases h with
      | cons _ hrest => exact ih hrest

/-! ### The order of additions -/

/-- Lists that differ in the order of additions for different key identifiers only. -/
inductive Reordered : List Addition → List Addition → Prop where
  | refl (additions : List Addition) : Reordered additions additions
  | swap {before after : List Addition} {a b : Addition} {id id' key key' : Block}
      (ha : a.Denotes id key) (hb : b.Denotes id' key') (hne : id ≠ id') :
      Reordered (before ++ a :: b :: after) (before ++ b :: a :: after)
  | trans {first second third : List Addition} (h : Reordered first second)
      (h' : Reordered second third) : Reordered first third

theorem Reordered.perm {others : List Addition} (h : Reordered additions others) :
    additions.Perm others := by
  induction h with
  | refl => exact .refl _
  | swap => exact .append_left _ (.swap _ _ _)
  | trans _ _ ih ih' => exact ih.trans ih'

theorem Reordered.firstFault_iff {others : List Addition} (h : Reordered additions others) :
    FirstFault others e ↔ FirstFault additions e := by
  induction h with
  | refl => exact Iff.rfl
  | @swap before after a b id id' key key' ha hb hne =>
      have hagood : a.Good := ⟨id, key, ha⟩
      have hbgood : b.Good := ⟨id', key', hb⟩
      induction before with
      | nil =>
          simp only [List.nil_append, firstFault_cons_of_good hagood, firstFault_cons_of_good hbgood]
      | cons c before ih =>
          rcases c.good_or_faulty with hc | ⟨e', hc⟩
          · simpa only [List.cons_append, firstFault_cons_of_good hc] using ih
          · simp only [List.cons_append, firstFault_cons_of_faulty hc]
  | trans _ _ ih ih' => exact ih'.trans ih

theorem Makes.of_same {other : KeyStore} (h : Makes keys additions keys') (same : Same keys other) :
    ∃ other', Makes other additions other' ∧ Same keys' other' := by
  induction h generalizing other with
  | nil => exact ⟨other, .nil other, same⟩
  | cons ha _ ih =>
      obtain ⟨other', hmakes, hsame⟩ := ih (same.insert _ _)
      exact ⟨other', .cons ha hmakes, hsame⟩

theorem Reordered.makes {others : List Addition} (h : Reordered additions others)
    (hmakes : Makes keys additions keys') : ∃ other', Makes keys others other' ∧ Same keys' other' := by
  induction h generalizing keys keys' with
  | refl => exact ⟨keys', hmakes, fun _ => rfl⟩
  | @swap before after a b id id' key key' ha hb hne =>
      induction before generalizing keys with
      | nil =>
          cases hmakes with
          | cons ha' hrest =>
              cases hrest with
              | cons hb' hrest =>
                  obtain ⟨rfl, rfl⟩ := ha.unique ha'
                  obtain ⟨rfl, rfl⟩ := hb.unique hb'
                  -- Only the order of two entries differs when the rest is added.
                  obtain ⟨other', hmakes, hsame⟩ := hrest.of_same (same_insert_insert keys hne)
                  exact ⟨other', .cons hb (.cons ha hmakes), hsame⟩
      | cons c before ih =>
          cases hmakes with
          | cons hc hrest =>
              obtain ⟨other', hmakes, hsame⟩ := ih hrest
              exact ⟨other', .cons hc hmakes, hsame⟩
  | trans _ _ ih ih' =>
      obtain ⟨second, hsecond, hsame⟩ := ih hmakes
      obtain ⟨third, hthird, hsame'⟩ := ih' hsecond
      exact ⟨third, hthird, fun keyId => (hsame keyId).trans (hsame' keyId)⟩

/-! ### The store that is built -/

theorem Makes.entries_ne_nil (h : Makes keys additions keys') (hne : additions ≠ []) :
    keys'.entries ≠ [] := by
  cases h with
  | nil => exact absurd rfl hne
  | cons ha hrest =>
      have hheld := hrest.holds_iff.mpr (.inl (holds_insert.mpr (.inl rfl)))
      obtain ⟨entry, hentry, -⟩ := hheld
      exact List.ne_nil_of_mem hentry

theorem build_eq_foldlM (hne : additions ≠ []) : build additions = additions.foldlM add empty := by
  rw [build]
  cases hmade : additions.foldlM add empty with
  | error e => rfl
  | ok keys =>
      have hkeys : ¬keys.entries.isEmpty = true := fun hempty =>
        (makes_of_foldlM hmade).entries_ne_nil hne (List.isEmpty_iff.mp hempty)
      change (if keys.entries.isEmpty then _ else _) = _
      rw [if_neg hkeys]
      rfl

theorem build_eq_ok_iff : build additions = .ok keys ↔ additions ≠ [] ∧ Makes empty additions keys := by
  by_cases hne : additions = []
  · subst hne
    exact ⟨nofun, fun h => absurd rfl h.1⟩
  · rw [build_eq_foldlM hne]
    exact ⟨fun h => ⟨hne, makes_of_foldlM h⟩, fun h => h.2.foldlM_eq⟩

theorem build_eq_error_iff : build additions = .error e ↔
    additions = [] ∧ e = .noKeys ∨ FirstFault additions e := by
  by_cases hne : additions = []
  · subst hne
    constructor
    · intro h
      cases h
      exact .inl ⟨rfl, rfl⟩
    · rintro (⟨-, rfl⟩ | h)
      · rfl
      · exact absurd h not_firstFault_nil
  · rw [build_eq_foldlM hne, foldlM_add_eq_error_iff]
    exact ⟨.inr, fun h => h.resolve_left fun hempty => hne hempty.1⟩

theorem build_eq_noKeys_iff : build additions = .error .noKeys ↔ additions = [] := by
  rw [build_eq_error_iff]
  constructor
  · rintro (⟨hempty, -⟩ | ⟨-, a, -, -, -, ha⟩)
    · exact hempty
    · exact absurd ha a.not_faulty_noKeys
  · exact fun hempty => .inl ⟨hempty, rfl⟩

theorem exists_build_eq_ok_iff :
    (∃ keys, build additions = .ok keys) ↔ additions ≠ [] ∧ ∀ a ∈ additions, a.Good := by
  simp only [build_eq_ok_iff, exists_and_left]
  exact and_congr_right fun _ => ⟨fun ⟨_, h⟩ => h.good, fun h => exists_makes h empty⟩

/-- A store holds the key identifiers of the additions that it was built from. -/
theorem holds_of_build (h : build additions = .ok keys) {keyId : Bytes} : keys.Holds keyId ↔
    ∃ a ∈ additions, ∃ id key, a.Denotes id key ∧ id.toBytes = keyId := by
  rw [(build_eq_ok_iff.mp h).2.holds_iff]
  exact or_iff_right not_holds_empty

theorem size_of_build (h : build additions = .ok keys) :
    keys.size = {id : Block | ∃ a ∈ additions, ∃ key, a.Denotes id key}.ncard := by
  rw [size_eq_ncard]
  congr 1
  ext id
  rw [Set.mem_ofPred_eq, Set.mem_ofPred_eq, holds_of_build h]
  refine exists_congr fun a => and_congr_right fun _ => ⟨?_, ?_⟩
  · rintro ⟨id', key, ha, hid⟩
    exact ⟨key, Block.toBytes_inj hid ▸ ha⟩
  · exact fun ⟨key, ha⟩ => ⟨id, key, ha, rfl⟩

theorem find?_of_build {before after : List Addition}
    (h : build (before ++ a :: after) = .ok keys) (ha : a.Denotes id key)
    (hlast : ∀ b ∈ after, ∀ key', ¬b.Denotes id key') : keys.find? id.toBytes = some key :=
  (build_eq_ok_iff.mp h).2.find?_last ha hlast

/-- Requests for the key identifier are decided by the key that was added last. -/
theorem decrypt_of_build {before after : List Addition}
    (h : build (before ++ a :: after) = .ok keys) (ha : a.Denotes id key)
    (hlast : ∀ b ∈ after, ∀ key', ¬b.Denotes id key') (family : Block → BlockCipher)
    (log : List Refusal) {r : Request} (hr : r.keyId = id.toBytes) (dest : Bytes) :
    (keys.toModule family).decrypt log r dest =
      ((empty.insert id key).toModule family).decrypt log r dest := by
  refine decrypt_congr family log dest ?_
  rw [hr, find?_of_build h ha hlast, find?_insert, if_pos rfl]

theorem Reordered.build_eq_ok {others : List Addition} (h : Reordered additions others)
    (hbuild : build additions = .ok keys) : ∃ keys', build others = .ok keys' ∧ Same keys keys' := by
  obtain ⟨hne, hmakes⟩ := build_eq_ok_iff.mp hbuild
  obtain ⟨keys', hmakes', same⟩ := h.makes hmakes
  refine ⟨keys', build_eq_ok_iff.mpr ⟨fun hempty => hne ?_, hmakes'⟩, same⟩
  exact (hempty ▸ h.perm).eq_nil

theorem Reordered.build_eq_error_iff {others : List Addition} (h : Reordered additions others) :
    build others = .error e ↔ build additions = .error e := by
  have hempty : others = [] ↔ additions = [] :=
    ⟨fun hnil => (hnil ▸ h.perm).eq_nil, fun hnil => (hnil ▸ h.perm).symm.eq_nil⟩
  rw [KeyStore.build_eq_error_iff, KeyStore.build_eq_error_iff, hempty, h.firstFault_iff]

/-- A store cannot be built if there are no additions, and else if one is bad; then the first bad one
decides the error. Otherwise the last addition for a key identifier decides the key to decrypt with,
whatever the identifier is spelled like, the identifiers that are held are those of the additions,
and their number is the size. The order of additions for different identifiers does not matter. -/
theorem build_from_additions (additions : List Addition) :
    (∀ e, build additions = .error e ↔ additions = [] ∧ e = .noKeys ∨ FirstFault additions e) ∧
    (build additions = .error .noKeys ↔ additions = []) ∧
    ((∃ keys, build additions = .ok keys) ↔ additions ≠ [] ∧ ∀ a ∈ additions, a.Good) ∧
    (∀ keys, build additions = .ok keys →
      (∀ before a after id key, additions = before ++ a :: after → a.Denotes id key →
        (∀ b ∈ after, ∀ key', ¬b.Denotes id key') → keys.find? id.toBytes = some key ∧
          ∀ family log r dest, r.keyId = id.toBytes →
            (keys.toModule family).decrypt log r dest =
              ((empty.insert id key).toModule family).decrypt log r dest) ∧
      (∀ keyId, keys.contains keyId = true ↔
        ∃ a ∈ additions, ∃ id key, a.Denotes id key ∧ id.toBytes = keyId) ∧
      keys.size = {id : Block | ∃ a ∈ additions, ∃ key, a.Denotes id key}.ncard) ∧
    ∀ others, Reordered additions others →
      (∀ e, build others = .error e ↔ build additions = .error e) ∧
      ∀ keys, build additions = .ok keys → ∃ keys', build others = .ok keys' ∧
        keys'.size = keys.size ∧ ∀ family, keys'.toModule family = keys.toModule family := by
  refine ⟨fun e => build_eq_error_iff, build_eq_noKeys_iff, exists_build_eq_ok_iff, ?_, ?_⟩
  · intro keys h
    refine ⟨?_, fun keyId => ?_, size_of_build h⟩
    · rintro before a after id key rfl ha hlast
      refine ⟨find?_of_build h ha hlast, fun family log r dest hr => ?_⟩
      exact decrypt_of_build h ha hlast family log hr dest
    · rw [contains_eq_true_iff, holds_of_build h]
  · intro others reordered
    refine ⟨fun e => reordered.build_eq_error_iff, fun keys h => ?_⟩
    obtain ⟨keys', hbuild, same⟩ := reordered.build_eq_ok h
    exact ⟨keys', hbuild, same.size_eq.symm, fun family => (same.toModule_eq family).symm⟩

/-- The identifier `00 11 .. ff`. -/
def countedId : Block :=
  ⟨#[0x00, 0x11, 0x22, 0x33, 0x44, 0x55, 0x66, 0x77, 0x88, 0x99, 0xaa, 0xbb, 0xcc, 0xdd, 0xee, 0xff],
    rfl⟩

def constantKey (x : UInt8) : Block := ⟨Array.replicate 16 x, rfl⟩

/-- Two additions for one key identifier. -/
def firstSpellings : List Addition :=
  [.texts "00112233445566778899aabbccddeeff" "11111111111111111111111111111111",
    .blocks countedId (constantKey 0x22)]

/-- A third one, with hyphens, upper case and blanks. -/
def lastSpelling : Addition :=
  .pair " 00112233-4455-6677-8899-AABBCCDDEEFF:\t33333333333333333333333333333333 "

theorem denotes_lastSpelling : lastSpelling.Denotes countedId (constantKey 0x33) := by
  have hcolon : ':' ∉ " 00112233-4455-6677-8899-AABBCCDDEEFF".toList := by decide
  have hid : Spells (trim " 00112233-4455-6677-8899-AABBCCDDEEFF".toList) countedId := by
    decide
  have hkey : Spells (trim "\t33333333333333333333333333333333 ".toList) (constantKey 0x33) := by
    decide
  exact .texts (.pair hcolon rfl (padded_trim _) (padded_trim _) (trimmed_trimWhile isBlank _)
    (trimmed_trimWhile isBlank _)) hid hkey

theorem denotes_spellings :
    ∀ a ∈ firstSpellings ++ [lastSpelling], ∃ key, a.Denotes countedId key := by
  have hfirst : (Addition.texts "00112233445566778899aabbccddeeff"
      "11111111111111111111111111111111").Denotes countedId (constantKey 0x11) :=
    .texts (.texts _ _) (by decide) (by decide)
  exact List.forall_mem_cons.mpr ⟨⟨_, hfirst⟩, List.forall_mem_cons.mpr
    ⟨⟨_, .blocks countedId (constantKey 0x22)⟩, List.forall_mem_singleton.mpr
      ⟨_, denotes_lastSpelling⟩⟩⟩

/-- Three spellings of one key identifier are one key identifier with the key that was given last. -/
theorem build_from_additions_three_spellings :
    ∃ keys, build (firstSpellings ++ [lastSpelling]) = .ok keys ∧ keys.size = 1 ∧
      keys.find? countedId.toBytes = some (constantKey 0x33) := by
  obtain ⟨-, -, hbuilt, hstore, -⟩ := build_from_additions (firstSpellings ++ [lastSpelling])
  obtain ⟨keys, hkeys⟩ := hbuilt.mpr ⟨List.cons_ne_nil _ _, fun a ha =>
    ⟨countedId, denotes_spellings a ha⟩⟩
  obtain ⟨hlast, -, hsize⟩ := hstore keys hkeys
  have hone : {id : Block | ∃ a ∈ firstSpellings ++ [lastSpelling], ∃ key, a.Denotes id key} =
      {countedId} := by
    refine Set.eq_singleton_iff_unique_mem.mpr ⟨?_, ?_⟩
    · exact ⟨lastSpelling, List.mem_append_right _ List.mem_cons_self, _, denotes_lastSpelling⟩
    · rintro id ⟨a, ha, key, hdenotes⟩
      obtain ⟨key', hcounted⟩ := denotes_spellings a ha
      exact (hdenotes.unique hcounted).1
  rw [hone, Set.ncard_singleton] at hsize
  exact ⟨keys, hkeys, hsize, (hlast _ lastSpelling [] _ _ rfl denotes_lastSpelling nofun).1⟩

end ProtectedMedia.KeyStore
