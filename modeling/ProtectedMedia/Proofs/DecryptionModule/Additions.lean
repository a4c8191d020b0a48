import ProtectedMedia.Proofs.DecryptionModule.KeyText
import ProtectedMedia.Proofs.Text.Spelling

/-!
# What an addition is

An addition denotes a key identifier and a key, however the two are given and spelled, or it is bad in
one way. Hyphens and the case of digits count for nothing, and in a pair neither do blanks around its
halves. A good addition inserts what it denotes into any store, and a bad one fails with its error.
-/
namespace ProtectedMedia.KeyStore

open Text

/-! ### What an addition denotes -/

/-- The text consists of the digits of the block, in either case and with any hyphens. -/
def Spells (text : List Char) (x : Block) : Prop :=
  lower (Block.undashed text) = (Hex.encode x.toBytes).toList

instance (text : List Char) (x : Block) : Decidable (Spells text x) :=
  inferInstanceAs (Decidable (lower (Block.undashed text) = (Hex.encode x.toBytes).toList))

/-- The two texts that an addition consists of. A pair is divided by its first colon, and blanks around
its halves do not belong to them. -/
inductive Addition.Gives : Addition → List Char → List Char → Prop where
  | texts (idText keyText : String) : Gives (.texts idText keyText) idText.toList keyText.toList
  | pair {text : String} {before after idText keyText : List Char} (hbefore : ':' ∉ before)
      (htext : text.toList = before ++ ':' :: after) (hid : Padded idText before)
      (hkey : Padded keyText after) (hid' : Trimmed isBlank idText)
      (hkey' : Trimmed isBlank keyText) : Gives (.pair text) idText keyText

/-- The addition gives this key to this key identifier. -/
inductive Addition.Denotes : Addition → Block → Block → Prop where
  | texts {a : Addition} {idText keyText : List Char} {id key : Block} (h : a.Gives idText keyText)
      (hid : Spells idText id) (hkey : Spells keyText key) : Denotes a id key
  | blocks (id key : Block) : Denotes (.blocks id key) id key

/-- What is wrong with an addition. The key is looked at only if the key identifier is good. -/
inductive Addition.Faulty : Addition → Error → Prop where
  | keyId {a : Addition} {idText keyText : List Char} {e : Error} (h : a.Gives idText keyText)
      (hid : Block.ofText idText = .error e) : Faulty a e
  | key {a : Addition} {idText keyText : List Char} {id : Block} {e : Error}
      (h : a.Gives idText keyText) (hid : Spells idText id)
      (hkey : Block.ofText keyText = .error e) : Faulty a e
  | undivided {text : String} (hcolon : ':' ∉ text.toList) : Faulty (.pair text) (.keyPair text)

def Addition.Good (a : Addition) : Prop := ∃ id key, a.Denotes id key

variable {a : Addition} {idText keyText text : List Char} {x id id' key key' : Block} {e e' : Error}

/-! ### Two texts -/

theorem ofText_eq_ok_iff_spells : Block.ofText text = .ok x ↔ Spells text x :=
  Block.ofText_eq_ok_iff_spells

theorem addTexts_of_spells (keys : KeyStore) (hid : Spells idText id) (hkey : Spells keyText key) :
    keys.addTexts idText keyText = .ok (keys.insert id key) := by
  rw [addTexts, ofText_eq_ok_iff_spells.mpr hid, ofText_eq_ok_iff_spells.mpr hkey]
  rfl

theorem addTexts_of_keyId (keys : KeyStore) (h : Block.ofText idText = .error e) :
    keys.addTexts idText keyText = .error e := by
  rw [addTexts, h]
  rfl

theorem addTexts_of_key (keys : KeyStore) (hid : Spells idText id)
    (h : Block.ofText keyText = .error e) : keys.addTexts idText keyText = .error e := by
  rw [addTexts, ofText_eq_ok_iff_spells.mpr hid, h]
  rfl

theorem Addition.Gives.add_eq (h : a.Gives idText keyText) (keys : KeyStore) :
    keys.add a = keys.addTexts idText keyText := by
  cases h with
  | texts => rfl
  | pair hbefore htext hid hkey hid' hkey' =>
      have hidText := hid.trim_eq.trans hid'.trimWhile_eq
      have hkeyText := hkey.trim_eq.trans hkey'.trimWhile_eq
      simp only [add, splitOnce?_eq_some_iff.mpr ⟨hbefore, htext⟩, hidText, hkeyText]

theorem exists_gives_pair {text : String} (h : ':' ∈ text.toList) :
    ∃ idText keyText, (Addition.pair text).Gives idText keyText := by
  obtain ⟨before, after, htext, hbefore⟩ := List.eq_append_cons_of_mem h
  exact ⟨_, _, .pair hbefore htext (padded_trim before) (padded_trim after)
    (trimmed_trimWhile isBlank before) (trimmed_trimWhile isBlank after)⟩

theorem Addition.Gives.good_or_faulty (h : a.Gives idText keyText) : a.Good ∨ ∃ e, a.Faulty e := by
  cases hid : Block.ofText idText with
  | error e => exact .inr ⟨e, .keyId h hid⟩
  | ok id =>
      rw [ofText_eq_ok_iff_spells] at hid
      cases hkey : Block.ofText keyText with
      | error e => exact .inr ⟨e, .key h hid hkey⟩
      | ok key => exact .inl ⟨id, key, .texts h hid (ofText_eq_ok_iff_spells.mp hkey)⟩

/-! ### One addition -/

theorem Addition.Denotes.add_eq (h : a.Denotes id key) (keys : KeyStore) :
    keys.add a = .ok (keys.insert id key) := by
  cases h with
  | texts h hid hkey => rw [h.add_eq, addTexts_of_spells keys hid hkey]
  | blocks => rfl

theorem Addition.Faulty.add_eq (h : a.Faulty e) (keys : KeyStore) : keys.add a = .error e := by
  cases h with
  | keyId h hid => rw [h.add_eq, addTexts_of_keyId keys hid]
  | key h hid hkey => rw [h.add_eq, addTexts_of_key keys hid hkey]
  | @undivided text hcolon =>
      cases hsplit : splitOnce? ':' text.toList with
      | none => simp only [add, hsplit]
      | some halves =>
          obtain ⟨-, htext⟩ := splitOnce?_eq_some_iff.mp hsplit
          exact absurd (htext ▸ List.mem_append_right _ List.mem_cons_self) hcolon

theorem Addition.good_or_faulty (a : Addition) : a.Good ∨ ∃ e, a.Faulty e := by
  cases a with
  | texts idText keyText => exact (Gives.texts idText keyText).good_or_faulty
  | pair text =>
      by_cases hcolon : ':' ∈ text.toList
      · obtain ⟨idText, keyText, h⟩ := exists_gives_pair hcolon
        exact h.good_or_faulty
      · exact .inr ⟨_, .undivided hcolon⟩
  | blocks id key => exact .inl ⟨id, key, .blocks id key⟩

theorem Addition.Denotes.unique (h : a.Denotes id key) (h' : a.Denotes id' key') :
    id = id' ∧ key = key' := by
  have hinsert : empty.insert id key = empty.insert id' key' :=
    Except.ok.inj ((h.add_eq empty).symm.trans (h'.add_eq empty))
  have hentry : [(id, key)] = [(id', key')] := congrArg KeyStore.entries hinsert
  cases hentry
  exact ⟨rfl, rfl⟩

theorem Addition.Faulty.unique (h : a.Faulty e) (h' : a.Faulty e') : e = e' :=
  Except.error.inj ((h.add_eq empty).symm.trans (h'.add_eq empty))

theorem Addition.Good.not_faulty (h : a.Good) : ¬a.Faulty e := by
  obtain ⟨id, key, h⟩ := h
  intro h'
  have hboth := (h.add_eq empty).symm.trans (h'.add_eq empty)
  cases hboth

theorem ofText_ne_noKeys : Block.ofText text ≠ .error .noKeys := by
  intro h
  rw [Block.ofText] at h
  split at h
  · cases h
  · split at h <;> cases h

theorem Addition.not_faulty_noKeys : ¬a.Faulty .noKeys := by
  intro h
  cases h with
  | keyId _ h => exact ofText_ne_noKeys h
  | key _ _ h => exact ofText_ne_noKeys h

end ProtectedMedia.KeyStore
