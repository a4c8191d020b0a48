import Mathlib.Data.List.Perm.Basic
import Mathlib.Logic.Relation
import ProtectedMedia.Proofs.Media.ContentType
import ProtectedMedia.Proofs.Text.Spelling

/-!
# Other ways to write a media type

A media type is read piece by piece, the pieces being what stands between its semicolons: the names
first, then the parameters. What a parameter says does not depend on the others, and of the codecs
that are named the last one counts. So blanks around names, keys and values, parameters that say
nothing, and the order of parameters that name one codec at most make no difference, and letter case
makes none but in the codec.
-/
namespace ProtectedMedia.ContentType

open Text

variable {stream : StreamType}

/-! ### Pieces -/

/-- Reads a media type that has been cut at its semicolons. -/
def ofPieces? : List (List Char) → Option ContentType
  | [] => none
  | first :: parameters => do
    let (stream, container) ← essence? first
    let codec ← parameters.foldlM (parameter? stream) none
    return ⟨stream, container, codec.map String.ofList⟩

theorem parse?_eq_ofPieces? (mime : String) :
    parse? mime = ofPieces? (splitAll ';' mime.toList) := by
  rw [parse?]
  cases splitAll ';' mime.toList <;> rfl

theorem ofPieces?_congr {first first' : List Char} {parameters parameters' : List (List Char)}
    (hfirst : essence? first = essence? first')
    (hparameters : ∀ stream, parameters.foldlM (parameter? stream) none =
      parameters'.foldlM (parameter? stream) none) :
    ofPieces? (first :: parameters) = ofPieces? (first' :: parameters') := by
  simp only [ofPieces?, hfirst, hparameters]

/-! ### What a parameter says -/

/-- Whether a parameter names codecs. -/
def isCodecs (text : List Char) : Bool :=
  (splitOnce? '=' text).any fun cut => lower (trim cut.1) = "codecs".toList

/-- The codec that a parameter names. -/
def said (stream : StreamType) (text : List Char) : Option (List Char) :=
  (parameter? stream none text).join

/-- A parameter is read by itself, and what it says counts before what was said so far. -/
theorem parameter?_eq_map (named : Option (List Char)) (text : List Char) :
    parameter? stream named text = (parameter? stream none text).map (·.or named) := by
  rw [parameter?, parameter?]
  cases splitOnce? '=' text with
  | none => cases text.all isBlank <;> rfl
  | some cut =>
      dsimp only
      split
      · cases singleCodec? stream cut.2 <;> rfl
      · rfl

theorem said_of_not_codecs {text : List Char} (h : isCodecs text = false) :
    said stream text = none := by
  rw [isCodecs] at h
  rw [said, parameter?]
  cases hcut : splitOnce? '=' text with
  | none => cases text.all isBlank <;> rfl
  | some cut =>
      rw [hcut, Option.any_some] at h
      have hkey : ¬lower (trim cut.1) = "codecs".toList := of_decide_eq_false h
      simp only [if_neg hkey, Option.join_some]

theorem parameter?_of_blank {text : List Char} (h : text.all isBlank) :
    parameter? stream none text = some none := by
  have hnone : '=' ∉ text := fun hmem => by
    have := List.all_eq_true.mp h _ hmem
    exact absurd this (by decide)
  have hcut : splitOnce? '=' text = none := by
    cases hcut : splitOnce? '=' text with
    | none => rfl
    | some cut =>
        rw [(splitOnce?_eq_some_iff.mp hcut).2] at hnone
        simp at hnone
  rw [parameter?, hcut]
  exact if_pos h

theorem parameter?_of_other {key value : List Char} (hkey : '=' ∉ key)
    (hother : lower (trim key) ≠ "codecs".toList) :
    parameter? stream none (key ++ '=' :: value) = some none := by
  rw [parameter?, splitOnce?_append_cons hkey]
  exact if_neg hother

/-- Parameters are read just when each of them is, and the last codec that is named counts. -/
theorem foldlM_parameter?_eq_some_iff {parameters : List (List Char)}
    {named codec : Option (List Char)} :
    parameters.foldlM (parameter? stream) named = some codec ↔
      (∀ text ∈ parameters, (parameter? stream none text).isSome) ∧
        codec = (parameters.filterMap (said stream)).getLast?.or named := by
  induction parameters generalizing named with
  | nil =>
      rw [List.foldlM_nil, List.filterMap_nil, List.getLast?_nil, Option.none_or, Option.pure_def,
        Option.some.injEq]
      exact ⟨fun h => ⟨nofun, h.symm⟩, fun h => h.2.symm⟩
  | cons text parameters ih =>
      rw [List.foldlM_cons, parameter?_eq_map, List.forall_mem_cons]
      cases htext : parameter? stream none text with
      | none => simp
      | some codec' =>
          have hsaid : said stream text = codec' := by rw [said, htext, Option.join_some]
          rw [Option.map_some, Option.bind_eq_bind, Option.bind_some, ih]
          have hlast : ((text :: parameters).filterMap (said stream)).getLast? =
              (parameters.filterMap (said stream)).getLast?.or codec' := by
            cases codec' with
            | none => rw [List.filterMap_cons_none hsaid, Option.or_none]
            | some codec' =>
                rw [List.filterMap_cons_some hsaid, List.getLast?_cons]
                cases (parameters.filterMap (said stream)).getLast? <;> rfl
          rw [hlast, Option.or_assoc]
          simp

/-! ### Changes to the pieces -/

/-- A change to the pieces of a media type that leaves alone what it says. -/
inductive Rewords : List (List Char) → List (List Char) → Prop
  | padEssence {first first' : List Char} (parameters : List (List Char))
      (h : Padded first first') : Rewords (first :: parameters) (first' :: parameters)
  | padParameter (first : List Char) (before after : List (List Char))
      {key key' value value' : List Char} (hkey : '=' ∉ key) (h : Padded key key')
      (h' : Padded value value') :
      Rewords (first :: (before ++ (key ++ '=' :: value) :: after))
        (first :: (before ++ (key' ++ '=' :: value') :: after))
  | addBlank (first : List Char) (before after : List (List Char)) (blank : List Char)
      (h : blank.all isBlank) :
      Rewords (first :: (before ++ after)) (first :: (before ++ blank :: after))
  | addOther (first : List Char) (before after : List (List Char)) (key value : List Char)
      (hkey : '=' ∉ key) (hother : lower (trim key) ≠ "codecs".toList) :
      Rewords (first :: (before ++ after))
        (first :: (before ++ (key ++ '=' :: value) :: after))
  | reorder (first : List Char) {parameters parameters' : List (List Char)}
      (h : parameters.Perm parameters') (hone : parameters.countP isCodecs ≤ 1) :
      Rewords (first :: parameters) (first :: parameters')

theorem essence?_padded {first first' : List Char} (h : Padded first first') :
    essence? first' = essence? first := by
  rw [essence?, essence?, h.trim_eq]

theorem parameter?_padded {key key' value value' : List Char} (hkey : '=' ∉ key)
    (h : Padded key key') (h' : Padded value value') (named : Option (List Char)) :
    parameter? stream named (key' ++ '=' :: value') =
      parameter? stream named (key ++ '=' :: value) := by
  have hkey' : '=' ∉ key' := h.notMem (by decide) hkey
  simp only [parameter?, splitOnce?_append_cons hkey, splitOnce?_append_cons hkey', h.trim_eq,
    singleCodec?, codecs, h'.trim_eq]

/-- A parameter that says nothing may stand anywhere. -/
theorem foldlM_insert {text : List Char} (h : parameter? stream none text = some none)
    (before after : List (List Char)) (named : Option (List Char)) :
    (before ++ text :: after).foldlM (parameter? stream) named =
      (before ++ after).foldlM (parameter? stream) named := by
  have htext : ∀ codec, parameter? stream codec text = some codec := by
    intro codec
    rw [parameter?_eq_map, h, Option.map_some, Option.none_or]
  simp only [List.foldlM_append, List.foldlM_cons, htext, Option.bind_eq_bind, Option.bind_some]

theorem length_filterMap_said_le (stream : StreamType) (parameters : List (List Char)) :
    (parameters.filterMap (said stream)).length ≤ parameters.countP isCodecs := by
  rw [List.length_filterMap_eq_countP]
  refine List.countP_mono_left fun text _ hsaid => ?_
  cases hcodecs : isCodecs text with
  | true => rfl
  | false =>
      rw [said_of_not_codecs hcodecs] at hsaid
      cases hsaid

/-- Whether parameters are read never depends on their order, and what they name does not if there
is no choice. -/
theorem foldlM_perm {parameters parameters' : List (List Char)} (h : parameters.Perm parameters')
    (hone : parameters.countP isCodecs ≤ 1) (named : Option (List Char)) :
    parameters.foldlM (parameter? stream) named =
      parameters'.foldlM (parameter? stream) named := by
  have hsaid : parameters.filterMap (said stream) = parameters'.filterMap (said stream) := by
    have hlength := (length_filterMap_said_le stream parameters).trans hone
    have hperm := h.filterMap (said stream)
    match hall : parameters.filterMap (said stream), hlength with
    | [], _ =>
        rw [hall] at hperm
        exact hperm.nil_eq
    | [codec], _ =>
        rw [hall] at hperm
        exact List.singleton_perm.mp hperm
  refine Option.ext fun codec => ?_
  rw [foldlM_parameter?_eq_some_iff, foldlM_parameter?_eq_some_iff, hsaid]
  exact and_congr_left fun _ => forall_congr' fun text => imp_congr_left h.mem_iff

/-- None of the changes makes a difference to what is read. -/
theorem Rewords.ofPieces?_eq {pieces pieces' : List (List Char)} (h : Rewords pieces pieces') :
    ofPieces? pieces = ofPieces? pieces' := by
  cases h with
  | padEssence parameters h => exact ofPieces?_congr (essence?_padded h).symm fun _ => rfl
  | padParameter first before after hkey h h' =>
      refine ofPieces?_congr rfl fun stream => ?_
      simp only [List.foldlM_append, List.foldlM_cons, parameter?_padded hkey h h']
  | addBlank first before after blank h =>
      exact ofPieces?_congr rfl fun stream =>
        (foldlM_insert (parameter?_of_blank h) before after none).symm
  | addOther first before after key value hkey hother =>
      exact ofPieces?_congr rfl fun stream =>
        (foldlM_insert (parameter?_of_other hkey hother) before after none).symm
  | reorder first h hone => exact ofPieces?_congr rfl fun stream => foldlM_perm h hone none

/-! ### Letter case -/

/-- The codec in lower case. -/
def folded (t : ContentType) : ContentType :=
  { t with codec := t.codec.map fun codec => String.ofList (lower codec.toList) }

theorem essence?_lower (text : List Char) : essence? (lower text) = essence? text := by
  rw [essence?, essence?, trim_lower, lower_lower]

theorem codecStream?_lower (codec : List Char) :
    codecStream? (lower codec) = codecStream? codec := by
  rw [codecStream?, codecStream?, takeWhile_lower (by decide), lower_lower]

theorem codecs_lower (value : List Char) : codecs (lower value) = (codecs value).map lower := by
  have hquote : ∀ x : Char, decide (x.toLower = '"') = decide (x = '"') := fun x =>
    decide_eq_decide.mpr (toLower_eq_iff (by decide) x)
  have htrim : trim ∘ lower = lower ∘ trim := funext trim_lower
  have hsome : (fun codec => decide (codec ≠ [])) ∘ lower = fun codec => decide (codec ≠ []) :=
    funext fun codec => decide_eq_decide.mpr (not_congr lower_eq_nil_iff)
  rw [codecs, codecs, trim_lower, trimWhile_lower hquote, splitAll_lower (by decide),
    List.map_map, htrim, ← List.map_map, List.filter_map, hsome]

theorem singleCodec?_lower (value : List Char) :
    singleCodec? stream (lower value) = (singleCodec? stream value).map lower := by
  rw [singleCodec?, singleCodec?, codecs_lower]
  cases codecs value with
  | nil => rfl
  | cons codec others =>
      cases others with
      | cons => rfl
      | nil =>
          simp only [List.map_cons, List.map_nil, codecStream?_lower]
          split <;> rfl

theorem parameter?_lower (named : Option (List Char)) (text : List Char) :
    parameter? stream (named.map lower) (lower text) =
      (parameter? stream named text).map (Option.map lower) := by
  rw [parameter?, parameter?, splitOnce?_lower (by decide), all_isBlank_lower]
  cases splitOnce? '=' text with
  | none =>
      dsimp only [Option.map_none]
      split <;> rfl
  | some cut =>
      simp only [Option.map_some, Prod.map, trim_lower, lower_lower, singleCodec?_lower]
      split
      · cases singleCodec? stream cut.2 <;> rfl
      · rfl

theorem foldlM_parameter?_lower (stream : StreamType) (parameters : List (List Char))
    (named : Option (List Char)) :
    (parameters.map lower).foldlM (parameter? stream) (named.map lower) =
      (parameters.foldlM (parameter? stream) named).map (Option.map lower) := by
  induction parameters generalizing named with
  | nil => rfl
  | cons text parameters ih =>
      rw [List.map_cons, List.foldlM_cons, List.foldlM_cons, parameter?_lower]
      cases parameter? stream named text with
      | none => rfl
      | some next => exact ih next

theorem ofPieces?_lower (pieces : List (List Char)) :
    ofPieces? (pieces.map lower) = (ofPieces? pieces).map folded := by
  cases pieces with
  | nil => rfl
  | cons first parameters =>
      simp only [List.map_cons, ofPieces?, essence?_lower]
      cases essence? first with
      | none => rfl
      | some names =>
          have hcodec := foldlM_parameter?_lower names.1 parameters none
          rw [Option.map_none] at hcodec
          simp only [Option.bind_eq_bind, Option.bind_some, hcodec]
          cases parameters.foldlM (parameter? names.1) none with
          | none => rfl
          | some codec => cases codec <;> simp [folded]

/-- A media type in lower case is read as what it was, with the codec in lower case. -/
theorem parse?_lower (mime : String) :
    parse? (String.ofList (lower mime.toList)) = (parse? mime).map folded := by
  rw [parse?_eq_ofPieces?, parse?_eq_ofPieces?, String.toList_ofList, splitAll_lower (by decide),
    ofPieces?_lower]

/-! ### Texts -/

/-- The second text comes from the first by a change to its pieces. -/
def Reworded (mime mime' : String) : Prop :=
  Rewords (splitAll ';' mime.toList) (splitAll ';' mime'.toList)

/-- The two texts differ in letter case at most. -/
def Recased (mime mime' : String) : Prop := lower mime.toList = lower mime'.toList

/-- The text with these pieces between its semicolons. -/
def written (pieces : List (List Char)) : String := String.ofList ([';'].intercalate pieces)

theorem Rewords.written {pieces pieces' : List (List Char)} (h : Rewords pieces pieces')
    (hpieces : ∀ piece ∈ pieces, ';' ∉ piece) (hpieces' : ∀ piece ∈ pieces', ';' ∉ piece) :
    Reworded (written pieces) (written pieces') := by
  have hsplit : ∀ {pieces}, pieces ≠ [] → (∀ piece ∈ pieces, ';' ∉ piece) →
      splitAll ';' (ContentType.written pieces).toList = pieces := by
    intro pieces hne hpieces
    rw [ContentType.written, String.toList_ofList, splitAll_eq_splitOn,
      List.splitOn_intercalate _ hpieces hne]
  rw [Reworded, hsplit (by cases h <;> exact List.cons_ne_nil _ _) hpieces,
    hsplit (by cases h <;> exact List.cons_ne_nil _ _) hpieces']
  exact h

theorem Recased.parse?_eq {mime mime' : String} (h : Recased mime mime') :
    (parse? mime).map folded = (parse? mime').map folded := by
  rw [← parse?_lower, ← parse?_lower, h]

/-- By any number of changes, made or undone, a media type never becomes another one: what is read
stays exactly the same, except that a change of letter case may show in the codec. -/
theorem writing_immaterial {mime mime' : String} :
    (Relation.EqvGen Reworded mime mime' → parse? mime = parse? mime') ∧
      (Relation.EqvGen (fun mime mime' => Reworded mime mime' ∨ Recased mime mime') mime mime' →
        (parse? mime).map folded = (parse? mime').map folded) := by
  have hreworded : ∀ {mime mime'}, Reworded mime mime' → parse? mime = parse? mime' := by
    intro mime mime' h
    rw [parse?_eq_ofPieces?, parse?_eq_ofPieces?, h.ofPieces?_eq]
  constructor
  · intro h
    induction h with
    | rel mime mime' h => exact hreworded h
    | refl mime => rfl
    | symm mime mime' _ ih => exact ih.symm
    | trans mime mime' mime'' _ _ ih ih' => exact ih.trans ih'
  · intro h
    induction h with
    | rel mime mime' h =>
        rcases h with h | h
        · rw [hreworded h]
        · exact h.parse?_eq
    | refl mime => rfl
    | symm mime mime' _ ih => exact ih.symm
    | trans mime mime' mime'' _ _ ih ih' => exact ih.trans ih'

/-- A parameter moved, one dropped, a blank one added, blanks around the names, the key and the
value, and other letter case. -/
theorem writing_immaterial_of_odd_text :
    Relation.EqvGen Reworded "video/mp4;codecs=\"avc1.42E01E\";x=y"
        " video/mp4; ;codecs = \"avc1.42E01E\" " ∧
      parse? "video/mp4;codecs=\"avc1.42E01E\";x=y" =
        parse? " video/mp4; ;codecs = \"avc1.42E01E\" " ∧
      Recased " video/mp4; ;codecs = \"avc1.42E01E\" " " Video/MP4; ;CODECS = \"AVC1.42e01e\" " ∧
      (parse? "video/mp4;codecs=\"avc1.42E01E\";x=y").map folded =
        (parse? " Video/MP4; ;CODECS = \"AVC1.42e01e\" ").map folded ∧
      parse? " Video/MP4; ;CODECS = \"AVC1.42e01e\" " = some ⟨.video, .mp4, some "AVC1.42e01e"⟩ := by
  have hmoved : Reworded "video/mp4;codecs=\"avc1.42E01E\";x=y"
      "video/mp4;x=y;codecs=\"avc1.42E01E\"" :=
    (Rewords.reorder "video/mp4".toList (.swap "x=y".toList "codecs=\"avc1.42E01E\"".toList [])
      (by decide)).written (by decide) (by decide)
  have hdropped : Reworded "video/mp4;codecs=\"avc1.42E01E\""
      "video/mp4;x=y;codecs=\"avc1.42E01E\"" :=
    (Rewords.addOther "video/mp4".toList [] ["codecs=\"avc1.42E01E\"".toList] "x".toList "y".toList
      (by decide) (by decide)).written (by decide) (by decide)
  have hadded : Reworded "video/mp4;codecs=\"avc1.42E01E\"" "video/mp4; ;codecs=\"avc1.42E01E\"" :=
    (Rewords.addBlank "video/mp4".toList [] ["codecs=\"avc1.42E01E\"".toList] " ".toList
      (by decide)).written (by decide) (by decide)
  have hnames : Padded "video/mp4".toList " video/mp4".toList := ⟨[' '], [], rfl, rfl, rfl⟩
  have hkey : Padded "codecs".toList "codecs ".toList := ⟨[], [' '], rfl, rfl, rfl⟩
  have hvalue : Padded "\"avc1.42E01E\"".toList " \"avc1.42E01E\" ".toList :=
    ⟨[' '], [' '], rfl, rfl, rfl⟩
  have hfront : Reworded "video/mp4; ;codecs=\"avc1.42E01E\""
      " video/mp4; ;codecs=\"avc1.42E01E\"" :=
    (Rewords.padEssence [" ".toList, "codecs=\"avc1.42E01E\"".toList] hnames).written
      (by decide) (by decide)
  have hspaced : Reworded " video/mp4; ;codecs=\"avc1.42E01E\""
      " video/mp4; ;codecs = \"avc1.42E01E\" " :=
    (Rewords.padParameter " video/mp4".toList [" ".toList] [] (by decide) hkey
      hvalue).written (by decide) (by decide)
  have hreworded := Relation.EqvGen.trans _ _ _ (.rel _ _ hmoved) <|
    .trans _ _ _ (.symm _ _ (.rel _ _ hdropped)) <| .trans _ _ _ (.rel _ _ hadded) <|
    .trans _ _ _ (.rel _ _ hfront) (.rel _ _ hspaced)
  have hrecased : Recased " video/mp4; ;codecs = \"avc1.42E01E\" "
      " Video/MP4; ;CODECS = \"AVC1.42e01e\" " := by
    rw [Recased]
    decide
  refine ⟨hreworded, writing_immaterial.1 hreworded, hrecased, ?_, by decide⟩
  exact writing_immaterial.2 <| .trans _ _ _ (hreworded.mono fun _ _ h => .inl h)
    (.rel _ _ (.inr hrecased))

end ProtectedMedia.ContentType
