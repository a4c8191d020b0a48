import ProtectedMedia.Media.ContentType
import ProtectedMedia.Proofs.Text.Pieces

/-!
# Which media types are read

A media type that is read names its stream type and container before the first semicolon, and a
codec that is reported stands in it as one unpadded piece of a family of that stream type. The
plain ways of writing such a type, with and without a codec and with the codec in quotes or not,
are all read, and as what they say.
-/
namespace ProtectedMedia.ContentType

open Text

variable {stream : StreamType} {container : Container}

/-! ### The names before the first semicolon -/

/-- A stream type and a container, written as the beginning of a media type. -/
def essence (stream : StreamType) (container : Container) : String :=
  stream.name ++ "/" ++ container.name

theorem streamOf?_eq_some_iff {name : List Char} :
    streamOf? name = some stream ↔ stream ≠ .unknown ∧ name = stream.name.toList := by
  constructor
  · intro h
    have hname := List.find?_some h
    have hmem := List.mem_of_find?_eq_some h
    refine ⟨?_, (of_decide_eq_true hname).symm⟩
    rintro rfl
    simp at hmem
  · rintro ⟨hknown, rfl⟩
    cases stream with
    | unknown => exact absurd rfl hknown
    | audio => decide
    | video => decide

theorem containerOf?_eq_some_iff {name : List Char} :
    containerOf? name = some container ↔ name = container.name.toList := by
  constructor
  · intro h
    have hname := List.find?_some h
    exact (of_decide_eq_true hname).symm
  · rintro rfl
    cases container <;> decide

theorem essence?_eq_some_iff {text : List Char} :
    essence? text = some (stream, container) ↔
      stream ≠ .unknown ∧ lower (trim text) = (essence stream container).toList := by
  have hslash : (essence stream container).toList =
      stream.name.toList ++ '/' :: container.name.toList := by
    simp [essence]
  rw [essence?, hslash]
  constructor
  · intro h
    obtain ⟨⟨kind, subtype⟩, hcut, h⟩ := Option.bind_eq_some_iff.mp h
    obtain ⟨stream', hstream, h⟩ := Option.bind_eq_some_iff.mp h
    obtain ⟨container', hcontainer, h⟩ := Option.bind_eq_some_iff.mp h
    cases h
    obtain ⟨hknown, rfl⟩ := streamOf?_eq_some_iff.mp hstream
    rw [containerOf?_eq_some_iff] at hcontainer
    rw [← hcontainer]
    exact ⟨hknown, (splitOnce?_eq_some_iff.mp hcut).2⟩
  · rintro ⟨hknown, htext⟩
    have hname : '/' ∉ stream.name.toList := by cases stream <;> decide
    rw [htext, splitOnce?_append_cons hname]
    simp [streamOf?_eq_some_iff.mpr ⟨hknown, rfl⟩, containerOf?_eq_some_iff.mpr rfl]

/-! ### The codec -/

/-- The family of a codec: the part before the first dot, in lower case. -/
def family (codec : List Char) : String :=
  String.ofList (lower (codec.takeWhile (· ≠ '.')))

/-- No family is of two stream types. -/
theorem find?_families : ∀ entry ∈ families, ∀ name ∈ entry.2,
    (families.find? fun other => other.2.contains name).map (·.1) = some entry.1 := by
  decide

theorem codecStream?_eq_some_iff {codec : List Char} :
    codecStream? codec = some stream ↔
      ∃ names, (stream, names) ∈ families ∧ family codec ∈ names := by
  constructor
  · intro h
    obtain ⟨⟨stream, names⟩, hfind, rfl⟩ := Option.map_eq_some_iff.mp h
    have hname := List.find?_some hfind
    exact ⟨names, List.mem_of_find?_eq_some hfind, List.contains_iff_mem.mp hname⟩
  · rintro ⟨names, hfamilies, hname⟩
    exact find?_families (stream, names) hfamilies _ hname

/-- A codec of a stream type that a media type can name. -/
structure IsCodec (stream : StreamType) (codec : List Char) : Prop where
  known : ∃ names, (stream, names) ∈ families ∧ family codec ∈ names
  comma : ',' ∉ codec
  semicolon : ';' ∉ codec
  trimmed : Trimmed isBlank codec

/-- No family is empty. -/
theorem IsCodec.ne_nil {codec : List Char} (h : IsCodec stream codec) : codec ≠ [] := by
  rintro rfl
  obtain ⟨names, hfamilies, hname⟩ := h.known
  have hempty : ∀ entry ∈ families, family [] ∉ entry.2 := by decide
  exact hempty _ hfamilies hname

/-- A list of codecs without a comma lists the codec itself, with the blanks and quotes around it
taken off. -/
theorem codecs_eq_singleton {codec value : List Char} (h : IsCodec stream codec)
    (hvalue : trimWhile (· = '"') (trim value) = codec) : codecs value = [codec] := by
  rw [codecs, hvalue, splitAll_of_notMem h.comma]
  simp [trim, h.trimmed.trimWhile_eq, h.ne_nil]

theorem singleCodec?_of_isCodec {codec value : List Char} (h : IsCodec stream codec)
    (hvalue : trimWhile (· = '"') (trim value) = codec) :
    singleCodec? stream value = some codec := by
  rw [singleCodec?, codecs_eq_singleton h hvalue]
  simp [codecStream?_eq_some_iff.mpr h.known]

/-- A codec that is read is a piece of the value without a comma, and has no blanks around it. -/
theorem isCodec_of_singleCodec? {codec value : List Char} (hsemicolon : ';' ∉ value)
    (h : singleCodec? stream value = some codec) :
    IsCodec stream codec ∧ codec <:+: value := by
  rw [singleCodec?] at h
  split at h
  · rename_i only honly
    split at h
    · rename_i hstream
      cases h
      have hmem : codec ∈ codecs value := by rw [honly]; exact List.mem_singleton_self _
      obtain ⟨part, hpart, rfl⟩ := List.mem_map.mp (List.mem_of_mem_filter hmem)
      have hwithin : trim part <:+: value :=
        (isInfix_trimWhile _ _).trans <| (infix_of_mem_splitAll hpart).trans <|
          (isInfix_trimWhile _ _).trans (isInfix_trimWhile _ _)
      refine ⟨⟨codecStream?_eq_some_iff.mp hstream, fun hcomma => ?_, fun hmem => ?_,
        trimmed_trimWhile _ _⟩, hwithin⟩
      · exact notMem_of_mem_splitAll hpart ((isInfix_trimWhile _ _).mem hcomma)
      · exact hsemicolon (hwithin.mem hmem)
    · cases h
  · cases h

/-! ### The parameters -/

/-- What holds of the codec before a parameter holds after it, if it holds of every codec that the
parameter itself can name. -/
theorem isCodec_of_parameter? {named codec : Option (List Char)} {text whole : List Char}
    (hsemicolon : ';' ∉ text) (hwithin : text <:+: whole)
    (hnamed : ∀ codec ∈ named, IsCodec stream codec ∧ codec <:+: whole)
    (h : parameter? stream named text = some codec) :
    ∀ codec' ∈ codec, IsCodec stream codec' ∧ codec' <:+: whole := by
  rw [parameter?] at h
  split at h
  · split at h
    · cases h
      exact hnamed
    · cases h
  · rename_i key value hcut
    split at h
    · obtain ⟨single, hsingle, rfl⟩ := Option.map_eq_some_iff.mp h
      have htext := (splitOnce?_eq_some_iff.mp hcut).2
      have hvalue : value <:+: text :=
        htext ▸ ((List.suffix_cons _ _).trans (List.suffix_append _ _)).isInfix
      have hcodec := isCodec_of_singleCodec? (fun hmem => hsemicolon (hvalue.mem hmem)) hsingle
      intro codec' hcodec'
      cases hcodec'
      exact ⟨hcodec.1, hcodec.2.trans (hvalue.trans hwithin)⟩
    · cases h
      exact hnamed

theorem isCodec_of_foldlM {whole : List Char} {parameters : List (List Char)}
    (hparameters : ∀ text ∈ parameters, ';' ∉ text ∧ text <:+: whole)
    {named codec : Option (List Char)}
    (hnamed : ∀ codec ∈ named, IsCodec stream codec ∧ codec <:+: whole)
    (h : parameters.foldlM (parameter? stream) named = some codec) :
    ∀ codec' ∈ codec, IsCodec stream codec' ∧ codec' <:+: whole := by
  induction parameters generalizing named with
  | nil =>
      cases h
      exact hnamed
  | cons text parameters ih =>
      rw [List.forall_mem_cons] at hparameters
      obtain ⟨next, hnext, h⟩ := Option.bind_eq_some_iff.mp h
      exact ih hparameters.2
        (isCodec_of_parameter? hparameters.1.1 hparameters.1.2 hnamed hnext) h

/-- A parameter with one codec, as it is written most plainly, names this codec. -/
theorem parameter?_codecs {codec value : List Char} (named : Option (List Char))
    (h : IsCodec stream codec) (hvalue : trimWhile (· = '"') (trim value) = codec) :
    parameter? stream named (" codecs=".toList ++ value) = some (some codec) := by
  have hkey : " codecs=".toList ++ value = " codecs".toList ++ '=' :: value := by simp
  rw [parameter?, hkey, splitOnce?_append_cons (by decide)]
  have hname : lower (trim " codecs".toList) = "codecs".toList := by decide
  simp only [if_pos hname, singleCodec?_of_isCodec h hvalue, Option.map_some]

/-! ### Whole types -/

theorem parse?_eq_some_iff {mime : String} {t : ContentType} :
    parse? mime = some t ↔ ∃ first parameters codec,
      splitAll ';' mime.toList = first :: parameters ∧
      essence? first = some (t.stream, t.container) ∧
      parameters.foldlM (parameter? t.stream) none = some codec ∧
      t.codec = codec.map String.ofList := by
  constructor
  · intro h
    rw [parse?] at h
    split at h
    · cases h
    · rename_i first parameters hsplit
      obtain ⟨⟨stream, container⟩, hessence, h⟩ := Option.bind_eq_some_iff.mp h
      obtain ⟨codec, hcodec, h⟩ := Option.bind_eq_some_iff.mp h
      cases h
      exact ⟨first, parameters, codec, hsplit, hessence, hcodec, rfl⟩
  · rintro ⟨first, parameters, codec, hsplit, hessence, hcodec, heq⟩
    rw [parse?, hsplit]
    simp only [hessence, hcodec, Option.bind_eq_bind, Option.bind_some, Option.pure_def, ← heq]

theorem stream_of_parse {mime : String} {t : ContentType} (h : parse? mime = some t) :
    t.stream = .video ∨ t.stream = .audio := by
  obtain ⟨first, parameters, codec, -, hessence, -, -⟩ := parse?_eq_some_iff.mp h
  have hknown := (essence?_eq_some_iff.mp hessence).1
  cases hstream : t.stream <;> simp_all

/-- The names of a type are those before its first semicolon, in any letter case. -/
theorem lower_trim_of_parse? {mime : String} {t : ContentType} (h : parse? mime = some t) :
    lower (trim (mime.toList.takeWhile (· ≠ ';'))) =
      (essence t.stream t.container).toList := by
  obtain ⟨first, parameters, codec, hsplit, hessence, -, -⟩ := parse?_eq_some_iff.mp h
  obtain ⟨others, hothers, -⟩ := exists_splitAll ';' mime.toList
  rw [hothers] at hsplit
  cases hsplit
  exact (essence?_eq_some_iff.mp hessence).2

/-- A returned codec is as the type it stands in demands. -/
theorem isCodec_of_parse? {mime : String} {t : ContentType} (h : parse? mime = some t) :
    ∀ codec ∈ t.codec, IsCodec t.stream codec.toList ∧ codec.toList <:+: mime.toList := by
  obtain ⟨first, parameters, codec, hsplit, -, hcodec, heq⟩ := parse?_eq_some_iff.mp h
  have hparameters : ∀ text ∈ parameters, ';' ∉ text ∧ text <:+: mime.toList := by
    intro text htext
    have hmem : text ∈ splitAll ';' mime.toList := hsplit ▸ List.mem_cons_of_mem _ htext
    exact ⟨notMem_of_mem_splitAll hmem, infix_of_mem_splitAll hmem⟩
  intro text htext
  obtain ⟨chars, hchars, rfl⟩ := Option.map_eq_some_iff.mp (heq ▸ htext)
  rw [String.toList_ofList]
  exact isCodec_of_foldlM hparameters (by simp) hcodec chars hchars

theorem notMem_essence (stream : StreamType) (container : Container) :
    ';' ∉ (essence stream container).toList := by
  cases stream <;> cases container <;> decide

theorem essence?_essence (hknown : stream ≠ .unknown) (container : Container) :
    essence? (essence stream container).toList = some (stream, container) := by
  refine essence?_eq_some_iff.mpr ⟨hknown, ?_⟩
  cases stream <;> cases container <;> decide

theorem parse?_essence (hknown : stream ≠ .unknown) (container : Container) :
    parse? (essence stream container) = some ⟨stream, container, none⟩ :=
  parse?_eq_some_iff.mpr ⟨_, [], none, splitAll_of_notMem (notMem_essence stream container),
    essence?_essence hknown container, rfl, rfl⟩

theorem parse?_codecs (hknown : stream ≠ .unknown) (container : Container) {codec value : String}
    (h : IsCodec stream codec.toList) (hsemicolon : ';' ∉ value.toList)
    (hvalue : trimWhile (· = '"') (trim value.toList) = codec.toList) :
    parse? (essence stream container ++ "; codecs=" ++ value) =
      some ⟨stream, container, some codec⟩ := by
  have htext : (essence stream container ++ "; codecs=" ++ value).toList =
      (essence stream container).toList ++ ';' :: (" codecs=".toList ++ value.toList) := by
    simp
  have hparameter : ';' ∉ " codecs=".toList ++ value.toList := by
    rw [List.mem_append, not_or]
    exact ⟨by decide, hsemicolon⟩
  refine parse?_eq_some_iff.mpr ⟨_, [" codecs=".toList ++ value.toList], some codec.toList, ?_,
    essence?_essence hknown container, ?_, by simp⟩
  · rw [htext, splitAll_append_cons (notMem_essence stream container),
      splitAll_of_notMem hparameter]
  · simp only [List.foldlM_cons, List.foldlM_nil, parameter?_codecs none h hvalue]
    rfl

theorem trimWhile_quoted {codec : List Char} (h : '"' ∉ codec) :
    trimWhile (· = '"') (trim ('"' :: (codec ++ ['"']))) = codec := by
  have hends : Trimmed isBlank ('"' :: (codec ++ ['"'])) := by
    constructor
    · rintro x ⟨⟩
      decide
    · intro x hx
      rw [← List.cons_append, List.getLast?_concat] at hx
      cases hx
      decide
  rw [trim, hends.trimWhile_eq, (Trimmed.of_notMem h).trimWhile_between (by simp)]

/-- What is read is what the type says, and what is written plainly is read. -/
theorem parse_exact :
    (∀ (mime : String) (t : ContentType), parse? mime = some t →
      (t.stream = .audio ∨ t.stream = .video) ∧
      t.container.name ∈ ["mp4", "webm", "mp2t"] ∧
      lower (trim (mime.toList.takeWhile (· ≠ ';'))) =
        (t.stream.name ++ "/" ++ t.container.name).toList ∧
      ∀ codec ∈ t.codec, codec ≠ "" ∧ IsCodec t.stream codec.toList ∧
        codec.toList <:+: mime.toList) ∧
    (∀ (stream : StreamType) (container : Container), stream = .audio ∨ stream = .video →
      parse? (stream.name ++ "/" ++ container.name) = some ⟨stream, container, none⟩ ∧
      ∀ codec : String, IsCodec stream codec.toList → '"' ∉ codec.toList →
        parse? (stream.name ++ "/" ++ container.name ++ "; codecs=" ++ codec) =
            some ⟨stream, container, some codec⟩ ∧
          parse? (stream.name ++ "/" ++ container.name ++ "; codecs=\"" ++ codec ++ "\"") =
            some ⟨stream, container, some codec⟩) := by
  refine ⟨fun mime t h => ⟨(stream_of_parse h).symm, ?_, ?_, ?_⟩,
    fun stream container hstream => ?_⟩
  · cases t.container <;> decide
  · exact lower_trim_of_parse? h
  · intro codec hcodec
    have hread := isCodec_of_parse? h codec hcodec
    exact ⟨fun hempty => hread.1.ne_nil (by simp [hempty]), hread⟩
  · have hknown : stream ≠ .unknown := by rcases hstream with rfl | rfl <;> simp
    refine ⟨parse?_essence hknown container, fun codec hcodec hquote => ⟨?_, ?_⟩⟩
    · refine parse?_codecs hknown container hcodec hcodec.semicolon ?_
      rw [trim, hcodec.trimmed.trimWhile_eq, (Trimmed.of_notMem hquote).trimWhile_eq]
    · have hvalue : ("\"" ++ codec ++ "\"").toList = '"' :: (codec.toList ++ ['"']) := by simp
      have hsemicolon : ';' ∉ ("\"" ++ codec ++ "\"").toList := by
        simp [hvalue, hcodec.semicolon]
      have hparse := parse?_codecs hknown container hcodec hsemicolon
        (by rw [hvalue, trimWhile_quoted hquote])
      have hopening : "; codecs=\"" = "; codecs=" ++ "\"" := by decide
      simpa only [hopening, essence, String.append_assoc] using hparse

theorem parse_exact_of_odd_text :
    let odd := " Video/MP4;; CODECS = \" ,avc1.42E01E,\"; x=y"
    parse? odd = some ⟨.video, .mp4, some "avc1.42E01E"⟩ ∧
      IsCodec .video "avc1.42E01E".toList ∧
      lower (trim (odd.toList.takeWhile (· ≠ ';'))) = "video/mp4".toList ∧
      parse? "video/mp4" = some ⟨.video, .mp4, none⟩ ∧
      parse? "video/mp4; codecs=avc1.42E01E" = some ⟨.video, .mp4, some "avc1.42E01E"⟩ ∧
      parse? "video/mp4; codecs=\"avc1.42E01E\"" = some ⟨.video, .mp4, some "avc1.42E01E"⟩ := by
  intro odd
  have hodd : parse? odd = some ⟨.video, .mp4, some "avc1.42E01E"⟩ := by decide
  have hread := parse_exact.1 odd _ hodd
  have hcodec := (hread.2.2.2 "avc1.42E01E" rfl).2.1
  have hplain := parse_exact.2 .video .mp4 (.inr rfl)
  have hcodecs := hplain.2 "avc1.42E01E" hcodec (by decide)
  exact ⟨hodd, hcodec, hread.2.2.1, hplain.1, hcodecs⟩

end ProtectedMedia.ContentType
