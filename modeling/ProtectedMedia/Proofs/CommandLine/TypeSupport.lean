import ProtectedMedia.CommandLine.Run
import ProtectedMedia.Proofs.Media.Adding

/-!
# Sessions that add media types

A session opens a new source, adds a buffer for every media type, sets the duration and ends the
stream. What is refused on the way is reported and costs nothing: only a duration that is not a
number can make a session fail.
-/
namespace ProtectedMedia

namespace CommandLine.TypeArgs

variable {s : Source} {earlier : List String}

/-- All media types are added, whatever becomes of each. -/
theorem addAll_eq_after (color : Bool) (types : List String) (s : Source) :
    (addAll color types s).2 = s.after (types.map .addSourceBuffer) := by
  induction types generalizing s with
  | nil => rfl
  | cons mime types ih => exact ih (s.perform (.addSourceBuffer mime)).2

theorem setDuration_isNaN {value : Binary64} (h : value.isNaN = true) (s : Source) :
    setDuration (some value) s = (.error (.script .durationNaN), s) := by
  simp [setDuration, MediaSource.perform, MediaSource.setDuration, h, Except.map]

/-- No duration, or one that is a number, leaves the source as open as it was. -/
theorem setDuration_number {duration : Option Binary64}
    (h : duration.any Binary64.isNaN = false) (hs : s.Adding earlier) :
    ∃ notices s', setDuration duration s = (.ok notices, s') ∧ s'.Adding earlier := by
  cases duration with
  | none => exact ⟨[], s, rfl, hs⟩
  | some value =>
      obtain ⟨s', hset, hs'⟩ := hs.setDuration h
      rw [setDuration, hset]
      exact ⟨_, s', rfl, hs'⟩

theorem finish_ending (hs : s.Adding earlier) (duration : Option Binary64) :
    (finish duration s).2 =
      if duration.any Binary64.isNaN then .failure [ScriptError.durationNaN.message]
      else .success := by
  cases hnumber : duration.any Binary64.isNaN with
  | true =>
      obtain ⟨value, rfl, hvalue⟩ := (Option.any_eq_true _ _).mp hnumber
      rw [finish, setDuration_isNaN hvalue]
      rfl
  | false =>
      obtain ⟨notices, s', hset, hs'⟩ := setDuration_number hnumber hs
      obtain ⟨s'', hend, -⟩ := hs'.endOfStream
      rw [finish, hset]
      simp only [hend]
      rfl

/-- Only a duration that is not a number makes a session fail. -/
theorem session_ending (color : Bool) (url : String) (args : TypeArgs) :
    (args.session color url).ending =
      if args.duration.any Binary64.isNaN then .failure [ScriptError.durationNaN.message]
      else .success := by
  have hopened : MediaSource.Adding
      ((MediaSource.create url BasicPipeline.initial).perform (.attach 0)).2 [] :=
    (MediaSource.agrees_create url).adding rfl 0
  have hadded := hopened.after args.types
  rw [← addAll_eq_after color] at hadded
  exact finish_ending hadded args.duration

theorem run_add_exitCode (color : Bool) (url : String) {args : TypeArgs} (hadd : args.add = true) :
    (args.run color url).exitCode = if args.duration.any Binary64.isNaN then 1 else 0 := by
  have hending : (args.run color url).ending = (args.session color url).ending := by
    rw [run, if_pos hadd]
  rw [Report.exitCode, hending, session_ending]
  cases args.duration.any Binary64.isNaN with
  | true => rfl
  | false => rfl

end CommandLine.TypeArgs

namespace MediaSource
open CommandLine

/-- Of the media types that are added to a source that was just attached, just those get a buffer that
are supported and come before all supported ones of their stream type; the others are refused as not
supported or as one too many, and there are two buffers at most. A session that adds media types fails
if and only if the duration is not a number. -/
theorem types_added :
    (∀ url commands element (mimes : List String), (reached url commands).readyState = .closed →
      let s := ((reached url commands).perform (.attach element)).2
      let past := s.transcript (mimes.map .addSourceBuffer)
      (∀ i mime, mimes[i]? = some mime → ∃ r, past[i]? = some (.addSourceBuffer mime, r) ∧
        Decided (mimes.take i) mime r ∧
        ∀ number, r = .ok (.buffer number) → ∃ t ∈ ContentType.parse? mime,
          ∃ b, (s.after (mimes.map .addSourceBuffer)).buffers[number]? = some b ∧
            b.type = t.stream) ∧
      (past.countP fun entry => entry.2.isOk) ≤ 2) ∧
    ∀ settings args terminal url disk, args.add = true →
      (Invocation.run ⟨settings, .typeSupported args⟩ terminal url disk).1.exitCode =
        if args.duration.any Binary64.isNaN then 1 else 0 := by
  constructor
  · intro url commands element mimes hclosed s past
    have hopened : s.Adding [] := (agrees_reached url commands).1.adding hclosed element
    exact ⟨fun i mime hi => hopened.decided mimes hi, hopened.countP_isOk_le mimes⟩
  · intro settings args terminal url disk hadd
    exact TypeArgs.run_add_exitCode _ url hadd

/-- A source was attached, has handed out a buffer that is updating, and was detached. -/
def detachedWhileUpdating : MediaSource BasicPipeline :=
  reached "blob:a" [.attach 0, .addSourceBuffer "audio/mp4", .setUpdating 0 true, .detach]

def mixedTypes : List String := ["Audio/MP4", "text/html", "audio/webm; codecs=opus", "video/mp4"]

theorem types_added_to_reopened :
    let s := (detachedWhileUpdating.perform (.attach 1)).2
    let past := s.transcript (mixedTypes.map .addSourceBuffer)
    past = [(.addSourceBuffer "Audio/MP4", .ok (.buffer 1)),
        (.addSourceBuffer "text/html", .error (.script (.unsupportedType "text/html"))),
        (.addSourceBuffer "audio/webm; codecs=opus", .error (.script .noMoreBuffers)),
        (.addSourceBuffer "video/mp4", .ok (.buffer 2))] ∧
      Decided ["Audio/MP4", "text/html"] "audio/webm; codecs=opus"
        (.error (.script .noMoreBuffers)) ∧
      (∃ t ∈ ContentType.parse? "video/mp4",
        ∃ b, (s.after (mixedTypes.map .addSourceBuffer)).buffers[2]? = some b ∧ b.type = t.stream) ∧
      (past.countP fun entry => entry.2.isOk) ≤ 2 ∧
      (Invocation.run ⟨⟨.auto, 0, false⟩, .typeSupported ⟨mixedTypes, true, some .nan⟩⟩ false
        "blob:a" ⟨[]⟩).1.exitCode = 1 := by
  intro s past
  have hclosed : detachedWhileUpdating.readyState = .closed := by decide
  have hpast : past = [(.addSourceBuffer "Audio/MP4", .ok (.buffer 1)),
      (.addSourceBuffer "text/html", .error (.script (.unsupportedType "text/html"))),
      (.addSourceBuffer "audio/webm; codecs=opus", .error (.script .noMoreBuffers)),
      (.addSourceBuffer "video/mp4", .ok (.buffer 2))] := by decide
  obtain ⟨hdecided, htwo⟩ := types_added.1 "blob:a" _ 1 mixedTypes hclosed
  refine ⟨hpast, ?_, ?_, htwo, types_added.2 _ ⟨mixedTypes, true, some .nan⟩ _ _ _ rfl⟩
  · obtain ⟨r, hr, hthird, -⟩ := hdecided 2 _ rfl
    change past[2]? = _ at hr
    rw [hpast] at hr
    cases hr
    exact hthird
  · obtain ⟨r, hr, -, hbuffer⟩ := hdecided 3 _ rfl
    change past[3]? = _ at hr
    rw [hpast] at hr
    cases hr
    exact hbuffer 2 rfl

end MediaSource

end ProtectedMedia
