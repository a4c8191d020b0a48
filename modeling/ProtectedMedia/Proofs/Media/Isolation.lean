import ProtectedMedia.Proofs.Media.Registration
import ProtectedMedia.Proofs.Media.Renumbered

/-!
# Sources side by side

Sources share a registry and elements, and a request is about one of them at most. What a source is
asked are its turns. They alone decide what it answers, what it calls its pipeline for and what
becomes of it: the same turns in a session that has no other source, under any url and whatever
elements there are, have the same effects. What another source is asked is never seen, be it dropped
or be a promise to it broken.
-/
namespace ProtectedMedia

/-- The slot without the url of its source. -/
def SourceSlot.unnamed {κ : Type} (slot : SourceSlot κ) : SourceSlot κ :=
  { slot with source := { slot.source with url := "" } }

namespace Session

/-- What a source is asked. Its buffers have the numbers that it gave them. -/
inductive Turn (κ : Type) where
  | created (controller : κ)
  | dropped
  | asked (c : MediaSource.Command)
  | sought (type : StreamType)
  | marked (number : ℕ) (updating : Bool)

section
variable {κ : Type} {s : Session κ} {n : ℕ}

/-- The turn of a source in a request, if the request is about this source. A creation is about the
source that comes into being. -/
def turn? (s : Session κ) (n : ℕ) : Request κ → Option (Turn κ)
  | .createSource controller urls =>
      if n = s.sources.length ∧ (s.freshUrl? urls).isSome = true then some (.created controller)
      else none
  | .dropSource m => if m = n then some .dropped else none
  | .command m c => if m = n then some (.asked c) else none
  | .findBuffer m type => if m = n then some (.sought type) else none
  | .setUpdating b updating => (s.buffers[b]?).bind fun buffer =>
      if buffer.1 = n then some (.marked buffer.2 updating) else none
  | _ => none

def shown (s : Session κ) (n : ℕ) : Option (SourceSlot κ) := s.sources[n]?.map (·.unnamed)

/-- The source in a slot, if it lives. -/
def living (slot : Option (SourceSlot κ)) : Option (MediaSource κ) :=
  slot.bind fun slot => if slot.alive then some slot.source else none

theorem source?_eq_living (s : Session κ) (n : ℕ) : s.source? n = living s.sources[n]? := by
  unfold source? living
  cases s.sources[n]? <;> rfl

theorem living_shown (s : Session κ) (n : ℕ) :
    living (s.shown n) = (s.source? n).map fun source => { source with url := "" } := by
  rw [source?_eq_living, shown]
  cases s.sources[n]? with
  | none => rfl
  | some slot => cases halive : slot.alive <;> simp [living, SourceSlot.unnamed, halive]

theorem shown_eq_none : s.shown n = none ↔ s.sources.length ≤ n := by
  simp [shown]

/-- A creation is about a source that has not been there, and a buffer is marked that was handed out. -/
def Turn.Fits : Turn κ → Option (SourceSlot κ) → Prop
  | .created _, slot => slot = none
  | .marked number _, slot => ∃ x ∈ slot, number < x.source.buffers.length
  | _, _ => True

end

variable {κ : Type} [PipelineController κ] {s : Session κ} {n : ℕ} {r : Request κ} {turn : Turn κ}

/-- What becomes of a source in a turn. -/
def Turn.become : Turn κ → Option (SourceSlot κ) → Option (SourceSlot κ)
  | .created controller, _ => some ⟨.create "" controller, true⟩
  | .dropped, slot => slot.map fun slot => { slot with alive := false }
  | .asked c, slot => slot.map fun slot =>
      if slot.alive = true then { slot with source := (slot.source.perform c).2 } else slot
  | .sought _, slot => slot
  | .marked number updating, slot => slot.map fun slot =>
      { slot with source := slot.source.setUpdating number updating }

/-- A source is the same after a request unless it had a turn in it, and then it is what it becomes
in that turn. -/
theorem shown_perform (s : Session κ) (r : Request κ) (n : ℕ) :
    (s.perform r).2.shown n = (s.turn? n r).elim (s.shown n) (·.become (s.shown n)) := by
  rw [shown, slot_perform, shown]
  cases r with
  | createSource controller urls =>
      simp only [turn?]
      by_cases hn : n = s.sources.length
      · cases s.freshUrl? urls <;>
          simp [hn, Turn.become, SourceSlot.unnamed, MediaSource.create]
      · simp [hn]
  | dropSource m =>
      by_cases hm : m = n
      · simp [turn?, hm, Turn.become, SourceSlot.unnamed, Function.comp_def]
      · simp [turn?, hm]
  | command m c =>
      by_cases hm : m = n
      · cases s.sources[n]? with
        | none => simp [turn?, hm, Turn.become]
        | some slot =>
            cases halive : slot.alive <;>
              simp [turn?, hm, Turn.become, SourceSlot.unnamed, halive,
                MediaSource.perform_renamed]
      · simp [turn?, hm]
  | findBuffer m type => by_cases hm : m = n <;> simp [turn?, hm, Turn.become]
  | setUpdating b updating =>
      simp only [turn?]
      cases s.buffers[b]? with
      | none => simp
      | some buffer =>
          by_cases hm : buffer.1 = n
          · simp [hm, Turn.become, SourceSlot.unnamed, MediaSource.setUpdating, Function.comp_def]
          · simp [hm]
  | _ => rfl

/-! ### The numbers of buffers -/

section
variable {κ : Type} {s : Session κ} {n : ℕ}

/-- The numbers that a source gave to its buffers, in the order in which they were handed out. -/
def numbers (s : Session κ) (n : ℕ) : List ℕ := (s.buffers.filter fun b => b.1 = n).map Prod.snd

/-- How many buffers were handed out. -/
def handed (slot : Option (SourceSlot κ)) : ℕ := slot.elim 0 fun slot => slot.source.buffers.length

/-- Every source has numbered its buffers from the first one on. -/
def Numbered (s : Session κ) : Prop := ∀ n, s.numbers n = List.range (handed (s.shown n))

theorem Numbered.mem_iff (h : s.Numbered) {number : ℕ} :
    (n, number) ∈ s.buffers ↔ number < handed (s.shown n) := by
  rw [← List.mem_range, ← h, numbers]
  simp

/-- A session with elements and nothing else. -/
def peopled (elements : List PresentationElement) : Session κ := { empty with elements := elements }

theorem numbered_peopled (elements : List PresentationElement) :
    (peopled elements : Session κ).Numbered := by
  intro n
  simp [peopled, empty, numbers, shown, handed]

theorem lt_handed_iff {slot : Option (SourceSlot κ)} {number : ℕ} :
    number < handed slot ↔ ∃ x ∈ slot, number < x.source.buffers.length := by
  cases slot <;> simp [handed]

theorem Numbered.fits (h : s.Numbered) {r : Request κ} {turn : Turn κ}
    (hturn : s.turn? n r = some turn) : turn.Fits (s.shown n) := by
  cases r with
  | createSource controller urls =>
      simp only [turn?, Option.ite_none_right_eq_some] at hturn
      obtain ⟨⟨hn, -⟩, heq⟩ := hturn
      cases heq
      exact shown_eq_none.mpr (Nat.le_of_eq hn.symm)
  | setUpdating b updating =>
      simp only [turn?, Option.bind_eq_some_iff, Option.ite_none_right_eq_some] at hturn
      obtain ⟨⟨m, number⟩, hbuffer, rfl, heq⟩ := hturn
      cases heq
      exact lt_handed_iff.mp (h.mem_iff.mp (List.mem_of_getElem? hbuffer))
  | dropSource | command | findBuffer =>
      simp only [turn?, Option.ite_none_right_eq_some] at hturn
      obtain ⟨-, heq⟩ := hturn
      cases heq
      trivial
  | _ => cases hturn

end

theorem numbers_handedOut (m n : ℕ) (a : Except MediaSource.Failure MediaSource.Answer) :
    ((handedOut m a).filter fun b => b.1 = n).map Prod.snd = if m = n then MediaSource.newNumbers a else [] := by
  unfold handedOut MediaSource.newNumbers
  split <;> by_cases hm : m = n <;> simp [hm]

/-- The numbers that a source gives away in a turn. -/
def Turn.numbers : Turn κ → Option (SourceSlot κ) → List ℕ
  | .asked c, slot => (living slot).elim [] fun source => MediaSource.newNumbers (source.perform c).1
  | _, _ => []

theorem numbers_perform (s : Session κ) (r : Request κ) (n : ℕ) :
    (s.perform r).2.numbers n =
      s.numbers n ++ (s.turn? n r).elim [] (·.numbers (s.shown n)) := by
  rw [numbers, buffers_perform, numbers]
  cases r with
  | createSource controller urls =>
      simp only [turn?]
      split <;> simp [Turn.numbers]
  | dropSource m | findBuffer m =>
      simp only [turn?]
      split <;> simp [Turn.numbers]
  | command m c =>
      rw [List.filter_append, List.map_append]
      by_cases hm : m = n
      · subst hm
        simp only [turn?, if_true, Option.elim_some, Turn.numbers, living_shown]
        cases s.source? m with
        | none => rfl
        | some source => simp [numbers_handedOut, MediaSource.perform_renamed]
      · cases s.source? m <;> simp [turn?, numbers_handedOut, hm]
  | setUpdating b updating =>
      simp only [turn?]
      cases s.buffers[b]? with
      | none => simp
      | some buffer => by_cases hm : buffer.1 = n <;> simp [hm, Turn.numbers]
  | _ => simp [turn?]

theorem range_handed_become {slot : Option (SourceSlot κ)} (h : turn.Fits slot) :
    List.range (handed (turn.become slot)) = List.range (handed slot) ++ turn.numbers slot := by
  cases turn with
  | created controller =>
      have hnone : slot = none := h
      simp [hnone, handed, Turn.become, Turn.numbers, MediaSource.create]
  | asked c =>
      cases slot with
      | none => rfl
      | some slot =>
          have hrange := (MediaSource.performs_perform slot.source c).range_buffers
          cases halive : slot.alive <;> simp [handed, Turn.become, Turn.numbers, living, halive, hrange]
  | dropped | sought | marked =>
      cases slot <;> simp [handed, Turn.become, Turn.numbers, MediaSource.setUpdating]

theorem Numbered.perform (h : s.Numbered) (r : Request κ) : (s.perform r).2.Numbered := by
  intro n
  rw [numbers_perform, shown_perform, h n]
  cases hturn : s.turn? n r with
  | none => simp
  | some turn => exact (range_handed_become (h.fits hturn)).symm

/-! ### Scenes -/

/-- What is seen of a turn: the answer to it, the calls that the pipeline receives, and all that the
source is then, except for its url. -/
structure Scene (κ : Type) where
  turn : Turn κ
  answer : Except Failure Answer
  calls : List PipelineCall
  slot : Option (SourceSlot κ)

/-- An answer as the source knows it: a buffer has the number that the source gave it, and the source
itself has none. -/
def answerIn (s : Session κ) : Turn κ → Except Failure Answer → Except Failure Answer
  | .created _, .ok (.number _) => .ok .nothing
  | .asked _, .ok (.number b) => .ok (.found (s.buffers[b]?.map Prod.snd))
  | .sought _, .ok (.found b) => .ok (.found (b.bind fun b => s.buffers[b]?.map Prod.snd))
  | _, a => a

/-- The calls of a turn. -/
def Turn.calls : Turn κ → Option (SourceSlot κ) → List PipelineCall
  | .asked c, slot => (living slot).elim [] (·.callsOn c)
  | _, _ => []

def scene (s : Session κ) (n : ℕ) (r : Request κ) (turn : Turn κ) : Scene κ where
  turn := turn
  answer := (s.perform r).2.answerIn turn (s.perform r).1
  calls := turn.calls s.sources[n]?
  slot := (s.perform r).2.shown n

/-- The answer of a source as it gives it. -/
def tell : Except MediaSource.Failure MediaSource.Answer → Except Failure Answer
  | .error e => .error (.source e)
  | .ok .nothing => .ok .nothing
  | .ok (.events events) => .ok (.events events)
  | .ok (.buffer number) => .ok (.found (some number))

/-- What a source answers in a turn. -/
def Turn.answer : Turn κ → Option (SourceSlot κ) → Except Failure Answer
  | .created _, _ | .marked _ _, _ => .ok .nothing
  | .dropped, slot => if slot.isSome then .ok .nothing else .error .unavailable
  | .asked c, slot => (living slot).elim (.error .unavailable) fun source =>
      tell (source.perform c).1
  | .sought type, slot => (living slot).elim (.error .unavailable) fun source =>
      .ok (.found ((source.sourceBuffer? type).bind fun number =>
        if number < source.buffers.length then some number else none))

theorem calls_shown (turn : Turn κ) (s : Session κ) (n : ℕ) :
    turn.calls s.sources[n]? = turn.calls (s.shown n) := by
  cases turn with
  | asked c =>
      simp only [Turn.calls, living_shown, ← source?_eq_living]
      cases s.source? n with
      | none => rfl
      | some source =>
          simp only [Option.elim_some, Option.map_some, MediaSource.callsOn_eq]
          cases c <;> rfl
  | _ => rfl

theorem answerIn_command (source : MediaSource κ) (hsource : s.source? n = some source)
    (c : MediaSource.Command) :
    (s.command n c).2.answerIn (.asked c) (s.command n c).1 = tell (source.perform c).1 := by
  rw [command_eq hsource]
  cases (source.perform c).1 with
  | error e => rfl
  | ok a =>
      cases a with
      | buffer number => simp [passOn, answerIn, tell, handedOut]
      | _ => rfl

omit [PipelineController κ] in
theorem number_of_buffer (s : Session κ) (n number : ℕ) :
    ((s.bufferNumber? n number).bind fun b => s.buffers[b]?.map Prod.snd) =
      if (n, number) ∈ s.buffers then some number else none := by
  cases hfound : s.bufferNumber? n number with
  | none =>
      have hnew : (n, number) ∉ s.buffers := List.idxOf?_eq_none_iff.mp hfound
      simp [hnew]
  | some b =>
      obtain ⟨hb, heq, -⟩ := List.findIdx?_eq_some_iff_getElem.mp hfound
      have hbuffer : s.buffers[b] = (n, number) := eq_of_beq heq
      have hmem : (n, number) ∈ s.buffers := hbuffer ▸ List.getElem_mem hb
      simp [hb, hbuffer, hmem]

/-- What a source answers is decided by the turn and by what it was before. -/
theorem answerIn_perform (hcoherent : s.Coherent) (hnumbered : s.Numbered)
    (hturn : s.turn? n r = some turn) :
    (s.perform r).2.answerIn turn (s.perform r).1 = turn.answer (s.shown n) := by
  cases r with
  | createSource controller urls =>
      simp only [turn?, Option.ite_none_right_eq_some] at hturn
      obtain ⟨⟨-, hfresh⟩, heq⟩ := hturn
      cases heq
      obtain ⟨url, hurl⟩ := Option.isSome_iff_exists.mp hfresh
      simp [perform, createSource_eq hurl, answerIn, Turn.answer]
  | dropSource m =>
      simp only [turn?, Option.ite_none_right_eq_some] at hturn
      obtain ⟨rfl, heq⟩ := hturn
      cases heq
      simp only [perform, hcoherent.dropSource_eq, answerIn, Turn.answer, shown]
      by_cases hm : m < s.sources.length <;> simp [hm]
  | command m c =>
      simp only [turn?, Option.ite_none_right_eq_some] at hturn
      obtain ⟨rfl, heq⟩ := hturn
      cases heq
      simp only [perform, Turn.answer, living_shown]
      cases hsource : s.source? m with
      | none => simp [command_unavailable hsource, answerIn]
      | some source => simp [answerIn_command source hsource, MediaSource.perform_renamed]
  | findBuffer m type =>
      simp only [turn?, Option.ite_none_right_eq_some] at hturn
      obtain ⟨rfl, heq⟩ := hturn
      cases heq
      simp only [perform, Turn.answer, living_shown]
      cases hsource : s.source? m with
      | none => simp [answerIn]
      | some source =>
          have hhanded : handed (s.shown m) = source.buffers.length := by
            simp [shown, source?_eq_some.mp hsource, handed, SourceSlot.unnamed]
          simp only [answerIn, Option.bind_assoc, number_of_buffer, hnumbered.mem_iff, hhanded]
          rfl
  | setUpdating b updating =>
      simp only [turn?, Option.bind_eq_some_iff, Option.ite_none_right_eq_some] at hturn
      obtain ⟨⟨m, number⟩, hbuffer, rfl, heq⟩ := hturn
      cases heq
      obtain ⟨slot, hslot, -⟩ :=
        lt_handed_iff.mp (hnumbered.mem_iff.mp (List.mem_of_getElem? hbuffer))
      obtain ⟨slot', hslot', -⟩ := Option.map_eq_some_iff.mp hslot
      simp [perform, hbuffer, hslot', answerIn, Turn.answer]
  | _ => cases hturn

/-- What is seen of a source that has a turn. -/
def Turn.scene (turn : Turn κ) (slot : Option (SourceSlot κ)) : Scene κ :=
  ⟨turn, turn.answer slot, turn.calls slot, turn.become slot⟩

theorem scene_eq (hcoherent : s.Coherent) (hnumbered : s.Numbered)
    (hturn : s.turn? n r = some turn) : s.scene n r turn = turn.scene (s.shown n) := by
  rw [scene, answerIn_perform hcoherent hnumbered hturn, calls_shown, shown_perform, hturn]
  rfl

/-! ### Alone -/

/-- The turns of a source in a run. -/
def turns (s : Session κ) (n : ℕ) : List (Request κ) → List (Turn κ)
  | [] => []
  | r :: requests => (s.turn? n r).toList ++ (s.perform r).2.turns n requests

/-- What is seen of a source in a run, from one turn to the next. -/
def account (s : Session κ) (n : ℕ) : List (Request κ) → List (Scene κ)
  | [] => []
  | r :: requests =>
      ((s.turn? n r).map (s.scene n r)).toList ++ (s.perform r).2.account n requests

/-- The turn as a request in a session that has no other source. -/
def Turn.alone (url : String) : Turn κ → Request κ
  | .created controller => .createSource controller [url]
  | .dropped => .dropSource 0
  | .asked c => .command 0 c
  | .sought type => .findBuffer 0 type
  | .marked number updating => .setUpdating number updating

/-- A session in which no source but the first one has handed out buffers. -/
structure Solitary (s : Session κ) : Prop where
  coherent : s.Coherent
  numbered : s.Numbered
  first : ∀ b ∈ s.buffers, b.1 = 0

omit [PipelineController κ] in
theorem solitary_peopled (elements : List PresentationElement) :
    (peopled elements : Session κ).Solitary where
  coherent := coherent_empty
  numbered := numbered_peopled elements
  first := by simp [peopled, empty]

omit [PipelineController κ] in
theorem Solitary.getElem?_buffers (h : s.Solitary) {number : ℕ} (hnumber : number < handed (s.shown 0)) :
    s.buffers[number]? = some (0, number) := by
  have hall : s.buffers.filter (fun b => b.1 = 0) = s.buffers :=
    List.filter_eq_self.mpr fun b hb => decide_eq_true (h.first b hb)
  have hnumbers := h.numbered 0
  rw [numbers, hall] at hnumbers
  have hget : (s.buffers.map Prod.snd)[number]? = some number := by simp [hnumbers, hnumber]
  rw [List.getElem?_map, Option.map_eq_some_iff] at hget
  obtain ⟨⟨m, number'⟩, hbuffer, rfl⟩ := hget
  have hm : m = 0 := h.first _ (List.mem_of_getElem? hbuffer)
  rw [hbuffer, hm]

omit [PipelineController κ] in
/-- There, the turn is a turn of the first source. -/
theorem Solitary.turn?_alone (h : s.Solitary) (hfits : turn.Fits (s.shown 0)) (url : String) :
    s.turn? 0 (turn.alone url) = some turn := by
  cases turn with
  | created controller =>
      have hnone : s.sources.length = 0 := Nat.eq_zero_of_le_zero (shown_eq_none.mp hfits)
      have hurl : s.freshUrl? [url] = some url := by
        have hfree : s.registry.contains url ≠ true := by
          rw [ne_eq, h.coherent.contains_iff]
          simp [url?_of_slot, List.length_eq_zero_iff.mp hnone]
        simp [freshUrl?, hfree]
      simp [Turn.alone, turn?, hnone, hurl]
  | marked number updating =>
      have hbuffer := h.getElem?_buffers (lt_handed_iff.mpr hfits)
      simp [Turn.alone, turn?, hbuffer]
  | dropped | asked | sought => simp [Turn.alone, turn?]

omit [PipelineController κ] in
theorem isOrderly_alone (turn : Turn κ) (url : String) : (turn.alone url).isOrderly = true := by
  cases turn <;> rfl

theorem Solitary.perform (h : s.Solitary) (turn : Turn κ) (url : String) :
    (s.perform (turn.alone url)).2.Solitary where
  coherent := h.coherent.perform (isOrderly_alone turn url)
  numbered := h.numbered.perform _
  first b hb := by
    rw [buffers_perform] at hb
    cases turn with
    | asked c =>
        simp only [Turn.alone, List.mem_append] at hb
        rcases hb with hb | hb
        · exact h.first b hb
        · cases hsource : s.source? 0 with
          | none => simp [hsource] at hb
          | some source =>
              rw [hsource, Option.elim_some] at hb
              unfold handedOut at hb
              split at hb
              · simpa using congrArg Prod.fst (List.mem_singleton.mp hb)
              · cases hb
    | _ => exact h.first b hb

/-- A source that is the same in both sessions stays the same, and the same is seen of it. -/
theorem account_alone {t : Session κ} (hcoherent : s.Coherent) (hnumbered : s.Numbered)
    (ht : t.Solitary) (hsame : s.shown n = t.shown 0) (url : String)
    (requests : List (Request κ)) (horderly : ∀ r ∈ requests, r.isOrderly = true) :
    (s.after requests).shown n =
        (t.after ((s.turns n requests).map (·.alone url))).shown 0 ∧
      s.account n requests = t.account 0 ((s.turns n requests).map (·.alone url)) := by
  induction requests generalizing s t with
  | nil => exact ⟨hsame, rfl⟩
  | cons r requests ih =>
      rw [List.forall_mem_cons] at horderly
      have hstep := shown_perform s r n
      simp only [after_cons, turns, account]
      cases hturn : s.turn? n r with
      | none =>
          rw [hturn, Option.elim_none, hsame] at hstep
          exact ih (hcoherent.perform horderly.1) (hnumbered.perform r) ht hstep horderly.2
      | some turn =>
          have hfits := hnumbered.fits hturn
          rw [hturn, Option.elim_some, hsame] at hstep
          rw [hsame] at hfits
          have halone := ht.turn?_alone hfits url
          have hstep' := shown_perform t (turn.alone url) 0
          rw [halone, Option.elim_some] at hstep'
          obtain ⟨hshown, haccount⟩ := ih (hcoherent.perform horderly.1) (hnumbered.perform r)
            (ht.perform turn url) (hstep.trans hstep'.symm) horderly.2
          refine ⟨hshown, ?_⟩
          simp only [Option.map_some, Option.toList_some, List.singleton_append, List.map_cons,
            account, halone]
          rw [scene_eq hcoherent hnumbered hturn, scene_eq ht.coherent ht.numbered halone, hsame,
            haccount]

/-- Sources do not interfere. Whatever is requested of a session in which only sources register and
unregister, what is seen of one of its sources is what is seen of a source that has the same turns in
the same order and no other source beside it, under any url and whatever elements there are; and at
the end the two are the same, their urls aside. -/
theorem sources_do_not_interfere (requests : List (Request κ))
    (horderly : ∀ r ∈ requests, r.isOrderly = true) (n : ℕ) (url : String)
    (elements : List PresentationElement) :
    let alone := ((empty : Session κ).turns n requests).map (·.alone url)
    (empty.after requests).shown n = ((peopled elements).after alone).shown 0 ∧
      empty.account n requests = (peopled elements).account 0 alone := by
  have hsame : (empty : Session κ).shown n = (peopled elements : Session κ).shown 0 := by
    simp [shown, peopled, empty]
  exact account_alone coherent_empty (numbered_peopled []) (solitary_peopled elements) hsame url
    requests horderly

/-- Two sources with one element. The first one is attached twice, its buffer goes on updating, and it
is dropped while it is open; the second one comes to an end in between. -/
def sideBySide : List (Request BasicPipeline) :=
  [.createElement, .createSource .initial ["blob:a"], .createSource .initial ["blob:a", "blob:b"],
    .command 0 (.attach 0), .command 0 (.addSourceBuffer "audio/mp4"), .setUpdating 0 true,
    .command 0 (.attach 0), .command 1 (.attach 0), .command 1 (.addSourceBuffer "video/mp4"),
    .findBuffer 1 .video, .setUpdating 1 true, .command 1 (.endOfStream none), .dropSource 0,
    .setUpdating 1 false, .setUpdating 0 true, .command 1 (.endOfStream none), .dropSource 1]

theorem side_by_side_do_not_interfere :
    (∀ r ∈ sideBySide, r.isOrderly = true) ∧
      empty.account 1 sideBySide =
        (peopled []).account 0 ((empty.turns 1 sideBySide).map (·.alone "blob:c")) ∧
      (empty.account 1 sideBySide).map (·.answer) =
        [.ok .nothing, .ok .nothing, .ok (.found (some 0)), .ok (.found (some 0)), .ok .nothing,
          .error (.source (.script (.updating .endOfStream))), .ok .nothing, .ok .nothing,
          .ok .nothing] ∧
      (empty.account 1 sideBySide).flatMap (·.calls) = [.addSource "video/mp4", .endOfStream] := by
  have horderly : ∀ r ∈ sideBySide, r.isOrderly = true := by decide
  exact ⟨horderly, (sources_do_not_interfere sideBySide horderly 1 "blob:c" []).2,
    by decide, by decide⟩

end Session

end ProtectedMedia
