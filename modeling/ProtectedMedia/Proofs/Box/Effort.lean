import Mathlib.Logic.Function.Iterate
import ProtectedMedia.Proofs.Box.Shown
import ProtectedMedia.Proofs.Box.Succession
import ProtectedMedia.Proofs.Box.Visits

/-!
# How long a walk takes

A walk is carried out turn by turn. It keeps the boxes that it is in, each with what is left to read
of it, and in a turn it reads the next box of the innermost one or leaves that. Every box takes eight
bytes of what is left, and what it holds is cut out of the rest, so there are no more than two turns
for every eight bytes, whatever sizes and counts the data declares and whatever boxes may hold each
other.
-/
namespace ProtectedMedia.Walk

variable {layout : Layout} {lenient : Bool} {base : ℕ} {limit : Option ℕ} {c c' : Cursor}
  {b : Box} {d : Declaration}

/-! ### Turns -/

/-- The boxes inside a box, or those of the whole data, as far as they have not been read. -/
structure Level where
  inside : Option Box
  base : ℕ
  limit : Option ℕ
  cursor : Cursor

/-- The level when a box of it has been read, up to a cursor. -/
def Level.behind (l : Level) (next : Cursor) : Level :=
  { l with limit := l.limit.map (· - 1), cursor := next }

/-- What a walk has met so far, and the levels that it is in, innermost first. Without any it has
come to its end. -/
structure Stage where
  met : Trace
  levels : List Level

namespace Stage

/-- The next turn, at a level. -/
def turn (layout : Layout) (lenient : Bool) (met : List Event) (l : Level) (outer : List Level) :
    Stage :=
  if l.limit = some 0 ∨ !l.cursor.hasMore then
    ⟨⟨met ++ (l.inside.map Event.closed).toList, none⟩, outer⟩
  else
    match box layout lenient l.base l.cursor with
    | .error fault => ⟨⟨met, some fault⟩, []⟩
    | .ok (none, next) => ⟨⟨met, none⟩, l.behind next :: outer⟩
    | .ok (some (b, d), next) =>
      match enter d.content (Cursor.ofBytes b.payload) with
      | .error fault => ⟨⟨met ++ [.opened b], some fault⟩, []⟩
      | .ok (none, _) => ⟨⟨met ++ [.opened b, .closed b], none⟩, l.behind next :: outer⟩
      | .ok (some count, start) =>
        ⟨⟨met ++ [.opened b], none⟩,
          ⟨some b, b.start + b.headerSize, count, start⟩ :: l.behind next :: outer⟩

/-- A walk that has come to its end stays there. -/
def next (layout : Layout) (lenient : Bool) (p : Stage) : Stage :=
  match p.levels with
  | [] => p
  | l :: outer => turn layout lenient p.met.events l outer

def start (data : Bytes) : Stage :=
  ⟨.done, [⟨none, 0, none, Cursor.ofBytes data⟩]⟩

/-- Where the walk through the data ends. -/
def ended (met : Trace) : Stage := ⟨met, []⟩

theorem next_ended (layout : Layout) (lenient : Bool) (met : Trace) :
    next layout lenient (ended met) = ended met := rfl

end Stage

/-! ### What a turn takes -/

/-- Every turn at these levels pays for itself: two of them for each eight bytes, and one to leave a
level. -/
def effort (levels : List Level) : ℕ := (levels.map fun l => l.cursor.rest.length / 4 + 1).sum

theorem effort_cons (l : Level) (levels : List Level) :
    effort (l :: levels) = l.cursor.rest.length / 4 + 1 + effort levels := by
  rw [effort, List.map_cons, List.sum_cons]
  rfl

theorem effort_turn (met : List Event) (l : Level) (outer : List Level) :
    effort (Stage.turn layout lenient met l outer).levels + 1 ≤ effort (l :: outer) := by
  have hbehind {next : Cursor} : effort (l.behind next :: outer) =
      next.rest.length / 4 + 1 + effort outer := effort_cons _ _
  rw [effort_cons, Stage.turn]
  split
  · dsimp only
    omega
  · split
    · change 0 + 1 ≤ _
      omega
    · rename_i next hstep
      have : 8 + 0 + next.rest.length ≤ l.cursor.rest.length :=
        consumes_box layout lenient l.base l.cursor _ _ hstep
      rw [hbehind]
      omega
    · rename_i b d next hstep
      have htaken : 8 + b.payload.length + next.rest.length ≤ l.cursor.rest.length :=
        consumes_box layout lenient l.base l.cursor _ _ hstep
      split
      · change 0 + 1 ≤ _
        omega
      · rw [hbehind]
        omega
      · rename_i count start henter
        have hstart := length_rest_enter henter
        rw [effort_cons, hbehind]
        dsimp only
        omega

theorem effort_next {p : Stage} (h : p.levels ≠ []) :
    effort (p.next layout lenient).levels + 1 ≤ effort p.levels := by
  obtain ⟨met, levels⟩ := p
  cases levels with
  | nil => exact absurd rfl h
  | cons l outer => exact effort_turn met.events l outer

/-- After as many turns as there is effort for, no level is left. -/
theorem levels_iterate {p : Stage} {n : ℕ} (h : effort p.levels ≤ n) :
    ((Stage.next layout lenient)^[n] p).levels = [] := by
  induction n generalizing p with
  | zero =>
      cases hlevels : p.levels with
      | nil => exact hlevels
      | cons l outer =>
          rw [hlevels, effort_cons] at h
          omega
  | succ n ih =>
      rw [Function.iterate_succ_apply]
      by_cases hlevels : p.levels = []
      · apply ih
        have hsame : p.next layout lenient = p := by rw [Stage.next, hlevels]
        rw [hsame, hlevels]
        exact Nat.zero_le n
      · have hless : effort (p.next layout lenient).levels + 1 ≤ _ := effort_next hlevels
        exact ih (by omega)

/-! ### Where the turns lead -/

/-- Turns that lead from one stage to another. -/
inductive Turns (layout : Layout) (lenient : Bool) : Stage → Stage → Prop
  | none (p : Stage) : Turns layout lenient p p
  | cons {p q : Stage} (h : Turns layout lenient (p.next layout lenient) q) :
      Turns layout lenient p q

namespace Turns

variable {p q r : Stage} {met : List Event} {l : Level} {outer : List Level}

theorem trans (h : Turns layout lenient p q) (h' : Turns layout lenient q r) :
    Turns layout lenient p r := by
  induction h with
  | none p => exact h'
  | cons _ ih => exact .cons (ih h')

/-- A turn at a level and those behind it. -/
theorem turn (h : Stage.turn layout lenient met l outer = p) (hp : Turns layout lenient p q) :
    Turns layout lenient ⟨⟨met, .none⟩, l :: outer⟩ q := by
  subst h
  exact .cons hp

/-- Turns that lead to the end lead nowhere else: as many as leave no level have led there. -/
theorem iterate_eq {t : Trace} (h : Turns layout lenient p q) (hq : q = .ended t) {n : ℕ}
    (hn : ((Stage.next layout lenient)^[n] p).levels = []) :
    (Stage.next layout lenient)^[n] p = .ended t := by
  induction h generalizing n with
  | none p =>
      subst hq
      exact Function.iterate_fixed (Stage.next_ended layout lenient t) n
  | @cons p q _ ih =>
      cases n with
      | zero =>
          have hsame : p.next layout lenient = p := by
            rw [Stage.next, show p.levels = [] from hn]
          have hend := ih hq (n := 0)
          rw [hsame] at hend
          exact hend hn
      | succ n =>
          rw [Function.iterate_succ_apply] at hn ⊢
          exact ih hq hn

end Turns

/-- Behind a level that has been walked through: outside of it, or at the end. -/
def Stage.outside (met : List Event) (inside : Option Box) (t : Trace) (outer : List Level) :
    Stage :=
  match t.fault with
  | none => ⟨⟨met ++ t.events ++ (inside.map Event.closed).toList, none⟩, outer⟩
  | some fault => .ended ⟨met ++ t.events, some fault⟩

theorem Stage.outside_of_fault {met : List Event} {inside : Option Box} {t : Trace}
    {outer : List Level} {fault : BoxFault} (h : t.fault = some fault) :
    outside met inside t outer = .ended ⟨met ++ t.events, some fault⟩ := by
  rw [outside, h]

theorem Stage.outside_of_done {met : List Event} {inside : Option Box} {t : Trace}
    {outer : List Level} (h : t.fault = none) :
    outside met inside t outer =
      ⟨⟨met ++ t.events ++ (inside.map Event.closed).toList, none⟩, outer⟩ := by
  rw [outside, h]

theorem Stage.outside_after (met es : List Event) (inside : Option Box) (t : Trace)
    (outer : List Level) :
    outside met inside (t.after es) outer = outside (met ++ es) inside t outer := by
  obtain ⟨events, fault⟩ := t
  cases fault <;> simp [outside, Trace.after]

section Turn
variable {inside : Option Box} {met : List Event} {outer : List Level} {next start : Cursor}
  (hmore : ¬(limit = some 0 ∨ !c.hasMore))
include hmore

theorem turn_failed {fault : BoxFault} (hstep : box layout lenient base c = .error fault) :
    Stage.turn layout lenient met ⟨inside, base, limit, c⟩ outer = .ended ⟨met, some fault⟩ := by
  rw [Stage.turn, if_neg hmore, hstep]
  rfl

theorem turn_passed (hstep : box layout lenient base c = .ok (none, next)) :
    Stage.turn layout lenient met ⟨inside, base, limit, c⟩ outer =
      ⟨⟨met, none⟩, ⟨inside, base, limit.map (· - 1), next⟩ :: outer⟩ := by
  rw [Stage.turn, if_neg hmore, hstep]
  rfl

theorem turn_refused {fault : BoxFault}
    (hstep : box layout lenient base c = .ok (some (b, d), next))
    (henter : enter d.content (Cursor.ofBytes b.payload) = .error fault) :
    Stage.turn layout lenient met ⟨inside, base, limit, c⟩ outer =
      .ended ⟨met ++ [.opened b], some fault⟩ := by
  rw [Stage.turn, if_neg hmore, hstep]
  simp only [henter]
  rfl

theorem turn_leaf (hstep : box layout lenient base c = .ok (some (b, d), next))
    (henter : enter d.content (Cursor.ofBytes b.payload) = .ok (none, start)) :
    Stage.turn layout lenient met ⟨inside, base, limit, c⟩ outer =
      ⟨⟨met ++ [.opened b, .closed b], none⟩, ⟨inside, base, limit.map (· - 1), next⟩ :: outer⟩ := by
  rw [Stage.turn, if_neg hmore, hstep]
  simp only [henter]
  rfl

theorem turn_inside {count : Option ℕ}
    (hstep : box layout lenient base c = .ok (some (b, d), next))
    (henter : enter d.content (Cursor.ofBytes b.payload) = .ok (some count, start)) :
    Stage.turn layout lenient met ⟨inside, base, limit, c⟩ outer =
      ⟨⟨met ++ [.opened b], none⟩, ⟨some b, b.start + b.headerSize, count, start⟩ ::
        ⟨inside, base, limit.map (· - 1), next⟩ :: outer⟩ := by
  rw [Stage.turn, if_neg hmore, hstep]
  simp only [henter]
  rfl

end Turn

/-- The turns at a level meet what the walk through it does. -/
theorem turns_boxes (met : List Event) (inside : Option Box) (base : ℕ) (limit : Option ℕ)
    (c : Cursor) (outer : List Level) :
    Turns layout lenient ⟨⟨met, none⟩, ⟨inside, base, limit, c⟩ :: outer⟩
      (.outside met inside (boxes layout lenient base limit c) outer) := by
  induction base, limit, c using boxes.induct layout lenient generalizing met inside outer with
  | case1 base limit c hend =>
      rw [boxes, if_pos hend]
      refine .turn (if_pos hend) ?_
      rw [Stage.outside, Trace.done, List.append_nil]
      exact .none _
  | case2 base limit c hmore fault hstep =>
      rw [boxes_failed hmore hstep]
      refine .turn (turn_failed hmore hstep) ?_
      rw [Stage.outside, Trace.failed, List.append_nil]
      exact .none _
  | case3 base limit c hmore next hstep _ ih =>
      rw [boxes_passed hmore hstep]
      exact .turn (turn_passed hmore hstep) (ih met inside outer)
  | case4 base limit c hmore b d next hstep _ fault henter =>
      rw [boxes_refused hmore hstep henter, Stage.outside_after]
      refine .turn (turn_refused hmore hstep henter) ?_
      rw [Stage.outside, Trace.failed, List.append_nil]
      exact .none _
  | case5 base limit c hmore b d next hstep _ start henter ih =>
      rw [boxes_leaf hmore hstep henter, Stage.outside_after]
      exact .turn (turn_leaf hmore hstep henter) (ih _ inside outer)
  | case6 base limit c hmore b d next hstep _ count start henter _ _ fault hfault ih =>
      rw [boxes_inside hmore hstep henter, Stage.outside_after, Trace.before_of_fault hfault]
      refine .turn (turn_inside hmore hstep henter) ?_
      have hinside := ih (met ++ [.opened b]) (some b)
        (⟨inside, base, limit.map (· - 1), next⟩ :: outer)
      rw [Stage.outside_of_fault hfault] at hinside ⊢
      exact hinside
  | case7 base limit c hmore b d next hstep _ count start henter _ _ hfault ihInside ihNext =>
      rw [boxes_inside hmore hstep henter, Stage.outside_after, Trace.before_of_done hfault,
        Stage.outside_after, Stage.outside_after]
      refine .turn (turn_inside hmore hstep henter) ?_
      have hinside := ihInside (met ++ [.opened b]) (some b)
        (⟨inside, base, limit.map (· - 1), next⟩ :: outer)
      rw [Stage.outside_of_done hfault] at hinside
      exact hinside.trans (ihNext _ inside outer)

/-- No walk takes more than two turns for every eight bytes, and one to come to its end. -/
theorem iterate_start (layout : Layout) (lenient : Bool) (data : Bytes) :
    (Stage.next layout lenient)^[data.length / 4 + 1] (.start data) =
      .ended (trace layout lenient data) := by
  have hturns : Turns layout lenient (.start data)
      (.outside [] none (trace layout lenient data) []) := turns_boxes [] none 0 none _ []
  have hend : Stage.outside [] none (trace layout lenient data) [] =
      .ended (trace layout lenient data) := by
    generalize trace layout lenient data = t
    obtain ⟨events, fault⟩ := t
    cases fault with
    | none => rw [Stage.outside_of_done rfl, Option.map_none, Option.toList_none, List.append_nil]; rfl
    | some fault => exact Stage.outside_of_fault rfl
  have heffort : effort (Stage.start data).levels = data.length / 4 + 1 := effort_cons _ []
  exact hturns.iterate_eq hend (levels_iterate heffort.le)

/-! ### Boxes and bytes -/

theorem le_start_of_mem_boxes (h : b ∈ (boxes layout lenient base limit c).boxes) :
    base + c.position ≤ b.start :=
  le_start_of_boxes _ (opened_of_mem_boxes h)

/-- A walk meets its boxes one behind the other, with eight bytes at least from each start to the
next. -/
theorem gap_boxes (layout : Layout) (lenient : Bool) (base : ℕ) (limit : Option ℕ) (c : Cursor) :
    (boxes layout lenient base limit c).boxes.Pairwise fun b b' => b.start + 8 ≤ b'.start := by
  induction base, limit, c using boxes.induct layout lenient with
  | case1 base limit c hend =>
      rw [boxes, if_pos hend]
      exact .nil
  | case2 base limit c hmore fault hstep =>
      rw [boxes_failed hmore hstep]
      exact .nil
  | case3 base limit c hmore next hstep _ ih =>
      rw [boxes_passed hmore hstep]
      exact ih
  | case4 base limit c hmore b d next hstep _ fault henter =>
      rw [boxes_refused hmore hstep henter]
      exact List.pairwise_singleton _ _
  | case5 base limit c hmore b d next hstep _ start henter ih =>
      rw [boxes_leaf hmore hstep henter]
      refine ih.cons fun b' hb' => ?_
      have hstart := le_start_of_mem_boxes hb'
      rw [(extent_of_box hstep).1]
      have := position_lt_of_box hstep
      omega
  | case6 base limit c hmore b d next hstep _ count start henter _ _ fault hfault ih =>
      rw [boxes_inside hmore hstep henter, Trace.before_of_fault hfault]
      refine ih.cons fun b' hb' => ?_
      have hstart := le_start_of_mem_boxes hb'
      have := le_headerSize b
      omega
  | case7 base limit c hmore b d next hstep _ count start henter _ _ hfault ihInside ihNext =>
      have hall : (boxes layout lenient base limit c).boxes =
          b :: ((boxes layout lenient (b.start + b.headerSize) count start).boxes ++
            (boxes layout lenient base (limit.map (· - 1)) next).boxes) := by
        rw [boxes_inside hmore hstep henter, Trace.before_of_done hfault]
        change b :: (Trace.mk (_ ++ .closed b :: _) _).boxes = _
        rw [Trace.boxes_append]
        rfl
      have h8 := le_headerSize b
      have hstop := stop_of_box hstep
      rw [hall]
      -- what is inside `b` ends where `b` does, and what comes behind `b` starts there
      refine (List.pairwise_append.mpr ⟨ihInside, ihNext, fun b₁ hb₁ b₂ hb₂ => ?_⟩).cons
        fun b' hb' => ?_
      · have hwithin : Within b.stop b₁ :=
          within_boxes (within_inside (Nat.le_refl b.stop) henter) _ (opened_of_mem_boxes hb₁)
        have hstart := le_start_of_mem_boxes hb₂
        have := le_headerSize b₁
        rw [Within] at hwithin
        omega
      · rcases List.mem_append.mp hb' with hb' | hb'
        · have hstart := le_start_of_mem_boxes hb'
          omega
        · have hstart := le_start_of_mem_boxes hb'
          rw [Box.stop] at hstop
          omega

/-- Starts with such gaps between them, all in front of an end, are few. -/
theorem length_le_of_gaps {bs : List Box} {first stop : ℕ}
    (hgaps : bs.Pairwise fun b b' => b.start + 8 ≤ b'.start)
    (hfirst : ∀ b ∈ bs, first ≤ b.start) (hstop : ∀ b ∈ bs, b.start + 8 ≤ stop)
    (hle : first ≤ stop) : first + 8 * bs.length ≤ stop := by
  induction bs generalizing first with
  | nil => simpa using hle
  | cons b bs ih =>
      obtain ⟨hgap, hgaps⟩ := List.pairwise_cons.mp hgaps
      have hb := hfirst b List.mem_cons_self
      have := ih hgaps hgap (fun b' hb' => hstop b' (List.mem_cons_of_mem _ hb'))
        (hstop b List.mem_cons_self)
      rw [List.length_cons]
      omega

/-- A declared box is cut out of what is left to read, behind eight bytes at least. -/
theorem length_payload_le (hstep : box layout lenient base c = .ok (some (b, d), c')) :
    b.payload.length + 8 ≤ c.length := by
  have hroom := (extent_of_box hstep).2
  have h8 := le_headerSize b
  rw [c.length_rest] at hroom
  change _ ≤ c.data.length
  omega

theorem position_le_of_box {r : Option (Box × Declaration)}
    (hstep : box layout lenient base c = .ok (r, c')) : c'.position ≤ c.length := by
  obtain ⟨-, hroom, hposition⟩ := position_of_box hstep
  have h8 := (le_fieldsSize c.rest).trans (fieldsSize_le_leadSize layout c.rest)
  rw [c.length_rest] at hroom hposition
  change _ ≤ c.data.length
  omega

/-! ### Whole data -/

/-- A walk always comes to its end, whatever the layout declares and the data says. Each box that is
read takes it eight bytes on at least, inside the data, and what is walked inside a box is shorter
by eight bytes than what the box is read from. The end is there after two turns for every eight
bytes of the data and one more. A handler is given boxes that start eight bytes apart at least, and
so no more than one for every eight bytes. -/
theorem walk_ends (layout : Layout) (lenient : Bool) (data : Bytes) :
    (∀ base c r c', box layout lenient base c = .ok (r, c') →
        c.position + 8 ≤ c'.position ∧ c'.position ≤ c.length) ∧
      (∀ base c b d c', box layout lenient base c = .ok (some (b, d), c') →
        (Cursor.ofBytes b.payload).length + 8 ≤ c.length) ∧
      (Stage.next layout lenient)^[data.length / 4 + 1] (.start data) =
        .ended (trace layout lenient data) ∧
      ∀ (τ : Type) (handler : τ → Event → Except Error τ) (start : τ),
        (Trace.shown handler start (trace layout lenient data).events).Pairwise
            (fun b b' => b.start + 8 ≤ b'.start) ∧
          (Trace.shown handler start (trace layout lenient data).events).length ≤
            data.length / 8 := by
  refine ⟨fun base c r c' hstep => ⟨position_lt_of_box hstep, position_le_of_box hstep⟩,
    fun base c b d c' hstep => length_payload_le hstep, iterate_start layout lenient data,
    fun τ handler start => ?_⟩
  have hgaps : (trace layout lenient data).boxes.Pairwise fun b b' => b.start + 8 ≤ b'.start :=
    gap_boxes layout lenient 0 none _
  have hshown : Trace.shown handler start (trace layout lenient data).events <+:
      (trace layout lenient data).boxes := Trace.shown_prefix_boxes handler start _ _
  have hstop : ∀ b ∈ (trace layout lenient data).boxes, b.start + 8 ≤ data.length := by
    intro b hb
    have hwithin : Within data.length b := within_trace data _ (opened_of_mem_boxes hb)
    have h8 := le_headerSize b
    rw [Within] at hwithin
    omega
  have hshort := length_le_of_gaps (hgaps.sublist hshown.sublist) (fun b _ => Nat.zero_le b.start)
    (fun b hb => hstop b (hshown.subset hb)) (Nat.zero_le data.length)
  exact ⟨hgaps.sublist hshown.sublist, by omega⟩

/-- A container that may hold itself, and sample descriptions. -/
def recursiveLayout : Layout := [(.moov, ⟨false, .boxes⟩), (.stsd, ⟨true, .sampleDescription⟩)]

/-- A container with a wide size, in it one that reaches to the end, in that a sample description that
declares as many entries as it can, and one of them. -/
def boastful : Bytes :=
  Bytes.ofNat 4 1 ++ Bytes.ofUInt32 FourCC.moov ++ Bytes.ofNat 8 48 ++
    (Bytes.ofNat 4 0 ++ Bytes.ofUInt32 FourCC.moov ++
      (Bytes.ofNat 4 24 ++ Bytes.ofUInt32 FourCC.stsd ++ Bytes.ofNat 4 0 ++
        Bytes.ofNat 4 0xffffffff ++ (Bytes.ofNat 4 8 ++ Bytes.ofUInt32 FourCC.moov)))

theorem walk_ends_in_containers :
    (∃ b c', box recursiveLayout false 0 (.ofBytes boastful) = .ok (some (b, ⟨false, .boxes⟩), c') ∧
        0 + 8 ≤ c'.position ∧ c'.position ≤ 48 ∧ (Cursor.ofBytes b.payload).length + 8 ≤ 48) ∧
      (Stage.next recursiveLayout false)^[13] (.start boastful) =
        .ended (trace recursiveLayout false boastful) ∧
      (Trace.shown (fun n (_ : Event) => .ok (n + 1)) 0
        (trace recursiveLayout false boastful).events).map Box.start = [0, 16, 24, 40] ∧
      (Trace.shown (fun n (_ : Event) => .ok (n + 1)) 0
        (trace recursiveLayout false boastful).events).length ≤ 48 / 8 := by
  obtain ⟨hmoves, hinside, hend, hshown⟩ := walk_ends recursiveLayout false boastful
  have hstep : box recursiveLayout false 0 (.ofBytes boastful) =
      .ok (some (⟨.moov, 0, 48, none, true, boastful.drop 16⟩, ⟨false, .boxes⟩),
        (Cursor.ofBytes boastful).forward 48) := rfl
  obtain ⟨hforward, hstays⟩ := hmoves _ _ _ _ hstep
  exact ⟨⟨_, _, hstep, hforward, hstays, hinside _ _ _ _ _ hstep⟩, hend, by decide +kernel,
    (hshown ℕ _ 0).2⟩

end ProtectedMedia.Walk
