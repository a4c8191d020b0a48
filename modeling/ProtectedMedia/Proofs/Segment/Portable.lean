import ProtectedMedia.Proofs.Box.Description
import ProtectedMedia.Proofs.Box.Framed
import ProtectedMedia.Proofs.Segment.Moved
import ProtectedMedia.Proofs.Segment.Samples

/-!
# Samples behind other segments

A segment whose boxes end where it ends can be followed by another one. Extraction then yields the
samples of both, those of the second one further on by the size of the first. What is known at the
end of the first segment is of no use to the second one, because each of its track fragments lies in a
movie fragment of its own and counts from there.
-/
namespace ProtectedMedia.Segment

open Event Walk

variable {track : TrackEncryption} {n limit limit' : ℕ} {b : Box} {d : Declaration}
  {f g : Fragment} {p p' q : Progress} {es : List Event} {around : List Box}

/-! ### Boxes that cover their headers -/

/-- Movie and track fragments hold boxes; the boxes inside a track fragment are leaves with version
and flags. -/
theorem declared_of_find? {type : FourCC} (h : layout.find? type = some d) :
    d = ⟨false, .boxes⟩ ∧ (type = .moof ∨ type = .traf) ∨
      d = ⟨true, .leaf⟩ ∧ (type = .tfhd ∨ type = .trun ∨ type = .senc) := by
  obtain ⟨before, after, hlist, -⟩ := List.lookup_eq_some_iff.mp h
  have hmem : (type, d) ∈ layout := by
    rw [hlist]
    simp
  simp only [layout, List.mem_cons, Prod.mk.injEq, List.not_mem_nil, or_false] at hmem
  rcases hmem with ⟨htype, rfl⟩ | ⟨htype, rfl⟩ | ⟨htype, rfl⟩ | ⟨htype, rfl⟩ | ⟨htype, rfl⟩
  · exact .inl ⟨rfl, .inl htype⟩
  · exact .inl ⟨rfl, .inr htype⟩
  · exact .inr ⟨rfl, .inl htype⟩
  · exact .inr ⟨rfl, .inr (.inl htype)⟩
  · exact .inr ⟨rfl, .inr (.inr htype)⟩

theorem field_of_full (h : layout.find? b.type = some d) (hfull : d.full = true) :
    b.type = .tfhd ∨ b.type = .trun ∨ b.type = .senc := by
  rcases declared_of_find? h with ⟨rfl, -⟩ | ⟨-, htype⟩
  · cases hfull
  · exact htype

theorem payload_ne_nil (h : readField track limit f b = .ok g)
    (htype : b.type = .tfhd ∨ b.type = .trun ∨ b.type = .senc) : b.payload ≠ [] := by
  have htook {n : ℕ} {c : Cursor} (hread : (Cursor.ofBytes b.payload).Took (Bytes.ofNat 4 n) c) :
      b.payload ≠ [] := by
    intro hnil
    have hrest := congrArg List.length hread.rest
    change b.payload.length = _ at hrest
    rw [hnil, List.length_append, Bytes.length_ofNat, List.length_nil] at hrest
    omega
  cases readField_eq_ok.mp h with
  | header _ hparse =>
      obtain ⟨c, hread⟩ := Box.parse_eq_ok.mp hparse
      obtain ⟨id, c₁, hid, -⟩ := Reader.bind_eq_ok.mp hread
      exact htook (Reader.took_word hid)
  | run _ hparse =>
      obtain ⟨c, hread⟩ := Box.parse_eq_ok.mp hparse
      obtain ⟨count, c₁, hcount, -⟩ := Reader.bind_eq_ok.mp hread
      exact htook (Reader.took_unsigned hcount)
  | encryption _ hparse =>
      obtain ⟨c, hread⟩ := Box.parse_eq_ok.mp hparse
      obtain ⟨count, c₁, hcount, -⟩ := Reader.bind_eq_ok.mp hread
      exact htook (Reader.took_unsigned hcount)
  | other htfhd htrun hsenc => simp_all

theorem exists_step_of_foldlM {e : Event} (h : es.foldlM (step track limit) p = .ok q)
    (he : e ∈ es) : ∃ r s, step track limit r e = .ok s := by
  induction es generalizing p with
  | nil => cases he
  | cons e' es ih =>
      rw [List.foldlM_cons] at h
      obtain ⟨next, hstep, hrest⟩ := Error.bind_eq_ok.mp h
      rcases List.mem_cons.mp he with rfl | he
      · exact ⟨p, next, hstep⟩
      · exact ih hrest he

/-- If extraction succeeds, then every box it met covers its header. -/
theorem headerSize_le_of_samples {data : Bytes} {found : List Sample}
    (h : samples track data = .ok found) :
    ∀ b, .opened b ∈ (trace layout false data).events → b.headerSize ≤ b.size := by
  intro b hb
  obtain ⟨q, -, hrun, -⟩ := samples_eq_ok h
  have hopened : b ∈ (trace layout false data).boxes := List.mem_filterMap.mpr ⟨_, hb, rfl⟩
  obtain ⟨e, hdescribes⟩ := exists_describes layout false data b hopened
  apply hdescribes.headerSize_le
  by_cases hfull : b.full = none
  · exact .inl hfull
  · right
    obtain ⟨content, hdeclared⟩ := hdescribes.declared
    have htype := field_of_full hdeclared (Option.isSome_iff_ne_none.mpr hfull)
    have hmoof : b.type ≠ .moof := by rcases htype with h | h | h <;> rw [h] <;> decide
    have htraf : b.type ≠ .traf := by rcases htype with h | h | h <;> rw [h] <;> decide
    obtain ⟨r, s, hstep⟩ := exists_step_of_foldlM hrun hb
    rw [step_field hmoof htraf] at hstep
    obtain ⟨g, hread, -⟩ := Error.map_eq_ok.mp hstep
    exact payload_ne_nil hread htype

/-! ### The first segment -/

theorem step_grown {e : Event} (h : step track limit p e = .ok q) (hlimit : limit ≤ limit') :
    step track limit' p e = .ok q := by
  cases e with
  | opened b =>
      by_cases hmoof : b.type = .moof
      · rwa [step_moof hmoof] at h ⊢
      · by_cases htraf : b.type = .traf
        · rwa [step_traf htraf] at h ⊢
        · rw [step_field hmoof htraf] at h ⊢
          obtain ⟨g, hread, rfl⟩ := Error.map_eq_ok.mp h
          obtain ⟨g', hread', hsame⟩ := readField_grown hread hlimit p.fragment
          rw [hread', hsame rfl]
          rfl
  | closed b =>
      by_cases htraf : b.type = .traf
      · rw [step_trafEnd htraf] at h ⊢
        obtain ⟨located, hlocate, rfl⟩ := Error.map_eq_ok.mp h
        have hgrown : locate track limit' p.movie p.fragment =
            .ok (located.map (Located.moved 0)) :=
          locate_moved hlocate (by rwa [Nat.zero_add]) (fun _ _ => (Nat.zero_add _).symm)
            fun _ _ => offsetsFit_zero _ _
        rw [Located.moved_zero, List.map_id] at hgrown
        rw [hgrown]
        rfl
      · rwa [step_closed htraf] at h ⊢

/-- What is met in front of other boxes is read as if the segment ended there. -/
theorem foldlM_grown (h : es.foldlM (step track limit) p = .ok q) (hlimit : limit ≤ limit') :
    es.foldlM (step track limit') p = .ok q := by
  induction es generalizing p with
  | nil => exact h
  | cons e es ih =>
      rw [List.foldlM_cons] at h ⊢
      obtain ⟨next, hstep, hrest⟩ := Error.bind_eq_ok.mp h
      exact Error.bind_eq_ok.mpr ⟨next, step_grown hstep hlimit, ih hrest⟩

/-! ### The second segment -/

/-- A fragment whose samples lie relative to the movie fragment. -/
structure Fragment.Relative (f : Fragment) : Prop where
  header : ∀ header ∈ f.header, header.baseOffset = none
  offset_lt : ∀ run ∈ f.runs, ∀ offset ∈ run.offset, offset < 2 ^ 31

/-- A track fragment lies in a movie fragment, and a header does not name another base. -/
structure Portable (limit : ℕ) (o : Opening) : Prop where
  start_le : o.box.start ≤ limit
  movie : o.box.type = .traf → ∃ x ∈ o.around, x.type = .moof
  base : o.box.type = .tfhd → o.box.hasFlag 0x1 = false

/-- A walk behind `n` bytes has reached `p'`, and one through the same boxes alone `p`. Outside of
movie and track fragments the two may know different things. -/
structure Follows (n limit : ℕ) (front : List Located) (around : List Box) (p p' : Progress) :
    Prop where
  movie : (∃ x ∈ around, x.type = .moof ∨ x.type = .traf) →
    p'.movie = n + p.movie ∧ p.movie ≤ limit
  fragment : (∃ x ∈ around, x.type = .traf) → p'.fragment = p.fragment ∧ p.fragment.Relative
  located : p'.located = front ++ p.located.map (Located.moved n)

theorem relative_empty : Fragment.empty.Relative := ⟨nofun, nofun⟩

theorem Fragment.Relative.readField (h : f.Relative)
    (hread : Segment.readField track limit f b = .ok g)
    (hbase : b.type = .tfhd → b.hasFlag 0x1 = false) : g.Relative := by
  cases readField_eq_ok.mp hread with
  | header htype hparse =>
      refine ⟨?_, h.offset_lt⟩
      rintro _ ⟨⟩
      exact Box.baseOffset_of_parse (hbase htype) hparse
  | run _ hparse =>
      refine ⟨h.header, fun run' hrun' => ?_⟩
      rcases List.mem_append.mp hrun' with hold | hnew
      · exact h.offset_lt run' hold
      · rw [List.mem_singleton.mp hnew]
        exact Box.offset_lt_of_parse hparse
  | encryption => exact ⟨h.header, h.offset_lt⟩
  | other => exact h

namespace Follows

variable {front : List Located}

/-- The same box is opened in both walks. -/
theorem opened (h : Follows n limit front around p p') (ho : Portable limit ⟨around, b⟩)
    (hstep : step track limit p (.opened b) = .ok q) (hlimit : limit ≤ limit') :
    ∃ q', step track limit' p' (.opened (b.moved n)) = .ok q' ∧
      Follows n limit front (b :: around) q q' := by
  by_cases hmoof : b.type = .moof
  · rw [step_moof hmoof] at hstep
    cases hstep
    refine ⟨_, step_moof hmoof, fun _ => ⟨rfl, ho.start_le⟩, ?_, h.located⟩
    rintro ⟨x, hx, htype⟩
    rcases List.mem_cons.mp hx with rfl | hx
    · exact absurd htype (by rw [hmoof]; decide)
    · exact h.fragment ⟨x, hx, htype⟩
  by_cases htraf : b.type = .traf
  · rw [step_traf htraf] at hstep
    cases hstep
    obtain ⟨x, hx, htype⟩ := ho.movie htraf
    exact ⟨_, step_traf htraf, fun _ => h.movie ⟨x, hx, .inl htype⟩, fun _ => ⟨rfl, relative_empty⟩,
      h.located⟩
  · rw [step_field hmoof htraf] at hstep
    obtain ⟨g, hread, rfl⟩ := Error.map_eq_ok.mp hstep
    obtain ⟨g', hread', hsame⟩ := readField_grown hread hlimit p'.fragment
    refine ⟨{ p' with fragment := g' }, ?_, ?_, ?_, h.located⟩
    · have hmoof' : (b.moved n).type ≠ .moof := hmoof
      have htraf' : (b.moved n).type ≠ .traf := htraf
      rw [step_field hmoof' htraf']
      exact Error.map_eq_ok.mpr ⟨g', hread', rfl⟩
    · rintro ⟨x, hx, htype⟩
      rcases List.mem_cons.mp hx with rfl | hx
      · exact absurd htype (by simp [hmoof, htraf])
      · exact h.movie ⟨x, hx, htype⟩
    · rintro ⟨x, hx, htype⟩
      rcases List.mem_cons.mp hx with rfl | hx
      · exact absurd htype htraf
      · obtain ⟨hfragment, hrelative⟩ := h.fragment ⟨x, hx, htype⟩
        exact ⟨hsame hfragment, hrelative.readField hread ho.base⟩

/-- The innermost box is closed in both walks. -/
theorem closed (h : Follows n limit front (b :: around) p p')
    (hstep : step track limit p (.closed b) = .ok q) (hlimit : n + limit ≤ limit')
    (hend : n + limit < 2 ^ 63) :
    ∃ q', step track limit' p' (.closed (b.moved n)) = .ok q' ∧
      Follows n limit front around q q' := by
  by_cases htraf : b.type = .traf
  · rw [step_trafEnd htraf] at hstep
    obtain ⟨located, hlocate, rfl⟩ := Error.map_eq_ok.mp hstep
    obtain ⟨hmovie, hle⟩ := h.movie ⟨b, List.mem_cons_self, .inr htraf⟩
    obtain ⟨hfragment, hrelative⟩ := h.fragment ⟨b, List.mem_cons_self, htraf⟩
    have hmoved : locate track limit' p'.movie p'.fragment =
        .ok (located.map (Located.moved n)) := by
      rw [hmovie, hfragment]
      apply locate_moved hlocate hlimit
      · intro header hheader
        have hnone := hrelative.header header hheader
        rw [origin_of_none hnone, origin_of_none hnone]
      · intro header hheader
        rw [origin_of_none (hrelative.header header hheader)]
        exact offsetsFit_of_lt (by omega) hrelative.offset_lt
    refine ⟨{ p' with
      fragment := .empty, located := p'.located ++ located.map (Located.moved n) }, ?_, ?_, ?_, ?_⟩
    · have hclose : (b.moved n).type = .traf := htraf
      rw [step_trafEnd hclose]
      exact Error.map_eq_ok.mpr ⟨_, hmoved, rfl⟩
    · exact fun _ => ⟨hmovie, hle⟩
    · exact fun _ => ⟨rfl, relative_empty⟩
    · rw [List.map_append, ← List.append_assoc, ← h.located]
  · rw [step_closed htraf] at hstep
    cases hstep
    refine ⟨p', step_closed htraf, ?_, ?_, h.located⟩
    · rintro ⟨x, hx, htype⟩
      exact h.movie ⟨x, List.mem_cons_of_mem b hx, htype⟩
    · rintro ⟨x, hx, htype⟩
      exact h.fragment ⟨x, List.mem_cons_of_mem b hx, htype⟩

/-- Both walks go through the same boxes, and what they find stays the same but for its place. -/
theorem foldlM (h : Follows n limit front around p p') (hnest : Nest around es)
    (hopen : ∀ o ∈ openings around es, Portable limit o) (hlimit : n + limit ≤ limit')
    (hend : n + limit < 2 ^ 63) (hrun : es.foldlM (step track limit) p = .ok q) :
    ∃ q', (es.map (Event.moved n)).foldlM (step track limit') p' = .ok q' ∧
      q'.located = front ++ q.located.map (Located.moved n) := by
  induction es generalizing around p p' with
  | nil =>
      cases hrun
      exact ⟨p', rfl, h.located⟩
  | cons e es ih =>
      rw [List.foldlM_cons] at hrun
      obtain ⟨next, hstep, hrest⟩ := Error.bind_eq_ok.mp hrun
      rw [List.map_cons]
      simp only [List.foldlM_cons, Error.bind_eq_ok]
      cases e with
      | opened b =>
          have hgrown : limit ≤ limit' := by omega
          obtain ⟨next', hstep', hnext⟩ := h.opened (hopen _ List.mem_cons_self) hstep hgrown
          obtain ⟨q', hrest', hlocated⟩ := ih hnext hnest
            (fun o ho => hopen o (List.mem_cons_of_mem _ ho)) hrest
          exact ⟨q', ⟨next', hstep', hrest'⟩, hlocated⟩
      | closed b =>
          cases around with
          | nil => cases hnest
          | cons x around =>
              obtain ⟨rfl, hnest⟩ := hnest
              obtain ⟨next', hstep', hnext⟩ := h.closed hstep hlimit hend
              obtain ⟨q', hrest', hlocated⟩ := ih hnext hnest hopen hrest
              exact ⟨q', ⟨next', hstep', hrest'⟩, hlocated⟩

end Follows

/-! ### Both segments -/

variable {first second : Bytes} {foundFirst foundSecond : List Sample}

theorem toSample_moved (front tail : Bytes) {data : Bytes} {l : Located} (hstart : l.start ≤ l.stop)
    (hstop : l.stop ≤ data.length) :
    toSample (front ++ (data ++ tail)) (l.moved front.length) =
      (toSample data l).moved front.length := by
  have hslice := Bytes.slice_between front tail hstart hstop
  rw [toSample, toSample, Sample.moved, Located.moved]
  dsimp only
  rw [hslice]

theorem map_toSample_moved (front tail : Bytes) {data : Bytes} {located : List Located}
    (h : ∀ x ∈ located.map (toSample data), x.start ≤ x.stop ∧ x.stop ≤ data.length) :
    (located.map (Located.moved front.length)).map (toSample (front ++ (data ++ tail))) =
      (located.map (toSample data)).map (Sample.moved front.length) := by
  rw [List.map_map, List.map_map]
  apply List.map_congr_left
  intro l hl
  obtain ⟨hstart, hstop⟩ := h _ (List.mem_map_of_mem hl)
  exact toSample_moved front tail hstart hstop

/-- A segment that can stand behind others: its track fragments lie in movie fragments of its own,
and no header names another base. -/
structure SelfContained (data : Bytes) : Prop where
  movie : ∀ o ∈ openings [] (trace layout false data).events,
    o.box.type = .traf → ∃ x ∈ o.around, x.type = .moof
  base : ∀ o ∈ openings [] (trace layout false data).events,
    o.box.type = .tfhd → o.box.hasFlag 0x1 = false

theorem SelfContained.portable {data : Bytes} (h : SelfContained data) :
    ∀ o ∈ openings [] (trace layout false data).events, Portable data.length o := by
  intro o ho
  refine ⟨?_, h.movie o ho, h.base o ho⟩
  have hwithin : Within data.length o.box := within_trace data _ (opened_of_mem_openings ho)
  rw [Within] at hwithin
  omega

/-- The samples of both segments, the first ones where they are. -/
theorem samples_append (hfirst : samples track first = .ok foundFirst)
    (hsecond : samples track second = .ok foundSecond) (framed : Framed first)
    (movable : Movable first.length second) (self : SelfContained second)
    (hend : (first ++ second).length < 2 ^ 63) :
    samples track (first ++ second) =
      .ok (foundFirst ++ foundSecond.map (Sample.moved first.length)) := by
  obtain ⟨p, hfault, hrun, rfl⟩ := samples_eq_ok hfirst
  obtain ⟨q, hfault', hrun', rfl⟩ := samples_eq_ok hsecond
  have hlength : (first ++ second).length = first.length + second.length := List.length_append
  have htrace := trace_append hfault hfault' framed movable (by omega)
    (headerSize_le_of_samples hfirst) (headerSize_le_of_samples hsecond)
  have hfront : first.length ≤ (first ++ second).length := by omega
  have hgrown := foldlM_grown hrun hfront
  have hstart : Follows first.length second.length p.located [] ⟨0, .empty, []⟩ p :=
    ⟨by simp, by simp, (List.append_nil _).symm⟩
  obtain ⟨q', hboth, hlocated⟩ := hstart.foldlM (nest_trace second) self.portable
    hlength.ge (by omega) hrun'
  have hall : (trace layout false (first ++ second)).run (step track (first ++ second).length)
      ⟨0, .empty, []⟩ = .ok q' := by
    rw [htrace, Trace.run, List.foldlM_append, hgrown]
    exact Error.bind_eq_ok.mpr ⟨q', hboth, rfl⟩
  have hplacedFirst := map_toSample_moved [] second (samples_bounds hfirst)
  have hplacedSecond := map_toSample_moved first [] (samples_bounds hsecond)
  rw [List.length_nil, Located.moved_zero, Sample.moved_zero, List.map_id, List.map_id] at hplacedFirst
  rw [List.append_nil] at hplacedSecond
  rw [samples, hall]
  change Except.ok (q'.located.map (toSample (first ++ second))) = _
  rw [hlocated, List.map_append, hplacedSecond]
  exact congrArg (fun x => Except.ok (x ++ _)) hplacedFirst

end ProtectedMedia.Segment
