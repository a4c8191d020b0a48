import ProtectedMedia.Proofs.Box.Unseen
import ProtectedMedia.Proofs.Segment.Concatenation
import ProtectedMedia.Proofs.Track.Found

/-!
# Init segments joined to media segments

An init segment and a media segment have no types of boxes at their top in common that are looked for
in them. So in one piece they say the same as in two: the encryption of the track is found in front,
and the samples are found behind.
-/
namespace ProtectedMedia

open Walk Event

namespace Walk

variable {layout : Layout} {lenient : Bool} {base : ℕ} {limit : Option ℕ} {c : Cursor}
  {events : List Event}

/-- A walk that meets no fault has read the fields at the front of every box. -/
theorem Walked.enters (h : Walked layout lenient base limit c events) {b : Box}
    (hb : .opened b ∈ events) :
    ∃ d r, layout.find? b.type = some d ∧ enter d.content (Cursor.ofBytes b.payload) = .ok r := by
  induction h with
  | done => cases hb
  | passed _ _ _ ih => exact ih hb
  | leaf _ hstep henter _ ih =>
      simp only [List.mem_append, List.mem_cons, reduceCtorEq, List.not_mem_nil, or_false,
        Event.opened.injEq] at hb
      rcases hb with rfl | hb
      · exact ⟨_, _, (box_eq_opened.mp hstep).1, henter⟩
      · exact ih hb
  | node _ hstep henter _ _ ihInside ihNext =>
      simp only [List.mem_append, List.mem_cons, reduceCtorEq, List.not_mem_nil, or_false,
        Event.opened.injEq] at hb
      rcases hb with (rfl | hb) | hb
      · exact ⟨_, _, (box_eq_opened.mp hstep).1, henter⟩
      · exact ihInside hb
      · exact ihNext hb

end Walk

theorem Box.payload_ne_nil {b : Box} {α : Type} {type : FourCC} {r : Reader BoxFault α}
    (hempty : ∃ e, r (.ofBytes []) = .error e) (h : (b.read? type r).isSome) : b.payload ≠ [] := by
  intro hnil
  obtain ⟨a, ha⟩ := Option.isSome_iff_exists.mp h
  obtain ⟨c, hread⟩ := Box.parse_eq_ok.mp (Box.read?_eq_some.mp ha).2
  obtain ⟨e, he⟩ := hempty
  rw [hnil, he] at hread
  cases hread

namespace TrackEncryption

variable {x y : Bytes} {r : Option TrackEncryption} {d : Declaration}

/-- Sample descriptions, schemes and defaults have version and flags. -/
theorem full_of_find? {type : FourCC} (h : layout.find? type = some d) (hfull : d.full = true) :
    type = .stsd ∧ d.content = .sampleDescription ∨ type = .schm ∨ type = .tenc := by
  have hall : ∀ e ∈ layout, e.2.full = true →
      e.1 = .stsd ∧ e.2.content = .sampleDescription ∨ e.1 = .schm ∨ e.1 = .tenc := by decide
  obtain ⟨before, after, hlist, -⟩ := List.lookup_eq_some_iff.mp h
  have hmem : (type, d) ∈ layout := by
    rw [hlist]
    simp
  exact hall _ hmem hfull

/-- If the encryption of a track is found, or that there is none, then every box that was met covers
its header. -/
theorem headerSize_le_of_ofInit (h : ofInit x = .ok r) :
    ∀ b, .opened b ∈ (trace layout true x).events → b.headerSize ≤ b.size := by
  obtain ⟨hfault, hread, -⟩ := ofInit_eq_ok.mp h
  intro b hb
  have hopened : b ∈ (trace layout true x).boxes := List.mem_filterMap.mpr ⟨_, hb, rfl⟩
  obtain ⟨e, hdescribes⟩ := exists_describes layout true x b hopened
  apply hdescribes.headerSize_le
  by_cases hfull : b.full = none
  · exact .inl hfull
  · right
    have hreadable := hread b hopened
    obtain ⟨content, hdeclared⟩ := hdescribes.declared
    rcases full_of_find? hdeclared (Option.isSome_iff_ne_none.mpr hfull) with
      ⟨-, hcontent⟩ | htype | htype
    · -- the number of entries was read
      obtain ⟨d, found, hfind, henter⟩ := Walked.enters (walked_of_fault hfault) hb
      rw [hdeclared] at hfind
      cases hfind
      intro hnil
      rw [hnil, show content = .sampleDescription from hcontent] at henter
      cases henter
    · have hsome := hreadable.scheme htype
      rw [Box.scheme?, Option.isSome_map] at hsome
      exact Box.payload_ne_nil ⟨_, rfl⟩ hsome
    · exact Box.payload_ne_nil ⟨_, rfl⟩ (hreadable.defaults htype)

/-- What is found in an init segment is found although something follows it. -/
theorem ofInit_append {layout' : Layout} {lenient : Bool} (h : ofInit x = .ok r)
    (hy : (trace layout' lenient y).fault = none) (framed : Framed x)
    (movable : Movable x.length y) (hend : (x ++ y).length < 2 ^ 64)
    (htypes : Consists (fun type => layout.find? type = none) y)
    (hcovers : ∀ b, .opened b ∈ (trace layout' lenient y).events → b.headerSize ≤ b.size) :
    ofInit (x ++ y) = .ok r := by
  have hfault := (ofInit_eq_ok.mp h).1
  rw [ofInit_eq_ok] at h ⊢
  rwa [trace_append_unseen hfault hy framed movable hend htypes
    (headerSize_le_of_ofInit (ofInit_eq_ok.mpr h)) hcovers]

end TrackEncryption

namespace Segment

variable {σ : Type} {m : DecryptionModule σ} {s t u : σ} {track : TrackEncryption}
  {found : Option TrackEncryption} {init segment out : Bytes}

/-- There is nothing to decrypt in an init segment. -/
theorem decrypt_init (h : TrackEncryption.ofInit init = .ok found) (framed : Framed init)
    (hend : init.length < 2 ^ 64) (htypes : Consists (fun type => layout.find? type = none) init) :
    (decrypt m track init s).1 = .ok init := by
  have htrace : trace layout false init = ⟨[], none⟩ :=
    trace_unseen (TrackEncryption.ofInit_eq_ok.mp h).1 framed hend htypes
      (TrackEncryption.headerSize_le_of_ofInit h)
  rw [decrypt, samples, htrace]
  rfl

/-- A media segment is decrypted behind the init segment as if it were alone, with the encryption that
is found in front of it. -/
theorem decrypt_joined (hm : m.Oblivious) (h : TrackEncryption.ofInit init = .ok found)
    (hout : (decrypt m track segment s).1 = .ok out) (framed : Framed init)
    (movable : Movable init.length segment) (self : SelfContained segment)
    (hend : (init ++ segment).length < 2 ^ 63)
    (hinit : Consists (fun type => layout.find? type = none) init)
    (hsegment : Consists (fun type => TrackEncryption.layout.find? type = none) segment) (u : σ) :
    TrackEncryption.ofInit (init ++ segment) = .ok found ∧
      (decrypt m track (init ++ segment) u).1 = .ok (init ++ out) := by
  have hlength : init.length ≤ (init ++ segment).length := by simp
  obtain ⟨samples, hsamples, -⟩ := decrypt_eq_ok hout
  obtain ⟨q, hfault, -⟩ := samples_eq_ok hsamples
  constructor
  · exact TrackEncryption.ofInit_append h hfault framed movable (by omega) hsegment
      (headerSize_le_of_samples hsamples)
  · exact decrypt_append hm (decrypt_init (s := s) h framed (by omega) hinit) hout framed movable self
      hend u

end Segment

end ProtectedMedia
