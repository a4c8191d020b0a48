import Mathlib.Data.List.Perm.Basic
import ProtectedMedia.Proofs.Box.Alone
import ProtectedMedia.Proofs.Box.Replaced
import ProtectedMedia.Proofs.Packet.Masking
import ProtectedMedia.Proofs.Segment.Fields
import ProtectedMedia.Proofs.Segment.Portable

/-!
# The order of the boxes in a track fragment

The boxes inside a track fragment can be put in another order. As long as the runs stay in their
order, and there are no two headers and no two encryptions, the samples lie where they lay and are
encrypted as they were.
-/
namespace ProtectedMedia.Segment

open Walk

variable {track : TrackEncryption} {limit base : ℕ} {c next : Cursor} {x : Bytes}
  {kids kids' : List Bytes} {b : Box} {d : Declaration} {p q : Progress} {events events' : List Event}

/-! ### Boxes inside a track fragment -/

/-- A box that is as long as it says, and is neither a movie nor a track fragment. -/
structure Child (x : Bytes) : Prop where
  selfSized : SelfSized x
  notMoof : boxType x ≠ .moof
  notTraf : boxType x ≠ .traf

instance Child.decidable (x : Bytes) : Decidable (Child x) :=
  decidable_of_iff (SelfSized x ∧ boxType x ≠ .moof ∧ boxType x ≠ .traf)
    ⟨fun h => ⟨h.1, h.2.1, h.2.2⟩, fun h => ⟨h.selfSized, h.notMoof, h.notTraf⟩⟩

/-- The box that `x` is on its own, if its type is declared. -/
def lone? (x : Bytes) : Option Box :=
  match box layout false 0 (Cursor.ofBytes x) with
  | .ok (some (b, _), _) => some b
  | _ => none

/-- On its own `x` can be read, and it covers its header. -/
def Readable (x : Bytes) : Prop :=
  ∃ r next, box layout false 0 (Cursor.ofBytes x) = .ok (r, next) ∧
    ∀ b d, r = some (b, d) → b.headerSize ≤ b.size

theorem Child.leaf (h : Child x) {rest : Bytes} (hrest : c.rest = x ++ rest)
    (hstep : box layout false base c = .ok (some (b, d), next)) :
    boxType x = b.type ∧ b.type ≠ .moof ∧ b.type ≠ .traf ∧ d = ⟨true, .leaf⟩ := by
  obtain ⟨hfind, -, field, hs⟩ := box_eq_opened.mp hstep
  have htype : boxType x = b.type := by
    rw [← h.selfSized.boxType_append rest, ← hrest]
    exact hs.header.boxType_eq
  have hmoof := h.notMoof
  have htraf := h.notTraf
  rw [htype] at hmoof htraf
  refine ⟨htype, hmoof, htraf, ?_⟩
  rcases declared_of_find? hfind with ⟨-, hholds⟩ | ⟨hleaf, -⟩
  · exact absurd hholds (by simp [hmoof, htraf])
  · exact hleaf

theorem type_of_lone? (h : Child x) (hb : lone? x = some b) : b.type = boxType x := by
  rw [lone?] at hb
  split at hb
  · rename_i b' d next hstep
    cases hb
    exact (h.leaf (List.append_nil x).symm hstep).1.symm
  · cases hb

/-- What a run knows when it has read `f` of a fragment. -/
def Progress.holding (p : Progress) (f : Fragment) : Progress := { p with fragment := f }

/-- The two steps at a box inside a fragment read what the box says, wherever it lies. -/
theorem foldlM_leaf (start : ℕ) (hmoof : b.type ≠ .moof) (htraf : b.type ≠ .traf) :
    ([Event.opened (b.placed start), Event.closed (b.placed start)] ++ events).foldlM
        (step track limit) p =
      (readField track limit p.fragment b).bind fun f =>
        events.foldlM (step track limit) (p.holding f) := by
  have hmoof' : (b.placed start).type ≠ .moof := hmoof
  have htraf' : (b.placed start).type ≠ .traf := htraf
  simp only [List.cons_append, List.nil_append, List.foldlM_cons, step_field hmoof' htraf']
  change (readField track limit p.fragment b).map p.holding >>= _ = _
  cases readField track limit p.fragment b with
  | error e => rfl
  | ok f =>
      change step track limit (p.holding f) (.closed (b.placed start)) >>= _ = _
      rw [step_closed htraf']
      rfl

/-- Boxes that can be read on their own can be walked through one after the other. The steps of the
run read what they say. -/
theorem exists_walked (hkids : ∀ x ∈ kids, Child x ∧ Readable x) (hrest : c.rest = kids.flatten)
    (hroom : c.position + kids.flatten.length < 2 ^ 64) :
    ∃ events, Walked layout false base none c events ∧ ∀ p,
      events.foldlM (step track limit) p =
        ((kids.filterMap lone?).foldlM (readField track limit) p.fragment).map p.holding := by
  induction kids generalizing c with
  | nil =>
      refine ⟨[], .done (.inr ?_), fun p => rfl⟩
      simp [Cursor.hasMore, hrest]
  | cons x kids ih =>
      obtain ⟨⟨hchild, r, alone, hread, hcovers⟩, hkids⟩ := List.forall_mem_cons.mp hkids
      have hself := hchild.selfSized
      rw [List.flatten_cons] at hrest hroom
      rw [List.length_append] at hroom
      have hmore := hself.more hrest
      have hbehind : (c.forward x.length).rest = kids.flatten := by
        rw [Cursor.rest_forward, hrest, List.drop_left]
      obtain ⟨events, hwalk, hrun⟩ := ih hkids hbehind (by rw [Cursor.position_forward]; omega)
      have halone : (Cursor.ofBytes x).rest = x ++ [] := (List.append_nil x).symm
      cases r with
      | none =>
          have hstep := (hself.passed base halone hrest (by omega) hread).2
          have hnone : lone? x = none := by rw [lone?, hread]
          refine ⟨events, .passed hmore hstep hwalk, fun p => ?_⟩
          rw [List.filterMap_cons_none hnone, hrun]
      | some r =>
          obtain ⟨b, d⟩ := r
          have hstep := (hself.opened base halone hrest (by omega) hread
            (hcovers b d rfl)).2
          obtain ⟨-, hmoof, htraf, rfl⟩ := hchild.leaf halone hread
          have hsome : lone? x = some b := by rw [lone?, hread]
          refine ⟨_, .leaf hmore hstep rfl hwalk, fun p => ?_⟩
          rw [List.filterMap_cons_some hsome, foldlM_leaf _ hmoof htraf, List.foldlM_cons]
          cases readField track limit p.fragment b with
          | error e => rfl
          | ok f => exact hrun (p.holding f)

theorem exists_walked_payload {data : Bytes} (track : TrackEncryption) (limit base : ℕ)
    (hkids : ∀ x ∈ kids, Child x ∧ Readable x) (hdata : data = kids.flatten)
    (hroom : data.length < 2 ^ 64) :
    ∃ events, Walked layout false base none (Cursor.ofBytes data) events ∧ ∀ p,
      events.foldlM (step track limit) p =
        ((kids.filterMap lone?).foldlM (readField track limit) p.fragment).map p.holding := by
  have hend : (Cursor.ofBytes data).position + kids.flatten.length < 2 ^ 64 := by
    rw [← hdata]
    change 0 + data.length < _
    omega
  exact exists_walked hkids hdata hend

/-- Boxes that were walked through one after the other can be read on their own. -/
theorem readable_of_walked (hkids : ∀ x ∈ kids, Child x) (hrest : c.rest = kids.flatten)
    (hwalk : Walked layout false base none c events)
    (hcovers : ∀ b, .opened b ∈ events → b.headerSize ≤ b.size) : ∀ x ∈ kids, Readable x := by
  induction kids generalizing c events with
  | nil => simp
  | cons x kids ih =>
      obtain ⟨hchild, hkids⟩ := List.forall_mem_cons.mp hkids
      have hself := hchild.selfSized
      rw [List.flatten_cons] at hrest
      have hbehind : (c.forward x.length).rest = kids.flatten := by
        rw [Cursor.rest_forward, hrest, List.drop_left]
      have halone : (Cursor.ofBytes x).rest = x ++ [] := (List.append_nil x).symm
      have hroom {r : Option (Box × Declaration)} {next : Cursor}
          (hstep : box layout false base c = .ok (r, next)) :
          (Cursor.ofBytes x).position + x.length < 2 ^ 64 := by
        have hlt := hself.length_lt hrest hstep
        change 0 + x.length < _
        omega
      rw [List.forall_mem_cons]
      cases hwalk with
      | done hend => exact absurd hend (hself.more hrest)
      | passed hmore hstep hnext =>
          obtain ⟨rfl, hread⟩ := hself.passed 0 hrest halone (hroom hstep) hstep
          refine ⟨⟨_, _, hread, ?_⟩, ih hkids hbehind hnext hcovers⟩
          intro b d hnone
          cases hnone
      | @leaf _ _ _ _ _ b d events hmore hstep henter hnext =>
          have hb := hcovers b List.mem_cons_self
          obtain ⟨rfl, hread⟩ := hself.opened 0 hrest halone (hroom hstep) hstep hb
          refine ⟨⟨_, _, hread, ?_⟩, ih hkids hbehind hnext fun b' hb' =>
            hcovers b' (List.mem_append_right _ hb')⟩
          intro b' d' hsame
          cases hsame
          exact hb
      | node hmore hstep henter hinside hnext =>
          obtain ⟨-, -, -, rfl⟩ := hchild.leaf hrest hstep
          cases henter

/-! ### Another order -/

/-- The boxes of a track fragment that has one header and no more than one encryption. -/
structure Children (kids : List Bytes) : Prop where
  child : ∀ x ∈ kids, Child x
  header : (kids.filter fun x => boxType x = .tfhd).length = 1
  encryption : (kids.filter fun x => boxType x = .senc).length ≤ 1

instance Children.decidable (kids : List Bytes) : Decidable (Children kids) :=
  decidable_of_iff ((∀ x ∈ kids, Child x) ∧ (kids.filter fun x => boxType x = .tfhd).length = 1 ∧
      (kids.filter fun x => boxType x = .senc).length ≤ 1)
    ⟨fun h => ⟨h.1, h.2.1, h.2.2⟩, fun h => ⟨h.child, h.header, h.encryption⟩⟩

/-- The same boxes in another order, but the runs in the same order. -/
structure Rearranged (kids kids' : List Bytes) : Prop where
  perm : kids.Perm kids'
  runs : (kids'.filter fun x => boxType x = .trun) = kids.filter fun x => boxType x = .trun

instance Rearranged.decidable (kids kids' : List Bytes) : Decidable (Rearranged kids kids') :=
  decidable_of_iff (kids.Perm kids' ∧
      (kids'.filter fun x => boxType x = .trun) = kids.filter fun x => boxType x = .trun)
    ⟨fun h => ⟨h.1, h.2⟩, fun h => ⟨h.perm, h.runs⟩⟩

theorem ofType_filterMap_lone? {type : FourCC} (hkids : ∀ x ∈ kids, Child x) :
    ofType type (kids.filterMap lone?) = (kids.filter fun x => boxType x = type).filterMap lone? := by
  induction kids with
  | nil => rfl
  | cons x kids ih =>
      obtain ⟨hx, hkids⟩ := List.forall_mem_cons.mp hkids
      cases hlone : lone? x with
      | none =>
          rw [List.filterMap_cons_none hlone, ih hkids, List.filter_cons]
          split
          · rw [List.filterMap_cons_none hlone]
          · rfl
      | some b =>
          rw [List.filterMap_cons_some hlone, List.filter_cons, ← type_of_lone? hx hlone]
          by_cases hb : b.type = type
          · rw [if_pos (decide_eq_true hb), ofType_cons_self hb, List.filterMap_cons_some hlone,
              ih hkids]
          · rw [if_neg (by simpa using hb), ofType_cons_other hb, ih hkids]

/-- There is only one order for a single element. -/
theorem eq_of_perm {α : Type} {l l' : List α} (h : l.Perm l') (hl : l.length ≤ 1) : l' = l := by
  cases l with
  | nil => exact h.symm.eq_nil
  | cons a l =>
      obtain rfl : l = [] := by simpa using hl
      exact List.perm_singleton.mp h.symm

/-- Boxes in another order say the same. -/
theorem Rearranged.foldlM {f g : Fragment} (rearranged : Rearranged kids kids')
    (children : Children kids)
    (h : (kids.filterMap lone?).foldlM (readField track limit) f = .ok g) :
    (kids'.filterMap lone?).foldlM (readField track limit) f = .ok g := by
  have hkids' : ∀ x ∈ kids', Child x := fun x hx =>
    children.child x (rearranged.perm.mem_iff.mpr hx)
  have hsame {type : FourCC}
      (hfilter : (kids'.filter fun x => boxType x = type) = kids.filter fun x => boxType x = type) :
      ofType type (kids'.filterMap lone?) = ofType type (kids.filterMap lone?) := by
    rw [ofType_filterMap_lone? hkids', ofType_filterMap_lone? children.child, hfilter]
  apply foldlM_readField_congr _ (hsame rearranged.runs) _ h
  · exact hsame (eq_of_perm (rearranged.perm.filter _) children.header.le)
  · exact hsame (eq_of_perm (rearranged.perm.filter _) children.encryption)

theorem Rearranged.length_flatten (rearranged : Rearranged kids kids') :
    kids'.flatten.length = kids.flatten.length :=
  rearranged.perm.flatten.length_eq.symm

/-- A payload can be walked through in the other order, too, and a run reads the same in it. -/
theorem Rearranged.walked {payload : Bytes} {inside : List Event}
    (rearranged : Rearranged kids kids') (children : Children kids)
    (hpayload : payload = kids.flatten) (hroom : payload.length < 2 ^ 64)
    (hinside : Walked layout false base none (Cursor.ofBytes payload) inside)
    (hcovers : ∀ x, .opened x ∈ inside → x.headerSize ≤ x.size) :
    ∃ inside', Walked layout false base none (Cursor.ofBytes kids'.flatten) inside' ∧
      ∀ p q, inside.foldlM (step track limit) p = .ok q →
        inside'.foldlM (step track limit) p = .ok q := by
  have hread := readable_of_walked children.child hpayload hinside hcovers
  have hkids : ∀ x ∈ kids, Child x ∧ Readable x := fun x hx => ⟨children.child x hx, hread x hx⟩
  have hkids' : ∀ x ∈ kids', Child x ∧ Readable x := fun x hx =>
    hkids x (rearranged.perm.mem_iff.mpr hx)
  have hroom' : kids'.flatten.length < 2 ^ 64 := by
    rwa [rearranged.length_flatten, ← hpayload]
  obtain ⟨events, hwalk, hreads⟩ := exists_walked_payload track limit base hkids hpayload hroom
  obtain ⟨inside', hinside', hreads'⟩ := exists_walked_payload track limit base hkids' rfl hroom'
  -- There is only one walk through the payload.
  obtain rfl : events = inside := congrArg Trace.events (hwalk.boxes_eq.symm.trans hinside.boxes_eq)
  refine ⟨inside', hinside', fun p q hrun => ?_⟩
  rw [hreads] at hrun
  obtain ⟨f, hf, rfl⟩ := Error.map_eq_ok.mp hrun
  rw [hreads', rearranged.foldlM children hf]
  rfl

/-! ### The whole segment -/

theorem plain_layout : Plain layout := by
  intro type d hfind
  rcases declared_of_find? hfind with ⟨rfl, -⟩ | ⟨rfl, -⟩
  · exact .inr rfl
  · exact .inl rfl

/-- A step does not look at the payload of a box that holds boxes. -/
theorem step_refilled (hb : Holds layout b.type) (data : Bytes) :
    step track limit p (.opened (b.refilled data)) = step track limit p (.opened b) ∧
      step track limit p (.closed (b.refilled data)) = step track limit p (.closed b) := by
  obtain ⟨full, hfind⟩ := hb
  rcases declared_of_find? hfind with ⟨-, hmoof | htraf⟩ | ⟨hleaf, -⟩
  · have hmoof' : (b.refilled data).type = .moof := hmoof
    rw [step_moof hmoof', step_moof hmoof]
    exact ⟨rfl, rfl⟩
  · have htraf' : (b.refilled data).type = .traf := htraf
    rw [step_traf htraf', step_traf htraf]
    exact ⟨rfl, rfl⟩
  · cases hleaf

/-- What a run reads between the start and the end of a box. -/
theorem foldlM_around {inside after : List Event} :
    (Event.opened b :: inside ++ [Event.closed b] ++ after).foldlM (step track limit) p = .ok q ↔
      ∃ p₁ p₂ p₃, step track limit p (.opened b) = .ok p₁ ∧
        inside.foldlM (step track limit) p₁ = .ok p₂ ∧
        step track limit p₂ (.closed b) = .ok p₃ ∧
        after.foldlM (step track limit) p₃ = .ok q := by
  simp only [List.cons_append, List.append_assoc, List.nil_append, List.foldlM_cons,
    List.foldlM_append, Error.bind_eq_ok, exists_and_left]

/-- If a run makes the same of the replaced part, it makes the same of everything. -/
theorem foldlM_exchanged {data : Bytes} {inside inside' : List Event}
    (h : Exchanged layout b data inside inside' events events') (hb : Holds layout b.type)
    (hinside : ∀ p q, inside.foldlM (step track limit) p = .ok q →
      inside'.foldlM (step track limit) p = .ok q)
    (hrun : events.foldlM (step track limit) p = .ok q) :
    events'.foldlM (step track limit) p = .ok q := by
  induction h generalizing p q with
  | here after =>
      obtain ⟨p₁, p₂, p₃, hopened, hrun, hclosed, hafter⟩ := foldlM_around.mp hrun
      refine foldlM_around.mpr ⟨p₁, p₂, p₃, ?_, hinside p₁ p₂ hrun, ?_, hafter⟩
      · rw [(step_refilled hb data).1, hopened]
      · rw [(step_refilled hb data).2, hclosed]
  | behind before _ ih =>
      rw [List.foldlM_append] at hrun ⊢
      obtain ⟨p₁, hbefore, hrun⟩ := Error.bind_eq_ok.mp hrun
      exact Error.bind_eq_ok.mpr ⟨p₁, hbefore, ih hrun⟩
  | around whole after ha _ ih =>
      obtain ⟨p₁, p₂, p₃, hopened, hrun, hclosed, hafter⟩ := foldlM_around.mp hrun
      refine foldlM_around.mpr ⟨p₁, p₂, p₃, ?_, ih hrun, ?_, hafter⟩
      · rw [(step_refilled ha whole).1, hopened]
      · rw [(step_refilled ha whole).2, hclosed]

theorem length_payload_lt {lenient : Bool} {data : Bytes}
    (hb : b ∈ (trace layout lenient data).boxes) : b.payload.length < 2 ^ 64 := by
  obtain ⟨base, c, d, next, hread, -⟩ := exists_step_of_boxes _ (opened_of_mem_boxes hb)
  change box layout lenient base c = .ok (some (b, d), next) at hread
  obtain ⟨-, -, field, hs⟩ := box_eq_opened.mp hread
  have hroom : c.position + b.size < 2 ^ 64 := hs.header.room
  have hlength : b.payload.length = _ := hs.length
  omega

theorem sideData_toSample (data data' : Bytes) (l : Located) :
    (toSample data' l).packet.sideData = (toSample data l).packet.sideData := by
  rw [toSample, toSample]
  cases l.info <;> rfl

/-- The boxes of a track fragment can be put in another order, as long as the runs stay in theirs:
the segment has the same length, and its samples lie where they lay and are encrypted as they
were. -/
theorem samples_rearranged {data : Bytes} {found : List Sample}
    (hfound : samples track data = .ok found) (hb : b ∈ (trace layout false data).boxes)
    (htraf : b.type = .traf) (hpayload : b.payload = kids.flatten) (children : Children kids)
    (rearranged : Rearranged kids kids') :
    let data' := data.splice (b.start + b.headerSize) kids'.flatten
    data'.length = data.length ∧ ∃ found', samples track data' = .ok found' ∧
      found'.map Sample.span = found.map Sample.span ∧
      found'.map (fun x => x.packet.encryptionInfo) =
        found.map (fun x => x.packet.encryptionInfo) := by
  intro data'
  obtain ⟨q, hfault, hrun, rfl⟩ := samples_eq_ok hfound
  have hholds : Holds layout b.type := ⟨false, by rw [htraf]; decide⟩
  have hlength : kids'.flatten.length = b.payload.length := by
    rw [hpayload, rearranged.length_flatten]
  have hwithin : Within data.length b := within_trace data _ (opened_of_mem_boxes hb)
  rw [Within] at hwithin
  have hsame : data'.length = data.length := Bytes.length_splice (by omega)
  obtain ⟨inside, hinside, hsubset⟩ :=
    (walked_of_fault hfault).exists_inside plain_layout hholds (opened_of_mem_boxes hb)
  obtain ⟨inside', hinside', hreads⟩ := rearranged.walked children hpayload (length_payload_lt hb)
    hinside fun x hx => headerSize_le_of_samples hfound x (hsubset hx)
  obtain ⟨events', htrace, hexchanged⟩ :=
    exchanged_trace plain_layout hfault hb hholds hlength hinside hinside'
  have hrun' : events'.foldlM (step track data.length) ⟨0, .empty, []⟩ = .ok q :=
    foldlM_exchanged hexchanged hholds hreads hrun
  refine ⟨hsame, q.located.map (toSample data'), ?_, ?_, ?_⟩
  · rw [samples, htrace, hsame]
    exact Error.bind_eq_ok.mpr ⟨q, Error.bind_eq_ok.mpr ⟨q, hrun', rfl⟩, rfl⟩
  · rw [List.map_map, List.map_map]
    rfl
  · rw [List.map_map, List.map_map]
    exact List.map_congr_left fun l _ => Packet.encryptionInfo_congr (sideData_toSample data data' l)

/-! ### A small segment -/

def orderedTrack : TrackEncryption := ⟨⟨.none, true, 8, .zero, none⟩, Scheme.cenc.code⟩

/-- A header, a box of no declared type with a 64-bit size, vectors for three samples, and two
runs. -/
def orderedBoxes : List Bytes :=
  [(⟨.tfhd, some ⟨0, 0x10⟩, false⟩ : Label).write (Bytes.ofUInt32 1 ++ Bytes.ofUInt32 4),
    (⟨padding, none, true⟩ : Label).write [7],
    (⟨.senc, some ⟨0, 0⟩, false⟩ : Label).write (Bytes.ofNat 4 3 ++ List.replicate 24 9),
    trunLabel.write (writeTrackRun 0 [8]),
    (⟨.trun, some ⟨0, 0⟩, false⟩ : Label).write (Bytes.ofNat 4 2)]

/-- The same boxes with the header last. -/
def headerLast : List Bytes :=
  [orderedBoxes[3], orderedBoxes[2], orderedBoxes[4], orderedBoxes[1], orderedBoxes[0]]

def orderedSegment : Bytes := moofLabel.write (trafLabel.write orderedBoxes.flatten)

def orderedTraf : Box :=
  ⟨.traf, 8, 8 + orderedBoxes.flatten.length, none, false, orderedBoxes.flatten⟩

theorem samples_orderedSegment : ∃ found, samples orderedTrack orderedSegment = .ok found ∧
    found.map Sample.span = [(0, 8), (8, 12), (12, 16)] := by
  have hspans : (samples orderedTrack orderedSegment).map (List.map Sample.span) =
      .ok [(0, 8), (8, 12), (12, 16)] := by decide +kernel
  obtain ⟨found, hfound, hspans⟩ := Error.map_eq_ok.mp hspans
  exact ⟨found, hfound, hspans⟩

theorem orderedTraf_mem : orderedTraf ∈ (trace layout false orderedSegment).boxes := by
  decide +kernel

theorem header_last_rearranged :
    ∃ found, samples orderedTrack orderedSegment = .ok found ∧
      found.map Sample.span = [(0, 8), (8, 12), (12, 16)] ∧
      orderedTraf ∈ (trace layout false orderedSegment).boxes ∧
      Children orderedBoxes ∧ Rearranged orderedBoxes headerLast ∧
      (orderedSegment.splice 16 headerLast.flatten).length = orderedSegment.length ∧
      ∃ found', samples orderedTrack (orderedSegment.splice 16 headerLast.flatten) = .ok found' ∧
        found'.map Sample.span = found.map Sample.span ∧
        found'.map (fun x => x.packet.encryptionInfo) =
          found.map (fun x => x.packet.encryptionInfo) := by
  obtain ⟨found, hfound, hspans⟩ := samples_orderedSegment
  have children : Children orderedBoxes := by decide
  have rearranged : Rearranged orderedBoxes headerLast := by decide
  exact ⟨found, hfound, hspans, orderedTraf_mem, children, rearranged,
    samples_rearranged hfound orderedTraf_mem rfl rfl children rearranged⟩

end ProtectedMedia.Segment
