import ProtectedMedia.Box.Fields
import ProtectedMedia.Proofs.Bytes.Taken
import ProtectedMedia.Proofs.Bytes.Written

/-!
# Fields that flags announce

Bits of the flags of a box say which of its fields are there. An announced word is four bytes and any
other takes none, whether it is read or passed over. In front of a table stand two checks of the number
of its entries, which take nothing.
-/
namespace ProtectedMedia.Box

open Reader

variable {α : Type} {b : Box} {limit : ℕ} {w : Bytes} {c c' : Cursor} {a : α}

/-! ### Payloads -/

theorem parse_of_reads {r : Reader BoxFault α} (h : Reads r b.payload a) : b.parse r = .ok a := by
  rw [Box.parse, h (Cursor.ofBytes b.payload) [] (List.append_nil _).symm]

theorem parse_eq_ok {r : Reader BoxFault α} :
    b.parse r = .ok a ↔ ∃ c, r (Cursor.ofBytes b.payload) = .ok (a, c) := by
  rw [Box.parse]
  cases r (Cursor.ofBytes b.payload) with
  | error fault => exact ⟨nofun, nofun⟩
  | ok p => exact ⟨fun h => by cases h; exact ⟨p.2, rfl⟩, fun ⟨c, h⟩ => by cases h; rfl⟩

/-! ### Checks in front of a table -/

theorem checkCount_eq_ok {table : String} {count most : ℕ} {u : Unit} :
    checkCount table count most c = .ok (u, c') ↔ count ≤ most ∧ c' = c := by
  rw [checkCount]
  split
  · exact ⟨nofun, fun h => absurd h.1 (by omega)⟩
  · exact ⟨fun h => by cases h; exact ⟨by omega, rfl⟩, fun h => by rw [h.2]; rfl⟩

theorem checkRoom_eq_ok {table : String} {count size : ℕ} {u : Unit} :
    checkRoom table count size c = .ok (u, c') ↔ count * size ≤ c.rest.length ∧ c' = c := by
  rw [checkRoom, bind_of_ok (show (remaining : Reader BoxFault ℕ) c = .ok (c.rest.length, c) from rfl)]
  split
  · exact ⟨nofun, fun h => absurd h.1 (by omega)⟩
  · exact ⟨fun h => by cases h; exact ⟨by omega, rfl⟩, fun h => by rw [h.2]; rfl⟩

theorem reads_checkCount {table : String} {count most : ℕ} (h : count ≤ most) :
    Reads (checkCount table count most) [] () :=
  fun _ _ _ => checkCount_eq_ok.mpr ⟨h, rfl⟩

theorem readsBelow_checkRoom {table : String} {count size : ℕ} {r : Reader BoxFault α}
    (hroom : count * size ≤ w.length) (hr : ReadsBelow limit r w a) :
    ReadsBelow limit (checkRoom table count size >>= fun _ => r) w a := by
  intro c tail hrest hlimit
  have hleft : count * size ≤ c.rest.length := by
    rw [hrest, List.length_append]
    omega
  have hcheck : checkRoom table count size c = .ok ((), c) := checkRoom_eq_ok.mpr ⟨hleft, rfl⟩
  rw [bind_of_ok hcheck]
  exact hr c tail hrest hlimit

theorem reads_checkRoom {table : String} {count size : ℕ} {r : Reader BoxFault α}
    (hroom : count * size ≤ w.length) (hr : Reads r w a) :
    Reads (checkRoom table count size >>= fun _ => r) w a :=
  reads_of_below fun limit => readsBelow_checkRoom hroom (hr.below limit)

/-! ### What may be there or not -/

theorem reads_when_false (r : Reader BoxFault α) : Reads (when false r) [] none :=
  reads_pure none

theorem reads_when_true {r : Reader BoxFault α} (h : Reads r w a) : Reads (when true r) w (some a) :=
  h.map some

theorem when_eq_ok {present : Bool} {r : Reader BoxFault α} {x : Option α} :
    when present r c = .ok (x, c') ↔
      if present then ∃ a, x = some a ∧ r c = .ok (a, c') else x = none ∧ c' = c := by
  cases present with
  | false => exact ⟨fun h => by cases h; exact ⟨rfl, rfl⟩, fun ⟨hx, hc⟩ => by rw [hx, hc]; rfl⟩
  | true =>
      rw [when, if_pos rfl, if_pos rfl, map_eq_ok]
      exact ⟨fun ⟨a, ha, hx⟩ => ⟨a, hx.symm, ha⟩, fun ⟨a, hx, ha⟩ => ⟨a, ha, hx.symm⟩⟩

theorem hasFlag_eq {flags : UInt32} (h : b.flags = flags) (mask : UInt32) :
    b.hasFlag mask = decide (flags &&& mask ≠ 0) := by
  rw [hasFlag, h]

/-- A word that is written if the flags announce it. -/
def announced (b : Box) (mask : UInt32) (x : UInt32) : Bytes :=
  if b.hasFlag mask then Bytes.ofUInt32 x else []

def announcedSize (b : Box) (mask : UInt32) : ℕ := if b.hasFlag mask then 4 else 0

theorem announcedSize_le (b : Box) (mask : UInt32) : b.announcedSize mask ≤ 4 := by
  rw [announcedSize]
  split <;> omega

theorem length_announced (b : Box) (mask x : UInt32) :
    (b.announced mask x).length = b.announcedSize mask := by
  rw [announced, announcedSize]
  split
  · exact Bytes.length_ofUInt32 x
  · rfl

theorem readsBelow_announced {mask x : UInt32} {r : Reader BoxFault α}
    (h : b.hasFlag mask = true → ReadsBelow limit r (Bytes.ofUInt32 x) a) :
    ReadsBelow limit (when (b.hasFlag mask) r) (b.announced mask x)
      (if b.hasFlag mask then some a else none) := by
  rw [announced]
  cases hflag : b.hasFlag mask with
  | false => exact (reads_when_false r).below limit
  | true => exact (h hflag).map some

/-- An announced word is there if it has room. -/
theorem exists_announced (b : Box) (mask : UInt32) {d : Bytes} (h : b.announcedSize mask ≤ d.length) :
    ∃ x rest, d = b.announced mask x ++ rest ∧ rest.length + b.announcedSize mask = d.length := by
  rw [announcedSize] at h ⊢
  simp only [announced]
  split_ifs at h ⊢
  · exact Bytes.exists_word h
  · exact ⟨0, d, rfl, rfl⟩

end ProtectedMedia.Box
