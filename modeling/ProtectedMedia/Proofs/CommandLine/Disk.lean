import Mathlib.Data.List.Basic
import ProtectedMedia.CommandLine.Disk

/-!
# Files that are read and written

What was written to a path is what is read at the same path. The file that is put somewhere makes no
directory disappear, so that the path still leads to where it led. A path that is no more than a name
leads to a file in the working directory.
-/
namespace ProtectedMedia.Disk

variable {d d' : Disk} {l l' x : Location} {data : Bytes} {place : Place}

/-! ### Places -/

theorem placeAt_put_self (d : Disk) (l : Location) (data : Bytes) :
    (d.put l data).placeAt l = .file l data := by
  simp [placeAt, put]

theorem lookup_filter_of_ne (files : List (Location × Bytes)) (h : l' ≠ l) :
    (files.filter fun f => f.1 ≠ l).lookup l' = files.lookup l' := by
  induction files with
  | nil => rfl
  | cons f files ih =>
      obtain ⟨place, data⟩ := f
      rw [List.filter_cons, List.lookup_cons]
      by_cases hplace : place = l
      · have hother : (l' == place) = false := by simpa [hplace] using h
        rw [if_neg (by simp [hplace]), ih, hother]
      · rw [if_pos (by simp [hplace]), List.lookup_cons, ih]

theorem lookup_put_of_ne (h : l' ≠ l) : (d.put l data).files.lookup l' = d.files.lookup l' := by
  have hother : (l' == l) = false := by simpa using h
  rw [put, List.lookup_cons, hother]
  exact lookup_filter_of_ne d.files h

theorem placeAt_eq_directory : d.placeAt l = .directory x ↔
    d.files.lookup l = none ∧ l ≠ .nullDevice ∧
      (l.isFixedDirectory || d.files.any fun f => f.1.isWithin l) = true ∧ l = x := by
  rw [placeAt]
  cases d.files.lookup l with
  | some data => exact ⟨nofun, nofun⟩
  | none =>
      by_cases hnull : l = .nullDevice
      · simp [hnull]
      · cases (l.isFixedDirectory || d.files.any fun f => f.1.isWithin l) with
        | true => simp [hnull]
        | false => simp [hnull]

/-- A file that is put somewhere else leaves a directory what it is. -/
theorem placeAt_put_of_directory (h : d.placeAt l' = .directory x) (hne : l' ≠ l) :
    (d.put l data).placeAt l' = .directory x := by
  obtain ⟨hnone, hnull, hinside, hx⟩ := placeAt_eq_directory.mp h
  rw [placeAt_eq_directory, lookup_put_of_ne hne]
  refine ⟨hnone, hnull, ?_, hx⟩
  rw [Bool.or_eq_true, List.any_eq_true] at hinside ⊢
  refine hinside.imp_right ?_
  rintro ⟨f, hf, hwithin⟩
  by_cases hreplaced : f.1 = l
  · exact ⟨(l, data), List.mem_cons_self, hreplaced ▸ hwithin⟩
  · exact ⟨f, List.mem_cons_of_mem _ (List.mem_filter.mpr ⟨hf, by simpa using hreplaced⟩), hwithin⟩

/-- Where a file is, or could be. -/
def Place.fileAt? : Place → Option Location
  | .file l _ | .absent l => some l
  | .directory _ | .nullDevice => none

/-- There is no directory, so that a file can be put there. -/
def Free (d : Disk) (l : Location) : Prop := ∀ x, d.placeAt l ≠ .directory x

theorem placeAt_fileAt? (h : (d.placeAt l).fileAt? = some x) : x = l ∧ d.Free l := by
  constructor
  · rw [placeAt] at h
    split at h
    · cases h
      rfl
    · split_ifs at h
      · cases h
      · cases h
      · cases h
        rfl
  · intro y hy
    rw [hy] at h
    cases h

/-! ### Paths -/

theorem follow_put (hfree : d.Free l) {name : String}
    (h : d.follow place name = .ok (.directory x)) :
    (d.put l data).follow place name = .ok (.directory x) := by
  cases place with
  | file | nullDevice | absent => cases h
  | directory l' =>
      rw [follow] at h ⊢
      by_cases hhere : name = "."
      · rwa [if_pos hhere] at h ⊢
      by_cases hup : name = ".."
      · rwa [if_neg hhere, if_pos hup] at h ⊢
      rw [if_neg hhere, if_neg hup] at h ⊢
      cases hfits : Path.fitsName name with
      | false => simp [hfits] at h
      | true =>
          rw [hfits] at h
          have hplace : d.placeAt (l'.child name) = .directory x := Except.ok.inj h
          have hne : l'.child name ≠ l := fun heq => hfree x (heq ▸ hplace)
          exact congrArg Except.ok (placeAt_put_of_directory hplace hne)

/-- A walk goes on from directories only. -/
theorem directory_of_foldlM {names : List String}
    (h : names.foldlM d.follow place = .ok (.directory x)) : ∃ y, place = .directory y := by
  cases names with
  | nil => exact ⟨x, Except.ok.inj h⟩
  | cons name names =>
      cases place with
      | directory l' => exact ⟨l', rfl⟩
      | file | nullDevice | absent => cases h

theorem foldlM_follow_put (hfree : d.Free l) {names : List String}
    (h : names.foldlM d.follow place = .ok (.directory x)) :
    names.foldlM (d.put l data).follow place = .ok (.directory x) := by
  induction names generalizing place with
  | nil => exact h
  | cons name names ih =>
      rw [List.foldlM_cons] at h ⊢
      cases hnext : d.follow place name with
      | error fault =>
          rw [hnext] at h
          cases h
      | ok next =>
          rw [hnext] at h
          obtain ⟨y, rfl⟩ := directory_of_foldlM h
          rw [follow_put hfree hnext]
          exact ih h

theorem follow_fileAt? (data : Bytes) {name : String} {target : Place}
    (h : d.follow place name = .ok target)
    (hfile : target.fileAt? = some l) :
    ∃ parent, place = .directory parent ∧ name ≠ "." ∧ d.Free l ∧
      (d.put l data).follow place name = .ok (.file l data) := by
  cases place with
  | file | nullDevice | absent => cases h
  | directory parent =>
      rw [follow] at h ⊢
      by_cases hhere : name = "."
      · rw [if_pos hhere] at h
        cases h
        cases hfile
      by_cases hup : name = ".."
      · rw [if_neg hhere, if_pos hup] at h
        cases h
        cases hfile
      rw [if_neg hhere, if_neg hup] at h ⊢
      cases hfits : Path.fitsName name with
      | false => simp [hfits] at h
      | true =>
          rw [hfits] at h
          cases h
          obtain ⟨rfl, hfree⟩ := placeAt_fileAt? hfile
          exact ⟨parent, rfl, hhere, hfree, congrArg Except.ok (placeAt_put_self d _ data)⟩

/-- A path at which a file can be written leads to it afterwards. -/
theorem resolve_put {path : Path} {target : Place} (h : d.resolveTarget path = .ok target)
    (hfile : target.fileAt? = some l) : (d.put l data).resolve path = .ok (.file l data) := by
  rw [resolveTarget] at h
  cases hparent : path.names.dropLast.foldlM d.follow (start path) with
  | error fault =>
      rw [hparent] at h
      cases h
  | ok place =>
      rw [hparent] at h
      obtain ⟨parent, rfl, hname, hfree, hput⟩ := follow_fileAt? data h hfile
      have hslash : path.endsInSlash = false := by
        by_contra hslash
        exact hname (if_pos (by simpa using hslash))
      rw [hslash, if_neg Bool.false_ne_true] at hname hput
      have hnames : path.names = path.names.dropLast ++ [path.names.getLastD "."] := by
        cases hempty : path.names with
        | nil =>
            rw [hempty] at hname
            exact absurd rfl hname
        | cons name names => exact (List.dropLast_concat_getLast (List.cons_ne_nil _ _)).symm
      rw [resolve, hnames, List.foldlM_append, foldlM_follow_put hfree hparent, hslash]
      change (d.put l data).follow _ _ >>= _ >>= _ = _
      rw [hput]
      rfl

/-! ### Reading -/

/-- A path that is no more than a name leads to the file of this name in the working directory. -/
theorem read_of_lookup {name : String} (hpath : Path.ofText name = .ok ⟨false, [name], false⟩)
    (hfits : Path.fitsName name = true) (hdots : name ≠ "." ∧ name ≠ "..")
    (h : d.files.lookup (Location.workingDirectory.child name) = some data) :
    d.read name = .ok data := by
  have hplace : d.placeAt (Location.workingDirectory.child name) =
      .file (Location.workingDirectory.child name) data := by
    rw [placeAt, h]
  have hfollow : d.follow (.directory Location.workingDirectory) name =
      .ok (.file (Location.workingDirectory.child name) data) := by
    simp only [follow, if_neg hdots.1, if_neg hdots.2, hfits, hplace]
    rfl
  have hresolve : d.resolve ⟨false, [name], false⟩ =
      .ok (.file (Location.workingDirectory.child name) data) := by
    rw [resolve, List.foldlM_cons]
    change (d.follow (.directory Location.workingDirectory) name >>= _) >>= _ = _
    rw [hfollow]
    rfl
  rw [read, locate, hpath]
  simp only [hresolve]

/-- What is written can be read. -/
theorem read_write {path : String} (h : d.write path data = .ok d') :
    d'.read path = .ok data ∨ locate d.resolveTarget path = .ok .nullDevice := by
  rw [write, locate] at h
  rw [read, locate, locate]
  cases hpath : Path.ofText path with
  | error fault =>
      rw [hpath] at h
      cases h
  | ok p =>
      rw [hpath] at h
      dsimp only at h ⊢
      cases htarget : d.resolveTarget p with
      | error fault =>
          rw [htarget] at h
          cases h
      | ok target =>
          rw [htarget] at h
          cases target with
          | directory => cases h
          | nullDevice => exact .inr rfl
          | file l old | absent l =>
              cases h
              rw [resolve_put htarget rfl]
              exact .inl rfl

end ProtectedMedia.Disk
