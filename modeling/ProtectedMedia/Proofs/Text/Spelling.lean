import Mathlib
import ProtectedMedia.Proofs.Text.Pieces

/-!
# Blanks and letter case

Two ways of writing a text differently that no cut takes notice of. Blanks around a text are trimmed
away. A change of letter case makes and removes neither blanks nor separators, so that the pieces of
a text in lower case are its pieces in lower case.
-/
namespace ProtectedMedia.Text

variable {c : Char} {p : Char → Bool} {s t : List Char}

/-! ### Blanks -/

/-- The second text is the first one with blanks around it. -/
def Padded (s t : List Char) : Prop :=
  ∃ left right : List Char, left.all isBlank ∧ right.all isBlank ∧ t = left ++ s ++ right

theorem trimWhile_append_left {left : List Char} (h : ∀ x ∈ left, p x = true) :
    trimWhile p (left ++ s) = trimWhile p s := by
  rw [trimWhile, trimWhile, List.dropWhile_append_of_pos h]

theorem trimWhile_append_right {right : List Char} (h : ∀ x ∈ right, p x = true) :
    trimWhile p (s ++ right) = trimWhile p s := by
  rw [trimWhile, trimWhile, List.dropWhile_append]
  split
  · rename_i hs
    rw [List.isEmpty_iff.mp hs, List.dropWhile_eq_nil_iff.mpr h]
  · have hright : ∀ x ∈ right.reverse, p x = true := fun x hx => h x (List.mem_reverse.mp hx)
    rw [List.reverse_append, List.dropWhile_append_of_pos hright]

theorem Padded.trim_eq (h : Padded s t) : trim t = trim s := by
  obtain ⟨left, right, hleft, hright, rfl⟩ := h
  rw [trim, trimWhile_append_right (List.all_eq_true.mp hright),
    trimWhile_append_left (List.all_eq_true.mp hleft), trim]

theorem padded_trim (s : List Char) : Padded (trim s) s := by
  refine ⟨s.takeWhile isBlank, (s.dropWhile isBlank).rtakeWhile isBlank, ?_, ?_, ?_⟩
  · exact List.all_eq_true.mpr fun x hx => List.mem_takeWhile_imp hx
  · exact List.all_eq_true.mpr fun x hx => List.mem_rtakeWhile_imp hx
  · rw [trim, trimWhile_eq_rdropWhile, List.append_assoc, List.rdropWhile_append_rtakeWhile,
      List.takeWhile_append_dropWhile]

/-- No blank is added that was not one. -/
theorem Padded.notMem (h : Padded s t) (hc : isBlank c = false) (hs : c ∉ s) : c ∉ t := by
  obtain ⟨left, right, hleft, hright, rfl⟩ := h
  have hblank : ∀ u : List Char, u.all isBlank → c ∉ u := by
    intro u hu hmem
    rw [List.all_eq_true.mp hu c hmem] at hc
    cases hc
  simp [hs, hblank left hleft, hblank right hright]

/-! ### Letter case -/

/-- No letter becomes a character that is none. -/
theorem toLower_eq_iff (hc : c.isAlpha = false) (x : Char) : x.toLower = c ↔ x = c := by
  by_cases hx : x.isUpper
  · have hx : x.isAlpha = true := by simp [Char.isAlpha, hx]
    constructor
    · rintro rfl
      rw [Char.isAlpha_toLower_eq_isAlpha, hx] at hc
      cases hc
    · rintro rfl
      rw [hx] at hc
      cases hc
  · rw [Char.toLower_eq_of_not_isUpper hx]

theorem isBlank_of_isAlpha (h : c.isAlpha = true) : isBlank c = false := by
  have hrange : 65 ≤ c.toNat ∧ c.toNat ≤ 90 ∨ 97 ≤ c.toNat ∧ c.toNat ≤ 122 := by
    simpa [Char.isAlpha, Char.isUpper, Char.isLower, UInt32.le_iff_toNat_le] using h
  simp [isBlank, blankRanges]
  omega

theorem isBlank_toLower (x : Char) : isBlank x.toLower = isBlank x := by
  by_cases hx : x.isUpper
  · have hx : x.isAlpha = true := by simp [Char.isAlpha, hx]
    have hlower : x.toLower.isAlpha = true := by rw [Char.isAlpha_toLower_eq_isAlpha, hx]
    rw [isBlank_of_isAlpha hx, isBlank_of_isAlpha hlower]
  · rw [Char.toLower_eq_of_not_isUpper hx]

theorem lower_lower (s : List Char) : lower (lower s) = lower s := by
  simp [lower]

theorem lower_eq_nil_iff : lower s = [] ↔ s = [] := List.map_eq_nil_iff

theorem trimWhile_lower (hp : ∀ x : Char, p x.toLower = p x) (s : List Char) :
    trimWhile p (lower s) = lower (trimWhile p s) := by
  have hsame : p ∘ Char.toLower = p := funext hp
  simp only [trimWhile, lower, List.dropWhile_map, ← List.map_reverse, hsame]

theorem trim_lower (s : List Char) : trim (lower s) = lower (trim s) :=
  trimWhile_lower isBlank_toLower s

theorem all_isBlank_lower (s : List Char) : (lower s).all isBlank = s.all isBlank := by
  rw [lower, List.all_map]
  exact congrArg s.all (funext isBlank_toLower)

section Separators
variable (hc : c.isAlpha = false)
include hc

theorem decide_toLower_ne (x : Char) : decide (x.toLower ≠ c) = decide (x ≠ c) :=
  decide_eq_decide.mpr (not_congr (toLower_eq_iff hc x))

theorem takeWhile_lower (s : List Char) :
    (lower s).takeWhile (· ≠ c) = lower (s.takeWhile (· ≠ c)) := by
  have hsame : (fun x => decide (x ≠ c)) ∘ Char.toLower = fun x => decide (x ≠ c) :=
    funext (decide_toLower_ne hc)
  rw [lower, List.takeWhile_map, hsame, lower]

theorem dropWhile_lower (s : List Char) :
    (lower s).dropWhile (· ≠ c) = lower (s.dropWhile (· ≠ c)) := by
  have hsame : (fun x => decide (x ≠ c)) ∘ Char.toLower = fun x => decide (x ≠ c) :=
    funext (decide_toLower_ne hc)
  rw [lower, List.dropWhile_map, hsame, lower]

theorem splitOnce?_lower (s : List Char) :
    splitOnce? c (lower s) = (splitOnce? c s).map (Prod.map lower lower) := by
  rw [splitOnce?, splitOnce?, dropWhile_lower hc, takeWhile_lower hc]
  cases s.dropWhile (· ≠ c) with
  | nil => rfl
  | cons x rest => rfl

theorem splitAll_lower (s : List Char) : splitAll c (lower s) = (splitAll c s).map lower := by
  induction s with
  | nil => rfl
  | cons x s ih =>
      change splitAll c (x.toLower :: lower s) = _
      rw [splitAll, splitAll, ih]
      by_cases hx : x = c
      · rw [if_pos hx, if_pos ((toLower_eq_iff hc x).mpr hx)]
        rfl
      · rw [if_neg hx, if_neg (mt (toLower_eq_iff hc x).mp hx)]
        cases splitAll c s with
        | nil => rfl
        | cons part parts => rfl

end Separators

end ProtectedMedia.Text
