import Mathlib.Data.List.DropRight
import Mathlib.Data.List.Infix
import ProtectedMedia.Text.Blank

/-!
# Pieces of a text

What the ways of cutting a text give. Splitting at a character gives the pieces between its
occurrences, so no piece has the character and each stands in the text as it is. Trimming gives a
piece that cannot be trimmed again, and leaves such a piece alone.
-/
namespace ProtectedMedia.Text

variable {c : Char} {p : Char → Bool} {s : List Char}

/-! ### Splitting -/

theorem splitAll_eq_splitOn (c : Char) (s : List Char) : splitAll c s = s.splitOn c := by
  induction s with
  | nil => rfl
  | cons x s ih =>
      rw [splitAll, List.splitOn_cons_eq_if_modifyHead, ih]
      cases hs : s.splitOn c with
      | nil => exact absurd hs (List.splitOn_ne_nil c s)
      | cons part parts => simp

theorem splitAll_of_notMem (h : c ∉ s) : splitAll c s = [s] := by
  rw [splitAll_eq_splitOn, List.splitOn_eq_singleton h]

theorem splitAll_append_cons (h : c ∉ s) (t : List Char) :
    splitAll c (s ++ c :: t) = s :: splitAll c t := by
  simp only [splitAll_eq_splitOn, List.splitOn_append_cons_self_of_not_mem h]

/-- The first piece is what stands before the first occurrence; the others stand further on. -/
theorem exists_splitAll (c : Char) (s : List Char) :
    ∃ parts, splitAll c s = s.takeWhile (· ≠ c) :: parts ∧
      ∀ part ∈ parts, c ∉ part ∧ part <:+: s := by
  induction s with
  | nil => exact ⟨[], rfl, by simp⟩
  | cons x s ih =>
      obtain ⟨parts, hsplit, hparts⟩ := ih
      have hbehind : ∀ part ∈ parts, c ∉ part ∧ part <:+: x :: s := fun part hpart =>
        ⟨(hparts part hpart).1, List.infix_cons (hparts part hpart).2⟩
      rw [splitAll, hsplit]
      by_cases hx : x = c
      · refine ⟨_, by rw [if_pos hx, List.takeWhile_cons_of_neg (by simpa using hx)], ?_⟩
        refine List.forall_mem_cons.mpr ⟨⟨fun hmem => ?_, ?_⟩, hbehind⟩
        · simpa using List.mem_takeWhile_imp hmem
        · exact List.infix_cons (List.takeWhile_prefix _).isInfix
      · exact ⟨parts, by rw [if_neg hx, List.takeWhile_cons_of_pos (by simpa using hx)], hbehind⟩

theorem notMem_of_mem_splitAll {part : List Char} (h : part ∈ splitAll c s) : c ∉ part := by
  obtain ⟨parts, hsplit, hparts⟩ := exists_splitAll c s
  rw [hsplit] at h
  rcases List.mem_cons.mp h with rfl | h
  · intro hmem
    simpa using List.mem_takeWhile_imp hmem
  · exact (hparts part h).1

theorem infix_of_mem_splitAll {part : List Char} (h : part ∈ splitAll c s) : part <:+: s := by
  obtain ⟨parts, hsplit, hparts⟩ := exists_splitAll c s
  rw [hsplit] at h
  rcases List.mem_cons.mp h with rfl | h
  · exact (List.takeWhile_prefix _).isInfix
  · exact (hparts part h).2

theorem splitOnce?_append_cons (h : c ∉ s) (t : List Char) :
    splitOnce? c (s ++ c :: t) = some (s, t) := by
  have hs : ∀ x ∈ s, (!decide (x = c)) = true := by
    intro x hx
    simpa using ne_of_mem_of_not_mem hx h
  simp [splitOnce?, List.takeWhile_append_of_pos hs, List.dropWhile_append_of_pos hs]

/-- A text is split at the first occurrence. -/
theorem splitOnce?_eq_some_iff {before after : List Char} :
    splitOnce? c s = some (before, after) ↔ c ∉ before ∧ s = before ++ c :: after := by
  constructor
  · intro h
    rw [splitOnce?] at h
    split at h
    · cases h
    · rename_i x rest hrest
      cases h
      have hx : x = c := by
        have hhead := List.head?_dropWhile_not (· ≠ c) s
        rw [hrest] at hhead
        simpa using hhead
      refine ⟨fun hmem => by simpa using List.mem_takeWhile_imp hmem, ?_⟩
      rw [← hx, ← hrest, hx, List.takeWhile_append_dropWhile]
  · rintro ⟨hbefore, rfl⟩
    exact splitOnce?_append_cons hbefore after

/-! ### Trimming -/

/-- Neither end of a text has the property. -/
structure Trimmed (p : Char → Bool) (s : List Char) : Prop where
  head : ∀ x ∈ s.head?, p x = false
  last : ∀ x ∈ s.getLast?, p x = false

theorem trimWhile_eq_rdropWhile (p : Char → Bool) (s : List Char) :
    trimWhile p s = (s.dropWhile p).rdropWhile p := rfl

theorem Trimmed.trimWhile_eq (h : Trimmed p s) : trimWhile p s = s := by
  have hhead : s.dropWhile p = s := by
    cases s with
    | nil => rfl
    | cons x s => exact List.dropWhile_cons_of_neg (by simp [h.head x rfl])
  rw [trimWhile_eq_rdropWhile, hhead, List.rdropWhile_eq_self_iff]
  intro hs
  simp [h.last _ (List.getLast?_eq_some_getLast hs)]

theorem Trimmed.of_notMem {x : Char} (h : x ∉ s) : Trimmed (· = x) s where
  head _ hmem := decide_eq_false fun heq => h (heq ▸ List.mem_of_mem_head? hmem)
  last _ hmem := decide_eq_false fun heq => h (heq ▸ List.mem_of_mem_getLast? hmem)

/-- One character on either side is trimmed away. -/
theorem Trimmed.trimWhile_between (h : Trimmed p s) {x : Char} (hx : p x = true) :
    trimWhile p (x :: (s ++ [x])) = s := by
  rw [trimWhile_eq_rdropWhile, List.dropWhile_cons_of_pos hx]
  cases s with
  | nil => simp [hx]
  | cons y s =>
      have hy : ¬p y = true := by simp [h.head y rfl]
      rw [List.cons_append, List.dropWhile_cons_of_neg hy, ← List.cons_append,
        List.rdropWhile_concat_pos _ _ _ hx, List.rdropWhile_eq_self_iff]
      intro hs
      simp [h.last _ (List.getLast?_eq_some_getLast hs)]

theorem trimmed_trimWhile (p : Char → Bool) (s : List Char) : Trimmed p (trimWhile p s) where
  head x hx := by
    have hkept := List.head?_dropWhile_not p s
    obtain ⟨rest, hrest⟩ := List.rdropWhile_prefix p (s.dropWhile p)
    rw [← hrest, List.head?_append, ← trimWhile_eq_rdropWhile, Option.mem_def.mp hx] at hkept
    exact hkept
  last x hx := by
    obtain ⟨hs, rfl⟩ := List.mem_getLast?_eq_getLast hx
    exact Bool.eq_false_iff.mpr (List.rdropWhile_last_not p (s.dropWhile p) hs)

theorem isInfix_trimWhile (p : Char → Bool) (s : List Char) : trimWhile p s <:+: s :=
  (List.rdropWhile_prefix p _).isInfix.trans (List.dropWhile_suffix p).isInfix

end ProtectedMedia.Text
