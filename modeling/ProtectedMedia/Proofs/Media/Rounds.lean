import Mathlib.Computability.Language

/-!
# Rounds

A media source goes through the same round again and again: it is attached, plays, perhaps comes to
an end, and is detached. What is seen of it until some moment is a number of whole rounds and the
beginning of one more.
-/
namespace ProtectedMedia
open scoped Computability

variable {α β : Type}

/-- The word begins a sequence of whole rounds: it is what one has seen of the rounds so far. -/
def Begins (round : Language α) (word : List α) : Prop := ∃ rest, word ++ rest ∈ round∗

theorem append_mem_rounds {round : Language α} {whole last : List α} (h : whole ∈ round∗)
    (hlast : last ∈ round) : whole ++ last ∈ round∗ := by
  have hle : round∗ * round ≤ round∗ := kstar_mul_le_kstar
  exact hle (Language.append_mem_mul h hlast)

/-- Rounds that were completed, and a part of a round that can be completed. -/
theorem begins_append {round : Language α} {whole part : List α} (h : whole ∈ round∗)
    (rest : List α) (hpart : part ++ rest ∈ round) : Begins round (whole ++ part) := by
  refine ⟨rest, ?_⟩
  rw [List.append_assoc]
  exact append_mem_rounds h hpart

theorem begins_of_mem {round : Language α} {whole : List α} (h : whole ∈ round∗) :
    Begins round whole :=
  ⟨[], by rwa [List.append_nil]⟩

/-- The middle of a round may be missing, -/
theorem append_mem_without {first middle last : Language α} {a c : List α} (ha : a ∈ first)
    (hc : c ∈ last) : a ++ c ∈ first * (1 + middle) * last := by
  have hfront : a ++ [] ∈ first * (1 + middle) := Language.append_mem_mul ha (.inl rfl)
  rw [List.append_nil] at hfront
  exact Language.append_mem_mul hfront hc

/-- or it may be there. -/
theorem append_mem_with {first middle last : Language α} {a b c : List α} (ha : a ∈ first)
    (hb : b ∈ middle) (hc : c ∈ last) : a ++ b ++ c ∈ first * (1 + middle) * last :=
  Language.append_mem_mul (Language.append_mem_mul ha (.inr hb)) hc

/-- Who sees only a part of each round sees rounds all the same. -/
theorem Begins.filterMap {round : Language α} {round' : Language β} {word : List α}
    (f : α → Option β) (h : Begins round word)
    (hround : ∀ w ∈ round, w.filterMap f ∈ round') : Begins round' (word.filterMap f) := by
  obtain ⟨rest, hrounds⟩ := h
  obtain ⟨rounds, heq, hmem⟩ := Language.mem_kstar.mp hrounds
  refine ⟨rest.filterMap f, ?_⟩
  rw [← List.filterMap_append, heq, List.filterMap_flatten]
  refine Language.join_mem_kstar fun w hw => ?_
  obtain ⟨v, hv, rfl⟩ := List.mem_map.mp hw
  exact hround v (hmem v hv)

end ProtectedMedia
