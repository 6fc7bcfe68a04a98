import Mathlib.Data.List.NodupEquivFin
import Mathlib.Order.Bounds.Basic
import PerfectKeys.FirstRepeat

/-!
# Positions that repeat earlier ones

Names that come twice, names that share a slot, mnemonics that share a key: each time an
element of a list looks like an earlier one. `RepeatsAt` says so of a position. There is no
such position exactly when the elements look pairwise different, and `firstRepeat?` answers
with the element at the least one.
-/

namespace PerfectKeys

/-- The element at this position looks like one at an earlier position. -/
def RepeatsAt {α β : Type} (image : α → β) (l : List α) (i : Nat) : Prop :=
  ∃ j a b, j < i ∧ l[j]? = some a ∧ l[i]? = some b ∧ image a = image b

/-- Images are pairwise different when no position repeats an earlier one. -/
theorem nodup_map_iff_not_repeatsAt {α β : Type} {image : α → β} {l : List α} :
    (l.map image).Nodup ↔ ∀ i, ¬ RepeatsAt image l i := by
  rw [List.nodup_iff_pairwise_ne, List.pairwise_map, List.pairwise_iff_getElem]
  refine ⟨fun h i hi => ?_, fun h => ?_⟩
  · obtain ⟨j, a, b, hji, ha, hb, he⟩ := hi
    obtain ⟨hj, rfl⟩ := List.getElem?_eq_some_iff.mp ha
    obtain ⟨hi, rfl⟩ := List.getElem?_eq_some_iff.mp hb
    exact h j i hj hi hji he
  · intro j i hj hi hji he
    exact h i ⟨j, l[j], l[i], hji, List.getElem?_eq_getElem hj, List.getElem?_eq_getElem hi, he⟩

/-- Positions with different keys: equal keys stand at one position. -/
theorem index_eq_of_nodup_map {α β : Type} {key : α → β} {l : List α}
    (hnd : (l.map key).Nodup) {i j : Nat} {a b : α} (ha : l[i]? = some a) (hb : l[j]? = some b)
    (he : key a = key b) : i = j := by
  have hno := nodup_map_iff_not_repeatsAt.mp hnd
  rcases Nat.lt_trichotomy i j with hij | hij | hij
  · exact absurd ⟨i, a, b, hij, ha, hb, he⟩ (hno j)
  · exact hij
  · exact absurd ⟨j, b, a, hij, hb, ha, he.symm⟩ (hno i)

/-- An element of a mapped list is related to an earlier one when what they come from is. -/
theorem exists_earlier_map_iff {α β : Type} {f : α → β} {R : β → β → Prop} {l : List α} {i : Nat} :
    (∃ j p q, j < i ∧ (l.map f)[j]? = some p ∧ (l.map f)[i]? = some q ∧ R p q) ↔
      ∃ j a b, j < i ∧ l[j]? = some a ∧ l[i]? = some b ∧ R (f a) (f b) := by
  refine ⟨fun h => ?_, fun h => ?_⟩
  · obtain ⟨j, p, q, hji, hp, hq, hr⟩ := h
    rw [List.getElem?_map] at hp hq
    obtain ⟨a, ha, rfl⟩ := Option.map_eq_some_iff.mp hp
    obtain ⟨b, hb, rfl⟩ := Option.map_eq_some_iff.mp hq
    exact ⟨j, a, b, hji, ha, hb, hr⟩
  · obtain ⟨j, a, b, hji, ha, hb, hr⟩ := h
    refine ⟨j, f a, f b, hji, ?_, ?_, hr⟩
    · rw [List.getElem?_map, ha, Option.map_some]
    · rw [List.getElem?_map, hb, Option.map_some]

/-- Repetitions in a mapped list are repetitions of what the elements are mapped to. -/
theorem repeatsAt_map_iff {α β γ : Type} {f : α → β} {image : β → γ} {l : List α} {i : Nat} :
    RepeatsAt image (l.map f) i ↔ RepeatsAt (fun a => image (f a)) l i :=
  exists_earlier_map_iff (R := fun p q => image p = image q)

/-- Whether a position repeats an earlier one is settled by the list up to it. -/
theorem repeatsAt_append_of_lt {α β : Type} {image : α → β} {l rest : List α} {i : Nat}
    (hi : i < l.length) : RepeatsAt image (l ++ rest) i ↔ RepeatsAt image l i := by
  unfold RepeatsAt
  rw [List.getElem?_append_left hi]
  refine exists_congr fun j => exists_congr fun a => exists_congr fun b => ?_
  refine and_congr_right fun hji => ?_
  rw [List.getElem?_append_left (Nat.lt_trans hji hi)]

/-- What is appended repeats an earlier position when the list has an element that looks like it. -/
theorem repeatsAt_append_self_iff {α β : Type} {image : α → β} {l : List α} {a : α} :
    RepeatsAt image (l ++ [a]) l.length ↔ ∃ b ∈ l, image b = image a := by
  have hlast : (l ++ [a])[l.length]? = some a := by simp
  refine ⟨fun h => ?_, fun h => ?_⟩
  · obtain ⟨j, b, c, hj, hb, hc, he⟩ := h
    rw [hlast] at hc
    cases hc
    rw [List.getElem?_append_left hj] at hb
    exact ⟨b, List.mem_of_getElem? hb, he⟩
  · obtain ⟨b, hb, he⟩ := h
    obtain ⟨j, hj, rfl⟩ := List.getElem_of_mem hb
    refine ⟨j, l[j], a, hj, ?_, hlast, he⟩
    rw [List.getElem?_append_left hj, List.getElem?_eq_getElem hj]

/-- What looks like an earlier element is there at least twice. -/
theorem two_le_count_of_repeatsAt {α β : Type} [DecidableEq β] {image : α → β} {l : List α}
    {i : Nat} {b : α} (hb : l[i]? = some b) (h : RepeatsAt image l i) :
    2 ≤ (l.map image).count (image b) := by
  obtain ⟨j, a, c, hji, ha, hc, he⟩ := h
  rw [hb] at hc
  cases hc
  obtain ⟨hi, rfl⟩ := List.getElem?_eq_some_iff.mp hb
  obtain ⟨hj, rfl⟩ := List.getElem?_eq_some_iff.mp ha
  rw [← List.duplicate_iff_two_le_count, List.duplicate_iff_exists_distinct_get]
  refine ⟨⟨j, by rwa [List.length_map]⟩, ⟨i, by rwa [List.length_map]⟩, hji, ?_, ?_⟩
  · rw [List.get_eq_getElem, List.getElem_map]
    exact he.symm
  · rw [List.get_eq_getElem, List.getElem_map]

section Repetitions

variable {α β : Type} [DecidableEq β] {image : α → β}

theorem firstRepeatAfter?_eq_some {seen : List β} {l : List α} {a : α}
    (h : firstRepeatAfter? image seen l = some a) :
    ∃ before after, l = before ++ a :: after ∧ (before.map image).Nodup ∧
      (∀ b ∈ before, image b ∉ seen) ∧ (image a ∈ seen ∨ image a ∈ before.map image) := by
  -- what is split off grows with each step, and so does what was seen before it
  induction l generalizing seen with
  | nil => cases h
  | cons x l ih =>
      rw [firstRepeatAfter?] at h
      by_cases hx : image x ∈ seen
      · rw [if_pos hx] at h
        cases h
        exact ⟨[], l, rfl, by simp, by simp, Or.inl hx⟩
      · rw [if_neg hx] at h
        obtain ⟨before, after, rfl, hnd, hnew, ha⟩ := ih h
        refine ⟨x :: before, after, rfl, ?_, ?_, ?_⟩
        · rw [List.map_cons, List.nodup_cons]
          refine ⟨fun hmem => ?_, hnd⟩
          obtain ⟨b, hb, he⟩ := List.mem_map.mp hmem
          exact hnew b hb (he ▸ List.mem_cons_self)
        · intro b hb
          rcases List.mem_cons.mp hb with rfl | hb
          · exact hx
          · exact fun hs => hnew b hb (List.mem_cons_of_mem _ hs)
        · rw [List.map_cons]
          rcases ha with ha | ha
          · rcases List.mem_cons.mp ha with ha | ha
            · exact Or.inr (ha ▸ List.mem_cons_self)
            · exact Or.inl ha
          · exact Or.inr (List.mem_cons_of_mem _ ha)

/-- A first repetition stands at the least position that repeats. -/
theorem exists_isLeast_of_firstRepeat? {l : List α} {a : α} (h : firstRepeat? image l = some a) :
    ∃ i, l[i]? = some a ∧ IsLeast {i | RepeatsAt image l i} i := by
  obtain ⟨before, after, rfl, hnd, -, ha⟩ := firstRepeatAfter?_eq_some h
  have ha : image a ∈ before.map image := ha.resolve_left List.not_mem_nil
  refine ⟨before.length, by simp, ?_, fun i hi => Nat.le_of_not_lt fun hlt => ?_⟩
  · show RepeatsAt image (before ++ a :: after) before.length
    rw [List.append_cons, repeatsAt_append_of_lt (by simp), repeatsAt_append_self_iff]
    exact List.mem_map.mp ha
  · -- below the split all images are different, so nothing repeats there
    have hi : RepeatsAt image (before ++ a :: after) i := hi
    rw [repeatsAt_append_of_lt hlt] at hi
    exact nodup_map_iff_not_repeatsAt.mp hnd i hi

/-- **`firstRepeat?` answers with the element at the least position that repeats.** -/
theorem firstRepeat?_eq_some_iff {l : List α} {a : α} : firstRepeat? image l = some a ↔
    ∃ i, l[i]? = some a ∧ IsLeast {i | RepeatsAt image l i} i := by
  refine ⟨exists_isLeast_of_firstRepeat?, fun h => ?_⟩
  obtain ⟨i, ha, hi⟩ := h
  cases h : firstRepeat? image l with
  | none =>
      rw [firstRepeat?_eq_none_iff, nodup_map_iff_not_repeatsAt] at h
      exact absurd hi.1 (h i)
  | some a' =>
      obtain ⟨i', ha', hi'⟩ := exists_isLeast_of_firstRepeat? h
      rw [IsLeast.unique hi' hi, ha] at ha'
      exact ha'.symm

end Repetitions

end PerfectKeys
