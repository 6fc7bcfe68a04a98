/-!
# The first repetition in a list

Going through a list from the left, the first element that looks like an earlier one.
Two questions of a search are of this kind: which name is given twice, and which name is
the first to find its slot taken.
-/

namespace PerfectKeys

/-- The first element whose image is among the given ones or is the image of an earlier element. -/
def firstRepeatAfter? {α β : Type} [DecidableEq β] (image : α → β) (seen : List β) :
    List α → Option α
  | [] => none
  | a :: rest =>
      if image a ∈ seen then some a
      else firstRepeatAfter? image (image a :: seen) rest

/-- The first element whose image is the image of an earlier element. -/
def firstRepeat? {α β : Type} [DecidableEq β] (image : α → β) (l : List α) : Option α :=
  firstRepeatAfter? image [] l

theorem firstRepeatAfter?_eq_none_iff {α β : Type} [DecidableEq β] (image : α → β) (seen : List β)
    (l : List α) : firstRepeatAfter? image seen l = none ↔
      (l.map image).Nodup ∧ ∀ a ∈ l, image a ∉ seen := by
  induction l generalizing seen with
  | nil => simp [firstRepeatAfter?]
  | cons a l ih =>
      rw [firstRepeatAfter?]
      by_cases h : image a ∈ seen
      · simp [h]
      · rw [if_neg h, ih]
        simp only [List.map_cons, List.nodup_cons, List.mem_cons, not_or, List.mem_map, not_exists,
          not_and, forall_eq_or_imp]
        grind

/-- There is no repetition when the images are pairwise different. -/
theorem firstRepeat?_eq_none_iff {α β : Type} [DecidableEq β] (image : α → β) (l : List α) :
    firstRepeat? image l = none ↔ (l.map image).Nodup := by
  simp [firstRepeat?, firstRepeatAfter?_eq_none_iff]

end PerfectKeys
