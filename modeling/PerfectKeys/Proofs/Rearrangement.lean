import Mathlib.Data.List.FinRange
import Mathlib.Data.List.Perm.Basic

/-!
# Rearranged lists

Two runs or two searches can be given the same things in another order. A permutation of the
positions says which order that is, so that what happened to an element in the one can be
compared with what happened to it in the other.
-/

namespace PerfectKeys

/-- The elements in another order: what comes to a position is told by the permutation. -/
def rearrange {α : Type} (l : List α) (σ : Equiv.Perm (Fin l.length)) : List α :=
  List.ofFn fun i => l.get (σ i)

theorem perm_rearrange {α : Type} (l : List α) (σ : Equiv.Perm (Fin l.length)) :
    (rearrange l σ).Perm l := by
  have h := σ.ofFn_comp_perm l.get
  rw [List.ofFn_get] at h
  exact h

theorem getElem?_rearrange {α : Type} (l : List α) (σ : Equiv.Perm (Fin l.length))
    (i : Fin l.length) : (rearrange l σ)[i.val]? = l[(σ i).val]? := by
  unfold rearrange
  rw [List.getElem?_ofFn, dif_pos i.isLt, List.getElem?_eq_getElem (σ i).isLt]
  rfl

end PerfectKeys
