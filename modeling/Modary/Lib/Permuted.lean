import Mathlib.Data.Fintype.Perm
import Mathlib.Data.List.FinRange

/-! # Lists in some order

A list whose elements come in an order that is not known, as those of a map that is gone through. -/

namespace Modary.Lib.Permuted

variable {α : Type}

/-- The list in another order. -/
def permuted (l : List α) (order : Equiv.Perm (Fin l.length)) : List α :=
  List.ofFn fun i => l.get (order i)

theorem permuted_perm (l : List α) (order : Equiv.Perm (Fin l.length)) :
    (permuted l order).Perm l := by
  have hperm := Equiv.Perm.ofFn_comp_perm order l.get
  rw [List.ofFn_get] at hperm
  exact hperm

end Modary.Lib.Permuted
