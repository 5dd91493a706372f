import Mathlib.Logic.Relation
import Mathlib.Data.List.Basic

/-! # Bounded traversal of a graph

A depth-first walk with an explicit stack that visits at most `n` entries. The graph may be infinite
or cyclic: the bound is on the visits, so the walk is a list of at most `n` nodes. A skipped entry
(a nil pointer) uses up a visit and yields no node. -/

namespace Modary.Lib.Traversal

variable {ν : Type*}

/-- The nodes met, in order. The children of a node are pushed in front of the stack, no more of them
than visits are left. -/
def visit (children : ν → List ν) (skip : ν → Bool) : ℕ → List ν → List ν
  | 0, _ => []
  | _ + 1, [] => []
  | n + 1, x :: stack =>
    if skip x then visit children skip n stack
    else x :: visit children skip n ((children x).take n ++ stack)

variable {children : ν → List ν} {skip : ν → Bool}

@[simp] theorem visit_nil (n : ℕ) : visit children skip n [] = [] := by
  cases n <;> rfl

theorem visit_cons {x : ν} (hx : skip x = false) (n : ℕ) (stack : List ν) :
    visit children skip (n + 1) (x :: stack) =
      x :: visit children skip n ((children x).take n ++ stack) := by
  simp [visit, hx]

theorem visit_skip {x : ν} (hx : skip x = true) (n : ℕ) (stack : List ν) :
    visit children skip (n + 1) (x :: stack) = visit children skip n stack := by
  simp [visit, hx]

theorem mem_visit_head {x : ν} (hx : skip x = false) (n : ℕ) (stack : List ν) :
    x ∈ visit children skip (n + 1) (x :: stack) := by
  rw [visit_cons hx]
  exact List.mem_cons_self

theorem mem_visit_children {x y : ν} {n : ℕ} {stack : List ν} (hx : skip x = false)
    (hy : y ∈ visit children skip n ((children x).take n ++ stack)) :
    y ∈ visit children skip (n + 1) (x :: stack) := by
  rw [visit_cons hx]
  exact List.mem_cons_of_mem _ hy

end Modary.Lib.Traversal
