import Mathlib.Tactic

/-!
# heap

pointer で共有される値を置く heap。番地は自然数で、新しい値は `size` の番地に置く。

* `alloc` — 新しい番地に置く。前からある番地は変わらない
* `modify` — 一つの番地を書き換える。ほかの番地は変わらない
-/

structure Heap (α : Type) where
  cell : Nat → α
  size : Nat

namespace Heap

variable {α : Type} {h : Heap α} {a : α} {f : α → α} {p x : Nat}

/-- 空の heap。まだ使われていない番地には `a` がある。 -/
def empty (a : α) : Heap α := ⟨fun _ => a, 0⟩

/-- `a` を番地 `h.size` に置く。 -/
def alloc (h : Heap α) (a : α) : Heap α := ⟨Function.update h.cell h.size a, h.size + 1⟩

/-- 番地 `p` の値を書き換える。 -/
def modify (h : Heap α) (p : Nat) (f : α → α) : Heap α :=
  { h with cell := Function.update h.cell p (f (h.cell p)) }

@[simp] theorem size_alloc : (h.alloc a).size = h.size + 1 := rfl

@[simp] theorem cell_alloc_size : (h.alloc a).cell h.size = a := Function.update_self ..

theorem cell_alloc_of_lt (hx : x < h.size) : (h.alloc a).cell x = h.cell x :=
  Function.update_of_ne hx.ne _ _

@[simp] theorem size_modify : (h.modify p f).size = h.size := rfl

@[simp] theorem cell_modify_self : (h.modify p f).cell p = f (h.cell p) := Function.update_self ..

theorem cell_modify_of_ne (hx : x ≠ p) : (h.modify p f).cell x = h.cell x :=
  Function.update_of_ne hx _ _

end Heap
