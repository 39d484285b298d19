import Mathlib.Data.List.Chain
import Mathlib.Logic.Relation

/-!
# Cycles

A search that meets an element again on its way reports the way from there, and where it closes.

## Main definitions

* `Netlist.IsCycle`: a way of at least one step that leads back to where it begins.

## Main results

* `Netlist.IsCycle.transGen`: where such a way begins, a relation leads back.
* `Netlist.isCycle_dropWhile`: the part of a way from an element that is met again.
* `Netlist.not_transGen_of_acc`: no cycle begins at an accessible element.
-/

namespace Netlist

open Relation (TransGen)

variable {α : Type*} {r : α → α → Prop} {x y : α} {path : List α}

/-- A way of at least one step that leads back to where it begins. -/
structure IsCycle (r : α → α → Prop) (path : List α) : Prop where
  two_le : 2 ≤ path.length
  closed : path.head? = path.getLast?
  chain : path.IsChain r

theorem IsCycle.exists_head (h : IsCycle r path) : ∃ x, path.head? = some x := by
  cases path with
  | nil => exact absurd h.two_le (by simp)
  | cons x rest => exact ⟨x, rfl⟩

/-- From the first element of a way, a relation leads to the last. -/
theorem transGen_of_isChain_cons {ys : List α} (h : (x :: (ys ++ [y])).IsChain r) :
    TransGen r x y := by
  induction ys generalizing x with
  | nil => exact .single (List.isChain_pair.1 h)
  | cons z ys ih =>
    obtain ⟨hxz, h⟩ := List.isChain_cons_cons.1 h
    exact .head hxz (ih h)

/-- Where a cycle begins, the relation leads back. -/
theorem IsCycle.transGen (h : IsCycle r path) (hx : path.head? = some x) : TransGen r x x := by
  obtain ⟨ys, rfl⟩ : ∃ ys, path = x :: (ys ++ [x]) := by
    obtain ⟨rest, rfl⟩ := List.head?_eq_some_iff.1 hx
    obtain ⟨front, hfront⟩ := List.getLast?_eq_some_iff.1 (h.closed.symm.trans hx)
    cases front with
    | nil =>
      have hlength := h.two_le
      rw [hfront] at hlength
      simp at hlength
    | cons z ys =>
      obtain ⟨rfl, rfl⟩ := List.cons.inj hfront
      exact ⟨ys, rfl⟩
  exact transGen_of_isChain_cons h.chain

/-- If a way comes to an element that it has met before, it has a cycle from there on. -/
theorem isCycle_dropWhile [DecidableEq α] (h : (path ++ [x]).IsChain r) (hx : x ∈ path) :
    IsCycle r (path.dropWhile (· ≠ x) ++ [x]) := by
  obtain ⟨front, rest, rfl, hfront⟩ := List.eq_append_cons_of_mem hx
  have hdrop : (front ++ x :: rest).dropWhile (· ≠ x) = x :: rest := by
    have hne : ∀ y ∈ front, decide (y ≠ x) = true := fun y hy =>
      decide_eq_true fun he : y = x => hfront (he ▸ hy)
    rw [List.dropWhile_append_of_pos hne, List.dropWhile_cons_of_neg (by simp)]
  rw [List.append_assoc] at h
  rw [hdrop]
  exact ⟨by simp, by rw [List.getLast?_concat]; rfl, h.suffix (List.suffix_append _ _)⟩

/-- No cycle begins at an accessible element. -/
theorem not_transGen_of_acc (h : Acc r x) : ¬TransGen r x x := by
  have hacc : Acc (TransGen r) x := h.transGen
  clear h
  induction hacc with
  | intro x _ ih => exact fun hx => ih x hx hx

end Netlist
