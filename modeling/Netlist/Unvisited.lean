/-!
# Names off a path

A search that goes from name to name and never comes back to one on its way ends, because fewer
and fewer names lie off the way.

## Main definitions

* `Netlist.unvisited`: how many names of a list are not on a path.

## Main results

* `Netlist.unvisited_append_lt`: one more step leaves fewer names.
-/

namespace Netlist

/-- How many names of a list are not on a path. -/
def unvisited (names path : List String) : Nat :=
  (names.filter fun n => n ∉ path).length

theorem unvisited_append_lt {names path : List String} {name : String} (hn : name ∈ names)
    (hp : name ∉ path) : unvisited names (path ++ [name]) < unvisited names path := by
  have hsub : (names.filter fun n => n ∉ path ++ [name]) =
      (names.filter fun n => n ∉ path).filter fun n => n ≠ name := by
    rw [List.filter_filter]
    refine List.filter_congr fun n _ => ?_
    simp only [List.mem_append, List.mem_singleton, not_or, Bool.decide_and]
    exact Bool.and_comm _ _
  have hm : name ∈ names.filter fun n => n ∉ path := List.mem_filter.2 ⟨hn, by simpa using hp⟩
  rw [unvisited, unvisited, hsub]
  exact List.length_filter_lt_length_iff_exists.2 ⟨name, hm, by simp⟩

theorem unvisited_append_of_not_mem {names path : List String} {name : String}
    (hn : name ∉ names) : unvisited names (path ++ [name]) = unvisited names path := by
  unfold unvisited
  congr 1
  refine List.filter_congr fun n h => ?_
  have : n ≠ name := fun he => hn (he ▸ h)
  simp [this]

end Netlist
