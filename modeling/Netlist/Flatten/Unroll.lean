import Netlist.Flatten.Basic

/-!
# Unrolling

The recursion of flattening without a memory: each composite is expanded anew wherever a cell is
bound to it. All that is kept is the path of composites under way, so that a composite that contains
itself is noticed.

## Main definitions

* `Netlist.Catalog.unrollModule`: the inside of a composite, unrolled.
* `Netlist.Catalog.unrollGraph`: a graph, unrolled.
-/

namespace Netlist

namespace Flatten

mutual

/-- The flat inside of a composite. The composites on the path, outermost first, are under way. -/
def unroll (c : Catalog) (b : Boundary) (path : List String) (module : String) :
    Except Error Graph :=
  match _hg : bodyOf c module with
  | .error e => .error e
  | .ok g =>
    if module ∈ path then
      .error (.cyclicContainment (path.dropWhile (· ≠ module) ++ [module]))
    else match compositeCells c g.instances with
      | .error e => .error e
      | .ok cells =>
        match unrollAll c b (path ++ [module]) g cells with
        | .error e => .error e
        | .ok work => .ok (if cells = [] then g else dropStray g work)
termination_by (unvisited c.names path, 0)
decreasing_by
  exact Prod.Lex.left _ _ (unvisited_append_lt (mem_names_of_bodyOf _hg) (by assumption))

/-- Inline composite cells one after the other. -/
def unrollAll (c : Catalog) (b : Boundary) (path : List String) (work : Graph)
    (cells : List (String × String)) : Except Error Graph :=
  match cells with
  | [] => .ok work
  | (name, module) :: cells =>
    match unroll c b path module with
    | .error e => .error e
    | .ok sub =>
      match work.inline c b name sub with
      | .error e => .error e
      | .ok work => unrollAll c b path work cells
termination_by (unvisited c.names path, cells.length + 1)
decreasing_by
  · exact Prod.Lex.right _ (Nat.succ_pos _)
  · exact Prod.Lex.right _ (by simp)

end

end Flatten

namespace Catalog

open Flatten

/-- The inside of a registered composite without the composites in it, each expanded wherever it
occurs. -/
def unrollModule (c : Catalog) (b : Boundary) (module : String) : Except Error Graph :=
  unroll c b [] module

/-- A graph without the composites in it, each expanded wherever it occurs. -/
def unrollGraph (c : Catalog) (b : Boundary) (g : Graph) : Except Error Graph := do
  let cells ← compositeCells c g.instances
  if cells = [] then return g
  return dropStray g (← unrollAll c b [] g cells)

end Catalog

end Netlist
