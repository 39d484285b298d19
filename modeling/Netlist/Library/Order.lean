import Netlist.Unvisited

/-!
# Orders in which prerequisites come first

The functions of this module are about a list of names without repetition, the members, and a
function `needs` that lists for each name its prerequisites.

## Main definitions

* `Netlist.Order.candidate`: the members in the order in which a depth-first search leaves them,
  last first. Prerequisites come first if that is possible.
* `Netlist.Order.misplaced?`: a member that stands behind one that needs it.
* `Netlist.Order.cycleFrom?`: a way from a member over prerequisites back to itself.
-/

namespace Netlist.Order

variable (members : List String) (needs : String → List String)

/-- The members that need a given one, in order. -/
def dependents (name : String) : List String :=
  members.filter fun m => name ∈ needs m

/-- One search along dependents, with a stack of names to visit. A name that is met for the first
time, which is one of the `fresh`, stays on the stack below its fresh dependents; a name that is
met again has been left, and goes to the front of `left`. -/
def search (fresh left : List String) (stack : List String) : List String × List String :=
  match stack with
  | [] => (fresh, left)
  | name :: stack =>
    if name ∈ fresh then
      search (fresh.erase name) left
        ((dependents members needs name).filter (· ∈ fresh.erase name) ++ name :: stack)
    else search fresh (if name ∈ left then left else name :: left) stack
termination_by (fresh.length, stack.length)
decreasing_by
  · refine Prod.Lex.left _ _ ?_
    have h := List.length_erase_of_mem ‹name ∈ fresh›
    have := List.length_pos_of_mem ‹name ∈ fresh›
    omega
  · exact Prod.Lex.right _ (by simp)

/-- Search from each name that is still fresh. -/
def searchAll (fresh left : List String) : List String → List String
  | [] => left
  | name :: names =>
    if name ∈ fresh then
      let (fresh, left) := search members needs fresh left [name]
      searchAll fresh left names
    else searchAll fresh left names

/-- The members in the order in which the search leaves them, last first. -/
def candidate : List String :=
  searchAll members needs members [] members

/-- The first prerequisite that is missing from the names in front of the one that needs it. -/
def misplaced? (before : List String) : List String → Option String
  | [] => none
  | name :: names =>
    match (needs name).find? fun n => n ∉ name :: before with
    | some n => some n
    | none => misplaced? (name :: before) names

/-! ### Cycles -/

/-- Look depth first for a way back to `goal` over the prerequisites of the last name on a path.
Names that have been `seen` lead nowhere. The answer is the way back, or all that has been seen. -/
def wayBack (goal : String) (path seen : List String) (ns : List String) :
    Except (List String) (List String) :=
  match ns with
  | [] => .ok seen
  | n :: ns =>
    if n = goal then .error (path ++ [goal])
    else if n ∈ seen ∨ n ∈ path then wayBack goal path seen ns
    else if n ∉ members then wayBack goal path (n :: seen) ns
    else match wayBack goal (path ++ [n]) (n :: seen) (needs n) with
      | .error way => .error way
      | .ok seen => wayBack goal path seen ns
termination_by (unvisited members path, ns.length)
decreasing_by
  · exact Prod.Lex.right _ (by simp)
  · exact Prod.Lex.right _ (by simp)
  · exact Prod.Lex.left _ _ (unvisited_append_lt (by simp_all) (by simp_all))
  · exact Prod.Lex.right _ (by simp)

/-- A way from a name over prerequisites back to itself. -/
def cycleFrom? (name : String) : Option (List String) :=
  match wayBack members needs name [name] [] (needs name) with
  | .error way => some way
  | .ok _ => none

/-- The first cycle that is found from one of several names. -/
def firstCycle? (names : List String) : Option (List String) :=
  names.findSome? (cycleFrom? members needs)

end Netlist.Order
