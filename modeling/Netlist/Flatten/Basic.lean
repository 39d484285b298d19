import Netlist.Flatten.Inline

/-!
# Flattening

A graph is flattened by inlining its composites, each flattened before, until only leaves remain.
What has been flattened once is kept and used again.

## Main definitions

* `Netlist.Flatten.Progress`: the composites under way, and those that are finished.
* `Netlist.Catalog.flattenModule`: the inside of a composite, flattened.
* `Netlist.Catalog.flattenGraph`: a graph, flattened.
-/

namespace Netlist

namespace Flatten

/-- The composites that are being flattened, outermost first, and the finished ones with their
flat insides. -/
structure Progress where
  underway : List String
  finished : OrderedMap Graph
deriving DecidableEq

namespace Progress

/-- Nothing is under way and nothing is finished. -/
def start : Progress :=
  ⟨[], .empty⟩

/-- The flat inside of a finished composite. -/
def finished? (p : Progress) (module : String) : Option Graph :=
  p.finished.get? module

/-- Note a composite as finished. -/
def finish (p : Progress) (module : String) (g : Graph) : Progress :=
  { p with finished := p.finished.insert module g }

/-- Begin with a composite, unless it is under way already, which means that it contains itself. -/
def enter (p : Progress) (module : String) : Except Error Progress :=
  if module ∈ p.underway then
    .error (.cyclicContainment (p.underway.dropWhile (· ≠ module) ++ [module]))
  else .ok { p with underway := p.underway ++ [module] }

/-- Leave the innermost composite under way. -/
def leave (p : Progress) : Progress :=
  { p with underway := p.underway.dropLast }

end Progress

/-- The composite cells of a list of instances: their names and modules. All cells must be bound to
registered modules. -/
def compositeCells (c : Catalog) : List Instance → Except Error (List (String × String))
  | [] => .ok []
  | i :: is =>
    if !i.isCell then compositeCells c is
    else match c.module? i.module with
      | none => .error (.moduleNotFound i.module)
      | some m =>
        if m.isLeaf then compositeCells c is
        else (compositeCells c is).map ((i.name, i.module) :: ·)

/-- Drop the cells without links that were not in the graph `g`. -/
def dropStray (g work : Graph) : Graph :=
  work.removeOrphans fun i => i.isCell && !g.contains i.name

/-- The inside of a registered composite. -/
def bodyOf (c : Catalog) (module : String) : Except Error Graph :=
  match c.module? module with
  | none => .error (.moduleNotFound module)
  | some m =>
    match m.body with
    | none => .error (.notComposite module)
    | some g => .ok g

theorem mem_names_of_bodyOf {c : Catalog} {module : String} {g : Graph}
    (h : bodyOf c module = .ok g) : module ∈ c.names := by
  unfold bodyOf at h
  split at h
  · cases h
  · rename_i hm
    exact OrderedMap.mem_keys_of_get? hm

theorem underway_of_enter {p q : Progress} {module : String} (h : p.enter module = .ok q) :
    module ∉ p.underway ∧ q.underway = p.underway ++ [module] := by
  unfold Progress.enter at h
  split at h
  · cases h
  · cases h
    exact ⟨by assumption, rfl⟩

mutual

/-- The flat inside of a composite, and the finished composites afterwards. -/
def expand (c : Catalog) (b : Boundary) (p : Progress) (module : String) :
    Except Error (Graph × OrderedMap Graph) :=
  match p.finished? module with
  | some g => .ok (g, p.finished)
  | none =>
    match _hg : bodyOf c module with
    | .error e => .error e
    | .ok g =>
      match _hq : p.enter module with
      | .error e => .error e
      | .ok q =>
        match compositeCells c g.instances with
        | .error e => .error e
        | .ok cells =>
          match expandAll c b q g cells with
          | .error e => .error e
          | .ok (work, finished) =>
            let flat := if cells = [] then g else dropStray g work
            .ok (flat, finished.insert module flat)
termination_by (unvisited c.names p.underway, 0)
decreasing_by
  rw [(underway_of_enter _hq).2]
  exact Prod.Lex.left _ _
    (unvisited_append_lt (mem_names_of_bodyOf _hg) (underway_of_enter _hq).1)

/-- Inline composite cells one after the other, and tell the finished composites afterwards. -/
def expandAll (c : Catalog) (b : Boundary) (p : Progress) (work : Graph)
    (cells : List (String × String)) : Except Error (Graph × OrderedMap Graph) :=
  match cells with
  | [] => .ok (work, p.finished)
  | (name, module) :: cells =>
    match expand c b p module with
    | .error e => .error e
    | .ok (sub, finished) =>
      match work.inline c b name sub with
      | .error e => .error e
      | .ok work => expandAll c b { p with finished } work cells
termination_by (unvisited c.names p.underway, cells.length + 1)
decreasing_by
  · exact Prod.Lex.right _ (Nat.succ_pos _)
  · exact Prod.Lex.right _ (by simp)

end

end Flatten

namespace Catalog

open Flatten

/-- The inside of a registered composite without the composites in it. Its boundary instances
remain. -/
def flattenModule (c : Catalog) (b : Boundary) (module : String) : Except Error Graph := do
  let (flat, _) ← expand c b .start module
  return flat

/-- A graph without the composites in it. A graph of leaves is left as it is. -/
def flattenGraph (c : Catalog) (b : Boundary) (g : Graph) : Except Error Graph := do
  let cells ← compositeCells c g.instances
  if cells = [] then return g
  let (work, _) ← expandAll c b .start g cells
  return dropStray g work

end Catalog

end Netlist
