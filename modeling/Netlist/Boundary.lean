import Netlist.Identifier

/-!
# Names at the boundary of composites

Inside a composite, two instances stand for its input and its output ports. When a composite is
taken apart, the instances in it get names that begin with the name of the composite's instance.

## Main definitions

* `Netlist.Boundary`: the names of the two instances and the text that joins names.
* `Netlist.Boundary.join`: the name of an instance inside another.
* `Netlist.Boundary.check`: the names and the separator are fit for use.
-/

namespace Netlist

/-- The names of the boundary instances, and the text between the parts of a joined name. -/
structure Boundary where
  inputBlock : String
  outputBlock : String
  separator : String
deriving DecidableEq, Repr

namespace Boundary

/-- The names that are used where nothing else is said. -/
def standard : Boundary :=
  ⟨"input_block", "output_block", "."⟩

instance : Inhabited Boundary :=
  ⟨standard⟩

/-- Whether a name is that of a boundary instance. -/
def isBlock (b : Boundary) (name : String) : Bool :=
  name = b.inputBlock || name = b.outputBlock

/-- The name of an instance inside another. -/
def join (b : Boundary) (parent child : String) : String :=
  parent ++ b.separator ++ child

/-- What may make boundary names unfit for use. -/
inductive Fault where
  | inputBlock (name : String)
  | outputBlock (name : String)
  | sameBlocks
  /-- Joined names could be mistaken for identifiers. -/
  | separator (text : String)
deriving DecidableEq, Repr

/-- The setting that has a fault. -/
def Fault.field : Fault → String
  | inputBlock _ => "boundary.input_block_name"
  | outputBlock _ | sameBlocks => "boundary.output_block_name"
  | separator _ => "boundary.separator"

/-- The wording of a fault. -/
def Fault.message : Fault → String
  | inputBlock name | outputBlock name => s!"`{name}` is not an identifier"
  | sameBlocks => "must differ from boundary.input_block_name"
  | separator text => s!"`{text}` must contain a non-identifier character"

/-- The first fault of boundary names, if there is one. -/
def check (b : Boundary) : Except Fault Unit :=
  if !isIdentifier b.inputBlock then .error (.inputBlock b.inputBlock)
  else if !isIdentifier b.outputBlock then .error (.outputBlock b.outputBlock)
  else if b.inputBlock = b.outputBlock then .error .sameBlocks
  else if b.separator.toList.all Identifier.isPart then .error (.separator b.separator)
  else .ok ()

end Boundary

end Netlist
