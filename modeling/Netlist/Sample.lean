import Netlist.Catalog.Edit
import Netlist.Project.Config

/-!
# A sample project

A small set of arithmetic leaves, the settings of a project, and a composite around one leaf, to try
the library on.

## Main definitions

* `Netlist.Sample.arithmetic`: a catalog with an adder, a multiplier and a buffer.
* `Netlist.Sample.configText`, `Netlist.Sample.config`: settings that name a module on top.
* `Netlist.Sample.leaves`, `Netlist.Sample.stages`: catalogs with one leaf, and with a composite
  around it.
-/

namespace Netlist.Sample

/-- The headers of the arithmetic leaves: an adder with a second output of ten bits, a multiplier,
and a buffer of eight bits to drive and to receive values. -/
def arithmeticHeaders : String :=
  "
// arithmetic blocks
module adder (
    input  [7:0] a,
    input  [7:0] b,
    output [7:0] c,
    output [9:0] d
);
endmodule

module multiplier (
    input  wire [7:0] a,
    input  wire [7:0] b,
    input  wire [9:0] ac,
    output wire [7:0] product
);
endmodule

/* stimulus and sink */
module buffer (input [7:0] i, output [7:0] o);
endmodule
"

/-- The catalog of the arithmetic leaves. -/
def arithmetic : Catalog :=
  ((Catalog.registerHeaders "arith.v" arithmeticHeaders).runOn .empty).2

/-- The text of settings with a given module on top. -/
def configText (top : String) : String :=
  s!"[project]\nname = \"conformance\"\ntop = \"{top}\"\n"

/-- Settings with a given module on top. -/
def config (top : String) : Except Config.Error Config :=
  Config.ofText (configText top)

/-! ### A composite around one leaf -/

/-- A leaf with one input and one output. -/
def leaf : Module :=
  ⟨.ofList [("i", .bits 8)], .ofList [("o", .bits 8)], none⟩

/-- The catalog with the leaf alone. -/
def leaves : Catalog :=
  ⟨.empty, .ofList [("leaf", leaf)]⟩

/-- The inside of a composite around one leaf. -/
def inside : Graph where
  instances := [⟨"x", "leaf", .cell⟩, ⟨"input_block", "stage", .inputBoundary⟩,
    ⟨"output_block", "stage", .outputBoundary⟩]
  links := [⟨⟨"x", "output_block", [⟨"o", "o"⟩]⟩, 1⟩, ⟨⟨"input_block", "x", [⟨"i", "i"⟩]⟩, 0⟩]
  freed := []

/-- A composite around one leaf. -/
def stage : Module :=
  ⟨.ofList [("i", .bits 8)], .ofList [("o", .bits 8)], some inside⟩

/-- The catalog with the leaf and the composite. -/
def stages : Catalog :=
  ⟨.empty, .ofList [("leaf", leaf), ("stage", stage)]⟩

end Netlist.Sample
