import Netlist.Port

/-!
# Graphs of instances

A graph holds named instances of modules and, between ordered pairs of them, links that bundle
port bindings. Instances are listed in the order of insertion. Links are listed by numbered
slots: a removed link leaves its slot to a later one.

## Main definitions

* `Netlist.Role`: what an instance stands for, and how that turns its ports around.
* `Netlist.Graph`: the graph; `Netlist.Graph.connections` lists its links, `Netlist.Graph.wires` its
  bindings.
* `Netlist.Graph.driver?`: the driver of an input port.
* `Netlist.Graph.Agree`: two graphs have the same instances and bindings, in whatever order.
-/

namespace Netlist

/-! ### Instances -/

/-- What an instance stands for. The boundaries stand for the inside of the enclosing module's
own ports: one drives what the module takes in, the other receives what it gives out. -/
inductive Role where
  /-- An instance of a module. -/
  | cell
  /-- The input ports of the enclosing module. -/
  | inputBoundary
  /-- The output ports of the enclosing module. -/
  | outputBoundary
deriving DecidableEq, Repr

namespace Role

/-- Whether a role is one of the two boundaries. -/
def isBoundary : Role → Bool
  | cell => false
  | inputBoundary | outputBoundary => true

/-- The direction in which the module of an instance declares those ports that can be used in a
given direction in the graph. A boundary has ports for one use only. -/
def declared? : Role → Direction → Option Direction
  | cell, d => some d
  | inputBoundary, .output => some .input
  | inputBoundary, .input => none
  | outputBoundary, .input => some .output
  | outputBoundary, .output => none

end Role

/-- A named instance. -/
structure Instance where
  name : String
  /-- The module that the instance is bound to. -/
  module : String
  role : Role
deriving DecidableEq, Repr

/-- Whether an instance is a cell. -/
def Instance.isCell (i : Instance) : Bool :=
  i.role = .cell

/-! ### Links -/

/-- A binding of an output port of one instance to an input port of another. -/
structure Binding where
  source : String
  dest : String
deriving DecidableEq, Repr

/-- Bindings from one instance to another. -/
structure Bundle where
  /-- The driving instance. -/
  source : String
  /-- The driven instance. -/
  dest : String
  /-- The bindings in the order in which they were made. -/
  bindings : List Binding
deriving DecidableEq, Repr

/-- The wires of a bundle. -/
def Bundle.wires (l : Bundle) : List Wire :=
  l.bindings.map fun b => ⟨⟨l.source, b.source⟩, ⟨l.dest, b.dest⟩⟩

/-- A bundle in a graph, where it has a slot. -/
structure Link extends Bundle where
  /-- The number of the link's slot. -/
  slot : Nat
deriving DecidableEq, Repr

namespace Link

/-- The input port that an output port is bound to first. -/
def destOf? (l : Link) (port : String) : Option String :=
  (l.bindings.find? fun b => b.source = port).map Binding.dest

/-- The output port that drives an input port. -/
def sourceOf? (l : Link) (port : String) : Option String :=
  (l.bindings.find? fun b => b.dest = port).map Binding.source

/-- Whether a link touches an instance. -/
def touches (l : Link) (name : String) : Bool :=
  l.source = name || l.dest = name

/-- Put a link in front of the first one whose slot has a greater number. -/
def insertBySlot (l : Link) : List Link → List Link
  | [] => [l]
  | k :: ks => if l.slot < k.slot then l :: k :: ks else k :: insertBySlot l ks

/-- The links in the order of their slots. -/
def sortBySlot (ls : List Link) : List Link :=
  ls.foldr insertBySlot []

theorem mem_insertBySlot {k l : Link} {ls : List Link} :
    k ∈ insertBySlot l ls ↔ k = l ∨ k ∈ ls := by
  induction ls with
  | nil => simp [insertBySlot]
  | cons m ms ih =>
    unfold insertBySlot
    split
    · simp
    · simp only [List.mem_cons, ih]
      constructor
      · rintro (h | h | h)
        · exact Or.inr (Or.inl h)
        · exact Or.inl h
        · exact Or.inr (Or.inr h)
      · rintro (h | h | h)
        · exact Or.inr (Or.inl h)
        · exact Or.inl h
        · exact Or.inr (Or.inr h)

/-- Sorting neither loses nor adds a link. -/
@[simp] theorem mem_sortBySlot {l : Link} {ls : List Link} : l ∈ sortBySlot ls ↔ l ∈ ls := by
  induction ls with
  | nil => simp [sortBySlot]
  | cons k ks ih => simp only [sortBySlot, List.foldr_cons, mem_insertBySlot, List.mem_cons] at ih ⊢
                    rw [ih]

end Link

/-! ### Graphs -/

/-- Instances and the links between them. -/
structure Graph where
  /-- The instances, the first inserted first. -/
  instances : List Instance
  /-- The links, the last made first. -/
  links : List Link
  /-- The slots that removed links have left, the last left first. -/
  freed : List Nat
deriving DecidableEq, Repr

namespace Graph

/-- The graph without instances. -/
def empty : Graph :=
  ⟨[], [], []⟩

instance : Inhabited Graph :=
  ⟨empty⟩

/-- The instance with a given name. -/
def instance? (g : Graph) (name : String) : Option Instance :=
  g.instances.find? fun i => i.name = name

/-- Whether there is an instance with a given name. -/
def contains (g : Graph) (name : String) : Bool :=
  g.instances.any fun i => i.name = name

/-- The names of the instances in order. -/
def names (g : Graph) : List String :=
  g.instances.map Instance.name

/-- The first instance with a given role. -/
def withRole? (g : Graph) (role : Role) : Option Instance :=
  g.instances.find? fun i => i.role = role

/-- The links in the order of their slots. -/
def connections (g : Graph) : List Link :=
  Link.sortBySlot g.links

/-- The link from one instance to another. -/
def link? (g : Graph) (source dest : String) : Option Link :=
  g.links.find? fun l => l.source = source ∧ l.dest = dest

/-- The links that end at an instance, in the order of their slots. -/
def incoming (g : Graph) (name : String) : List Link :=
  g.connections.filter fun l => l.dest = name

/-- The links that begin at an instance, in the order of their slots. -/
def outgoing (g : Graph) (name : String) : List Link :=
  g.connections.filter fun l => l.source = name

/-- The port that drives an input port of an instance. -/
def driver? (g : Graph) (name port : String) : Option Endpoint :=
  g.links.findSome? fun l =>
    if l.dest = name then (l.sourceOf? port).map (⟨l.source, ·⟩) else none

/-- All wires, link by link. -/
def wires (g : Graph) : List Wire :=
  g.connections.flatMap fun l => l.wires

/-- No input port ends two different wires. -/
def SinglyDriven (g : Graph) : Prop :=
  ∀ w ∈ g.wires, ∀ v ∈ g.wires, w.dest = v.dest → w = v

instance (g : Graph) : Decidable g.SinglyDriven :=
  inferInstanceAs (Decidable (∀ w ∈ g.wires, ∀ v ∈ g.wires, w.dest = v.dest → w = v))

/-! ### Agreement up to order -/

/-- Every link of the first list has one between the same instances in the second, with the same
bindings up to order and repetition. -/
def LinksWithin (ls ks : List Link) : Prop :=
  ∀ l ∈ ls, ∃ k ∈ ks, k.source = l.source ∧ k.dest = l.dest ∧
    (∀ b ∈ l.bindings, b ∈ k.bindings) ∧ ∀ b ∈ k.bindings, b ∈ l.bindings

instance (ls ks : List Link) : Decidable (LinksWithin ls ks) :=
  inferInstanceAs (Decidable (∀ l ∈ ls, ∃ k ∈ ks, _ ∧ _ ∧ (∀ b ∈ _, _) ∧ ∀ b ∈ _, _))

/-- Two graphs have the same instances, and links between the same instances with the same
bindings. Neither order nor slots matter. -/
def Agree (g h : Graph) : Prop :=
  (∀ i ∈ g.instances, i ∈ h.instances) ∧ (∀ i ∈ h.instances, i ∈ g.instances) ∧
    LinksWithin g.links h.links ∧ LinksWithin h.links g.links

instance (g h : Graph) : Decidable (Agree g h) :=
  inferInstanceAs (Decidable (_ ∧ _ ∧ _ ∧ _))

end Graph

end Netlist
