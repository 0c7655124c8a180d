import ReachingWrites.Reaching.Sets

/-!
# Listings

Reaching sets as plain text. Each node of a graph has a line with its successors, a line for each of
its instructions, and two lines with the facts at its entry and at its exit, each fact as its index
and its position. A node without sets shows a dash for its facts. The graph need not be the one that
was analysed.
-/

set_option autoImplicit false

namespace ReachingWrites

/-- The facts at a place, each as its index and its position. -/
def FactSet.listed {F : Type} (s : FactSet F) : String :=
  Text.set ((s.toList.zip s.positions).map fun fact => toString fact.1 ++ fact.2.label)

namespace Listing

variable {ι ρ F : Type}

def factsText (s : Option (FactSet F)) : String :=
  match s with
  | some facts => facts.listed
  | none => "-"

def nodeLine (g : FlowGraph ι) (n : NodeId) : String :=
  match g.successors n with
  | [] => n.label
  | successors => n.label ++ " ->" ++ String.join (successors.map fun s => " " ++ s.label)

def instructionLine [Instruction ι ρ] [Describe ι] (i : ι) : String :=
  "  " ++ (Instruction.position i).label ++ " " ++ describe i

def nodeLines [Instruction ι ρ] [Describe ι] (g : FlowGraph ι) (r : ReachingSets F) (n : NodeId) :
    List String :=
  nodeLine g n :: ((g.instructions n).map instructionLine ++
    ["  in  " ++ factsText (r.inFacts? n), "  out " ++ factsText (r.outFacts? n)])

/-- The listing of a graph with reaching sets: the lines of all nodes, each ended by a newline. -/
def render [Instruction ι ρ] [Describe ι] (g : FlowGraph ι) (r : ReachingSets F) : String :=
  String.join ((g.nodes.flatMap (nodeLines g r)).map fun line => line ++ "\n")

end Listing

end ReachingWrites
