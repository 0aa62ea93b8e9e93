import PatternAutomata.Automaton.Basic

/-!
# The drawing of an automaton

A drawing is a text in the DOT language.  It is a list of statements between two
fixed parts.  The first statements are the nodes, one for every state that the
start leads to, nearest first.  The others are the edges, one for every step out
of these states, in the same order.

The start is green, the accept a double circle, and silent edges are dashed.  In
the label of an edge a backslash is written twice.
-/

namespace PatternAutomata.Automaton

/-- What a state is in its automaton. -/
inductive Role where
  /-- Reading starts here. -/
  | start
  /-- Reading ends here. -/
  | accept
  /-- Reading only passes here. -/
  | inner
deriving DecidableEq

/-- A statement of a drawing. -/
inductive Statement where
  /-- A state. -/
  | node (id : Nat) (role : Role)
  /-- A step that reads nothing. -/
  | silentEdge (source target : Nat)
  /-- A step that reads a label of this text. -/
  | edge (source target : Nat) (label : String)
deriving DecidableEq

/-- A label as it stands between the quotes of a drawing. -/
def edgeLabel (label : String) : String :=
  String.join (label.toList.map fun c => if c = '\\' then "\\\\" else String.singleton c)

/-- The name of a state in a drawing. -/
def nodeName (id : Nat) : String := "node_" ++ toString id

/-- The attributes that a role gives to a node. -/
def Role.attributes (role : Role) (id : Nat) : String :=
  let label := "label=\"" ++ toString id ++ "\""
  match role with
  | .start => "[" ++ label ++ "][fillcolor=green]"
  | .accept => "[" ++ label ++ " shape=doublecircle]"
  | .inner => "[" ++ label ++ "][fillcolor=\"#EEEEEE\" fontcolor=\"#888888\"]"

/-- The text of a statement. -/
def Statement.text : Statement → String
  | node id role => nodeName id ++ role.attributes id
  | silentEdge source target => nodeName source ++ " -> " ++ nodeName target ++ "[style=dashed]"
  | edge source target label =>
    nodeName source ++ " -> " ++ nodeName target ++ "[label=\"" ++ edgeLabel label ++ "\"]"

/-- What a state is. -/
def role (a : Automaton) (id : Nat) : Role :=
  if id = a.start then .start else if id = a.accept then .accept else .inner

/-- The statement of a step out of `source`. -/
def stepStatement (source : Nat) (t : Transition) : Statement :=
  if t.isEpsilon then .silentEdge source t.target else .edge source t.target t.label.text

/-- The statements of the drawing. -/
def statements (a : Automaton) : List Statement :=
  a.reachable.map (fun id => .node id (a.role id))
    ++ a.reachable.flatMap fun id => (a.transitions id).map (stepStatement id)

/-- What stands in front of the statements. -/
def drawingHead : String :=
  "digraph G \x7b  rankdir=\"LR\" graph [fontname = \"Courier New\"];\n"
    ++ "                node [fontname = \"verdana\", style = rounded];\n"
    ++ "                edge [fontname = \"verdana\"];\n"
    ++ "                \x7b\n"
    ++ "node [shape=circle style=filled fillcolor=\"#4385f5\" fontcolor=\"#FFFFFF\" "
    ++ "color=white penwidth=5.0 margin=0.1 width=0.5 height=0.5 fixedsize=true]\n"

/-- What stands behind the statements. -/
def drawingTail : String := "\n\x7d\x7d"

/-- The drawing in the DOT language. -/
def drawing (a : Automaton) : String :=
  drawingHead ++ String.join (a.statements.map (·.text ++ "\n")) ++ drawingTail

end PatternAutomata.Automaton
