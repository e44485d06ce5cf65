import OmegaControl.Product

/-!
# Drawings of automata

An automaton is drawn as a directed graph in the DOT language. States are nodes,
marked ones of another shape; an initial state is entered from an invisible
node; transitions between the same two states share one edge, labelled with all
their events.
-/

namespace OmegaControl

/-- How an automaton is drawn. -/
structure DotConfig where
  /-- the shape of a state that is not marked -/
  stateShape : String := "circle"
  /-- the shape of a marked state -/
  markedShape : String := "doublecircle"
  /-- the direction of the layout -/
  rankdir : String := "LR"
  /-- label states by their names, where they have one -/
  useStateNames : Bool := true
  /-- label edges by the names of events, where they have one -/
  useEventNames : Bool := true

namespace Dot

/-- A text with every `c` in it replaced. -/
def replaceChar (c : Char) (replacement : List Char) (text : List Char) : List Char :=
  text.flatMap fun d => if d = c then replacement else [d]

/-- A text as it stands between quotes: first backslashes are escaped, then quotes. -/
def escape (s : String) : String :=
  String.ofList (replaceChar '"' ['\\', '"'] (replaceChar '\\' ['\\', '\\'] s.toList))

/-- A text with its quotes. -/
def quoted (s : String) : String := "\"" ++ escape s ++ "\""

/-- The line that draws a state. -/
def nodeLine (x : StateId) (shape label : String) : String :=
  x.text ++ " [shape=" ++ shape ++ ", label=" ++ quoted label ++ "];"

/-- The lines that draw the arrow into an initial state. -/
def entryLines (x : StateId) : List String :=
  ["init" ++ x.text ++ " [shape=point, style=invis];", "init" ++ x.text ++ " -> " ++ x.text ++ ";"]

/-- The line that draws all transitions from one state to another. -/
def edgeLine (ends : StatePair) (label : String) : String :=
  ends.left.text ++ " -> " ++ ends.right.text ++ " [label=" ++ quoted label ++ "];"

/-- The two states that a transition joins. -/
def ends (t : Transition) : StatePair := ⟨t.source, t.target⟩

/-- Adds the event of a transition to the edge that the transition is drawn as. -/
def addToEdge (edges : Std.ExtTreeMap StatePair (List EventId)) (t : Transition) :
    Std.ExtTreeMap StatePair (List EventId) :=
  edges.alter (ends t) fun events => some (events.getD [] ++ [t.event])

end Dot

namespace Automaton

open Dot

/-- What a state is labelled with. -/
def stateLabel (g : Automaton) (config : DotConfig) (x : StateId) : String :=
  if config.useStateNames then (g.stateName? x).getD x.text else x.text

/-- What an event is labelled with. -/
def eventLabel (g : Automaton) (config : DotConfig) (ev : EventId) : String :=
  if config.useEventNames then (g.eventName? ev).getD ev.text else ev.text

/-- What the node of a state looks like. -/
def stateShape (g : Automaton) (config : DotConfig) (x : StateId) : String :=
  if x ∈ g.marked then config.markedShape else config.stateShape

/-- The events of the transitions from one state to another, by the two states. -/
def edges (g : Automaton) : Std.ExtTreeMap StatePair (List EventId) :=
  g.transitions.toList.foldl addToEdge ∅

/-- The lines of the drawing. -/
def dotLines (g : Automaton) (config : DotConfig) : List String :=
  ["digraph " ++ quoted g.name ++ " \x7b", "rankdir=" ++ config.rankdir ++ ";",
    "node [shape=" ++ config.stateShape ++ "];"] ++
  g.states.toList.map (fun x => nodeLine x (g.stateShape config x) (g.stateLabel config x)) ++
  g.initial.toList.flatMap entryLines ++
  g.edges.toList.map (fun (ends, events) =>
    edgeLine ends (", ".intercalate (events.map (g.eventLabel config)))) ++
  ["\x7d"]

/-- The drawing of an automaton, each line ended. -/
def toDot (g : Automaton) (config : DotConfig) : String :=
  String.join ((g.dotLines config).map (· ++ "\n"))

end Automaton

end OmegaControl
