import Mathlib.Data.List.Basic
import OmegaControl.Automaton.Dot
import OmegaControl.Proofs.WellFormed
import Std.Data.String.ToNat

/-!
# Drawings are read back

A drawing in which everything is labelled with its number holds all of an automaton
but its alphabet and the names of states and events. Two automata with the same
drawing agree in all the rest (`Automaton.toDot_numbered_eq_iff`). To see this, the
text is read from the left.

* A number ends where the digits end (`digits_append_inj`), and a quoted text at the
  first quote that is not escaped (`escape_append_inj`), so a line of each kind
  tells what it draws (`IsPrefixFree`).
* What follows the first number of a line tells its kind (`lead`). So the lines of
  one kind that come one after another can be split off from the rest
  (`IsPrefixFree.split`).
* An edge holds the events of all transitions between two states, and no others
  (`getD_edges`), so the edges tell which transitions there are.

Nothing is assumed of names. The name of the automaton may hold quotes, backslashes
and line breaks, and even lines that look like those of a drawing.
-/

namespace OmegaControl

namespace Dot

section

variable {α : Type} {write : α → List Char}

/-- What is written, and what comes after it, are determined by the two together.
This is stronger than being injective, and is what goes on to texts written one
after another. -/
def IsPrefixFree (write : α → List Char) : Prop :=
  ∀ ⦃a b⦄ ⦃s t : List Char⦄, write a ++ s = write b ++ t → a = b ∧ s = t

/-- Writings one after another are split off, if none of them begins what comes
after them. The induction is on both lists: as long as both go on, the first
writings are the same, and where one of them has ended, the other one would have to
begin what comes after. -/
theorem IsPrefixFree.flatMap_append_inj (hw : IsPrefixFree write) {xs ys : List α}
    {s t : List Char} (hs : ∀ a u, write a ++ u ≠ s) (ht : ∀ a u, write a ++ u ≠ t)
    (h : xs.flatMap write ++ s = ys.flatMap write ++ t) : xs = ys ∧ s = t := by
  induction xs generalizing ys with
  | nil =>
    cases ys with
    | nil => exact ⟨rfl, h⟩
    | cons y ys =>
      rw [List.flatMap_cons, List.append_assoc] at h
      exact absurd h.symm (hs y _)
  | cons x xs ih =>
    rw [List.flatMap_cons, List.append_assoc] at h
    cases ys with
    | nil => exact absurd h (ht x _)
    | cons y ys =>
      rw [List.flatMap_cons, List.append_assoc] at h
      obtain ⟨rfl, hrest⟩ := hw h
      exact (ih hrest).imp_left (congrArg (x :: ·))

end

/-! ## Quoted texts
 -/

/-- A character as it stands between quotes. -/
def escapeChar (c : Char) : List Char := if c = '\\' ∨ c = '"' then ['\\', c] else [c]

/-- The quotes that are escaped second leave the backslashes alone that the first step has added. -/
theorem toList_escape (s : String) : (escape s).toList = s.toList.flatMap escapeChar := by
  rw [escape, String.toList_ofList, replaceChar, replaceChar, List.flatMap_assoc]
  refine List.flatMap_congr fun c _ => ?_
  by_cases hbackslash : c = '\\'
  · simp [hbackslash, escapeChar]
  · by_cases hquote : c = '"'
    · simp [hquote, escapeChar]
    · simp [hbackslash, hquote, escapeChar]

/-- Two characters that are written with a backslash differ in the second one. -/
theorem isPrefixFree_escapeChar : IsPrefixFree escapeChar := by
  intro a b s t h
  rw [escapeChar, escapeChar] at h
  split at h
  next ha =>
    split at h
    next => simpa using h
    next hb => exact absurd (.inl (List.cons.inj h).1.symm) hb
  next ha =>
    split at h
    next => exact absurd (.inl (List.cons.inj h).1) ha
    next => simpa using h

/-- A quoted text ends at its quote: within it, a quote comes after a backslash, and
a backslash that ends the text is itself escaped. -/
theorem escape_append_inj {s t : String} {u v : List Char}
    (h : (escape s).toList ++ '"' :: u = (escape t).toList ++ '"' :: v) : s = t ∧ u = v := by
  have hstop : ∀ u c w, escapeChar c ++ w ≠ '"' :: u := by
    intro u c w
    rw [escapeChar]
    split <;> simp_all
  rw [toList_escape, toList_escape] at h
  obtain ⟨htext, hrest⟩ := isPrefixFree_escapeChar.flatMap_append_inj (hstop u) (hstop v) h
  exact ⟨String.toList_inj.mp htext, List.cons_inj_right _ |>.mp hrest⟩

/-! ## Numbers
 -/

/-- A number is written in digits only. -/
theorem isDigit_of_mem_repr {n : ℕ} : ∀ c ∈ n.repr.toList, c.isDigit = true := by
  rw [Nat.toList_repr]
  exact fun c hc => Nat.isDigit_of_mem_toDigits (by decide) (by decide) hc

/-- A number ends where the digits end. What comes after it should not begin with a
digit, as it never does in a drawing. -/
theorem digits_append_inj {m n : ℕ} {s t : List Char} (hs : s.takeWhile Char.isDigit = [])
    (ht : t.takeWhile Char.isDigit = []) (h : m.repr.toList ++ s = n.repr.toList ++ t) :
    m = n ∧ s = t := by
  have hdigits : ∀ (k : ℕ) {u : List Char}, u.takeWhile Char.isDigit = [] →
      (k.repr.toList ++ u).takeWhile Char.isDigit = k.repr.toList := by
    intro k u hu
    rw [List.takeWhile_append_of_pos isDigit_of_mem_repr, hu, List.append_nil]
  have hrepr : m.repr.toList = n.repr.toList := by rw [← hdigits m hs, h, hdigits n ht]
  obtain rfl := Nat.repr_injective (String.toList_inj.mp hrepr)
  exact ⟨rfl, List.append_cancel_left h⟩

/-- States are written as their numbers. -/
theorem text_append_inj {x y : StateId} {s t : List Char} (hs : s.takeWhile Char.isDigit = [])
    (ht : t.takeWhile Char.isDigit = []) (h : x.text.toList ++ s = y.text.toList ++ t) :
    x = y ∧ s = t :=
  (digits_append_inj hs ht h).imp_left Ident.index_injective

/-- An event of a label, with the separator after it. -/
def eventText (ev : EventId) : List Char := (ev.text ++ ", ").toList

theorem isPrefixFree_eventText : IsPrefixFree eventText := by
  intro ev ev' s t h
  simp only [eventText, Ident.text, String.toList_append, List.append_assoc] at h
  obtain ⟨hindex, hrest⟩ := digits_append_inj (by simp) (by simp) (List.append_cancel_left h)
  exact ⟨Ident.index_injective hindex, List.append_cancel_left hrest⟩

/-- The label of an edge. -/
def edgeLabel (events : List EventId) : String := ", ".intercalate (events.map Ident.text)

/-- With a last separator, a label is its events written one after another. -/
theorem toList_edgeLabel (ev : EventId) (events : List EventId) :
    (edgeLabel (ev :: events)).toList ++ ", ".toList = (ev :: events).flatMap eventText := by
  induction events generalizing ev with
  | nil => simp [edgeLabel, eventText]
  | cons ev' events ih =>
    rw [List.flatMap_cons, ← ih, edgeLabel, List.map_cons, List.map_cons,
      String.intercalate_cons_cons]
    simp [edgeLabel, eventText]

/-- A label tells its events. The separator that is missing at the end is added to
both labels, so that they are texts one after another. -/
theorem edgeLabel_injective : Function.Injective edgeLabel := by
  intro events events' h
  have hempty : ∀ (ev : EventId) events, edgeLabel (ev :: events) ≠ edgeLabel [] := by
    intro ev events heq
    have hlabel := toList_edgeLabel ev events
    rw [heq, List.flatMap_cons, eventText, Ident.text] at hlabel
    simp [edgeLabel] at hlabel
  match events, events' with
  | [], [] => rfl
  | [], ev' :: events' => exact absurd h.symm (hempty ev' events')
  | ev :: events, [] => exact absurd h (hempty ev events)
  | ev :: events, ev' :: events' =>
    have hnil : ∀ a u, eventText a ++ u ≠ [] := by simp [eventText]
    have hflat : (ev :: events).flatMap eventText ++ [] =
        (ev' :: events').flatMap eventText ++ [] := by
      rw [← toList_edgeLabel, ← toList_edgeLabel, h]
    exact (isPrefixFree_eventText.flatMap_append_inj hnil hnil hflat).1

/-! ## Lines
 -/

/-- The lines of a text, each line ended. As a list of characters the text can be
taken apart. -/
def unlines (lines : List String) : List Char := lines.flatMap fun line => line.toList ++ ['\n']

theorem unlines_append (ls ms : List String) : unlines (ls ++ ms) = unlines ls ++ unlines ms :=
  List.flatMap_append

theorem unlines_map {α : Type} (f : α → String) (xs : List α) :
    unlines (xs.map f) = xs.flatMap fun x => unlines [f x] := by
  simp only [unlines, List.flatMap_map, List.flatMap_singleton]

theorem unlines_flatMap {α : Type} (f : α → List String) (xs : List α) :
    unlines (xs.flatMap f) = xs.flatMap fun x => unlines (f x) :=
  List.flatMap_assoc

/-- The drawing of a state, labelled with its number. -/
def nodeText (node : StateId × Bool) : List Char :=
  unlines [nodeLine node.1 (if node.2 then "doublecircle" else "circle") node.1.text]

/-- The drawing of an arrow into an initial state. -/
def entryText (x : StateId) : List Char := unlines (entryLines x)

/-- The drawing of an edge, labelled with the numbers of its events. -/
def edgeText (edge : StatePair × List EventId) : List Char :=
  unlines [edgeLine edge.1 (edgeLabel edge.2)]

theorem isPrefixFree_nodeText : IsPrefixFree nodeText := by
  rintro ⟨x, marked⟩ ⟨y, marked'⟩ s t h
  simp only [nodeText, unlines, List.flatMap_singleton, nodeLine, String.toList_append,
    List.append_assoc] at h
  obtain ⟨rfl, hrest⟩ := text_append_inj (by simp) (by simp) h
  have hshape := List.append_cancel_left hrest
  -- the two shapes begin with different characters
  cases marked <;> cases marked' <;> simp_all

theorem isPrefixFree_entryText : IsPrefixFree entryText := by
  intro x y s t h
  simp only [entryText, unlines, entryLines, List.flatMap_cons, List.flatMap_nil,
    String.toList_append, List.append_assoc] at h
  obtain ⟨rfl, hrest⟩ := text_append_inj (by simp) (by simp) (List.append_cancel_left h)
  simp_all

theorem isPrefixFree_edgeText : IsPrefixFree edgeText := by
  rintro ⟨⟨x, y⟩, events⟩ ⟨⟨x', y'⟩, events'⟩ s t h
  simp only [edgeText, unlines, List.flatMap_singleton, edgeLine, quoted, String.toList_append,
    List.append_assoc] at h
  obtain ⟨rfl, htarget⟩ := text_append_inj (by simp) (by simp) h
  obtain ⟨rfl, hlabel⟩ := text_append_inj (by simp) (by simp) (List.append_cancel_left htarget)
  have hlabel := List.append_cancel_left (List.append_cancel_left hlabel)
  obtain ⟨hevents, hrest⟩ := escape_append_inj hlabel
  obtain rfl := edgeLabel_injective hevents
  exact ⟨rfl, by simpa using hrest⟩

/-! ## Telling lines apart

A line of a node goes on with `" ["` after its number, and one of an edge with `"
-"`. The lines that draw an arrow into an initial state begin with a letter. -/

/-- What a text goes on with after the number that it begins with, if it begins with
one. Two characters are enough to tell the kinds of lines apart. -/
def lead (s : List Char) : List Char := (s.dropWhile Char.isDigit).take 2

theorem lead_text_append {x : StateId} {s : List Char} (hs : s.takeWhile Char.isDigit = []) :
    lead (x.text.toList ++ s) = s.take 2 := by
  have hdrop : s.dropWhile Char.isDigit = s := by
    simpa [hs] using List.takeWhile_append_dropWhile (p := Char.isDigit) (l := s)
  rw [lead, Ident.text, List.dropWhile_append_of_pos isDigit_of_mem_repr, hdrop]

theorem lead_nodeText (node : StateId × Bool) (s : List Char) :
    lead (nodeText node ++ s) = [' ', '['] := by
  simp only [nodeText, unlines, List.flatMap_singleton, nodeLine, String.toList_append,
    List.append_assoc]
  rw [lead_text_append (by simp)]
  simp

theorem lead_entryText (x : StateId) (s : List Char) : lead (entryText x ++ s) = ['i', 'n'] := by
  simp [lead, entryText, unlines, entryLines]

theorem lead_edgeText (edge : StatePair × List EventId) (s : List Char) :
    lead (edgeText edge ++ s) = [' ', '-'] := by
  simp only [edgeText, unlines, List.flatMap_singleton, edgeLine, String.toList_append,
    List.append_assoc]
  rw [lead_text_append (by simp)]
  simp

section

variable {α : Type} {write : α → List Char} {k : List Char} (hk : ∀ a u, lead (write a ++ u) = k)
include hk

/-- A text of such lines begins like one of them, unless there is none. -/
theorem lead_flatMap_append (xs : List α) (s : List Char) :
    lead (xs.flatMap write ++ s) = k ∨ lead (xs.flatMap write ++ s) = lead s := by
  cases xs with
  | nil => exact .inr rfl
  | cons x xs =>
    rw [List.flatMap_cons, List.append_assoc]
    exact .inl (hk x _)

/-- Lines of one kind are split off from what does not begin like them. -/
theorem IsPrefixFree.split (hw : IsPrefixFree write) {xs ys : List α} {s t : List Char}
    (hs : lead s ≠ k) (ht : lead t ≠ k) (h : xs.flatMap write ++ s = ys.flatMap write ++ t) :
    xs = ys ∧ s = t :=
  hw.flatMap_append_inj (fun a u heq => hs (heq ▸ hk a u)) (fun a u heq => ht (heq ▸ hk a u)) h

end

/-! ## Reading the lines

The text is cut from behind: edges, then arrows into initial states, then nodes. -/

/-- The edges, and the last line. -/
def edgesText (edges : List (StatePair × List EventId)) : List Char :=
  edges.flatMap edgeText ++ unlines ["\x7d"]

/-- The arrows into initial states, and what comes after them. -/
def entriesText (initial : List StateId) (edges : List (StatePair × List EventId)) : List Char :=
  initial.flatMap entryText ++ edgesText edges

/-- The nodes, and what comes after them: all but the first three lines. -/
def bodyText (nodes : List (StateId × Bool)) (initial : List StateId)
    (edges : List (StatePair × List EventId)) : List Char :=
  nodes.flatMap nodeText ++ entriesText initial edges

section

variable {nodes nodes' : List (StateId × Bool)} {initial initial' : List StateId}
  {edges edges' : List (StatePair × List EventId)}

theorem lead_lastLine : lead (unlines ["\x7d"]) = ['\x7d', '\n'] := by
  simp [lead, unlines]

/-- From the first edge on, a text begins with an edge or with the last line. -/
theorem lead_edgesText (edges : List (StatePair × List EventId)) :
    lead (edgesText edges) = [' ', '-'] ∨ lead (edgesText edges) = ['\x7d', '\n'] :=
  lead_lastLine ▸ lead_flatMap_append lead_edgeText edges _

theorem edgesText_injective (h : edgesText edges = edgesText edges') : edges = edges' := by
  have hlast : lead (unlines ["\x7d"]) ≠ [' ', '-'] := by simp [lead_lastLine]
  exact (isPrefixFree_edgeText.split lead_edgeText hlast hlast h).1

/-- After the arrows come edges or the last line, which begin differently. -/
theorem entriesText_inj (h : entriesText initial edges = entriesText initial' edges') :
    initial = initial' ∧ edges = edges' := by
  have hedges : ∀ es, lead (edgesText es) ≠ ['i', 'n'] := by
    intro es
    rcases lead_edgesText es with he | he <;> simp [he]
  obtain ⟨hinitial, hrest⟩ :=
    isPrefixFree_entryText.split lead_entryText (hedges edges) (hedges edges') h
  exact ⟨hinitial, edgesText_injective hrest⟩

/-- **The lines are read back**: nodes, arrows into initial states, and edges. -/
theorem bodyText_inj (h : bodyText nodes initial edges = bodyText nodes' initial' edges') :
    nodes = nodes' ∧ initial = initial' ∧ edges = edges' := by
  have hentries : ∀ xs es, lead (entriesText xs es) ≠ [' ', '['] := by
    intro xs es
    rcases lead_flatMap_append lead_entryText xs (edgesText es) with hx | hx
    · simp [entriesText, hx]
    · rcases lead_edgesText es with he | he <;> simp [entriesText, hx, he]
  obtain ⟨hnodes, hrest⟩ :=
    isPrefixFree_nodeText.split lead_nodeText (hentries _ _) (hentries _ _) h
  exact ⟨hnodes, entriesText_inj hrest⟩

end

end Dot

/-- Everything is labelled with its number, and drawn as usual otherwise. The names
of states and events are not drawn, and two states of one name can be told apart. -/
def DotConfig.numbered : DotConfig where
  useStateNames := false
  useEventNames := false

namespace Automaton

open Dot

variable {g g₁ g₂ : Automaton}

/-! ## Edges
 -/

/-- Each edge gets the events of its transitions, after those that it had before. -/
theorem getD_foldl_addToEdge (ts : List Transition)
    (edges : Std.ExtTreeMap StatePair (List EventId)) (p : StatePair) :
    (ts.foldl addToEdge edges)[p]?.getD [] =
      edges[p]?.getD [] ++ (ts.filter (ends · = p)).map (·.event) := by
  induction ts generalizing edges with
  | nil => simp
  | cons t ts ih =>
    rw [List.foldl_cons, ih, addToEdge, Std.ExtTreeMap.getElem?_alter]
    by_cases hp : ends t = p
    · simp [hp]
    · simp [hp]

/-- An edge holds the events of the transitions that it draws, in the order of the
transitions. -/
theorem getD_edges (g : Automaton) (p : StatePair) :
    g.edges[p]?.getD [] = (g.transitions.toList.filter (ends · = p)).map (·.event) := by
  rw [edges, getD_foldl_addToEdge]
  simp

/-- The edges tell whether a transition is there. -/
theorem mem_transitions_iff {t : Transition} :
    t ∈ g.transitions ↔ t.event ∈ g.edges[ends t]?.getD [] := by
  rw [getD_edges, List.mem_map]
  constructor
  · exact fun ht => ⟨t, List.mem_filter.mpr ⟨Std.ExtTreeSet.mem_toList.mpr ht, by simp⟩, rfl⟩
  · rintro ⟨u, hu, hevent⟩
    obtain ⟨hu, hends⟩ := List.mem_filter.mp hu
    obtain ⟨hsource, htarget⟩ := StatePair.mk.inj (of_decide_eq_true hends)
    have heq : u = t := by
      cases u
      cases t
      simp_all
    exact heq ▸ Std.ExtTreeSet.mem_toList.mp hu

theorem transitions_eq_of_edges_eq (h : g₁.edges = g₂.edges) : g₁.transitions = g₂.transitions :=
  Std.ExtTreeSet.ext_mem fun t => by rw [mem_transitions_iff, mem_transitions_iff, h]

/-! ## The text
 -/

/-- The states, each with its marking. -/
def nodes (g : Automaton) : List (StateId × Bool) :=
  g.states.toList.map fun x => (x, decide (x ∈ g.marked))

theorem toList_toDot (g : Automaton) (config : DotConfig) :
    (g.toDot config).toList = unlines (g.dotLines config) := by
  simp [toDot, String.toList_join, List.flatMap_map, unlines]

theorem flatMap_nodes (g : Automaton) : (g.states.toList.flatMap fun x =>
    unlines [nodeLine x (g.stateShape .numbered x) (g.stateLabel .numbered x)]) =
      g.nodes.flatMap nodeText := by
  rw [nodes, List.flatMap_map]
  refine List.flatMap_congr fun x _ => ?_
  simp [nodeText, stateShape, stateLabel, DotConfig.numbered]

/-- The text as it is read: up to the quote after the name, three fixed lines, and
the lines that draw something. -/
theorem toList_toDot_numbered (g : Automaton) : (g.toDot .numbered).toList =
    "digraph \"".toList ++ ((escape g.name).toList ++ '"' ::
      (unlines [" \x7b", "rankdir=LR;", "node [shape=circle];"] ++
        bodyText g.nodes g.initial.toList g.edges.toList)) := by
  have hheader : unlines ["digraph " ++ quoted g.name ++ " \x7b", "rankdir=LR;",
      "node [shape=circle];"] = "digraph \"".toList ++ ((escape g.name).toList ++ '"' ::
        unlines [" \x7b", "rankdir=LR;", "node [shape=circle];"]) := by
    simp [unlines, quoted]
  calc (g.toDot .numbered).toList
      = unlines ["digraph " ++ quoted g.name ++ " \x7b", "rankdir=LR;", "node [shape=circle];"] ++
          bodyText g.nodes g.initial.toList g.edges.toList := by
        rw [toList_toDot, dotLines]
        simp only [unlines_append, unlines_map, unlines_flatMap, List.append_assoc, flatMap_nodes]
        -- events are labelled with their numbers
        rfl
    _ = _ := by rw [hheader, List.append_assoc, List.append_assoc, List.cons_append]

-- quotes are escaped, and parallel transitions share an edge
example : (((new "say \"hi\"").insertTransition ⟨⟨1⟩, ⟨2⟩, ⟨1⟩⟩).insertTransition
    ⟨⟨1⟩, ⟨3⟩, ⟨1⟩⟩).toDot .numbered =
      "digraph \"say \\\"hi\\\"\" \x7b\nrankdir=LR;\nnode [shape=circle];\n" ++
      "1 [shape=circle, label=\"1\"];\n1 -> 1 [label=\"e2, e3\"];\n\x7d\n" := by
  decide +kernel

/-- The shape of a node tells whether its state is marked. Of marks outside the
states nothing is drawn. -/
theorem marked_subset_of_nodes_eq (h₁ : g₁.marked ⊆ g₁.states) (h : g₁.nodes = g₂.nodes) :
    g₁.marked ⊆ g₂.marked := by
  intro x hx
  have hmem : (x, true) ∈ g₁.nodes :=
    List.mem_map.mpr ⟨x, IdentSet.mem_toList.mpr (h₁ x hx), by simp [hx]⟩
  obtain ⟨y, -, heq⟩ := List.mem_map.mp (h ▸ hmem)
  obtain ⟨rfl, hmarked⟩ := Prod.mk.inj heq
  exact of_decide_eq_true hmarked

/-- There is a node for each state, and for nothing else. -/
theorem states_eq_of_nodes_eq (h : g₁.nodes = g₂.nodes) : g₁.states = g₂.states := by
  have hmap := congrArg (List.map Prod.fst) h
  simp only [nodes, List.map_map, Function.comp_def, List.map_id'] at hmap
  exact IdentSet.toList_injective hmap

/-- **Drawings lose nothing**: two automata are drawn alike if and only if they have the same name,
states, initial states, marked states and transitions. Their marked states should be states, as in
every automaton that is well-formed. -/
theorem toDot_numbered_eq_iff (h₁ : g₁.marked ⊆ g₁.states) (h₂ : g₂.marked ⊆ g₂.states) :
    g₁.toDot .numbered = g₂.toDot .numbered ↔
      g₁.name = g₂.name ∧ g₁.states = g₂.states ∧ g₁.initial = g₂.initial ∧
        g₁.marked = g₂.marked ∧ g₁.transitions = g₂.transitions := by
  rw [← String.toList_inj, toList_toDot_numbered, toList_toDot_numbered]
  constructor
  · intro h
    obtain ⟨hname, hbody⟩ := escape_append_inj (List.append_cancel_left h)
    obtain ⟨hnodes, hinitial, hedges⟩ := bodyText_inj (List.append_cancel_left hbody)
    have hmarked : g₁.marked = g₂.marked := IdentSet.ext fun x =>
      ⟨marked_subset_of_nodes_eq h₁ hnodes x, marked_subset_of_nodes_eq h₂ hnodes.symm x⟩
    exact ⟨hname, states_eq_of_nodes_eq hnodes, IdentSet.toList_injective hinitial, hmarked,
      transitions_eq_of_edges_eq (Std.ExtTreeMap.toList_inj.mp hedges)⟩
  · rintro ⟨hname, hstates, hinitial, hmarked, htransitions⟩
    rw [hname, nodes, nodes, hstates, hmarked, hinitial, edges, edges, htransitions]

/-- A quote is told from an escaped quote, and a machine from a machine that is always repaired. -/
theorem toDot_numbered_machine :
    (machine.setName "\"").marked ⊆ (machine.setName "\"").states ∧
    (machine.setName "\\\"").marked ⊆ (machine.setName "\\\"").states ∧
    (machine.setName "\"").toDot .numbered ≠ (machine.setName "\\\"").toDot .numbered ∧
    machine.toDot .numbered ≠ (repairedMachine.setName "machine").toDot .numbered := by
  have hquote := (machine_wellFormed.setName "\"").marked_subset
  have hescaped := (machine_wellFormed.setName "\\\"").marked_subset
  have hrepaired := (repairedMachine_wellFormed.setName "machine").marked_subset
  refine ⟨hquote, hescaped, fun h => ?_, fun h => ?_⟩
  · obtain ⟨hname, -⟩ := (toDot_numbered_eq_iff hquote hescaped).mp h
    exact absurd hname (by decide)
  · obtain ⟨-, -, -, -, htransitions⟩ :=
      (toDot_numbered_eq_iff machine_wellFormed.marked_subset hrepaired).mp h
    exact absurd htransitions (by decide +kernel)

end Automaton

end OmegaControl
