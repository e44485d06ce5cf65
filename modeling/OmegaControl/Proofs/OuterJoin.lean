import OmegaControl.Proofs.JoinByEvent
import OmegaControl.Proofs.WellFormed

/-!
# The join by event as a full outer join

Nothing is lost in a join: what comes out on each side is the list that went in on
that side (`filterMap_left?_joinByEvent`, `filterMap_right?_joinByEvent`). This
needs no order. If both lists ascend by event, what comes out tells for each event
which of the sides have it (`isOuterJoin_joinByEvent`): to be alone on an event is
to face a side without it.

The transitions that leave a state of a deterministic automaton are such a list.
They lie between two bounds in the order of all transitions, up to the largest
identifiers, and no others lie there (`transitionsFrom_eq_filter`). So whatever goes
through two automata side by side reads off from the join what both can do, and what
one of them can do alone.

The two sides of a join are alike (`joinByEvent_swap`), so what is shown for the one
side holds for the other.
-/

namespace OmegaControl

variable {ls rs : List Transition} {l r : Transition}

namespace Joined

/-- The transition of the left side, if it has one to offer. Read along the join,
these give the left list back. -/
def left? : Joined → Option Transition
  | .both l _ => some l
  | .left l => some l
  | .right _ => none

/-- The transition of the right side, if it has one to offer. Read along the join,
these give the right list back. -/
def right? : Joined → Option Transition
  | .both _ r => some r
  | .left _ => none
  | .right r => some r

/-- The same with the sides exchanged. What holds of one side of a join holds of the
other one, too. -/
def swap : Joined → Joined
  | .both l r => .both r l
  | .left l => .right l
  | .right r => .left r

/-- What was on the right is on the left. -/
theorem left?_swap (j : Joined) : j.swap.left? = j.right? := by
  cases j <;> rfl

theorem swap_swap (j : Joined) : j.swap.swap = j := by
  cases j <;> rfl

end Joined

/-! ## Exchanging the sides
 -/

/-- The heads are compared alike from both sides: the smaller event goes first, on
whichever side it is. -/
theorem joinByEvent_swap (ls rs : List Transition) :
    joinByEvent rs ls = (joinByEvent ls rs).map Joined.swap := by
  fun_induction joinByEvent ls rs with
  | case1 rs => cases rs <;> simp [joinByEvent, Joined.swap]
  | case2 l ls => simp [joinByEvent, Joined.swap]
  | case3 l ls r rs hevent ih =>
    rw [joinByEvent, if_pos hevent.symm, ih]
    rfl
  | case4 l ls r rs hevent hlt ih =>
    rw [joinByEvent, if_neg (Ne.symm hevent), if_neg (Nat.lt_asymm hlt), ih]
    rfl
  | case5 l ls r rs hevent hge ih =>
    have hne : l.event.index ≠ r.event.index := fun h => hevent (Ident.index_inj.mp h)
    rw [joinByEvent, if_neg (Ne.symm hevent), if_pos (by omega), ih]
    rfl

/-- The right side is alone on an event that the left side does not have. -/
theorem right_mem_joinByEvent_iff (hl : AscendsByEvent ls) (hr : AscendsByEvent rs) :
    .right r ∈ joinByEvent ls rs ↔ r ∈ rs ∧ ∀ l ∈ ls, l.event ≠ r.event := by
  rw [← left_mem_joinByEvent_iff hr hl, joinByEvent_swap ls rs]
  exact (List.mem_map_of_injective (Function.LeftInverse.injective Joined.swap_swap)).symm

/-! ## Nothing is lost
 -/

/-- The left side comes out as it went in: a transition leaves it in one entry of
the join, and in the order of the list. -/
theorem filterMap_left?_joinByEvent (ls rs : List Transition) :
    (joinByEvent ls rs).filterMap Joined.left? = ls := by
  fun_induction joinByEvent ls rs with
  | case1 rs => simp [List.filterMap_map, Function.comp_def, Joined.left?]
  | case2 l ls => simp [List.filterMap_map, Function.comp_def, Joined.left?]
  | case3 l ls r rs hevent ih => simp only [List.filterMap_cons, Joined.left?, ih]
  | case4 l ls r rs hevent hlt ih => simp only [List.filterMap_cons, Joined.left?, ih]
  | case5 l ls r rs hevent hge ih => simp only [List.filterMap_cons, Joined.left?, ih]

/-- The right side comes out as it went in. -/
theorem filterMap_right?_joinByEvent (ls rs : List Transition) :
    (joinByEvent ls rs).filterMap Joined.right? = rs := by
  calc (joinByEvent ls rs).filterMap Joined.right?
      = ((joinByEvent ls rs).map Joined.swap).filterMap Joined.left? := by
        rw [List.filterMap_map]
        exact List.filterMap_congr fun j _ => j.left?_swap.symm
    _ = (joinByEvent rs ls).filterMap Joined.left? := by rw [← joinByEvent_swap]
    _ = rs := filterMap_left?_joinByEvent rs ls

/-! ## Who has which event
 -/

/-- What comes out tells of each event whether the left side and the right side have it, in
ascending order. -/
structure IsOuterJoin (left right : EventId → Prop) (js : List Joined) : Prop where
  /-- two transitions come out together only on one event -/
  event_eq : ∀ l r, .both l r ∈ js → l.event = r.event
  both_iff : ∀ ev, (∃ l r, .both l r ∈ js ∧ l.event = ev) ↔ left ev ∧ right ev
  left_iff : ∀ ev, (∃ l, .left l ∈ js ∧ l.event = ev) ↔ left ev ∧ ¬right ev
  right_iff : ∀ ev, (∃ r, .right r ∈ js ∧ r.event = ev) ↔ right ev ∧ ¬left ev
  /-- so no event comes out twice -/
  ascends : js.Pairwise fun i j => i.event.index < j.event.index

/-- The list has a transition on `ev`. -/
def Offers (ts : List Transition) (ev : EventId) : Prop := ∃ t ∈ ts, t.event = ev

/-- The join of two lists that ascend. Without the order a side could be ahead of an
event when the other one comes to it. -/
theorem isOuterJoin_joinByEvent (hl : AscendsByEvent ls) (hr : AscendsByEvent rs) :
    IsOuterJoin (Offers ls) (Offers rs) (joinByEvent ls rs) where
  event_eq l r hmem := ((both_mem_joinByEvent_iff hl hr).mp hmem).2.2
  -- `Offers` forgets which transition has the event, so one has to be found again
  both_iff ev := by
    simp only [both_mem_joinByEvent_iff hl hr]
    constructor
    · rintro ⟨l, r, ⟨hmeml, hmemr, he⟩, rfl⟩
      exact ⟨⟨l, hmeml, rfl⟩, r, hmemr, he.symm⟩
    · rintro ⟨⟨l, hmeml, rfl⟩, r, hmemr, he⟩
      exact ⟨l, r, ⟨hmeml, hmemr, he.symm⟩, rfl⟩
  left_iff ev := by
    simp only [left_mem_joinByEvent_iff hl hr]
    constructor
    · rintro ⟨l, ⟨hmem, hnone⟩, rfl⟩
      exact ⟨⟨l, hmem, rfl⟩, fun ⟨r, hmemr, he⟩ => hnone r hmemr he⟩
    · rintro ⟨⟨l, hmem, rfl⟩, hnone⟩
      exact ⟨l, ⟨hmem, fun r hmemr he => hnone ⟨r, hmemr, he⟩⟩, rfl⟩
  right_iff ev := by
    simp only [right_mem_joinByEvent_iff hl hr]
    constructor
    · rintro ⟨r, ⟨hmem, hnone⟩, rfl⟩
      exact ⟨⟨r, hmem, rfl⟩, fun ⟨l, hmeml, he⟩ => hnone l hmeml he⟩
    · rintro ⟨⟨r, hmem, rfl⟩, hnone⟩
      exact ⟨r, ⟨hmem, fun l hmeml he => hnone ⟨l, hmeml, he⟩⟩, rfl⟩
  ascends := joinByEvent_ascends hl hr

namespace Automaton

variable {g g₁ g₂ : Automaton}

/-- Some transition leaves `x` on `ev`. -/
def Enables (g : Automaton) (x : StateId) (ev : EventId) : Prop := ∃ y, ⟨x, ev, y⟩ ∈ g.transitions

/-- The list offers what the state enables. -/
theorem offers_transitionsFrom (g : Automaton) (x : StateId) :
    Offers (g.transitionsFrom x) = g.Enables x := by
  funext ev
  refine propext ⟨?_, fun ⟨y, hy⟩ => ⟨_, mem_transitionsFrom.mpr ⟨hy, rfl⟩, rfl⟩⟩
  rintro ⟨t, ht, rfl⟩
  obtain ⟨hmem, hsource⟩ := mem_transitionsFrom.mp ht
  exact ⟨t.target, mk_mem_transitions hmem hsource⟩

/-- The transitions of a state are listed in the order of all transitions, by event
and then by target, as they have the same source. -/
theorem transitionsFrom_ascending (g : Automaton) (x : StateId) :
    Ascending (g.transitionsFrom x) := by
  rw [transitionsFrom_eq_filter]
  exact g.transitions.ordered_toList.filter _

end Automaton

/-- **The join by event is a full outer join.** Each side comes out as it went in, whatever the two
lists are. If they ascend by event, an event comes out as `both` if both sides have it, and on one
side if only that side has it, in ascending order. The transitions that leave a state are listed all
and in order, and in deterministic automata they ascend by event. -/
theorem joinByEvent_isOuterJoin :
    (∀ ls rs, (joinByEvent ls rs).filterMap Joined.left? = ls ∧
      (joinByEvent ls rs).filterMap Joined.right? = rs) ∧
    (∀ ls rs, AscendsByEvent ls → AscendsByEvent rs →
      IsOuterJoin (Offers ls) (Offers rs) (joinByEvent ls rs)) ∧
    (∀ (g : Automaton) (x : StateId), Ascending (g.transitionsFrom x) ∧
      ∀ t, t ∈ g.transitionsFrom x ↔ t ∈ g.transitions ∧ t.source = x) ∧
    ∀ g₁ g₂ : Automaton, g₁.IsDeterministic → g₂.IsDeterministic → ∀ x₁ x₂,
      AscendsByEvent (g₁.transitionsFrom x₁) ∧ AscendsByEvent (g₂.transitionsFrom x₂) ∧
      IsOuterJoin (g₁.Enables x₁) (g₂.Enables x₂)
        (joinByEvent (g₁.transitionsFrom x₁) (g₂.transitionsFrom x₂)) := by
  refine ⟨fun ls rs => ⟨filterMap_left?_joinByEvent ls rs, filterMap_right?_joinByEvent ls rs⟩,
    fun ls rs => isOuterJoin_joinByEvent, fun g x => ⟨g.transitionsFrom_ascending x, fun t =>
      Automaton.mem_transitionsFrom⟩, fun g₁ g₂ h₁ h₂ x₁ x₂ => ?_⟩
  have hleft := h₁.hasUniqueSuccessors.transitionsFrom_ascends x₁
  have hright := h₂.hasUniqueSuccessors.transitionsFrom_ascends x₂
  refine ⟨hleft, hright, ?_⟩
  rw [← g₁.offers_transitionsFrom, ← g₂.offers_transitionsFrom]
  exact isOuterJoin_joinByEvent hleft hright

/-- A machine whose only state, and one of whose events, have the largest number there is. -/
def lastMachine : Automaton :=
  ((Automaton.new "last").insertTransition ⟨.last, ⟨1⟩, .last⟩).insertTransition
    ⟨.last, .last, .last⟩

/-- Both machines can be started, and only this one has the last event. -/
theorem joinByEvent_isOuterJoin_lastMachine :
    lastMachine.IsDeterministic ∧ Automaton.machine.IsDeterministic ∧
    IsOuterJoin (lastMachine.Enables .last) (Automaton.machine.Enables ⟨1⟩)
      [.both ⟨.last, ⟨1⟩, .last⟩ ⟨⟨1⟩, ⟨1⟩, ⟨2⟩⟩, .left ⟨.last, .last, .last⟩] ∧
    AscendsByEvent [⟨⟨1⟩, ⟨1⟩, ⟨2⟩⟩, ⟨⟨1⟩, ⟨3⟩, ⟨3⟩⟩] ∧ AscendsByEvent [⟨⟨7⟩, ⟨2⟩, ⟨7⟩⟩] ∧
    IsOuterJoin (Offers [⟨⟨1⟩, ⟨1⟩, ⟨2⟩⟩, ⟨⟨1⟩, ⟨3⟩, ⟨3⟩⟩]) (Offers [⟨⟨7⟩, ⟨2⟩, ⟨7⟩⟩])
      (joinByEvent [⟨⟨1⟩, ⟨1⟩, ⟨2⟩⟩, ⟨⟨1⟩, ⟨3⟩, ⟨3⟩⟩] [⟨⟨7⟩, ⟨2⟩, ⟨7⟩⟩]) := by
  have hlast : lastMachine.IsDeterministic := by decide +kernel
  have hmachine := Automaton.machine_isDeterministic
  obtain ⟨-, hlists, -, hautomata⟩ := joinByEvent_isOuterJoin
  have hjoin : joinByEvent (lastMachine.transitionsFrom .last)
      (Automaton.machine.transitionsFrom ⟨1⟩) =
      [.both ⟨.last, ⟨1⟩, .last⟩ ⟨⟨1⟩, ⟨1⟩, ⟨2⟩⟩, .left ⟨.last, .last, .last⟩] := by
    decide +kernel
  refine ⟨hlast, hmachine, ?_, by decide, by decide, hlists _ _ (by decide) (by decide)⟩
  rw [← hjoin]
  exact (hautomata _ _ hlast hmachine .last ⟨1⟩).2.2

end OmegaControl
