import Mathlib.Data.List.Pairwise
import Mathlib.Order.Lattice
import OmegaControl.Automaton.Component
import OmegaControl.Proofs.Traversal

/-!
# What the search for components finds

Let `next` be the successors of the graph that is searched, all within a set
`region`. What a search knows is described from two sides.

* The components that are closed are final (`Settled`): nothing leads out of them
  but to components closed before, so none will grow, and they are listed in the
  order that is promised.
* The states on the stack wait for their component (`Underway`). Each of those that
  the search is busy with leads to all that was entered after it, and from each
  state on the stack there is a way back to one that was entered before and that the
  search is busy with. The low links take account of all edges of states that were
  entered since, except for those still to be looked at.

Each thing that the search does keeps this true: entering a state
(`Underway.enter`), looking at a successor (`Underway.look`), leaving a state
without a component (`Underway.pop`) and closing one (`Underway.close`). The run is
the induction over these (`Underway.run`).

Closing a component is where both sides meet: if the low link of a state is its
number, the states from the top of the stack down to it lead to each other, and to
nothing else that is not closed (`Underway.isStrong_segment`). A low link is the
number of a state on the stack that can be reached (`Underway.low_leads`), but it
need not be the lowest such number. It is enough that no edge from above leads below
the state without its low link being lower for it (`Underway.low_le_number`).
-/

namespace OmegaControl.ComponentSearch

open Traversal

variable {next : StateId → List StateId} {region : Set StateId} {s : ComponentSearch}
  {busy : List Visit} {v : Visit} {c : StateSet} {x y z : StateId} {n : ℕ}

/-! ## Components of a graph

For the search a graph is a function from states to the states next to them. What
this means for an automaton, whose paths carry events, is said where the automaton
is searched. -/

/-- The states lead to each other, and no others belong to them. If a way leads from
the set back to the set, all its states belong to it. -/
structure IsStrong (next : StateId → List StateId) (c : StateSet) : Prop where
  nonempty : ∃ x, x ∈ c
  connected : ∀ x ∈ c, ∀ y ∈ c, Leads next x y
  /-- a state that leads in and is led to from inside belongs to the component -/
  maximal : ∀ x ∈ c, ∀ y, Leads next x y → Leads next y x → y ∈ c

/-- Components that are closed, the one closed last first. They are strong
components already, since nothing leads from them to a state that is not closed. -/
structure Settled (next : StateId → List StateId) (cs : List StateSet) : Prop where
  isStrong : ∀ c ∈ cs, IsStrong next c
  /-- an edge from a closed state leads to a closed state -/
  mem_of_next : ∀ c ∈ cs, ∀ x ∈ c, ∀ y ∈ next x, ∃ c' ∈ cs, y ∈ c'
  /-- what is closed first does not lead to what is closed later -/
  ordered : cs.Pairwise fun c c' => ∀ x ∈ c', ∀ y ∈ c, ¬Leads next x y

/-- Nothing leads out of what is closed. So a state that is still on the stack is
not reached from there, and a component found later is no part of an earlier one. -/
theorem Settled.mem_of_leads {cs : List StateSet} (h : Settled next cs) (hc : c ∈ cs) (hx : x ∈ c)
    (hxy : Leads next x y) : ∃ c' ∈ cs, y ∈ c' := by
  induction hxy with
  | refl => exact ⟨c, hc, hx⟩
  | tail _ hstep ih =>
    obtain ⟨c', hc', hmem⟩ := ih
    exact h.mem_of_next c' hc' _ hmem _ hstep

/-! ## Numbers and low links

What entering a state and lowering a low link do to the tables, entry by entry. -/

theorem number_enter_self : (s.enter x).number x = s.next := by
  simp [number, enter]

theorem number_enter_of_ne (h : y ≠ x) : (s.enter x).number y = s.number y := by
  simp [number, enter, Std.ExtTreeMap.getD_insert, Ne.symm h]

theorem low_enter_self : (s.enter x).low x = s.next := by
  simp [low, enter]

theorem low_enter_of_ne (h : y ≠ x) : (s.enter x).low y = s.low y := by
  simp [low, enter, Std.ExtTreeMap.getD_insert, Ne.symm h]

theorem low_lower_self : (s.lower x n).low x = min (s.low x) n := by
  simp [low, lower]

theorem low_lower_of_ne (h : y ≠ x) : (s.lower x n).low y = s.low y := by
  simp [low, lower, Std.ExtTreeMap.getD_insert, Ne.symm h]

/-- No low link is raised by lowering one. -/
theorem low_lower_le : (s.lower x n).low y ≤ s.low y := by
  by_cases h : y = x
  · rw [h, low_lower_self]
    exact Nat.min_le_left ..
  · rw [low_lower_of_ne h]

theorem mem_numbers_enter : y ∈ (s.enter x).numbers ↔ y = x ∨ y ∈ s.numbers := by
  rw [enter, Std.ExtTreeMap.mem_insert, Std.compare_eq_iff_eq, eq_comm]

/-! ## Taking states off the stack
 -/

/-- What is taken off is what stands above the state, and the state itself; what is
left stood below. -/
theorem exists_popTo_eq {xs : List StateId} (hx : x ∈ xs) :
    ∃ pre post, xs = pre ++ x :: post ∧ popTo x xs = (pre ++ [x], post) := by
  fun_induction popTo x xs with
  | case1 => exact absurd hx List.not_mem_nil
  | case2 ys => exact ⟨[], ys, rfl, rfl⟩
  | case3 y ys hne members rest heq ih =>
    obtain ⟨pre, post, hsplit, hpop⟩ := ih ((List.mem_cons.mp hx).resolve_left (Ne.symm hne))
    obtain ⟨rfl, rfl⟩ := Prod.mk.inj (heq.symm.trans hpop)
    exact ⟨y :: pre, _, congrArg (y :: ·) hsplit, rfl⟩

theorem mem_foldl_erase {xs : List StateId} {t : StateSet} :
    y ∈ xs.foldl IdentSet.erase t ↔ y ∈ t ∧ y ∉ xs := by
  induction xs generalizing t with
  | nil => simp
  | cons x xs ih => rw [List.foldl_cons, ih, IdentSet.mem_erase, and_comm (a := y ≠ x), and_assoc,
      List.mem_cons, not_or]

/-! ## States that wait for their component

The invariant comes in two parts. `Booked` is what holds of the tables whatever the
search is busy with; `Underway` adds what the states that it is busy with, and their
low links, say of the graph. -/

/-- The states that were entered are on the stack, in the order of their numbers, or their
component is closed. -/
structure Booked (next : StateId → List StateId) (region : Set StateId) (s : ComponentSearch) :
    Prop where
  settled : Settled next s.closed
  mem_numbers : ∀ {x}, x ∈ s.numbers ↔ x ∈ s.stack ∨ ∃ c ∈ s.closed, x ∈ c
  /-- a state does not wait once its component is closed -/
  not_closed : ∀ x ∈ s.stack, ∀ c ∈ s.closed, x ∉ c
  /-- the set is what makes the test for the stack fast, and has its states -/
  mem_onStack : ∀ {x}, x ∈ s.onStack ↔ x ∈ s.stack
  mem_region : ∀ x ∈ s.numbers, x ∈ region
  number_lt : ∀ x ∈ s.stack, s.number x < s.next
  /-- numbers fall from the top of the stack down -/
  descends : s.stack.Pairwise fun x y => s.number y < s.number x

namespace Booked

/-- A search that has not begun. -/
theorem blank : Booked next region .blank := by
  refine ⟨⟨?_, ?_, .nil⟩, ?_, ?_, ?_, ?_, ?_, .nil⟩ <;> simp [ComponentSearch.blank]

variable (h : Booked next region s)
include h

theorem mem_numbers_of_mem_stack (hx : x ∈ s.stack) : x ∈ s.numbers := h.mem_numbers.mpr (.inl hx)

/-- A state that is entered is not on the stack. -/
theorem ne_of_not_mem_numbers (hnew : x ∉ s.numbers) (hy : y ∈ s.stack) : y ≠ x :=
  fun heq => hnew (heq ▸ h.mem_numbers_of_mem_stack hy)

/-- It gets a number above those on the stack, which stay as they are. -/
theorem number_enter (hnew : x ∉ s.numbers) (hy : y ∈ s.stack) :
    (s.enter x).number y = s.number y ∧ (s.enter x).number y < (s.enter x).number x := by
  rw [number_enter_of_ne (h.ne_of_not_mem_numbers hnew hy), number_enter_self]
  exact ⟨rfl, h.number_lt y hy⟩

/-- Nothing on the stack is above it. -/
theorem eq_of_number_enter_le (hnew : x ∉ s.numbers) (hy : y ∈ (s.enter x).stack)
    (hle : (s.enter x).number x ≤ (s.enter x).number y) : y = x := by
  rcases List.mem_cons.mp hy with heq | hy
  · exact heq
  · exact absurd (h.number_enter hnew hy).2 (Nat.not_lt.mpr hle)

/-- **Entering** a state keeps the tables in order, whichever states the search is
busy with. The new number is higher than all others, so numbers still descend along
the stack. -/
theorem enter (hnew : x ∉ s.numbers) (hx : x ∈ region) : Booked next region (s.enter x) where
  settled := h.settled
  mem_numbers {y} := by
    rw [mem_numbers_enter, h.mem_numbers, ← or_assoc]
    exact or_congr_left List.mem_cons.symm
  not_closed y hy c hc hyc := by
    rcases List.mem_cons.mp hy with rfl | hy
    · exact hnew (h.mem_numbers.mpr (.inr ⟨c, hc, hyc⟩))
    · exact h.not_closed y hy c hc hyc
  mem_onStack {y} :=
    IdentSet.mem_insert.trans ((or_congr_right h.mem_onStack).trans List.mem_cons.symm)
  mem_region y hy := by
    rcases mem_numbers_enter.mp hy with rfl | hy
    · exact hx
    · exact h.mem_region y hy
  number_lt y hy := by
    change _ < s.next + 1
    rcases List.mem_cons.mp hy with rfl | hy
    · exact number_enter_self ▸ Nat.lt_succ_self _
    · exact (h.number_enter hnew hy).1 ▸ Nat.lt_succ_of_lt (h.number_lt y hy)
  descends := by
    refine List.pairwise_cons.mpr ⟨fun y hy => (h.number_enter hnew hy).2,
      h.descends.imp_of_mem fun {y z} hy hz hlt => ?_⟩
    rwa [(h.number_enter hnew hy).1, (h.number_enter hnew hz).1]

end Booked

/-- The search is busy with the states of `busy`, the last one first. A busy state
leads to all that was entered since, and from each state on the stack there is a way
back to a busy one. A low link is the number of a state that can be reached, and low
enough for all edges that have been looked at: this is what makes the test at the
end of a visit right. -/
structure Underway (next : StateId → List StateId) (region : Set StateId) (s : ComponentSearch)
    (busy : List Visit) : Prop extends Booked next region s where
  busy_mem : ∀ v ∈ busy, v.state ∈ s.stack
  /-- the state that the search came to last has the highest number -/
  busy_descends : busy.Pairwise fun u v => s.number v.state < s.number u.state
  ahead_subset : ∀ v ∈ busy, ∀ y ∈ v.ahead, y ∈ next v.state
  /-- an edge of a state on the stack was looked at, or is ahead -/
  looked : ∀ x ∈ s.stack, ∀ y ∈ next x, y ∈ s.numbers ∨ ∃ v ∈ busy, v.state = x ∧ y ∈ v.ahead
  /-- a busy state leads to all that was entered since -/
  leads_up : ∀ v ∈ busy, ∀ x ∈ s.stack, s.number v.state ≤ s.number x → Leads next v.state x
  /-- from each state on the stack there is a way back to a busy state below it -/
  leads_down : ∀ x ∈ s.stack, ∃ v ∈ busy, s.number v.state ≤ s.number x ∧ Leads next x v.state
  low_le : ∀ v ∈ busy, s.low v.state ≤ s.number v.state
  /-- a low link is the number of a state on the stack that can be reached -/
  low_leads : ∀ v ∈ busy, ∃ x ∈ s.stack, s.number x = s.low v.state ∧ Leads next v.state x
  /-- an edge between states on the stack that leads below a busy state has been
  taken account of by the low link of a busy state above that one, or is still ahead -/
  low_le_number : ∀ v ∈ busy, ∀ x ∈ s.stack, s.number v.state ≤ s.number x →
    ∀ y ∈ next x, y ∈ s.stack → s.number v.state ≤ s.number y ∨ ∃ u ∈ busy,
      s.number v.state ≤ s.number u.state ∧ (s.low u.state ≤ s.number y ∨ u.state = x ∧ y ∈ u.ahead)

namespace Underway

/-- A search that has not begun is busy with nothing. -/
theorem blank : Underway next region .blank [] := by
  refine ⟨.blank, ?_, .nil, ?_, ?_, ?_, ?_, ?_, ?_, ?_⟩ <;> simp [ComponentSearch.blank]

section

variable (h : Underway next region s busy)
include h

/-- When the search is not busy any more, each state that was entered has a
component: from a state on the stack there would be a way back to a busy one. -/
theorem stack_eq_nil (hbusy : busy = []) : s.stack = [] := by
  refine List.eq_nil_iff_forall_not_mem.mpr fun x hx => ?_
  obtain ⟨v, hv, -⟩ := h.leads_down x hx
  exact List.not_mem_nil (hbusy ▸ hv)

/-! ### Entering a state -/

/-- **Entering** a state that all states lead to which the search is busy with. It
stands on top of the stack, its low link is its own number, and all its edges are
ahead, so what is said of low links has to be proved again only for the states
below. -/
theorem enter (hnew : x ∉ s.numbers) (hx : x ∈ region) (hleads : ∀ v ∈ busy, Leads next v.state x) :
    Underway next region (s.enter x) (⟨x, next x⟩ :: busy) := by
  have hmem : ∀ {y}, y ∈ (s.enter x).stack ↔ y = x ∨ y ∈ s.stack := List.mem_cons
  have hnumber : ∀ y ∈ s.stack, (s.enter x).number y = s.number y :=
    fun y hy => (h.number_enter hnew hy).1
  have htop : ∀ y ∈ s.stack, (s.enter x).number y < (s.enter x).number x :=
    fun y hy => (h.number_enter hnew hy).2
  have hbusy : ∀ v ∈ busy, (s.enter x).number v.state = s.number v.state :=
    fun v hv => hnumber _ (h.busy_mem v hv)
  have hlow : ∀ v ∈ busy, (s.enter x).low v.state = s.low v.state :=
    fun v hv => low_enter_of_ne (h.ne_of_not_mem_numbers hnew (h.busy_mem v hv))
  refine
    { toBooked := h.toBooked.enter hnew hx
      busy_mem := ?busy_mem
      busy_descends := ?busy_descends
      ahead_subset := ?ahead_subset
      looked := ?looked
      leads_up := ?leads_up
      leads_down := ?leads_down
      low_le := ?low_le
      low_leads := ?low_leads
      low_le_number := ?low_le_number }
  case busy_mem =>
    exact List.forall_mem_cons.mpr
      ⟨hmem.mpr (.inl rfl), fun v hv => hmem.mpr (.inr (h.busy_mem v hv))⟩
  case busy_descends =>
    refine List.pairwise_cons.mpr ⟨fun v hv => htop _ (h.busy_mem v hv),
      h.busy_descends.imp_of_mem fun {u v} hu hv hlt => ?_⟩
    rwa [hbusy u hu, hbusy v hv]
  case ahead_subset => exact List.forall_mem_cons.mpr ⟨fun y hy => hy, h.ahead_subset⟩
  case looked =>
    intro y hy z hz
    rcases hmem.mp hy with rfl | hy
    · exact .inr ⟨_, List.mem_cons_self, rfl, hz⟩
    · rcases h.looked y hy z hz with hz | ⟨v, hv, hstate, hahead⟩
      · exact .inl (mem_numbers_enter.mpr (.inr hz))
      · exact .inr ⟨v, List.mem_cons_of_mem _ hv, hstate, hahead⟩
  case leads_up =>
    refine List.forall_mem_cons.mpr ⟨fun y hy hle => ?_, fun v hv y hy hle => ?_⟩
    · exact h.eq_of_number_enter_le hnew hy hle ▸ .refl
    · rcases hmem.mp hy with rfl | hy
      · exact hleads v hv
      · rw [hbusy v hv, hnumber y hy] at hle
        exact h.leads_up v hv y hy hle
  case leads_down =>
    intro y hy
    rcases hmem.mp hy with rfl | hy
    · exact ⟨_, List.mem_cons_self, Nat.le_refl _, .refl⟩
    · obtain ⟨v, hv, hle, hyv⟩ := h.leads_down y hy
      exact ⟨v, List.mem_cons_of_mem _ hv, by rwa [hbusy v hv, hnumber y hy], hyv⟩
  case low_le =>
    refine List.forall_mem_cons.mpr ⟨by rw [low_enter_self, number_enter_self], fun v hv => ?_⟩
    rw [hlow v hv, hbusy v hv]
    exact h.low_le v hv
  case low_leads =>
    refine List.forall_mem_cons.mpr ⟨⟨x, hmem.mpr (.inl rfl), ?_, .refl⟩, fun v hv => ?_⟩
    · rw [number_enter_self, low_enter_self]
    · obtain ⟨w, hw, heq, hvw⟩ := h.low_leads v hv
      exact ⟨w, hmem.mpr (.inr hw), by rw [hnumber w hw, hlow v hv, heq], hvw⟩
  case low_le_number =>
    refine List.forall_mem_cons.mpr ⟨fun y hy hle z hz hzs => ?_, fun v hv y hy hle z hz hzs => ?_⟩
    · -- nothing is above the state, and all its edges are still to be looked at
      obtain rfl := h.eq_of_number_enter_le hnew hy hle
      exact .inr ⟨_, List.mem_cons_self, Nat.le_refl _, .inr ⟨rfl, hz⟩⟩
    · have hvx := Nat.le_of_lt (htop _ (h.busy_mem v hv))
      rcases hmem.mp hy with rfl | hy
      · exact .inr ⟨_, List.mem_cons_self, hvx, .inr ⟨rfl, hz⟩⟩
      · rcases hmem.mp hzs with rfl | hzs
        · exact .inl hvx
        · rw [hbusy v hv, hnumber y hy] at hle
          rw [hbusy v hv, hnumber z hzs]
          refine (h.low_le_number v hv y hy hle z hz hzs).imp_right ?_
          rintro ⟨u, hu, hle', hlow'⟩
          exact ⟨u, List.mem_cons_of_mem _ hu, by rwa [hbusy u hu], by rwa [hlow u hu]⟩

/-! ### Looking at a successor
 -/

/-- The low link of a state may be lowered to the number of a state on the stack
that it leads to. That is all that the search does to low links once a state is
entered. -/
theorem lower (hv : v ∈ busy) (hy : y ∈ s.stack) (hvy : Leads next v.state y) :
    Underway next region (s.lower v.state (s.number y)) busy := by
  refine { h with
    low_le := fun u hu => Nat.le_trans low_lower_le (h.low_le u hu)
    low_leads := fun u hu => ?_
    low_le_number := fun u hu x hx hle z hz hzs => ?_ }
  · by_cases heq : u.state = v.state
    · rw [heq, low_lower_self]
      rcases Nat.le_total (s.low v.state) (s.number y) with hle | hle
      · rw [Nat.min_eq_left hle]
        exact h.low_leads v hv
      · rw [Nat.min_eq_right hle]
        exact ⟨y, hy, rfl, hvy⟩
    · rw [low_lower_of_ne heq]
      exact h.low_leads u hu
  · refine (h.low_le_number u hu x hx hle z hz hzs).imp_right ?_
    rintro ⟨w, hw, hle', hlow⟩
    exact ⟨w, hw, hle', hlow.imp_left (Nat.le_trans low_lower_le)⟩

/-- What was ahead may be left out if it was entered and the low link takes account
of it. The busy states stay as they are, so only what is said of `ahead` has to be
looked at. -/
theorem advance {busy' : List Visit} (hstates : busy'.map (·.state) = busy.map (·.state))
    (hahead : ∀ v' ∈ busy', ∃ v ∈ busy, v.state = v'.state ∧ ∀ y ∈ v'.ahead, y ∈ v.ahead)
    (hdone : ∀ v ∈ busy, ∀ y ∈ v.ahead, (∃ v' ∈ busy', v'.state = v.state ∧ y ∈ v'.ahead) ∨
      y ∈ s.numbers ∧ (y ∈ s.stack → s.low v.state ≤ s.number y)) :
    Underway next region s busy' := by
  -- the states and numbers are as before, so only what is stated about `busy`
  -- changes
  have hkept : ∀ v ∈ busy, ∃ v' ∈ busy', v'.state = v.state := fun v hv =>
    List.mem_map.mp (hstates ▸ List.mem_map.mpr ⟨v, hv, rfl⟩)
  refine { h with
    busy_mem := fun v' hv' => ?_
    busy_descends := ?_
    ahead_subset := fun v' hv' y hy => ?_
    looked := fun x hx y hy => ?_
    leads_up := fun v' hv' => ?_
    leads_down := fun x hx => ?_
    low_le := fun v' hv' => ?_
    low_leads := fun v' hv' => ?_
    low_le_number := fun v' hv' x hx hle y hy hys => ?_ }
  · obtain ⟨v, hv, heq, -⟩ := hahead v' hv'
    exact heq ▸ h.busy_mem v hv
  · have hpairwise : (busy.map (·.state)).Pairwise fun x y => s.number y < s.number x :=
      List.pairwise_map.mpr h.busy_descends
    rw [← hstates] at hpairwise
    exact List.pairwise_map.mp hpairwise
  · obtain ⟨v, hv, heq, hsub⟩ := hahead v' hv'
    exact heq ▸ h.ahead_subset v hv y (hsub y hy)
  · -- an edge that is not ahead any more leads to a state with a number
    rcases h.looked x hx y hy with hmem | ⟨v, hv, rfl, hyv⟩
    · exact .inl hmem
    · exact (hdone v hv y hyv).symm.imp_left And.left
  · obtain ⟨v, hv, heq, -⟩ := hahead v' hv'
    exact heq ▸ h.leads_up v hv
  · obtain ⟨v, hv, hle, hxv⟩ := h.leads_down x hx
    obtain ⟨v', hv', heq⟩ := hkept v hv
    exact ⟨v', hv', heq.symm ▸ hle, heq.symm ▸ hxv⟩
  · obtain ⟨v, hv, heq, -⟩ := hahead v' hv'
    exact heq ▸ h.low_le v hv
  · obtain ⟨v, hv, heq, -⟩ := hahead v' hv'
    exact heq ▸ h.low_leads v hv
  · obtain ⟨v, hv, heq, -⟩ := hahead v' hv'
    rw [← heq] at hle ⊢
    refine (h.low_le_number v hv x hx hle y hy hys).imp_right ?_
    -- the bound holds because of a low link, or because an edge was ahead and has
    -- been looked at now
    rintro ⟨u, hu, hle', hlow⟩
    rcases hlow with hlow | ⟨rfl, hyu⟩
    · obtain ⟨u', hu', heq'⟩ := hkept u hu
      exact ⟨u', hu', heq'.symm ▸ hle', .inl (heq'.symm ▸ hlow)⟩
    · rcases hdone u hu y hyu with ⟨u', hu', heq', hyu'⟩ | ⟨-, hlow⟩
      · exact ⟨u', hu', heq'.symm ▸ hle', .inr ⟨heq', hyu'⟩⟩
      · obtain ⟨u', hu', heq'⟩ := hkept u hu
        exact ⟨u', hu', heq'.symm ▸ hle', .inl (heq'.symm ▸ hlow hys)⟩

end

section

variable {ys : List StateId} (h : Underway next region s (⟨x, y :: ys⟩ :: busy))
include h

/-- All states that the search is busy with lead to what is ahead of the last one,
because they lead to that one. -/
theorem leads_ahead : ∀ v ∈ ⟨x, y :: ys⟩ :: busy, Leads next v.state y := by
  have hstep : y ∈ next x := h.ahead_subset _ List.mem_cons_self y List.mem_cons_self
  have hx : x ∈ s.stack := h.busy_mem _ List.mem_cons_self
  refine List.forall_mem_cons.mpr ⟨.single hstep, fun v hv => ?_⟩
  have hlt := (List.pairwise_cons.mp h.busy_descends).1 v hv
  exact (h.leads_up v (List.mem_cons_of_mem _ hv) x hx (Nat.le_of_lt hlt)).tail hstep

/-- **Looking** at a successor that was entered before. If it is on the stack, the
low link is lowered to its number; if it is not, its component is closed, and no low
link depends on it. -/
theorem look (hy : y ∈ s.numbers) : Underway next region (s.look x y) (⟨x, ys⟩ :: busy) := by
  have hlooked : Underway next region (s.look x y) (⟨x, y :: ys⟩ :: busy) ∧
      (y ∈ (s.look x y).stack → (s.look x y).low x ≤ (s.look x y).number y) := by
    rw [ComponentSearch.look]
    split
    next hon =>
      exact ⟨h.lower List.mem_cons_self (h.mem_onStack.mp hon) (h.leads_ahead _ List.mem_cons_self),
        fun _ => low_lower_self ▸ Nat.min_le_right ..⟩
    next hon => exact ⟨h, fun hmem => absurd (h.mem_onStack.mpr hmem) hon⟩
  obtain ⟨hlook, hlow⟩ := hlooked
  refine hlook.advance rfl (List.forall_mem_cons.mpr ⟨?_, fun v hv => ?_⟩)
    (List.forall_mem_cons.mpr ⟨fun z hz => ?_, fun v hv z hz => ?_⟩)
  · exact ⟨_, List.mem_cons_self, rfl, fun z hz => List.mem_cons_of_mem _ hz⟩
  · exact ⟨v, List.mem_cons_of_mem _ hv, rfl, fun z hz => hz⟩
  · rcases List.mem_cons.mp hz with rfl | hz
    · exact .inr ⟨numbers_look s x z ▸ hy, hlow⟩
    · exact .inl ⟨_, List.mem_cons_self, rfl, hz⟩
  · exact .inl ⟨v, List.mem_cons_of_mem _ hv, rfl, hz⟩

/-- **Entering** the next successor. The state is entered, and the edge to it is not
ahead any more. -/
theorem enter_ahead (hnew : y ∉ s.numbers) (hy : y ∈ region) :
    Underway next region (s.enter y) (⟨y, next y⟩ :: ⟨x, ys⟩ :: busy) := by
  have hentered := h.enter hnew hy h.leads_ahead
  refine hentered.advance rfl ?_ ?_
  · refine List.forall_mem_cons.mpr ⟨?_, List.forall_mem_cons.mpr ⟨?_, fun v hv => ?_⟩⟩
    · exact ⟨_, List.mem_cons_self, rfl, fun z hz => hz⟩
    · exact ⟨_, List.mem_cons_of_mem _ List.mem_cons_self, rfl, fun z hz => List.mem_cons_of_mem _ hz⟩
    · exact ⟨v, List.mem_cons_of_mem _ (List.mem_cons_of_mem _ hv), rfl, fun z hz => hz⟩
  · refine List.forall_mem_cons.mpr ⟨fun z hz => ?_, List.forall_mem_cons.mpr ⟨fun z hz => ?_,
      fun v hv z hz => ?_⟩⟩
    · exact .inl ⟨_, List.mem_cons_self, rfl, hz⟩
    · rcases List.mem_cons.mp hz with rfl | hz
      · -- the state that was entered is above the one that it was entered from
        refine .inr ⟨mem_numbers_enter.mpr (.inl rfl), fun _ => ?_⟩
        exact Nat.le_trans (hentered.low_le _ (List.mem_cons_of_mem _ List.mem_cons_self))
          (Nat.le_of_lt ((List.pairwise_cons.mp hentered.busy_descends).1 _ List.mem_cons_self))
      · exact .inl ⟨_, List.mem_cons_of_mem _ List.mem_cons_self, rfl, hz⟩
    · exact .inl ⟨v, List.mem_cons_of_mem _ (List.mem_cons_of_mem _ hv), rfl, hz⟩

end

/-! ### Leaving a state

When nothing is ahead of the last state that the search is busy with, it has seen
all that can be reached from there. -/

section

variable (h : Underway next region s (⟨x, []⟩ :: busy))
include h

theorem mem_stack_of_busy : x ∈ s.stack := h.busy_mem ⟨x, []⟩ List.mem_cons_self

theorem number_lt_of_mem (hv : v ∈ busy) : s.number v.state < s.number x :=
  (List.pairwise_cons.mp h.busy_descends).1 v hv

/-- A state that is as low as `x` and leads to it is below `x` or `x` itself. -/
theorem eq_of_number_le (hv : v ∈ ⟨x, []⟩ :: busy) (hle : s.number x ≤ s.number v.state) :
    v = ⟨x, []⟩ := by
  rcases List.mem_cons.mp hv with rfl | hv
  · rfl
  · exact absurd (h.number_lt_of_mem hv) (Nat.not_lt.mpr hle)

/-- All edges of `x` were looked at. -/
theorem looked_below (hy : y ∈ s.stack) (hz : z ∈ next y) :
    z ∈ s.numbers ∨ ∃ v ∈ busy, v.state = y ∧ z ∈ v.ahead := by
  refine (h.looked y hy z hz).imp_right ?_
  rintro ⟨v, hv, hstate, hahead⟩
  rcases List.mem_cons.mp hv with rfl | hv
  · exact absurd hahead List.not_mem_nil
  · exact ⟨v, hv, hstate, hahead⟩

/-- The state that `x` was entered from gets to know the low link of `x`. It may,
since it leads to `x` and so to whatever `x` leads to. -/
theorem report : Underway next region (s.report x busy.head?) (⟨x, []⟩ :: busy) ∧
    ∀ v ∈ busy.head?, (s.report x busy.head?).low v.state ≤ (s.report x busy.head?).low x := by
  rcases busy with _ | ⟨v, busy⟩
  · exact ⟨h, fun v hv => nomatch hv⟩
  · obtain ⟨w, hw, hnumber, hxw⟩ := h.low_leads _ List.mem_cons_self
    have hv : v ∈ ⟨x, []⟩ :: v :: busy := List.mem_cons_of_mem _ List.mem_cons_self
    have hlt := h.number_lt_of_mem List.mem_cons_self
    have hne : x ≠ v.state := fun heq => absurd hlt (heq ▸ Nat.lt_irrefl _)
    have hvx := h.leads_up v hv x h.mem_stack_of_busy (Nat.le_of_lt hlt)
    refine ⟨?_, fun u hu => ?_⟩
    · change Underway next region (s.lower v.state (s.low x)) _
      rw [← hnumber]
      exact h.lower hv hw (hvx.trans hxw)
    · obtain rfl := Option.some.inj hu
      change (s.lower v.state (s.low x)).low v.state ≤ (s.lower v.state (s.low x)).low x
      rw [low_lower_self, low_lower_of_ne hne]
      exact Nat.min_le_right ..

/-- **Leaving** a state that leads to one entered before it. The state stays on the
stack, and what is said of it is carried by the state that it was entered from. -/
theorem pop (hlow : s.low x ≠ s.number x) (hparent : ∀ v ∈ busy.head?, s.low v.state ≤ s.low x) :
    Underway next region s busy := by
  obtain ⟨w, hw, hnumber, hxw⟩ := h.low_leads _ List.mem_cons_self
  have hlt : s.number w < s.number x := by
    rw [hnumber]
    exact Nat.lt_of_le_of_ne (h.low_le _ List.mem_cons_self) hlow
  refine { h with
    busy_mem := fun v hv => h.busy_mem v (List.mem_cons_of_mem _ hv)
    busy_descends := (List.pairwise_cons.mp h.busy_descends).2
    ahead_subset := fun v hv => h.ahead_subset v (List.mem_cons_of_mem _ hv)
    looked := fun y hy z hz => h.looked_below hy hz
    leads_up := fun v hv => h.leads_up v (List.mem_cons_of_mem _ hv)
    leads_down := fun y hy => ?_
    low_le := fun v hv => h.low_le v (List.mem_cons_of_mem _ hv)
    low_leads := fun v hv => h.low_leads v (List.mem_cons_of_mem _ hv)
    low_le_number := fun v hv y hy hle z hz hzs => ?_ }
  · obtain ⟨v, hv, hle, hyv⟩ := h.leads_down y hy
    rcases List.mem_cons.mp hv with rfl | hv
    · -- from `x` the way goes on to `w`, and from there further down
      obtain ⟨u, hu, hle', hwu⟩ := h.leads_down w hw
      rcases List.mem_cons.mp hu with rfl | hu
      · exact absurd hlt (Nat.not_lt.mpr hle')
      · exact ⟨u, hu, Nat.le_trans hle' (Nat.le_trans (Nat.le_of_lt hlt) hle),
          hyv.trans (hxw.trans hwu)⟩
    · exact ⟨v, hv, hle, hyv⟩
  · refine (h.low_le_number v (List.mem_cons_of_mem _ hv) y hy hle z hz hzs).imp_right ?_
    rintro ⟨u, hu, hle', hlow'⟩
    rcases List.mem_cons.mp hu with rfl | hu
    · -- what `x` knows, the state that it was entered from knows
      rcases hlow' with hlow' | ⟨-, hahead⟩
      · rcases busy with _ | ⟨p, busy⟩
        · exact absurd hv List.not_mem_nil
        · refine ⟨p, List.mem_cons_self, ?_, .inl (Nat.le_trans (hparent p rfl) hlow')⟩
          rcases List.mem_cons.mp hv with rfl | hv
          · exact Nat.le_refl _
          · exact Nat.le_of_lt ((List.pairwise_cons.mp (List.pairwise_cons.mp h.busy_descends).2).1 v hv)
      · exact absurd hahead List.not_mem_nil
    · exact ⟨u, hu, hle', hlow'⟩

/-! ### Closing a component
 -/

/-- Edges of states above a state whose low link is its number lead to states above
it, or to what is closed. An edge below would have lowered the low link of the
state, as nothing is ahead any more. -/
theorem mem_of_next_segment (hlow : s.low x = s.number x) (hy : y ∈ s.stack)
    (hle : s.number x ≤ s.number y) (hz : z ∈ next y) :
    (z ∈ s.stack ∧ s.number x ≤ s.number z) ∨ ∃ c ∈ s.closed, z ∈ c := by
  have hnumbers : z ∈ s.numbers := by
    rcases h.looked y hy z hz with hmem | ⟨v, hv, rfl, hahead⟩
    · exact hmem
    · obtain rfl := h.eq_of_number_le hv hle
      exact absurd hahead List.not_mem_nil
  rcases h.mem_numbers.mp hnumbers with hzs | hclosed
  · refine .inl ⟨hzs, ?_⟩
    rcases h.low_le_number _ List.mem_cons_self y hy hle z hz hzs with hle' | ⟨u, hu, hle', hlow'⟩
    · exact hle'
    · obtain rfl := h.eq_of_number_le hu hle'
      rcases hlow' with hlow' | ⟨-, hahead⟩
      · exact hlow ▸ hlow'
      · exact absurd hahead List.not_mem_nil
  · exact .inr hclosed

/-- **A component**: if the low link of a state is its number, the states from the
top of the stack down to it are one. They lead to each other through the state; and
what leads to them and back is no closed state, so it stands on the stack above. -/
theorem isStrong_segment (hlow : s.low x = s.number x)
    (hc : ∀ y, y ∈ c ↔ y ∈ s.stack ∧ s.number x ≤ s.number y) : IsStrong next c := by
  have hup : ∀ y ∈ c, Leads next x y := fun y hy =>
    h.leads_up _ List.mem_cons_self y ((hc y).mp hy).1 ((hc y).mp hy).2
  have hdown : ∀ y ∈ c, Leads next y x := by
    intro y hy
    obtain ⟨v, hv, hle, hyv⟩ := h.leads_down y ((hc y).mp hy).1
    rcases List.mem_cons.mp hv with rfl | hv'
    · exact hyv
    · exact hyv.trans (h.leads_up v hv x h.mem_stack_of_busy (Nat.le_of_lt (h.number_lt_of_mem hv')))
  refine ⟨⟨x, (hc x).mpr ⟨h.mem_stack_of_busy, Nat.le_refl _⟩⟩,
    fun y hy z hz => (hdown y hy).trans (hup z hz), fun y hy z hyz hzy => ?_⟩
  -- what is closed does not lead back
  have hinside : z ∈ c ∨ ∃ c' ∈ s.closed, z ∈ c' := by
    clear hzy
    induction hyz with
    | refl => exact .inl hy
    | tail _ hstep ih =>
      rcases ih with hmem | ⟨c', hc', hmem⟩
      · obtain ⟨hs, hle⟩ := (hc _).mp hmem
        exact (h.mem_of_next_segment hlow hs hle hstep).imp_left (hc _).mpr
      · exact .inr (h.settled.mem_of_next c' hc' _ hmem _ hstep)
  refine hinside.resolve_right ?_
  rintro ⟨c', hc', hmem⟩
  obtain ⟨c'', hc'', hmem'⟩ := h.settled.mem_of_leads hc' hmem hzy
  exact h.not_closed y ((hc y).mp hy).1 c'' hc'' hmem'

/-- The states that are taken off the stack are those above `x`, and `x`. Numbers
descend along the stack, so they are the ones whose numbers are not below that of
`x`, and this is how the invariant speaks of them. -/
theorem mem_popTo : (∀ y, y ∈ (popTo x s.stack).1 ↔ y ∈ s.stack ∧ s.number x ≤ s.number y) ∧
    (∀ y, y ∈ (popTo x s.stack).2 ↔ y ∈ s.stack ∧ s.number y < s.number x) ∧
    (popTo x s.stack).2.Sublist s.stack := by
  obtain ⟨pre, post, hsplit, hpop⟩ := exists_popTo_eq h.mem_stack_of_busy
  have hdescends := h.descends
  rw [hpop, hsplit]
  rw [hsplit] at hdescends
  obtain ⟨-, hpost, hpre⟩ := List.pairwise_append.mp hdescends
  -- numbers descend along the stack, so `x` stands between the higher and the lower
  -- ones
  have habove : ∀ y ∈ pre, s.number x < s.number y := fun y hy => hpre y hy x List.mem_cons_self
  have hbelow : ∀ y ∈ post, s.number y < s.number x := (List.pairwise_cons.mp hpost).1
  refine ⟨fun y => ?_, fun y => ?_, ?_⟩
  · rw [List.mem_append, List.mem_append, List.mem_singleton, List.mem_cons]
    constructor
    · rintro (hy | rfl)
      · exact ⟨.inl hy, Nat.le_of_lt (habove y hy)⟩
      · exact ⟨.inr (.inl rfl), Nat.le_refl _⟩
    · rintro ⟨hy | rfl | hy, hle⟩
      · exact .inl hy
      · exact .inr rfl
      · exact absurd (hbelow y hy) (Nat.not_lt.mpr hle)
  · rw [List.mem_append, List.mem_cons]
    constructor
    · exact fun hy => ⟨.inr (.inr hy), hbelow y hy⟩
    · rintro ⟨hy | rfl | hy, hlt⟩
      · exact absurd (habove y hy) (Nat.lt_asymm hlt)
      · exact absurd hlt (Nat.lt_irrefl _)
      · exact hy
  · exact (List.sublist_cons_self x post).trans (List.sublist_append_right pre _)

/-- What is closed with a new component. Its edges stay inside or lead to what was
closed before, and nothing that was closed before leads to it. -/
theorem settled_close (hlow : s.low x = s.number x) : Settled next (s.close x).closed := by
  obtain ⟨hmembers, -⟩ := h.mem_popTo
  have hc : ∀ y, y ∈ IdentSet.ofList (popTo x s.stack).1 ↔ y ∈ s.stack ∧ s.number x ≤ s.number y :=
    fun y => IdentSet.mem_ofList.trans (hmembers y)
  refine ⟨List.forall_mem_cons.mpr ⟨h.isStrong_segment hlow hc, h.settled.isStrong⟩,
    List.forall_mem_cons.mpr ⟨fun y hy z hz => ?_, fun c hc y hy z hz => ?_⟩,
    List.pairwise_cons.mpr ⟨fun c hc' y hy z hz hyz => ?_, h.settled.ordered⟩⟩
  · obtain ⟨hs, hle⟩ := (hc y).mp hy
    rcases h.mem_of_next_segment hlow hs hle hz with hmem | ⟨c, hc', hmem⟩
    · exact ⟨_, List.mem_cons_self, (hc z).mpr hmem⟩
    · exact ⟨c, List.mem_cons_of_mem _ hc', hmem⟩
  · obtain ⟨c', hc', hmem⟩ := h.settled.mem_of_next c hc y hy z hz
    exact ⟨c', List.mem_cons_of_mem _ hc', hmem⟩
  · obtain ⟨c', hmem, hzc⟩ := h.settled.mem_of_leads hc' hy hyz
    exact h.not_closed z ((hc z).mp hz).1 c' hmem hzc

/-- The tables after a component is closed: its states have moved from the stack to
the component. -/
theorem booked_close (hlow : s.low x = s.number x) : Booked next region (s.close x) := by
  obtain ⟨hmembers, hrest, hsub⟩ := h.mem_popTo
  -- the stack is cut in two, and the numbers decide on which side a state is
  have hsplit : ∀ y, y ∈ s.stack ↔ y ∈ (popTo x s.stack).2 ∨ y ∈ (popTo x s.stack).1 := by
    intro y
    rw [hmembers, hrest, ← and_or_left, and_iff_left (Nat.lt_or_ge _ _)]
  have hdisjoint : ∀ y ∈ (popTo x s.stack).2, y ∉ (popTo x s.stack).1 := fun y hy hy' =>
    Nat.not_lt.mpr ((hmembers y).mp hy').2 ((hrest y).mp hy).2
  refine
    { settled := h.settled_close hlow
      mem_numbers := fun {y} => ?mem_numbers
      not_closed := fun y hy => ?not_closed
      mem_onStack := fun {y} => ?mem_onStack
      mem_region := h.mem_region
      number_lt := fun y hy => h.number_lt y ((hrest y).mp hy).1
      descends := h.descends.sublist hsub }
  case mem_numbers =>
    change y ∈ s.numbers ↔ y ∈ (popTo x s.stack).2 ∨
      ∃ c ∈ IdentSet.ofList (popTo x s.stack).1 :: s.closed, y ∈ c
    rw [h.mem_numbers, hsplit]
    simp only [List.mem_cons, exists_eq_or_imp, IdentSet.mem_ofList, or_assoc]
  case not_closed =>
    refine List.forall_mem_cons.mpr ⟨fun hmem => ?_, h.not_closed y ((hrest y).mp hy).1⟩
    exact hdisjoint y hy (IdentSet.mem_ofList.mp hmem)
  case mem_onStack =>
    change y ∈ (popTo x s.stack).1.foldl IdentSet.erase s.onStack ↔ y ∈ (popTo x s.stack).2
    rw [mem_foldl_erase, h.mem_onStack, hsplit]
    constructor
    · rintro ⟨hy | hy, hnot⟩
      · exact hy
      · exact absurd hy hnot
    · exact fun hy => ⟨.inl hy, hdisjoint y hy⟩

/-- **Closing** a component. What is left on the stack stands below, and no low link
that is still used belonged to a state that is gone. -/
theorem close (hlow : s.low x = s.number x) : Underway next region (s.close x) busy := by
  obtain ⟨-, hrest, -⟩ := h.mem_popTo
  have hmem : ∀ {v}, v ∈ busy → v ∈ ⟨x, []⟩ :: busy := fun hv => List.mem_cons_of_mem _ hv
  refine
    { toBooked := h.booked_close hlow
      busy_mem := fun v hv => (hrest _).mpr ⟨h.busy_mem v (hmem hv), h.number_lt_of_mem hv⟩
      busy_descends := (List.pairwise_cons.mp h.busy_descends).2
      ahead_subset := fun v hv => h.ahead_subset v (hmem hv)
      looked := fun y hy z hz => h.looked_below ((hrest y).mp hy).1 hz
      leads_up := fun v hv y hy => h.leads_up v (hmem hv) y ((hrest y).mp hy).1
      leads_down := fun y hy => ?leads_down
      low_le := fun v hv => h.low_le v (hmem hv)
      low_leads := fun v hv => ?low_leads
      low_le_number := fun v hv y hy hle z hz hzs => ?low_le_number }
  case leads_down =>
    obtain ⟨hs, hlt⟩ := (hrest y).mp hy
    obtain ⟨v, hv, hle, hyv⟩ := h.leads_down y hs
    rcases List.mem_cons.mp hv with rfl | hv
    · exact absurd hlt (Nat.not_lt.mpr hle)
    · exact ⟨v, hv, hle, hyv⟩
  case low_leads =>
    obtain ⟨w, hw, hnumber, hvw⟩ := h.low_leads v (hmem hv)
    refine ⟨w, (hrest w).mpr ⟨hw, ?_⟩, hnumber, hvw⟩
    exact hnumber ▸ Nat.lt_of_le_of_lt (h.low_le v (hmem hv)) (h.number_lt_of_mem hv)
  case low_le_number =>
    obtain ⟨hs, hlt⟩ := (hrest z).mp hzs
    refine (h.low_le_number v (hmem hv) y ((hrest y).mp hy).1 hle z hz hs).imp_right ?_
    rintro ⟨u, hu, hle', hlow'⟩
    rcases List.mem_cons.mp hu with rfl | hu
    · -- `z` is below `x`, so an edge to it would have lowered the low link
      rcases hlow' with hlow' | ⟨-, hahead⟩
      · exact absurd hlt (Nat.not_lt.mpr (hlow ▸ hlow'))
      · exact absurd hahead List.not_mem_nil
    · exact ⟨u, hu, hle', hlow'⟩

/-- **Leaving** a state, whether a component is closed with it or not. -/
theorem leave : Underway next region (s.leave x busy.head?) busy := by
  obtain ⟨hreport, hparent⟩ := h.report
  rw [ComponentSearch.leave]
  split
  next hlow => exact hreport.close hlow
  next hlow => exact hreport.pop hlow hparent

end

/-! ### The run
 -/

/-- **The run** closes a component for each state that is entered. The induction is
the one of the run itself, with a case for each of the four things that it does. -/
theorem run (hregion : ∀ x ∈ region, ∀ y ∈ next x, y ∈ region) (h : Underway next region s busy) :
    Underway next region (s.run next busy) [] ∧ ∀ x ∈ s.numbers, x ∈ (s.run next busy).numbers := by
  fun_induction ComponentSearch.run next s busy with
  | case1 s => exact ⟨h, fun x hx => hx⟩
  | case2 s x busy ih =>
    obtain ⟨hrun, hkept⟩ := ih h.leave
    exact ⟨hrun, fun y hy => hkept y (by rwa [numbers_leave])⟩
  | case3 s x y ys busy hy ih =>
    obtain ⟨hrun, hkept⟩ := ih (h.look hy)
    exact ⟨hrun, fun z hz => hkept z (by rwa [numbers_look])⟩
  | case4 s x y ys busy hy ih =>
    have hx := h.mem_region x (h.mem_numbers_of_mem_stack (h.busy_mem _ List.mem_cons_self))
    have hstep := h.ahead_subset _ List.mem_cons_self y List.mem_cons_self
    obtain ⟨hrun, hkept⟩ := ih (h.enter_ahead hy (hregion x hx y hstep))
    exact ⟨hrun, fun z hz => hkept z (mem_numbers_enter.mpr (.inr hz))⟩

/-- **A visit** of a state that was not entered before. -/
theorem visit (hregion : ∀ x ∈ region, ∀ y ∈ next x, y ∈ region) (h : Underway next region s [])
    (hnew : x ∉ s.numbers) (hx : x ∈ region) :
    Underway next region (s.visit next x) [] ∧ x ∈ (s.visit next x).numbers ∧
      ∀ y ∈ s.numbers, y ∈ (s.visit next x).numbers := by
  obtain ⟨hrun, hkept⟩ := run hregion (h.enter hnew hx fun v hv => absurd hv List.not_mem_nil)
  exact ⟨hrun, hkept x (mem_numbers_enter.mpr (.inl rfl)),
    fun y hy => hkept y (mem_numbers_enter.mpr (.inr hy))⟩

end Underway

end OmegaControl.ComponentSearch
