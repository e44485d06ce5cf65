import Mathlib.Data.List.Basic
import Mathlib.Logic.Function.Iterate
import Mathlib.Tactic.Choose
import OmegaControl.Automaton.Basic

/-!
# Paths

What an automaton does over time. A finite path is the list of its transitions
(`Automaton.IsPath`); an infinite one is a sequence of transitions each of whose
beginnings (`upTo`) is a finite path (`Automaton.IsInfinitePath`). So one notion of
path serves both, and what holds along an infinite path is proved along its
beginnings.

An infinite path is often the limit of finite ones that go on and on
(`exists_limit`): whenever something can be done once more, it can be done
infinitely often (`exists_sequence`). This is how all infinite runs of the
development come about. No automaton is asked to be finite for it, and nothing is
asked of the choices that are made.

Liveness is said of positions: `InfinitelyOften p` holds if `p` holds at positions
as late as one likes. Where a path is in between matters only through the end of a
beginning (`endOf`).
-/

namespace OmegaControl

/-! ## Infinite sequences

Of words and paths alike: both are sequences, of events and of transitions. -/

/-- The property holds at positions as late as one likes. For states of a finite
automaton this is to say that one of the states with the property comes up again and
again. -/
def InfinitelyOften (p : ℕ → Prop) : Prop := ∀ n, ∃ m, n ≤ m ∧ p m

/-- What happens at least as often happens infinitely often as well. -/
theorem InfinitelyOften.mono {p q : ℕ → Prop} (h : InfinitelyOften p) (hpq : ∀ n, p n → q n) :
    InfinitelyOften q := by
  intro n
  obtain ⟨m, hnm, hm⟩ := h n
  exact ⟨m, hnm, hpq m hm⟩

/-- What happens at the start does not matter, so infinite behaviour may be judged
from any point of a run onwards. -/
theorem infinitelyOften_add {p : ℕ → Prop} (k : ℕ) :
    InfinitelyOften (fun n => p (k + n)) ↔ InfinitelyOften p := by
  constructor
  · intro h n
    obtain ⟨m, hnm, hm⟩ := h n
    exact ⟨k + m, Nat.le_trans hnm (Nat.le_add_left m k), hm⟩
  · intro h n
    obtain ⟨m, hnm, hm⟩ := h (k + n)
    obtain ⟨d, rfl⟩ := Nat.exists_eq_add_of_le (Nat.le_trans (Nat.le_add_right k n) hnm)
    exact ⟨d, Nat.le_of_add_le_add_left hnm, hm⟩

/-- The first `n` members of an infinite sequence, as a list. The beginnings of a
word or of a path are all of this form. -/
def upTo {α : Type} (w : ℕ → α) (n : ℕ) : List α := (List.range n).map w

section

variable {α β : Type} {w : ℕ → α}

@[simp] theorem upTo_zero : upTo w 0 = [] := rfl

/-- A beginning grows at its end; most inductions along a path go this way. -/
theorem upTo_succ (n : ℕ) : upTo w (n + 1) = upTo w n ++ [w n] := by
  rw [upTo, List.range_succ, List.map_append]
  rfl

@[simp] theorem length_upTo (n : ℕ) : (upTo w n).length = n := by
  rw [upTo, List.length_map, List.length_range]

/-- Beginnings of the image are images of beginnings, as when a path is read as a
word. -/
theorem map_upTo (f : α → β) (n : ℕ) : (upTo w n).map f = upTo (fun i => f (w i)) n := by
  rw [upTo, upTo, List.map_map]
  rfl

@[simp] theorem getElem_upTo {n i : ℕ} (h : i < (upTo w n).length) : (upTo w n)[i] = w i := by
  simp [upTo]

/-- What occurs in a beginning occurs at a position before its end. -/
theorem mem_upTo {n : ℕ} {a : α} : a ∈ upTo w n ↔ ∃ i, i < n ∧ w i = a := by
  simp [upTo]

/-- A longer beginning is a shorter one followed by a beginning of the rest. -/
theorem upTo_add (n k : ℕ) : upTo w (n + k) = upTo w n ++ upTo (fun i => w (n + i)) k := by
  induction k with
  | zero => exact (List.append_nil _).symm
  | succ k ih => rw [← Nat.add_assoc, upTo_succ, upTo_succ, ih, List.append_assoc]

/-- A shorter beginning is a part of a longer one. -/
theorem upTo_isPrefix {n m : ℕ} (h : n ≤ m) : upTo w n <+: upTo w m := by
  obtain ⟨k, rfl⟩ := Nat.exists_eq_add_of_le h
  exact ⟨_, (upTo_add n k).symm⟩

/-- What continues a beginning that reaches further is a beginning, too. -/
theorem eq_upTo_of_isPrefix {n : ℕ} {xs : List α} (h : xs <+: upTo w n) : xs = upTo w xs.length := by
  have hlen : xs.length ≤ n := by simpa using h.length_le
  exact (List.prefix_of_prefix_length_le h (upTo_isPrefix hlen) (by simp)).eq_of_length (by simp)

/-- Two sequences with the same beginnings are the same. -/
theorem eq_of_upTo_eq {v w : ℕ → α} (h : ∀ n, upTo v n = upTo w n) : v = w := by
  funext n
  have hn := List.getElem_of_eq (h (n + 1)) (i := n) (by simp)
  rwa [getElem_upTo, getElem_upTo] at hn

/-- **Limits**: lists that continue one another and get longer and longer are the
beginnings of one infinite sequence. Its `n`th member is that of the first list that
is sure to be long enough. -/
theorem exists_limit {xs : ℕ → List α} (hnext : ∀ n, xs n <+: xs (n + 1))
    (hlen : ∀ n, n ≤ (xs n).length) : ∃ w, ∀ n, upTo w (xs n).length = xs n := by
  have hmono : ∀ {n m}, n ≤ m → xs n <+: xs m := by
    intro n m h
    induction h with
    | refl => exact List.prefix_rfl
    | step _ ih => exact ih.trans (hnext _)
  have hlt : ∀ n, n < (xs (n + 1)).length := fun n => hlen (n + 1)
  refine ⟨fun n => (xs (n + 1)).get ⟨n, hlt n⟩, fun n => List.ext_getElem (length_upTo _) ?_⟩
  intro i _ hi
  rw [getElem_upTo]
  -- both lists are beginnings of the longer one of the two
  rcases Nat.le_total (i + 1) n with hin | hin
  · exact (hmono hin).getElem (hlt i)
  · exact ((hmono hin).getElem hi).symm

/-- If lists with a property can always be prolonged to longer ones with the
property, they are beginnings of an infinite sequence infinitely many of whose
beginnings have it. The prolongations are chosen once and for all and iterated; the
sequence is their limit. -/
theorem exists_sequence {P : List α → Prop} (hP : ∀ xs, P xs → ∃ ys, ys ≠ [] ∧ P (xs ++ ys))
    {xs : List α} (h : P xs) :
    ∃ w, upTo w xs.length = xs ∧ InfinitelyOften fun n => P (upTo w n) := by
  choose! next hne hnext using hP
  let chain : ℕ → List α := fun n => (fun ys => ys ++ next ys)^[n] xs
  -- the lists that are met when the chosen prolongation is taken over and over
  have hsucc : ∀ n, chain (n + 1) = chain n ++ next (chain n) :=
    fun n => Function.iterate_succ_apply' ..
  have hchain : ∀ n, P (chain n) := by
    intro n
    induction n with
    | zero => exact h
    | succ n ih => exact hsucc n ▸ hnext _ ih
  -- each prolongation adds something, so the lists get as long as one likes
  have hlen : ∀ n, n ≤ (chain n).length := by
    intro n
    induction n with
    | zero => exact Nat.zero_le _
    | succ n ih =>
      have hpos := List.length_pos_iff.mpr (hne _ (hchain n))
      rw [hsucc, List.length_append]
      omega
  obtain ⟨w, hw⟩ := exists_limit (fun n => hsucc n ▸ List.prefix_append ..) hlen
  exact ⟨w, hw 0, fun n => ⟨(chain n).length, hlen n, by simpa only [hw n] using hchain n⟩⟩

end

/-! ## Finite paths

A list of transitions is looked at from its start, so the start has to be named: the
empty list is a path from every state. -/

/-- The state in which the steps `ts` end if they start in `x`. -/
def endOf (x : StateId) (ts : List Transition) : StateId := ts.foldl (fun _ t => t.target) x

@[simp] theorem endOf_nil (x : StateId) : endOf x [] = x := rfl

@[simp] theorem endOf_cons (x : StateId) (t : Transition) (ts : List Transition) :
    endOf x (t :: ts) = endOf t.target ts := rfl

/-- Of two lists of steps, the second starts where the first ends. -/
theorem endOf_append (x : StateId) (ts us : List Transition) :
    endOf x (ts ++ us) = endOf (endOf x ts) us := List.foldl_append ..

/-- Where steps end only depends on the last one. -/
@[simp] theorem endOf_concat (x : StateId) (ts : List Transition) (t : Transition) :
    endOf x (ts ++ [t]) = t.target := by
  rw [endOf_append, endOf_cons, endOf_nil]

/-- After `n + 1` steps one is where the `n`th step leads. -/
theorem endOf_upTo_succ (x : StateId) (r : ℕ → Transition) (n : ℕ) :
    endOf x (upTo r (n + 1)) = (r n).target := by
  rw [upTo_succ, endOf_concat]

/-- Where steps end is the target of one of them. -/
theorem exists_target_eq_endOf {ts : List Transition} (hts : ts ≠ []) (x : StateId) :
    ∃ t ∈ ts, t.target = endOf x ts := by
  rw [← List.dropLast_append_getLast hts, endOf_concat]
  exact ⟨_, List.mem_append_right _ List.mem_cons_self, rfl⟩

namespace Automaton

/-- The transitions can be taken one after the other, from `x` on: each of them is
there, and starts where the one before it ends. -/
def IsPath (g : Automaton) : StateId → List Transition → Prop
  | _, [] => True
  | x, t :: ts => t ∈ g.transitions ∧ t.source = x ∧ g.IsPath t.target ts

/-- The transitions can be taken one after the other without end, from `x` on, as
each beginning is a path. -/
def IsInfinitePath (g : Automaton) (x : StateId) (r : ℕ → Transition) : Prop :=
  ∀ n, g.IsPath x (upTo r n)

variable {g : Automaton} {x : StateId} {t : Transition} {ts us : List Transition}

/-- A transition may be given by its parts. -/
theorem mk_mem_transitions (ht : t ∈ g.transitions) (hsource : t.source = x) :
    ⟨x, t.event, t.target⟩ ∈ g.transitions := hsource ▸ ht

@[simp] theorem isPath_nil : g.IsPath x [] := trivial

@[simp] theorem isPath_cons :
    g.IsPath x (t :: ts) ↔ t ∈ g.transitions ∧ t.source = x ∧ g.IsPath t.target ts := Iff.rfl

/-- Paths are cut and joined where the first part ends. -/
theorem isPath_append : g.IsPath x (ts ++ us) ↔ g.IsPath x ts ∧ g.IsPath (endOf x ts) us := by
  induction ts generalizing x with
  | nil => simp
  | cons t ts ih => simp [ih, and_assoc]

/-- A path is prolonged by one more transition from its end. -/
@[simp] theorem isPath_concat :
    g.IsPath x (ts ++ [t]) ↔ g.IsPath x ts ∧ t ∈ g.transitions ∧ t.source = endOf x ts := by
  simp [isPath_append]

/-- A path consists of transitions. -/
theorem IsPath.mem_transitions (hts : g.IsPath x ts) (ht : t ∈ ts) : t ∈ g.transitions := by
  induction ts generalizing x with
  | nil => cases ht
  | cons u ts ih =>
    cases ht with
    | head => exact hts.1
    | tail _ ht => exact ih hts.2.2 ht

/-- What is a path remains one if there are more transitions. -/
theorem IsPath.mono {h : Automaton} (hts : g.IsPath x ts)
    (hsub : ∀ t ∈ g.transitions, t ∈ h.transitions) : h.IsPath x ts := by
  induction ts generalizing x with
  | nil => trivial
  | cons t ts ih => exact ⟨hsub t hts.1, hts.2.1, ih hts.2.2⟩

/-- A path stays among the states if the targets of transitions are states. -/
theorem IsPath.endOf_mem (hg : g.WellFormed) (hx : x ∈ g.states) (h : g.IsPath x ts) :
    endOf x ts ∈ g.states := by
  induction ts generalizing x with
  | nil => exact hx
  | cons t ts ih => exact ih (hg.target_mem t h.1) h.2.2

/-- A sequence is an infinite path if beginnings as long as one likes are paths. -/
theorem isInfinitePath_of_infinitelyOften {r : ℕ → Transition}
    (h : InfinitelyOften fun n => g.IsPath x (upTo r n)) : g.IsInfinitePath x r := by
  intro n
  obtain ⟨m, hnm, hm⟩ := h n
  obtain ⟨vs, hvs⟩ := upTo_isPrefix (w := r) hnm
  exact (isPath_append.mp (hvs ▸ hm)).1

/-- Along an infinite path, each step is a transition from where the steps before it
have led to. -/
theorem IsInfinitePath.step {r : ℕ → Transition} (h : g.IsInfinitePath x r) (n : ℕ) :
    r n ∈ g.transitions ∧ (r n).source = endOf x (upTo r n) := by
  have hn := h (n + 1)
  rw [upTo_succ, isPath_concat] at hn
  exact hn.2

/-! ## Unique successors -/

/-- Each state has at most one transition on each event. Unlike determinism this
says nothing about initial states, so it passes to every part of the automaton. -/
def HasUniqueSuccessors (g : Automaton) : Prop :=
  ∀ s ∈ g.transitions, ∀ t ∈ g.transitions, s.source = t.source → s.event = t.event → s = t

/-- A deterministic automaton has unique successors. -/
theorem IsDeterministic.hasUniqueSuccessors (h : g.IsDeterministic) : g.HasUniqueSuccessors := by
  have hall := List.Pairwise.forall_of_forall_of_flip
    (R := fun s t : Transition => s.source = t.source → s.event = t.event → s = t)
    (fun _ _ _ _ => rfl) (h.2.imp fun hst hs he => absurd ⟨hs, he⟩ hst)
    (h.2.imp fun hst hs he => absurd ⟨hs.symm, he.symm⟩ hst)
  exact fun s hs t ht =>
    hall (Std.ExtTreeSet.mem_toList.mpr hs) (Std.ExtTreeSet.mem_toList.mpr ht)

/-- Unique successors and at most one initial state make an automaton deterministic.
Transitions are listed in ascending order, so two that agree on source and event
would stand at two places. -/
theorem HasUniqueSuccessors.isDeterministic (hg : g.HasUniqueSuccessors)
    (hinitial : g.initial.size ≤ 1) : g.IsDeterministic := by
  refine ⟨hinitial, g.transitions.ordered_toList.imp_of_mem fun {s t} hs ht hlt => ?_⟩
  rintro ⟨hsource, hevent⟩
  obtain rfl := hg s (Std.ExtTreeSet.mem_toList.mp hs) t (Std.ExtTreeSet.mem_toList.mp ht)
    hsource hevent
  have heq : compare s s = .eq := Std.ReflCmp.compare_self
  rw [heq] at hlt
  cases hlt

/-- With unique successors, the events of a path determine it. This is what lets a
word stand for the one path that reads it. -/
theorem HasUniqueSuccessors.path_unique (hg : g.HasUniqueSuccessors) (hts : g.IsPath x ts)
    (hus : g.IsPath x us) (h : ts.map (·.event) = us.map (·.event)) : ts = us := by
  induction ts generalizing x us with
  | nil => exact (List.map_eq_nil_iff.mp h.symm).symm
  | cons t ts ih =>
    rcases us with _ | ⟨u, us⟩
    · cases h
    · obtain ⟨hevent, hevents⟩ := List.cons.inj h
      obtain rfl := hg t hts.1 u hus.1 (hts.2.1.trans hus.2.1.symm) hevent
      rw [ih hts.2.2 hus.2.2 hevents]

end Automaton

end OmegaControl
