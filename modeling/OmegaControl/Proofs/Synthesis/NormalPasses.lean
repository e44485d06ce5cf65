import OmegaControl.Proofs.Synthesis.NormalPart

/-!
# The passes over a candidate end

Passes over a candidate and its observer are repeated until one of them leaves both
numbers of transitions as they are, or until there is no start
(`NormalPart.Passes`). A pass adds no transition to either of them, whatever they
are (`NormalPart.noneAdded_pass`), so if one number differs, the sum has become
smaller. This is what the recursion of `NormalPart.run` goes by; so the passes end,
after one more than there are transitions at the latest (`NormalPart.run_passes`).

That the sum decides is a matter of the recursion only. What is said of the passes
compares the two numbers, each with what it was before.
-/

namespace OmegaControl

namespace NormalPart

variable {c c' c'' : ObservedCandidate}

/-! ## One pass -/

/-- No transition is added. -/
structure NoneAdded (c' c : ObservedCandidate) : Prop where
  cand : ∀ t ∈ c'.cand.transitions, t ∈ c.cand.transitions
  observer : ∀ o ∈ c'.observer.transitions, o ∈ c.observer.transitions

theorem NoneAdded.refl (c : ObservedCandidate) : NoneAdded c c := ⟨fun _ ht => ht, fun _ ho => ho⟩

/-- One pass after another. -/
theorem NoneAdded.trans (h' : NoneAdded c'' c') (h : NoneAdded c' c) : NoneAdded c'' c :=
  ⟨fun t ht => h.cand t (h'.cand t ht), fun o ho => h.observer o (h'.observer o ho)⟩

/-- Neither number becomes larger. -/
theorem NoneAdded.transitionCount_le (h : NoneAdded c' c) :
    c'.cand.transitionCount ≤ c.cand.transitionCount ∧
      c'.observer.transitionCount ≤ c.observer.transitionCount :=
  ⟨(mem_of_size_le h.cand).1, (mem_of_size_le h.observer).1⟩

/-- Whatever is done in a pass takes something away. -/
theorem keptByReduction_noneAdded (c : ObservedCandidate) : KeptByReduction (NoneAdded · c) where
  eraseObserver _ _ h :=
    { h with observer := fun o ho => h.observer o (Std.ExtTreeSet.mem_erase.mp ho).2 }
  eraseCand _ _ h := { h with cand := fun t ht => h.cand t (Std.ExtTreeSet.mem_erase.mp ht).2 }
  deleteStates _ _ h :=
    { h with cand := fun t ht => h.cand t (Automaton.mem_of_mem_transitions_deleteStates ht) }

/-- **One pass** adds no transition. -/
theorem noneAdded_pass (plant : Automaton) (permitted : EventSet) (start : AttachedState)
    (c : ObservedCandidate) : NoneAdded (pass plant permitted start c) c :=
  (keptByReduction_noneAdded c).pass plant permitted (.refl c) start

/-! ## All passes -/

/-- Candidate and observer have as many transitions as before. -/
def SameCounts (c' c : ObservedCandidate) : Prop :=
  c'.cand.transitionCount = c.cand.transitionCount ∧
    c'.observer.transitionCount = c.observer.transitionCount

/-- Passes that start from `c` and end with `last`, `n` of them. There is none without a start. The
last one leaves the numbers of transitions as they are, and all others change one of them. -/
inductive Passes (plant : Automaton) (permitted : EventSet) (start : StateId) :
    ℕ → ObservedCandidate → ObservedCandidate → Prop
  | noStart {c : ObservedCandidate}
      (hnone : c.cand.initialState? = none ∨ c.observer.initialState? = none) :
      Passes plant permitted start 0 c c
  | unchanged {c : ObservedCandidate} {x z : StateId} (hx : c.cand.initialState? = some x)
      (hz : c.observer.initialState? = some z)
      (hsame : SameCounts (pass plant permitted ⟨start, x, z⟩ c) c) :
      Passes plant permitted start 1 c (pass plant permitted ⟨start, x, z⟩ c)
  | again {c last : ObservedCandidate} {x z : StateId} {n : ℕ} (hx : c.cand.initialState? = some x)
      (hz : c.observer.initialState? = some z)
      (hchanged : ¬SameCounts (pass plant permitted ⟨start, x, z⟩ c) c)
      (hrest : Passes plant permitted start n (pass plant permitted ⟨start, x, z⟩ c) last) :
      Passes plant permitted start (n + 1) c last

/-- **All passes together**: they end, and what they end with is what a run returns.
There is at most one pass for each transition of the candidate and the observer, and
a last one that finds nothing. -/
theorem run_passes (plant : Automaton) (permitted : EventSet) (start : StateId)
    (c : ObservedCandidate) : ∃ n ≤ transitionCount c + 1,
      Passes plant permitted start n c (run plant permitted start c) := by
  fun_induction run plant permitted start c with
  | case1 c x z hz hx next hlt ih =>
    obtain ⟨n, hn, hpasses⟩ := ih
    refine ⟨n + 1, by omega, .again hx hz (fun hsame => ?_) hpasses⟩
    obtain ⟨hcand, hobserver⟩ : SameCounts next c := hsame
    rw [transitionCount, transitionCount, hcand, hobserver] at hlt
    exact Nat.lt_irrefl _ hlt
  | case2 c x z hz hx next hge =>
    -- a pass adds nothing, so if the sum has not gone down, neither part of it has
    have hle : NoneAdded next c := noneAdded_pass plant permitted ⟨start, x, z⟩ c
    obtain ⟨hcand, hobserver⟩ := hle.transitionCount_le
    have hsame : SameCounts next c := by
      rw [transitionCount, transitionCount] at hge
      rw [SameCounts]
      omega
    exact ⟨1, Nat.le_add_left 1 _, .unchanged hx hz hsame⟩
  | case3 c hnone =>
    refine ⟨0, Nat.zero_le _, .noStart ?_⟩
    by_contra hsome
    obtain ⟨hcand, hobserver⟩ := not_or.mp hsome
    obtain ⟨x, hx⟩ := Option.ne_none_iff_exists'.mp hcand
    obtain ⟨z, hz⟩ := Option.ne_none_iff_exists'.mp hobserver
    exact hnone x z hx hz

end NormalPart

end OmegaControl
