import OmegaControl.Proofs.Iteration
import OmegaControl.Proofs.Restriction

/-!
# Words

The finite words that an automaton generates and the infinite words that it accepts.
A finite word is generated by a path; an infinite one is read along a sequence of
states (`Reads`), and accepted if the sequence visits marked states infinitely
often.

With unique successors, an infinite word can be read as soon as all its beginnings
are generated (`exists_infinitePath`), in one way only (`reads_unique`). So for
deterministic automata, statements about infinite words can be made in terms of
finite ones: what is read at position `n` is known from the first `n` events.

If marked states are ahead of every state, nothing that is generated is in vain: the
finite words are exactly the beginnings of the accepted ones
(`words_eq_beginnings`).
-/

namespace OmegaControl

/-- The finite beginnings of the infinite words in `E`. -/
def beginnings (E : Set (ℕ → EventId)) : Set (List EventId) := {s | ∃ w ∈ E, ∃ n, upTo w n = s}

/-- More infinite words have more beginnings. -/
theorem beginnings_mono {E F : Set (ℕ → EventId)} (h : E ⊆ F) : beginnings E ⊆ beginnings F :=
  fun _ ⟨w, hw, hn⟩ => ⟨w, h hw, hn⟩

/-- The empty word is a beginning as soon as there is any infinite word at all. -/
theorem nil_mem_beginnings {E : Set (ℕ → EventId)} (h : E.Nonempty) : [] ∈ beginnings E := by
  obtain ⟨w, hw⟩ := h
  exact ⟨w, hw, 0, rfl⟩

theorem upTo_mem_beginnings {E : Set (ℕ → EventId)} {w : ℕ → EventId} (hw : w ∈ E) (n : ℕ) :
    upTo w n ∈ beginnings E := ⟨w, hw, n, rfl⟩

/-- What a beginning starts with is a beginning. -/
theorem beginnings_of_append {E : Set (ℕ → EventId)} {s u : List EventId}
    (h : s ++ u ∈ beginnings E) : s ∈ beginnings E := by
  obtain ⟨w, hw, n, hn⟩ := h
  exact ⟨w, hw, s.length, (eq_upTo_of_isPrefix (hn ▸ List.prefix_append s u)).symm⟩

namespace Automaton

/-- The finite words that are generated, by paths from initial states. Whether their
ends are marked does not matter. -/
def words (g : Automaton) : Set (List EventId) :=
  {s | ∃ x ∈ g.initial, ∃ ts, g.IsPath x ts ∧ ts.map (·.event) = s}

/-- Reading the infinite word `w`, the states `xs` can be visited in turn. The
states are given as a sequence, so that it can be said which of them are marked. -/
def Reads (g : Automaton) (w : ℕ → EventId) (xs : ℕ → StateId) : Prop :=
  ∀ n, ⟨xs n, w n, xs (n + 1)⟩ ∈ g.transitions

/-- The infinite words that are accepted: some way of reading them visits marked
states infinitely often. -/
def acceptedWords (g : Automaton) : Set (ℕ → EventId) :=
  {w | ∃ xs, xs 0 ∈ g.initial ∧ g.Reads w xs ∧ InfinitelyOften fun n => xs n ∈ g.marked}

variable {g h : Automaton} {x : StateId} {w : ℕ → EventId} {xs ys : ℕ → StateId}
  {ts us : List Transition}

/-! ## Generated words

Both kinds of words only depend on initial states, marks and transitions. -/

/-- Generated words consist of events of the alphabet. -/
theorem mem_alphabet_of_mem_words (hg : g.WellFormed) {s : List EventId} (hs : s ∈ g.words)
    {ev : EventId} (hev : ev ∈ s) : ev ∈ g.alphabet := by
  obtain ⟨x, -, ts, hts, rfl⟩ := hs
  obtain ⟨t, ht, rfl⟩ := List.mem_map.mp hev
  exact hg.event_mem t (hts.mem_transitions ht)

/-- The name does not matter. -/
theorem words_setName (name : String) : (g.setName name).words = g.words := by
  ext s
  refine exists_congr fun x => and_congr_right fun _ => exists_congr fun ts => and_congr_left' ?_
  exact ⟨fun hts => hts.mono fun _ ht => ht, fun hts => hts.mono fun _ ht => ht⟩

/-! ## Reading as a path

A word and the states it visits make up a path, and a path yields both. So what was
shown of paths applies to reading. -/

/-- The step taken at position `n`, if `w` is read along `xs`. -/
def stepAt (w : ℕ → EventId) (xs : ℕ → StateId) (n : ℕ) : Transition := ⟨xs n, w n, xs (n + 1)⟩

@[simp] theorem endOf_stepAt (n : ℕ) : endOf (xs 0) (upTo (stepAt w xs) n) = xs n := by
  cases n with
  | zero => rfl
  | succ n => rw [endOf_upTo_succ, stepAt]

/-- The events of these steps are the word itself. -/
theorem events_stepAt (n : ℕ) : (upTo (stepAt w xs) n).map (·.event) = upTo w n := map_upTo ..

/-- Reading an infinite word is taking an infinite path. -/
theorem Reads.isInfinitePath (hr : g.Reads w xs) : g.IsInfinitePath (xs 0) (stepAt w xs) := by
  intro n
  induction n with
  | zero => trivial
  | succ n ih =>
    rw [upTo_succ, isPath_concat, endOf_stepAt]
    exact ⟨ih, hr n, rfl⟩

/-- Along an infinite path an infinite word is read. -/
theorem IsInfinitePath.reads {r : ℕ → Transition} (hr : g.IsInfinitePath x r) :
    g.Reads (fun n => (r n).event) fun n => endOf x (upTo r n) := by
  intro n
  obtain ⟨ht, hsource⟩ := hr.step n
  dsimp only
  rw [endOf_upTo_succ, ← hsource]
  exact ht

/-- A beginning of an accepted word is generated, as the states visited on the way
are a path. -/
theorem beginnings_acceptedWords_subset : beginnings g.acceptedWords ⊆ g.words := by
  rintro s ⟨w, ⟨xs, hx, hr, -⟩, n, rfl⟩
  exact ⟨xs 0, hx, _, hr.isInfinitePath n, events_stepAt n⟩

/-- If marked states are ahead of every state, each path can go on without end and
visit marked states infinitely often: it is prolonged from one marked state to the
next. -/
theorem exists_infinitePath_of_marked_ahead (hg : g.WellFormed)
    (hahead : ∀ y ∈ g.states, ∃ us, us ≠ [] ∧ g.IsPath y us ∧ endOf y us ∈ g.marked)
    (hx : x ∈ g.states) (hts : g.IsPath x ts) :
    ∃ r, upTo r ts.length = ts ∧ g.IsInfinitePath x r ∧
      InfinitelyOften fun n => endOf x (upTo r n) ∈ g.marked := by
  have hnext : ∀ vs, g.IsPath x vs →
      ∃ us, us ≠ [] ∧ g.IsPath x (vs ++ us) ∧ endOf x (vs ++ us) ∈ g.marked := by
    intro vs hvs
    obtain ⟨us, hne, hus, hmarked⟩ := hahead _ (hvs.endOf_mem hg hx)
    exact ⟨us, hne, isPath_append.mpr ⟨hvs, hus⟩, endOf_append x vs us ▸ hmarked⟩
  obtain ⟨us, -, hus, hmarked⟩ := hnext ts hts
  obtain ⟨r, hr, hoften⟩ := exists_sequence
    (P := fun vs => g.IsPath x vs ∧ endOf x vs ∈ g.marked)
    (fun vs hvs => hnext vs hvs.1) ⟨hus, hmarked⟩
  exact ⟨r, (eq_upTo_of_isPrefix (hr ▸ List.prefix_append ts us)).symm,
    isInfinitePath_of_infinitelyOften (hoften.mono fun _ hm => hm.1), hoften.mono fun _ hm => hm.2⟩

/-- **Nothing is a dead end** if marked states are ahead of every state: what is generated
is what accepted words begin with. -/
theorem words_eq_beginnings (hg : g.WellFormed)
    (hahead : ∀ y ∈ g.states, ∃ us, us ≠ [] ∧ g.IsPath y us ∧ endOf y us ∈ g.marked) :
    g.words = beginnings g.acceptedWords := by
  refine Set.Subset.antisymm ?_ beginnings_acceptedWords_subset
  rintro s ⟨x, hx, ts, hts, rfl⟩
  obtain ⟨r, hbegin, hr, hmarked⟩ :=
    exists_infinitePath_of_marked_ahead hg hahead (hg.initial_subset x hx) hts
  have haccepted : (fun n => (r n).event) ∈ g.acceptedWords :=
    ⟨fun n => endOf x (upTo r n), hx, hr.reads, hmarked⟩
  refine ⟨fun n => (r n).event, haccepted, ts.length, ?_⟩
  rw [← map_upTo, hbegin]

/-! ## Unique successors

What is read is now determined by the word, and so are the states it visits. -/

/-- Two ways of reading one word from the same state are the same. -/
theorem HasUniqueSuccessors.reads_unique (hg : g.HasUniqueSuccessors) (hxs : g.Reads w xs)
    (hys : g.Reads w ys) (h : xs 0 = ys 0) : xs = ys := by
  funext n
  induction n with
  | zero => exact h
  | succ n ih => exact congrArg (·.target) (hg _ (hxs n) _ (hys n) ih rfl)

/-- A deterministic automaton starts in one state at most. -/
theorem IsDeterministic.initial_unique (hg : g.IsDeterministic) {y : StateId} (hx : x ∈ g.initial)
    (hy : y ∈ g.initial) : x = y := IdentSet.eq_of_size_le_one hg.1 hx hy

/-- A deterministic automaton has one way only to accept a word, so any way of
reading it decides. -/
theorem IsDeterministic.mem_acceptedWords_iff (hg : g.IsDeterministic) (hxs : g.Reads w xs)
    (hinitial : xs 0 ∈ g.initial) :
    w ∈ g.acceptedWords ↔ InfinitelyOften fun n => xs n ∈ g.marked := by
  refine ⟨?_, fun hmarked => ⟨xs, hinitial, hxs, hmarked⟩⟩
  rintro ⟨ys, hinitial', hys, hmarked⟩
  rwa [hg.hasUniqueSuccessors.reads_unique hxs hys (hg.initial_unique hinitial hinitial')]

/-- With unique successors, if one path's events continue the other's, then so does the
path. -/
theorem HasUniqueSuccessors.isPrefix_of_events (hg : g.HasUniqueSuccessors) (hts : g.IsPath x ts)
    (hus : g.IsPath x us) (h : ts.map (·.event) <+: us.map (·.event)) : ts <+: us := by
  obtain ⟨s, hs⟩ := h
  have hlen : ts.length ≤ us.length := by
    have hlen := congrArg List.length hs
    rw [List.length_append, List.length_map, List.length_map] at hlen
    omega
  have hsplit : us = us.take ts.length ++ us.drop ts.length := (List.take_append_drop ..).symm
  have hpath : g.IsPath x (us.take ts.length) := by
    rw [hsplit, isPath_append] at hus
    exact hus.1
  have hevents : ts.map (·.event) = (us.take ts.length).map (·.event) := by
    rw [List.map_take, ← hs, List.take_left' (List.length_map _)]
  rw [hg.path_unique hts hpath hevents]
  exact List.take_prefix ..

/-- **Infinite words**: if beginnings as long as one likes belong to paths, the whole word
belongs to an infinite path, whose beginnings are such paths again. -/
theorem HasUniqueSuccessors.exists_infinitePath (hg : g.HasUniqueSuccessors)
    {P : List Transition → Prop} (hP : ∀ ts, P ts → g.IsPath x ts)
    (hw : ∀ n, ∃ ts, P ts ∧ ts.map (·.event) = upTo w n) :
    ∃ r, (∀ n, P (upTo r n)) ∧ ∀ n, (r n).event = w n := by
  choose path hpath hevents using hw
  have hlen : ∀ n, (path n).length = n := by
    intro n
    have hlen := congrArg List.length (hevents n)
    rwa [List.length_map, length_upTo] at hlen
  -- the paths for longer and longer beginnings continue one another
  have hnext : ∀ n, path n <+: path (n + 1) := by
    intro n
    refine hg.isPrefix_of_events (hP _ (hpath n)) (hP _ (hpath (n + 1))) ?_
    rw [hevents, hevents]
    exact upTo_isPrefix n.le_succ
  obtain ⟨r, hr⟩ := exists_limit hnext fun n => Nat.le_of_eq (hlen n).symm
  have hr' : ∀ n, upTo r n = path n := fun n => by
    have hn := hr n
    rwa [hlen] at hn
  -- their limit reads `w`, as it does so up to every position
  have hevent : upTo (fun n => (r n).event) = upTo w := by
    funext n
    rw [← hevents n, ← hr' n, map_upTo]
  exact ⟨r, fun n => hr' n ▸ hpath n, congrFun (eq_of_upTo_eq (congrFun hevent))⟩

/-- A deterministic automaton reads every infinite word all of whose beginnings it generates. -/
theorem IsDeterministic.exists_reads (hg : g.IsDeterministic) (hw : ∀ n, upTo w n ∈ g.words) :
    ∃ xs, xs 0 ∈ g.initial ∧ g.Reads w xs := by
  obtain ⟨x, hx, -⟩ := hw 0
  have hpaths : ∀ n, ∃ ts, g.IsPath x ts ∧ ts.map (·.event) = upTo w n := by
    intro n
    obtain ⟨y, hy, ts, hts, hevents⟩ := hw n
    obtain rfl := hg.initial_unique hy hx
    exact ⟨ts, hts, hevents⟩
  obtain ⟨r, hr, hevents⟩ := hg.hasUniqueSuccessors.exists_infinitePath (fun _ hts => hts) hpaths
  obtain rfl : (fun n => (r n).event) = w := funext hevents
  exact ⟨fun n => endOf x (upTo r n), hx, IsInfinitePath.reads hr⟩

end Automaton

end OmegaControl
