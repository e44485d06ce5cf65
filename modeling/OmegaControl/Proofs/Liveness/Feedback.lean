import OmegaControl.Proofs.Liveness.Drive

/-!
# What the feedback rule records

The rule records for each state which events to disable there, at the moment when
the state is first driven into a target; what is recorded later does not count. By
then the targets have grown and the domains have shrunk, so it has to be shown that
what was recorded first is still of use.

It is, because a record does not depend on the target and the domain it was made
for, but only on states that were found before (`Certificate`): each kept state has
an outer and an inner number, and disabling what is recorded for it leads to a state
with smaller numbers, and never to one with a larger outer number. Two certificates
can be merged if the second one starts from the states of the first
(`Certified.union`). This is what happens to the records at the end of a round and
at the end of a level, and so all that is recorded in the end is one certificate for
all enforceable states (`Rule.feedback_certified`).

The numbers need not be computed by anybody. They are made up as the loops go on:
the inner one counts the steps of the innermost loop, and the outer one the domains
that have been laid around the target before (`stacked`).
-/

namespace OmegaControl

/-- What to disable at each of some states. -/
abbrev DisableMap := Std.ExtTreeMap StateId EventSet

variable {g : Automaton} {controllable : EventSet} {plantMarking : StateSet}

/-! ## Certificates

A certificate is relative to a base: the states that are good enough as they are.
For the innermost loops it is the target; in the end it is the marked states, and
nothing is left open. -/

/-- The states with smaller numbers than `x`. One with the same outer number counts
only if it is not in the plant marking, as visits to the plant marking have to lower
the outer number. -/
def nearer (plantMarking kept : StateSet) (outer inner : StateId → ℕ) (x : StateId) :
    Set StateId :=
  {y | y ∈ kept ∧ (outer y < outer x ∨ outer y = outer x ∧ inner y < inner x ∧ y ∉ plantMarking)}

/-- The states without plant marking whose outer number is not above that of `x`.
The run may go there against the will of the supervisor, and nothing is lost. -/
def notFarther (plantMarking kept : StateSet) (outer : StateId → ℕ) (x : StateId) :
    Set StateId :=
  {y | y ∈ kept ∧ outer y ≤ outer x ∧ y ∉ plantMarking}

/-- Disabling what is recorded drives every kept state into `base` or nearer to it,
and lets it go no farther away. -/
structure Certificate (g : Automaton) (controllable : EventSet) (plantMarking : StateSet)
    (base : Set StateId) (kept : StateSet) (record : DisableMap) (outer inner : StateId → ℕ) :
    Prop where
  /-- nothing is recorded about other states -/
  mem_kept : ∀ x ∈ record, x ∈ kept
  /-- what is recorded about a kept state drives it nearer -/
  drives : ∀ x ∈ kept, ∃ disabled, record[x]? = some disabled ∧
    g.Drives controllable disabled (base ∪ nearer plantMarking kept outer inner x)
      (notFarther plantMarking kept outer x) x

/-- There are numbers that make the record a certificate. The outer ones are
bounded, so that others can be put on top of them. -/
def Certified (g : Automaton) (controllable : EventSet) (plantMarking : StateSet)
    (base : Set StateId) (kept : StateSet) (record : DisableMap) : Prop :=
  ∃ outer inner : StateId → ℕ, ∃ bound, (∀ x ∈ kept, outer x < bound) ∧
    Certificate g controllable plantMarking base kept record outer inner

/-- To start with, nothing is kept and nothing is recorded. -/
theorem Certified.empty {base : Set StateId} :
    Certified g controllable plantMarking base ∅ ∅ :=
  ⟨fun _ => 0, fun _ => 0, 0, fun _ hx => absurd hx IdentSet.not_mem_empty,
    fun _ hx => absurd hx Std.ExtTreeMap.not_mem_empty,
    fun _ hx => absurd hx IdentSet.not_mem_empty⟩

/-- Without kept states there is nothing to drive anywhere. -/
theorem Certified.of_carrier_eq_empty {base base' : Set StateId} {kept : StateSet}
    {record : DisableMap} (h : Certified g controllable plantMarking base kept record)
    (hempty : kept.carrier = ∅) : Certified g controllable plantMarking base' kept record := by
  obtain ⟨outer, inner, bound, hbound, hmem, -⟩ := h
  refine ⟨outer, inner, bound, hbound, hmem, fun x hx => ?_⟩
  exact absurd (hempty ▸ hx : x ∈ (∅ : Set StateId)) (Set.notMem_empty x)

/-! ## Merging two certificates

The states of the older certificate keep their numbers, and those that are only in
the newer one are put on top of them. So a state of the older one is nearer than any
of the others, which is what the newer certificate needs when its base are the
states of the older one. -/

/-- The numbers of `older` for its states; those of all others come after them, from
`bound` on. -/
def stacked (older : StateSet) (bound : ℕ) (first second : StateId → ℕ) (x : StateId) : ℕ :=
  if x ∈ older then first x else bound + second x

section

variable {older newer : StateSet} {bound : ℕ} {first second outer₁ outer₂ inner₁ inner₂ : StateId → ℕ}
  {x y : StateId}

theorem stacked_of_mem (hx : x ∈ older) : stacked older bound first second x = first x := if_pos hx

theorem stacked_of_not_mem (hx : x ∉ older) :
    stacked older bound first second x = bound + second x := if_neg hx

/-- A state of `older` comes before all others. -/
theorem stacked_lt_stacked (hbound : ∀ x ∈ older, first x < bound) (hx : x ∉ older)
    (hy : y ∈ older) : stacked older bound first second y < stacked older bound first second x := by
  rw [stacked_of_mem hy, stacked_of_not_mem hx]
  exact (hbound y hy).trans_le (Nat.le_add_right _ _)

/-- For a state of `older` the same states are nearer, by the same numbers. -/
theorem nearer_subset_of_mem (hx : x ∈ older) : nearer plantMarking older outer₁ inner₁ x ⊆
    nearer plantMarking (older ∪ newer) (stacked older bound outer₁ outer₂)
      (stacked older 0 inner₁ inner₂) x := by
  rintro y ⟨hy, hnear⟩
  refine ⟨IdentSet.mem_union.mpr (.inl hy), ?_⟩
  rwa [stacked_of_mem hx, stacked_of_mem hx, stacked_of_mem hy, stacked_of_mem hy]

theorem notFarther_subset_of_mem (hx : x ∈ older) : notFarther plantMarking older outer₁ x ⊆
    notFarther plantMarking (older ∪ newer) (stacked older bound outer₁ outer₂) x := by
  rintro y ⟨hy, hle, hplant⟩
  refine ⟨IdentSet.mem_union.mpr (.inl hy), ?_, hplant⟩
  rwa [stacked_of_mem hx, stacked_of_mem hy]

/-- For a state that is only in `newer`, those of `newer` that were nearer still
are: by their old numbers, or since they belong to `older`, too. -/
theorem nearer_subset_of_not_mem (hbound : ∀ x ∈ older, outer₁ x < bound) (hx : x ∉ older) :
    nearer plantMarking newer outer₂ inner₂ x ⊆
      nearer plantMarking (older ∪ newer) (stacked older bound outer₁ outer₂)
        (stacked older 0 inner₁ inner₂) x := by
  rintro y ⟨hy, hnear⟩
  refine ⟨IdentSet.mem_union.mpr (.inr hy), ?_⟩
  by_cases hold : y ∈ older
  · exact .inl (stacked_lt_stacked hbound hx hold)
  · rw [stacked_of_not_mem hx, stacked_of_not_mem hx, stacked_of_not_mem hold,
      stacked_of_not_mem hold]
    simpa using hnear

theorem notFarther_subset_of_not_mem (hbound : ∀ x ∈ older, outer₁ x < bound) (hx : x ∉ older) :
    notFarther plantMarking newer outer₂ x ⊆
      notFarther plantMarking (older ∪ newer) (stacked older bound outer₁ outer₂) x := by
  rintro y ⟨hy, hle, hplant⟩
  refine ⟨IdentSet.mem_union.mpr (.inr hy), ?_, hplant⟩
  by_cases hold : y ∈ older
  · exact (stacked_lt_stacked hbound hx hold).le
  · rw [stacked_of_not_mem hx, stacked_of_not_mem hold]
    exact Nat.add_le_add_left hle _

end

/-- **Merging**: if one certificate starts from the states of another one, the two
together are a certificate, in which the records of the older one count where both
have some. -/
theorem Certified.union {base₁ base₂ base : Set StateId} {older newer : StateSet}
    {record₁ record₂ : DisableMap}
    (h₁ : Certified g controllable plantMarking base₁ older record₁)
    (h₂ : Certified g controllable plantMarking base₂ newer record₂)
    (hbase₁ : base₁ ⊆ base) (hbase₂ : base₂ ⊆ base ∪ older.carrier) :
    Certified g controllable plantMarking base (older ∪ newer) (record₂ ∪ record₁) := by
  obtain ⟨outer₁, inner₁, bound₁, hbound₁, hmem₁, hdrives₁⟩ := h₁
  obtain ⟨outer₂, inner₂, bound₂, hbound₂, hmem₂, hdrives₂⟩ := h₂
  -- states that are only in `newer` come after all states of `older`
  refine ⟨stacked older bound₁ outer₁ outer₂, stacked older 0 inner₁ inner₂, bound₁ + bound₂,
    fun x hx => ?_, fun x hx => ?_, fun x hx => ?_⟩
  · -- the outer numbers are bounded by the sum of both bounds
    by_cases hold : x ∈ older
    · rw [stacked_of_mem hold]
      exact (hbound₁ x hold).trans_le (Nat.le_add_right _ _)
    · rw [stacked_of_not_mem hold]
      exact Nat.add_lt_add_left (hbound₂ x ((IdentSet.mem_union.mp hx).resolve_left hold)) _
  · rcases Std.ExtTreeMap.mem_union_iff.mp hx with hx | hx
    · exact IdentSet.mem_union.mpr (.inr (hmem₂ x hx))
    · exact IdentSet.mem_union.mpr (.inl (hmem₁ x hx))
  · by_cases hold : x ∈ older
    · obtain ⟨d, hd, hdrives⟩ := hdrives₁ x hold
      have hrecord : (record₂ ∪ record₁)[x]? = some d := by
        rw [Std.ExtTreeMap.getElem?_union, hd]
        rfl
      refine ⟨d, hrecord, hdrives.mono (Set.union_subset_union hbase₁ ?_) ?_⟩
      · exact nearer_subset_of_mem hold
      · exact (notFarther_subset_of_mem hold).trans Set.subset_union_right
    · obtain ⟨d, hd, hdrives⟩ := hdrives₂ x ((IdentSet.mem_union.mp hx).resolve_left hold)
      have hrecord : (record₂ ∪ record₁)[x]? = some d := by
        rw [Std.ExtTreeMap.getElem?_union,
          Std.ExtTreeMap.getElem?_eq_none fun h => hold (hmem₁ x h)]
        exact hd
      refine ⟨d, hrecord, hdrives.mono (Set.union_subset ?_ ?_) ?_⟩
      · intro y hy
        -- a state of `older` that was good enough as it was is now nearer
        rcases hbase₂ hy with hy | hy
        · exact .inl hy
        · exact .inr ⟨IdentSet.mem_union.mpr (.inl hy), .inl (stacked_lt_stacked hbound₁ hold hy)⟩
      · exact (nearer_subset_of_not_mem hbound₁ hold).trans Set.subset_union_right
      · exact (notFarther_subset_of_not_mem hbound₁ hold).trans Set.subset_union_right

/-! ## The records of a round

Within a round there is one number, the step of the innermost loop in which a state
was found, and the plant marking is not visited before the target is reached. -/

/-- Disabling what is recorded drives every state of `near` into `target` or to a state of
`near` that was found before, without leaving the domain. -/
def RoundCertified (g : Automaton) (controllable : EventSet) (plantMarking : StateSet)
    (target domain near : StateSet) (record : DisableMap) : Prop :=
  ∃ found : StateId → ℕ, ∃ bound, (∀ x ∈ near, found x < bound) ∧ (∀ x ∈ record, x ∈ near) ∧
    ∀ x ∈ near, ∃ disabled, record[x]? = some disabled ∧
      g.Drives controllable disabled
        (target.carrier ∪ {y | y ∈ near ∧ found y < found x ∧ y ∉ plantMarking})
        (domain.carrier \ plantMarking.carrier) x

/-- What is recorded in one more step of the innermost loop. The states that are new
aim at those found before them, and for the others nothing is changed. -/
theorem RoundCertified.step (hg : g.HasUniqueSuccessors) {target domain near : StateSet}
    {record : DisableMap}
    (h : RoundCertified g controllable plantMarking target domain near record) :
    let rows := disabledRows g controllable (target ∪ (near \ plantMarking)) (domain \ plantMarking)
    RoundCertified g controllable plantMarking target domain
      (near ∪ IdentSet.ofList (rows.map (·.1))) (.ofList rows ∪ record) := by
  classical
  intro rows
  obtain ⟨found, bound, hbound, hmem, hdrives⟩ := h
  -- all states that are found in this step come after those found before
  let found' : StateId → ℕ := fun x => if x ∈ near then found x else bound
  have hfound : ∀ {x}, x ∈ near → found' x = found x := fun hx => if_pos hx
  have hfound' : ∀ {x}, x ∉ near → found' x = bound := fun hx => if_neg hx
  refine ⟨found', bound + 1, fun x hx => ?_, fun x hx => ?_, fun x hx => ?_⟩
  · by_cases hnear : x ∈ near
    · rw [hfound hnear]
      exact (hbound x hnear).trans (Nat.lt_succ_self _)
    · rw [hfound' hnear]
      exact Nat.lt_succ_self _
  · rcases Std.ExtTreeMap.mem_union_iff.mp hx with hx | hx
    · rw [Std.ExtTreeMap.mem_ofList, List.contains_iff_mem] at hx
      exact IdentSet.mem_union.mpr (.inr (IdentSet.mem_ofList.mpr hx))
    · exact IdentSet.mem_union.mpr (.inl (hmem x hx))
  · by_cases hnear : x ∈ near
    · -- found before: its record stays, as the union of maps prefers it
      obtain ⟨d, hd, hdrives⟩ := hdrives x hnear
      refine ⟨d, ?_, hdrives.mono (Set.union_subset_union_right _ ?_) Set.subset_union_right⟩
      · rw [Std.ExtTreeMap.getElem?_union, hd]
        rfl
      · rintro y ⟨hy, hlt, hplant⟩
        refine ⟨IdentSet.mem_union.mpr (.inl hy), ?_, hplant⟩
        rwa [hfound hnear, hfound hy]
    · -- found in this step: its record is the new one
      have hnew := (IdentSet.mem_union.mp hx).resolve_left hnear
      obtain ⟨⟨x, d⟩, hrow, rfl⟩ := List.mem_map.mp (IdentSet.mem_ofList.mp hnew)
      dsimp only at hx hnear hnew ⊢
      refine ⟨d, ?_, (drives_of_disabledToEnter hg (mem_disabledRows.mp hrow).2).mono ?_ ?_⟩
      · rw [Std.ExtTreeMap.getElem?_union,
          Std.ExtTreeMap.getElem?_eq_none fun h => hnear (hmem x h)]
        exact (getElem?_ofList_eq_some nodup_disabledRows).mpr hrow
      · rw [IdentSet.carrier_union, IdentSet.carrier_sdiff]
        refine Set.union_subset_union_right _ ?_
        rintro y ⟨hy, hplant⟩
        refine ⟨IdentSet.mem_union.mpr (.inl hy), ?_, hplant⟩
        rw [hfound hy, hfound' hnear]
        exact hbound y hy
      · rw [IdentSet.carrier_sdiff]
        exact Set.subset_union_right

/-- When the domain has settled, the records of the round are a certificate with one
outer number for all states. The domain is a part of what was found, so whatever
stays in it is not farther away. -/
theorem RoundCertified.certified {target domain near : StateSet} {record : DisableMap}
    (h : RoundCertified g controllable plantMarking target domain near record)
    (hdomain : domain.carrier ⊆ near.carrier) :
    Certified g controllable plantMarking target.carrier near record := by
  obtain ⟨found, bound, hbound, hmem, hdrives⟩ := h
  refine ⟨fun _ => 0, found, 1, fun _ _ => Nat.zero_lt_one, hmem, fun x hx => ?_⟩
  obtain ⟨d, hd, hdrives⟩ := hdrives x hx
  refine ⟨d, hd, hdrives.mono (Set.union_subset_union_right _ ?_) ?_⟩
  · rintro y ⟨hy, hlt, hplant⟩
    exact ⟨hy, .inr ⟨rfl, hlt, hplant⟩⟩
  · rintro y ⟨hy, hplant⟩
    exact .inr ⟨hdomain hy, le_rfl, hplant⟩

/-- Without states the records of a round are a certificate, too. -/
theorem RoundCertified.certified_of_carrier_eq_empty {target domain near : StateSet}
    {record : DisableMap} (h : RoundCertified g controllable plantMarking target domain near record)
    (hempty : near.carrier = ∅) :
    Certified g controllable plantMarking target.carrier near record := by
  obtain ⟨found, bound, hbound, hmem, -⟩ := h
  refine ⟨found, found, bound, hbound, hmem, fun x hx => ?_⟩
  exact absurd (hempty ▸ hx : x ∈ (∅ : Set StateId)) (Set.notMem_empty x)

/-! ## What the loops record

Now the loops are followed from the inside to the outside, each by the lemma that
says what it does to the records of any rule. A round or a level that was done in
vain is forgotten when the next one begins; so only the last one counts, which was
done for the sets that have settled. -/

namespace Rule

variable (controllable : EventSet) (plantMarking resolved target domain : StateSet)
  (hg : g.HasUniqueSuccessors) (s : Records DisableMap)
include hg

/-- The innermost loop records a round and leaves the other records alone. -/
theorem feedback_attract (hround : s.round = ∅) :
    let out := ((feedback g controllable).attract g plantMarking target domain).outcome s
    out.2.level = s.level ∧ out.2.total = s.total ∧
      RoundCertified g controllable plantMarking target domain out.1 out.2.round := by
  refine (attract_spec feedback_resolves (I := fun near s' => s'.level = s.level ∧
    s'.total = s.total ∧ RoundCertified g controllable plantMarking target domain near s'.round)
    ?_ ⟨rfl, rfl, ?_⟩).2
  · rintro near s' ⟨hlevel, htotal, hcert⟩
    rw [feedback_resolve]
    exact ⟨hlevel, htotal, hcert.step hg⟩
  · rw [hround]
    exact ⟨fun _ => 0, 0, fun _ hx => absurd hx IdentSet.not_mem_empty,
      fun _ hx => absurd hx Std.ExtTreeMap.not_mem_empty,
      fun _ hx => absurd hx IdentSet.not_mem_empty⟩

/-- The fourth loop adds the records of its last round to those of the level. That
round was done in the domain that is returned, so its records are a certificate for
it. -/
theorem feedback_stay :
    let out := ((feedback g controllable).stay g plantMarking resolved target).outcome s
    ∃ round, out.2.level = round ∪ s.level ∧ out.2.total = s.total ∧
      Certified g controllable plantMarking target.carrier out.1 round := by
  intro out
  have hstep : ∀ (domain : StateSet) (s' : Records DisableMap),
      s'.level = s.level ∧ s'.total = s.total →
      let inner := ((feedback g controllable).attract g plantMarking target domain).outcome
        ((feedback g controllable).beginRound s')
      (inner.2.level = s.level ∧ inner.2.total = s.total) ∧
        RoundCertified g controllable plantMarking target domain inner.1 inner.2.round := by
    rintro domain s' ⟨hlevel, htotal⟩
    obtain ⟨hlevel', htotal', hcert⟩ := feedback_attract controllable plantMarking target domain
      hg ((feedback g controllable).beginRound s') rfl
    exact ⟨⟨hlevel'.trans hlevel, htotal'.trans htotal⟩, hcert⟩
  obtain ⟨-, domain, s', hout, ⟨hlevel, htotal⟩, hcert, hlast⟩ := stay_spec feedback_resolves
    (K := fun domain near s' =>
      RoundCertified g controllable plantMarking target domain near s'.round) hstep ⟨rfl, rfl⟩
  have hout : out.2 = (feedback g controllable).endRound s' := hout
  rw [hout]
  refine ⟨s'.round, congrArg (s'.round ∪ ·) hlevel, htotal, ?_⟩
  rcases hlast with hdomain | hempty
  · exact hcert.certified (hdomain ▸ subset_rfl)
  · exact hcert.certified_of_carrier_eq_empty hempty

/-- The third loop records a level and leaves the total alone. Each domain aims at
the target and at the domains before it, so their certificates can be merged. -/
theorem feedback_approach (hlevel : s.level = ∅) :
    let out := ((feedback g controllable).approach g plantMarking resolved target).outcome s
    out.2.total = s.total ∧
      Certified g controllable plantMarking target.carrier out.1 out.2.level := by
  refine (approach_spec feedback_resolves (I := fun near s' => s'.total = s.total ∧
    Certified g controllable plantMarking target.carrier near s'.level) ?_ ⟨rfl, ?_⟩).2
  · rintro near s' ⟨htotal, hcert⟩
    obtain ⟨round, hlevel', htotal', hcert'⟩ :=
      feedback_stay controllable plantMarking resolved (target ∪ near) hg s'
    rw [IdentSet.carrier_union] at hcert'
    rw [hlevel']
    exact ⟨htotal'.trans htotal, hcert.union hcert' subset_rfl subset_rfl⟩
  · rw [hlevel]
    exact Certified.empty

/-- The second loop adds the records of its last level to the total. That level was
done for the states that are returned, so it aims at their marked states. -/
theorem feedback_recur :
    let out := ((feedback g controllable).recur g plantMarking resolved).outcome s
    ∃ level, out.2.total = level ∪ s.total ∧ Certified g controllable plantMarking
      ((out.1.carrier ∩ g.marked.carrier) ∪ resolved.carrier) out.1 level := by
  intro out
  have hstep : ∀ (states : StateSet) (s' : Records DisableMap), s'.total = s.total →
      let inner := ((feedback g controllable).approach g plantMarking resolved
        ((states ∩ g.marked) ∪ resolved)).outcome ((feedback g controllable).beginLevel s')
      inner.2.total = s.total ∧ Certified g controllable plantMarking
        ((states.carrier ∩ g.marked.carrier) ∪ resolved.carrier) inner.1 inner.2.level := by
    rintro states s' htotal
    obtain ⟨htotal', hcert⟩ := feedback_approach controllable plantMarking resolved
      ((states ∩ g.marked) ∪ resolved) hg ((feedback g controllable).beginLevel s') rfl
    rw [IdentSet.carrier_union, IdentSet.carrier_inter] at hcert
    exact ⟨htotal'.trans htotal, hcert⟩
  obtain ⟨-, states, s', hout, htotal, hcert, hlast⟩ := recur_spec feedback_resolves
    (K := fun states near s' => Certified g controllable plantMarking
      ((states.carrier ∩ g.marked.carrier) ∪ resolved.carrier) near s'.level) hstep rfl
  have hout : out.2 = (feedback g controllable).endLevel s' := hout
  rw [hout]
  refine ⟨s'.level, congrArg (s'.level ∪ ·) htotal, ?_⟩
  rcases hlast with rfl | hempty
  · exact hcert
  · exact hcert.of_carrier_eq_empty hempty

/-- **The records fit together**: what is recorded in the end drives every
enforceable state to a marked one. The certificates of the second loop start from
the states resolved before, and are merged by the outermost loop. -/
theorem feedback_certified :
    let out := ((feedback g controllable).enforceable g plantMarking).value
    Certified g controllable plantMarking (out.1.carrier ∩ g.marked.carrier) out.1
      out.2.total := by
  refine (enforceable_spec feedback_resolves (I := fun resolved s => Certified g controllable
    plantMarking (resolved.carrier ∩ g.marked.carrier) resolved s.total) ?_ ?_).2
  · intro resolved s hcert
    obtain ⟨level, htotal, hcert'⟩ := feedback_recur controllable plantMarking resolved hg s
    rw [htotal, IdentSet.carrier_union]
    refine hcert.union hcert' (Set.inter_subset_inter_left _ Set.subset_union_left) ?_
    exact Set.union_subset_union_left _ (Set.inter_subset_inter_left _ Set.subset_union_right)
  · exact Certified.empty

end Rule

end OmegaControl
