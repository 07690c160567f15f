import Pithos.Schema

/-!
# `on delete cascade`

A delete from `nodes` also removes, through the foreign key on `parent`, every node whose
parent it removes. `cascade` runs `nodes.length` rounds of adding children. A round that
adds nothing has reached a set that holds the children of its members; a round that adds
something takes in one more row of `nodes`; so the rounds always reach such a set.
-/
namespace Pithos

namespace Store

/-- A set of ids that holds every child of its members. -/
def ChildClosed (nodes : List NodeRow) (ids : List ℤ) : Prop :=
  ∀ r ∈ nodes, r.parent ∈ ids → r.node ∈ ids

/-- The number of rows of `nodes` whose id is not in `ids`. -/
def outside (nodes : List NodeRow) (ids : List ℤ) : ℕ :=
  (nodes.filter fun r => r.node ∉ ids).length

theorem subset_cascadeStep (nodes : List NodeRow) (ids : List ℤ) :
    ids ⊆ cascadeStep nodes ids :=
  List.subset_append_left _ _

theorem cascadeStep_of_closed {nodes : List NodeRow} {ids : List ℤ}
    (h : ChildClosed nodes ids) : cascadeStep nodes ids = ids := by
  simp only [cascadeStep, List.append_right_eq_self, List.map_eq_nil_iff, List.filter_eq_nil_iff,
    decide_eq_true_eq, not_and, not_not]
  exact h

/-- A round either finds the set closed or takes in a row of `nodes`. -/
theorem closed_or_outside_lt (nodes : List NodeRow) (ids : List ℤ) :
    ChildClosed nodes ids ∨ outside nodes (cascadeStep nodes ids) < outside nodes ids := by
  by_cases h : ChildClosed nodes ids
  · exact .inl h
  · obtain ⟨r, hr, hp, hn⟩ : ∃ r ∈ nodes, r.parent ∈ ids ∧ r.node ∉ ids := by
      simpa [ChildClosed] using h
    have hin : r.node ∈ cascadeStep nodes ids :=
      List.mem_append_right _ (List.mem_map_of_mem _ (List.mem_filter.2 ⟨hr, by simp [hp, hn]⟩))
    have hsub : (nodes.filter fun x => x.node ∉ cascadeStep nodes ids).Sublist
        (nodes.filter fun x => x.node ∉ ids) :=
      List.monotone_filter_right _ fun x hx => by
        simp only [decide_eq_true_eq] at hx ⊢
        exact fun h => hx (subset_cascadeStep _ _ h)
    refine .inr (lt_of_le_of_ne hsub.length_le fun heq => ?_)
    have hmem : r ∈ nodes.filter fun x => x.node ∉ ids := List.mem_filter.2 ⟨hr, by simpa using hn⟩
    rw [← hsub.eq_of_length heq, List.mem_filter] at hmem
    simp [hin] at hmem

theorem iterate_closed_or_outside_le (nodes : List NodeRow) (ids : List ℤ) : ∀ k,
    ChildClosed nodes ((cascadeStep nodes)^[k] ids) ∨
      outside nodes ((cascadeStep nodes)^[k] ids) + k ≤ outside nodes ids
  | 0 => .inr le_rfl
  | k + 1 => by
    rw [Function.iterate_succ_apply']
    rcases iterate_closed_or_outside_le nodes ids k with h | h
    · exact .inl ((cascadeStep_of_closed h).symm ▸ h)
    · rcases closed_or_outside_lt nodes ((cascadeStep nodes)^[k] ids) with h' | h'
      · exact .inl ((cascadeStep_of_closed h').symm ▸ h')
      · exact .inr (by omega)

/-- The cascade holds the children of everything it deletes. -/
theorem cascade_closed (nodes : List NodeRow) (ids : List ℤ) :
    ChildClosed nodes (cascade nodes ids) := by
  rcases iterate_closed_or_outside_le nodes ids nodes.length with h | h
  · exact h
  · have hle : outside nodes ids ≤ nodes.length := List.length_filter_le _ _
    have h0 : outside nodes (cascade nodes ids) = 0 := by unfold cascade; omega
    intro r hr _
    by_contra hn
    have : r ∈ nodes.filter fun x => x.node ∉ cascade nodes ids :=
      List.mem_filter.2 ⟨hr, by simpa using hn⟩
    rw [List.eq_nil_of_length_eq_zero h0] at this
    cases this

theorem subset_cascade (nodes : List NodeRow) (ids : List ℤ) : ids ⊆ cascade nodes ids := by
  unfold cascade
  induction nodes.length with
  | zero => exact List.Subset.refl _
  | succ k ih =>
    rw [Function.iterate_succ_apply']
    exact ih.trans (subset_cascadeStep _ _)

/-- A set that already holds its members' children is deleted as it is. -/
theorem cascade_of_closed {nodes : List NodeRow} {ids : List ℤ} (h : ChildClosed nodes ids) :
    cascade nodes ids = ids :=
  Function.iterate_fixed (cascadeStep_of_closed h) _

theorem cascade_nil (nodes : List NodeRow) : cascade nodes [] = [] :=
  cascade_of_closed fun _ _ h => absurd h (List.not_mem_nil _)

end Store

end Pithos
