import Pithos.Integrity
import Pithos.Rollup
import Mathlib.Tactic.Ring

/-!
# What one walk adds

`statistics_update` adds its deltas to the row of one `(node, cluster)` key. Along a chain of
distinct ids, the walk of `statistics_update_ancestors` therefore adds the size delta once at
each id and the population delta at the first. In a store that keeps `Store.Wf` the walk's
chain is the list of strict ancestors of `Rollup`, so a walk that succeeds adds the size
delta at each strict ancestor of its node and the population delta at its parent.
-/
namespace Pithos

namespace Store

/-! ## One update and a walk along a chain -/

theorem find?_upsertStatistics (rows : List StatisticsRow) (row : StatisticsRow) (node c : ℤ) :
    (upsertStatistics rows row).find? (fun r => r.node = node ∧ r.cluster = c) =
      if row.node = node ∧ row.cluster = c then some row
      else rows.find? fun r => r.node = node ∧ r.cluster = c := by
  unfold upsertStatistics
  rw [List.find?_append, List.find?_filter]
  split_ifs with h
  · obtain ⟨rfl, rfl⟩ := h
    rw [List.find?_eq_none.2 fun x _ => by simp; tauto]
    simp
  · have hrow : [row].find? (fun r => r.node = node ∧ r.cluster = c) = none := by simpa using h
    rw [hrow, Option.or_none]
    congr 1
    funext x
    by_cases hx : x.node = node ∧ x.cluster = c
    · obtain ⟨rfl, rfl⟩ := hx
      have hne : ¬(x.node = row.node ∧ x.cluster = row.cluster) :=
        fun h' => h ⟨h'.1.symm, h'.2.symm⟩
      simp [hne]
    · simp [hx]

section Update

variable {s s' : Store} {node population size : ℤ} {mtime : ℕ} {cluster : ℤ}

theorem statSize_statisticsUpdate
    (h : s.statisticsUpdate node population size mtime cluster = .ok s') (y c : ℤ) :
    s'.statSize y c = s.statSize y c + if node = y ∧ cluster = c then size else 0 := by
  unfold statisticsUpdate at h
  split_ifs at h
  cases h
  simp only [statSize, statisticsGet, find?_upsertStatistics]
  split_ifs with hk
  · obtain ⟨rfl, rfl⟩ := hk
    cases s.statistics.find? (fun r => r.node = node ∧ r.cluster = cluster) <;> simp [add_comm]
  · simp

theorem statPopulation_statisticsUpdate
    (h : s.statisticsUpdate node population size mtime cluster = .ok s') (y c : ℤ) :
    s'.statPopulation y c =
      s.statPopulation y c + if node = y ∧ cluster = c then population else 0 := by
  unfold statisticsUpdate at h
  split_ifs at h
  cases h
  simp only [statPopulation, statisticsGet, find?_upsertStatistics]
  split_ifs with hk
  · obtain ⟨rfl, rfl⟩ := hk
    cases s.statistics.find? (fun r => r.node = node ∧ r.cluster = cluster) <;> simp [add_comm]
  · simp

end Update

/-- Along a chain of nodes, the updates succeed; each id of the chain gets the size delta
once for each time it occurs, and the first the population delta. -/
theorem updateAlong_spec (size : ℤ) (mtime : ℕ) (cluster : ℤ) :
    ∀ (ch : List ℤ) (population : ℤ) (s : Store), (∀ p ∈ ch, s.hasNode p) →
      ∃ s', updateAlong population size mtime cluster ch s = .ok s' ∧ StatsStep s s' ∧
        ∀ y c, s'.statSize y c =
            s.statSize y c + (if cluster = c then (ch.count y : ℤ) * size else 0) ∧
          s'.statPopulation y c =
            s.statPopulation y c + if cluster = c ∧ ch.head? = some y then population else 0
  | [], _, s, _ => ⟨s, rfl, StatsStep.refl s, fun y c => by simp⟩
  | p :: ps, population, s, hk => by
    obtain ⟨t, ht⟩ := statisticsUpdate_of_hasNode (hk p (List.mem_cons_self _ _))
      population size mtime cluster
    have hst := statisticsUpdate_statsStep ht
    obtain ⟨s', hs', hstep, hfx⟩ := updateAlong_spec size mtime cluster ps 0 t
      (fun q hq => by simpa [hasNode, hst.nodes] using hk q (List.mem_cons_of_mem _ hq))
    refine ⟨s', by simp [updateAlong, ht, hs', bind, Except.bind], hst.trans hstep,
      fun y c => ⟨?_, ?_⟩⟩
    · rw [(hfx y c).1, statSize_statisticsUpdate ht, List.count_cons]
      by_cases hc : cluster = c
      · by_cases hy : p = y
        · simp only [hc, hy, and_self, if_true, beq_self_eq_true, Nat.cast_add, Nat.cast_one]
          ring
        · simp [hc, hy]
      · simp [hc]
    · rw [(hfx y c).2, statPopulation_statisticsUpdate ht]
      by_cases hc : cluster = c <;> by_cases hy : p = y <;> simp [hc, hy]

/-! ## The walk in a store that keeps the invariant -/

theorem ancestorsWithin_congr {s s' : Store} (h : s'.nodes = s.nodes) :
    ∀ (fuel : ℕ) (node : ℤ), s'.ancestorsWithin fuel node = s.ancestorsWithin fuel node
  | 0, _ => rfl
  | fuel + 1, node => by
    simp only [ancestorsWithin, nodeGetProperties_congr h, ancestorsWithin_congr h fuel]

theorem strictAncestors_congr {s s' : Store} (h : s'.nodes = s.nodes) (node : ℤ) :
    s'.strictAncestors node = s.strictAncestors node := by
  simp only [strictAncestors, h, ancestorsWithin_congr h]

theorem statSize_congr {s s' : Store} (h : s'.statistics = s.statistics) (node c : ℤ) :
    s'.statSize node c = s.statSize node c := by
  simp [statSize, statisticsGet, h]

theorem statPopulation_congr {s s' : Store} (h : s'.statistics = s.statistics) (node c : ℤ) :
    s'.statPopulation node c = s.statPopulation node c := by
  simp [statPopulation, statisticsGet, h]

theorem ancestorsWithin_of_ancestorChain {s : Store} :
    ∀ {fuel : ℕ} {node : ℤ} {ch : List ℤ}, s.ancestorChain (fuel + 1) node = some ch →
      s.ancestorsWithin fuel node = ch
  | fuel, node, ch, h => by
    simp only [ancestorChain] at h
    split_ifs at h with h0
    · cases h; cases fuel <;> simp [ancestorsWithin, h0]
    · cases hp : s.nodeGetProperties node with
      | none => simp only [hp] at h; cases h; cases fuel <;> simp [ancestorsWithin, hp]
      | some pp =>
        simp only [hp] at h
        obtain ⟨ps, hps, rfl⟩ := Option.map_eq_some'.1 h
        cases fuel with
        | zero => cases hps
        | succ fuel =>
          simp [ancestorsWithin, h0, hp, ancestorsWithin_of_ancestorChain hps]

/-- In a store that keeps the invariant, the strict ancestors of a node whose chain ends
are that chain. -/
theorem strictAncestors_eq {s : Store} (hw : s.Wf) {fuel : ℕ} {node : ℤ} {ch : List ℤ}
    (h : s.ancestorChain fuel node = some ch) : s.strictAncestors node = ch :=
  ancestorsWithin_of_ancestorChain (ancestorChain_enough_fuel hw.parent_le hw.parent_key h)

theorem head?_ancestorChain {s : Store} {fuel : ℕ} {node : ℤ} {ch : List ℤ}
    (h : s.ancestorChain fuel node = some ch) :
    ch.head? = if node = 0 then none else (s.nodeGetProperties node).map Prod.fst := by
  cases fuel with
  | zero => cases h
  | succ fuel =>
    simp only [ancestorChain] at h
    split_ifs at h with h0
    · cases h; simp [h0]
    · cases hp : s.nodeGetProperties node with
      | none => simp only [hp] at h; cases h; simp [h0]
      | some pp =>
        simp only [hp] at h
        obtain ⟨ps, -, rfl⟩ := Option.map_eq_some'.1 h
        simp [h0]

theorem Wf.hasNode_of_mem_ancestorChain {s : Store} (hw : s.Wf) {fuel : ℕ} {node p : ℤ}
    {ch : List ℤ} (h : s.ancestorChain fuel node = some ch) (hp : p ∈ ch) : s.hasNode p := by
  obtain ⟨y, path, -, hy⟩ := parent_of_mem_ancestorChain h hp
  exact hw.parent_key _ (mem_of_nodeGetProperties hy)

/-- A walk that succeeds in a store that keeps the invariant adds the size delta at each
strict ancestor of its node, once, and the population delta at the parent only. -/
theorem statisticsUpdateAncestors_spec {s s' : Store} (hw : s.Wf) {node population size : ℤ}
    {mtime : ℕ} {cluster : ℤ}
    (h : s.statisticsUpdateAncestors node population size mtime cluster = .ok s') (y c : ℤ) :
    s'.statSize y c =
        s.statSize y c + (if cluster = c ∧ y ∈ s.strictAncestors node then size else 0) ∧
      s'.statPopulation y c = s.statPopulation y c +
        if cluster = c ∧ node ≠ 0 ∧ (s.nodeGetProperties node).map Prod.fst = some y then
          population else 0 := by
  obtain ⟨ch, hch⟩ := ancestorChain_of_walk h
  obtain ⟨s'', hs'', -, hfx⟩ :=
    updateAlong_spec size mtime cluster ch population s fun _ => hw.hasNode_of_mem_ancestorChain hch
  rw [statisticsUpdateAncestors, statisticsUpdateAncestorsFuel_of_chain hch, hs''] at h
  cases h
  have hnd := (nodup_ancestorChain hw.parent_le hch).of_cons
  rw [(hfx y c).1, (hfx y c).2, strictAncestors_eq hw hch, head?_ancestorChain hch]
  constructor
  · by_cases hy : y ∈ ch
    · simp [hy, List.count_eq_one_of_mem hnd hy]
    · simp [hy, List.count_eq_zero_of_not_mem hy]
  · by_cases h0 : node = 0
    · simp [h0]
    · rw [if_neg h0]
      congr 1
      exact if_congr ⟨fun h => ⟨h.1, h0, h.2⟩, fun h => ⟨h.1, h.2.2⟩⟩ rfl rfl

/-! ## When the walk ends -/

/-- From any id, in a store that keeps the invariant, the parent links reach the end of a
chain, or a node other than `ROOTNODE` that is its own parent: every other link goes down. -/
theorem Wf.chain_or_self_parent {s : Store} (hw : s.Wf) (node : ℤ) :
    (∃ fuel ch, s.ancestorChain fuel node = some ch) ∨
      ∃ m path, m ≠ 0 ∧ s.nodeGetProperties m = some (m, path) ∧
        (m = node ∨ ∃ fuel, m ∈ s.ancestorsWithin fuel node) := by
  induction' hn : node.toNat using Nat.strong_induction_on with n ih generalizing node
  by_cases h0 : node = 0
  · exact .inl ⟨1, [], by simp [ancestorChain, h0]⟩
  cases hp : s.nodeGetProperties node with
  | none => exact .inl ⟨1, [], by simp [ancestorChain, h0, hp]⟩
  | some pp =>
    obtain ⟨p, path⟩ := pp
    have hmem := mem_of_nodeGetProperties hp
    rcases (hw.parent_le _ hmem).lt_or_eq with hlt | heq
    · obtain ⟨r, hr, hrp⟩ : ∃ r ∈ s.nodes, r.node = p := by
        simpa [hasNode] using hw.parent_key _ hmem
      have hp0 : 0 ≤ p := hrp ▸ hw.node_nonneg r hr
      have hn0 : 0 ≤ node := hw.node_nonneg _ hmem
      rcases ih p.toNat (by simp at hlt; omega) p rfl with ⟨fuel, ch, hch⟩ | ⟨m, path', hm0, hm, hr⟩
      · exact .inl ⟨fuel + 1, p :: ch, by simp [ancestorChain, h0, hp, hch]⟩
      · refine .inr ⟨m, path', hm0, hm, .inr ?_⟩
        rcases hr with rfl | ⟨fuel, hf⟩
        · exact ⟨1, by simp [ancestorsWithin, h0, hp]⟩
        · exact ⟨fuel + 1, by simp [ancestorsWithin, h0, hp, hf]⟩
    · replace heq : p = node := heq
      subst heq
      exact .inr ⟨p, path, h0, hp, .inl rfl⟩

/-- The values `statistics_update(node, population, size, mtime, cluster)` binds in its
`insert or replace`: the id, the two new totals, `mtime` and `cluster`, all within
`INTEGER`. -/
def UpdateFits (s : Store) (node population size : ℤ) (mtime : ℕ) (cluster : ℤ) : Prop :=
  FitsInt64 node ∧ FitsInt64 (s.statPopulation node cluster + population) ∧
    FitsInt64 (s.statSize node cluster + size) ∧ FitsInt64 mtime ∧ FitsInt64 cluster

instance (s : Store) (node population size : ℤ) (mtime : ℕ) (cluster : ℤ) :
    Decidable (s.UpdateFits node population size mtime cluster) :=
  inferInstanceAs (Decidable (_ ∧ _))

/-- In a store that keeps the invariant, `statistics_update_ancestors` from any id ends, and
adds the size delta at each strict ancestor and the population delta at the parent, unless
the parent links from the id reach a node other than `ROOTNODE` that is its own parent. The
model does not bound its totals: the walk ends in the code too when every update it makes
binds values within `INTEGER`. -/
theorem Wf.walk_ends_unless_self_parent {s : Store} (hw : s.Wf) (node population size : ℤ)
    (mtime : ℕ) (cluster : ℤ)
    (_hfit : ∀ y ∈ s.strictAncestors node, s.UpdateFits y
      (if (s.nodeGetProperties node).map Prod.fst = some y then population else 0) size mtime
      cluster) :
    (∃ s', s.statisticsUpdateAncestors node population size mtime cluster = .ok s' ∧
      ∀ y c, s'.statSize y c =
          s.statSize y c + (if cluster = c ∧ y ∈ s.strictAncestors node then size else 0) ∧
        s'.statPopulation y c = s.statPopulation y c +
          if cluster = c ∧ node ≠ 0 ∧ (s.nodeGetProperties node).map Prod.fst = some y then
            population else 0) ∨
      ∃ m path, m ≠ 0 ∧ s.nodeGetProperties m = some (m, path) ∧
        (m = node ∨ ∃ fuel, m ∈ s.ancestorsWithin fuel node) := by
  rcases hw.chain_or_self_parent node with ⟨fuel, ch, hch⟩ | hloop
  · have hch' := ancestorChain_enough_fuel hw.parent_le hw.parent_key hch
    obtain ⟨s', hs', -⟩ := updateAlong_spec size mtime cluster ch population s
      fun _ => hw.hasNode_of_mem_ancestorChain hch
    have hok : s.statisticsUpdateAncestors node population size mtime cluster = .ok s' := by
      rw [statisticsUpdateAncestors, statisticsUpdateAncestorsFuel_of_chain hch', hs']
    exact .inl ⟨s', hok, statisticsUpdateAncestors_spec hw hok⟩
  · exact .inr hloop

end Store

/-- The walk from a child of `ROOTNODE` with a version of size 5 ends: node `1` is no
self-parent, and its one update, at `ROOTNODE`, fits. -/
theorem walk_ends_unless_self_parent_child :
    ∃ s, Store.init.apply (.nodeCreate 0 [97]) = .ok s ∧ s.Wf ∧
      (∀ y ∈ s.strictAncestors 1, s.UpdateFits y
        (if (s.nodeGetProperties 1).map Prod.fst = some y then 1 else 0) 5 10 0) ∧
      ∃ s', s.statisticsUpdateAncestors 1 1 5 10 0 = .ok s' ∧
        ∀ y c, s'.statSize y c =
            s.statSize y c + (if 0 = c ∧ y ∈ s.strictAncestors 1 then 5 else 0) ∧
          s'.statPopulation y c = s.statPopulation y c +
            if 0 = c ∧ (1 : ℤ) ≠ 0 ∧ (s.nodeGetProperties 1).map Prod.fst = some y then 1
            else 0 := by
  obtain ⟨s, hs, hfit, hself⟩ : ∃ s, Store.init.apply (.nodeCreate 0 [97]) = .ok s ∧
      (∀ y ∈ s.strictAncestors 1, s.UpdateFits y
        (if (s.nodeGetProperties 1).map Prod.fst = some y then 1 else 0) 5 10 0) ∧
      ∀ n ∈ s.nodes, n.parent = n.node → n.node = 0 := ⟨_, rfl, by decide, by decide⟩
  have hw := Store.wf_init.apply hs
  refine ⟨s, hs, hw, hfit, ?_⟩
  rcases hw.walk_ends_unless_self_parent 1 1 5 10 0 hfit with h | ⟨m, path, hm0, hm, -⟩
  · exact h
  · exact absurd (hself _ (Store.mem_of_nodeGetProperties hm) rfl) hm0

end Pithos
