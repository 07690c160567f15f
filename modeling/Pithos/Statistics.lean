import Pithos.Schema

/-!
# Statistics and the ancestor walk

`statistics_update` adds deltas to one `(node, cluster)` row. `statistics_update_ancestors`
walks the parent links from a node, updating each parent it meets, with the population
delta only at the first hop. The Python loop is unbounded; the model runs it with fuel, and
`ancestorChain` names the parents it visits, so that
`statisticsUpdateAncestorsFuel_of_chain` reduces a walk to one fold over that chain.

Totals are unbounded integers here. SQLite's `INTEGER` is 64 bits wide, and the driver
raises `OverflowError` when it binds a larger value; `FitsInt64` names the range, and a
result that holds only inside it takes it as a hypothesis.
-/
namespace Pithos

namespace Store

/-- `insert or replace` of a statistics row: a row with its `(node, cluster)` key goes. -/
def upsertStatistics (rows : List StatisticsRow) (r : StatisticsRow) : List StatisticsRow :=
  rows.filter (fun x => !(x.node = r.node ∧ x.cluster = r.cluster)) ++ [r]

theorem nodup_upsertStatistics {rows : List StatisticsRow}
    (h : (rows.map fun x => (x.node, x.cluster)).Nodup) (r : StatisticsRow) :
    ((upsertStatistics rows r).map fun x => (x.node, x.cluster)).Nodup :=
  nodup_map_replace h fun x hx he => by
    simp only [Prod.mk.injEq] at he
    simp [he] at hx

/-- `statistics_update`: add the deltas to the row of `(node, cluster)`, read as `(0, 0)`
when absent. The insert needs `node` in `nodes`. -/
def statisticsUpdate (s : Store) (node population size : ℤ) (mtime : ℕ) (cluster : ℤ) :
    Except Fault Store :=
  if s.hasNode node then
    let pre := match s.statisticsGet node cluster with
      | none => ((0 : ℤ), (0 : ℤ))
      | some r => (r.population, r.size)
    let row : StatisticsRow := ⟨node, population + pre.1, size + pre.2, mtime, cluster⟩
    .ok { s with
      statistics := upsertStatistics s.statistics row
      statistics_key := nodup_upsertStatistics s.statistics_key row }
  else .error .constraint

/-- A value the driver binds as an `INTEGER` without `OverflowError`. -/
def FitsInt64 (z : ℤ) : Prop := -2 ^ 63 ≤ z ∧ z < 2 ^ 63

instance : DecidablePred FitsInt64 := fun _ => inferInstanceAs (Decidable (_ ∧ _))

/-- `statistics_update_ancestors` with `fuel` rounds of its `while True` loop. -/
def statisticsUpdateAncestorsFuel :
    ℕ → Store → ℤ → ℤ → ℤ → ℕ → ℤ → Except Fault Store
  | 0, _, _, _, _, _, _ => .error .diverges
  | fuel + 1, s, node, population, size, mtime, cluster =>
    if node = 0 then .ok s
    else match s.nodeGetProperties node with
      | none => .ok s
      | some (parent, _) => do
        let s' ← s.statisticsUpdate parent population size mtime cluster
        statisticsUpdateAncestorsFuel fuel s' parent 0 size mtime cluster

/-- `statistics_update_ancestors`. A walk that meets no node twice stops within
`nodes.length + 1` rounds, and the nodes table does not change on the way. -/
def statisticsUpdateAncestors (s : Store) (node population size : ℤ) (mtime : ℕ)
    (cluster : ℤ) : Except Fault Store :=
  statisticsUpdateAncestorsFuel (s.nodes.length + 1) s node population size mtime cluster

/-- The parents the walk from `node` updates, in order; `none` when `fuel` runs out. -/
def ancestorChain (s : Store) : ℕ → ℤ → Option (List ℤ)
  | 0, _ => none
  | fuel + 1, node =>
    if node = 0 then some []
    else match s.nodeGetProperties node with
      | none => some []
      | some (parent, _) => (s.ancestorChain fuel parent).map (parent :: ·)

/-- The updates of a walk along a known chain: the population delta at the first id only. -/
def updateAlong (population size : ℤ) (mtime : ℕ) (cluster : ℤ) :
    List ℤ → Store → Except Fault Store
  | [], s => .ok s
  | p :: ps, s => do
    let s' ← s.statisticsUpdate p population size mtime cluster
    updateAlong 0 size mtime cluster ps s'

theorem statisticsUpdate_nodes {s s' : Store} {node population size : ℤ} {mtime : ℕ}
    {cluster : ℤ} (h : s.statisticsUpdate node population size mtime cluster = .ok s') :
    s'.nodes = s.nodes := by
  unfold statisticsUpdate at h
  split at h
  · cases h; rfl
  · cases h

theorem statisticsUpdate_versions {s s' : Store} {node population size : ℤ} {mtime : ℕ}
    {cluster : ℤ} (h : s.statisticsUpdate node population size mtime cluster = .ok s') :
    s'.versions = s.versions := by
  unfold statisticsUpdate at h
  split at h
  · cases h; rfl
  · cases h

theorem statisticsUpdate_attributes {s s' : Store} {node population size : ℤ} {mtime : ℕ}
    {cluster : ℤ} (h : s.statisticsUpdate node population size mtime cluster = .ok s') :
    s'.attributes = s.attributes ∧ s'.policy = s.policy := by
  unfold statisticsUpdate at h
  split at h
  · cases h; exact ⟨rfl, rfl⟩
  · cases h

/-- One round of the walk: it stops at `ROOTNODE` or at an id with no row, or updates the
parent and goes on from it with no population delta. -/
theorem statisticsUpdateAncestorsFuel_succ_eq_ok {fuel : ℕ} {s s' : Store}
    {node population size : ℤ} {mtime : ℕ} {cluster : ℤ}
    (h : statisticsUpdateAncestorsFuel (fuel + 1) s node population size mtime cluster =
      .ok s') :
    (node = 0 ∧ s' = s) ∨ (node ≠ 0 ∧ s.nodeGetProperties node = none ∧ s' = s) ∨
      ∃ parent path t, node ≠ 0 ∧ s.nodeGetProperties node = some (parent, path) ∧
        s.statisticsUpdate parent population size mtime cluster = .ok t ∧
        statisticsUpdateAncestorsFuel fuel t parent 0 size mtime cluster = .ok s' := by
  simp only [statisticsUpdateAncestorsFuel] at h
  split_ifs at h with h0
  · cases h; exact .inl ⟨h0, rfl⟩
  · split at h
    · rename_i hp
      cases h
      exact .inr (.inl ⟨h0, hp, rfl⟩)
    · rename_i parent path hp
      cases hu : s.statisticsUpdate parent population size mtime cluster with
      | error e => simp [hu, bind, Except.bind] at h
      | ok t =>
        simp only [hu, bind, Except.bind] at h
        exact .inr (.inr ⟨parent, path, t, h0, hp, hu, h⟩)

theorem nodeGetProperties_congr {s s' : Store} (h : s'.nodes = s.nodes) (node : ℤ) :
    s'.nodeGetProperties node = s.nodeGetProperties node := by
  simp [nodeGetProperties, h]

theorem ancestorChain_congr {s s' : Store} (h : s'.nodes = s.nodes) (fuel : ℕ) (node : ℤ) :
    s'.ancestorChain fuel node = s.ancestorChain fuel node := by
  induction fuel generalizing node with
  | zero => rfl
  | succ fuel ih => simp only [ancestorChain, nodeGetProperties_congr h, ih]

/-- A walk whose chain is known is `updateAlong` that chain. -/
theorem statisticsUpdateAncestorsFuel_of_chain {fuel : ℕ} {s : Store} {node : ℤ}
    {chain : List ℤ} (h : s.ancestorChain fuel node = some chain) (population size : ℤ)
    (mtime : ℕ) (cluster : ℤ) :
    statisticsUpdateAncestorsFuel fuel s node population size mtime cluster =
      updateAlong population size mtime cluster chain s := by
  induction fuel generalizing s node population chain with
  | zero => cases h
  | succ fuel ih =>
    simp only [ancestorChain] at h
    simp only [statisticsUpdateAncestorsFuel]
    split_ifs at h ⊢
    · cases h; rfl
    · split at h
      · rename_i hp
        cases h
        simp [hp, updateAlong]
      · rename_i parent path hp
        obtain ⟨ps, hps, rfl⟩ := Option.map_eq_some'.1 h
        simp only [hp, updateAlong]
        rcases hu : s.statisticsUpdate parent population size mtime cluster with f | s'
        · rfl
        · exact ih ((ancestorChain_congr (statisticsUpdate_nodes hu) _ _).trans hps) 0

end Store

end Pithos
