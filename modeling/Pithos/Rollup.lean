import Pithos.Node

/-!
# The statistics rollups

The statistics row of `(N, cluster)` is meant to hold, as `size`, the total size of the
versions in the cluster at the strict descendants of `N`, and, as `population`, the number
of those at the children of `N`. Both are stated here over a whole store. Two purges break
them: `node_purge` deletes a node without versions together with its subtree and all of
the subtree's versions, with no statistics update, and `node_purge_children` passes its
population delta up to the grandparent.
-/
namespace Pithos

namespace Store

/-- The ids reached from `node` by following parent links one to `fuel` times;
`ROOTNODE`'s link to itself is not followed. -/
def ancestorsWithin (s : Store) : ℕ → ℤ → List ℤ
  | 0, _ => []
  | fuel + 1, node =>
    if node = 0 then []
    else match s.nodeGetProperties node with
      | none => []
      | some (parent, _) => parent :: s.ancestorsWithin fuel parent

/-- The strict ancestors of `node`. A chain meets at most `nodes.length` distinct ids,
so following that many links reaches them all. -/
def strictAncestors (s : Store) (node : ℤ) : List ℤ := s.ancestorsWithin s.nodes.length node

/-- The `size` of the statistics row of `(node, cluster)`, `0` when there is none. -/
def statSize (s : Store) (node cluster : ℤ) : ℤ :=
  ((s.statisticsGet node cluster).map StatisticsRow.size).getD 0

/-- The `population` of the statistics row of `(node, cluster)`, `0` when there is none. -/
def statPopulation (s : Store) (node cluster : ℤ) : ℤ :=
  ((s.statisticsGet node cluster).map StatisticsRow.population).getD 0

/-- Every node's `size` is the total size of the versions of the cluster at its strict
descendants. -/
def SizeRollup (s : Store) : Prop :=
  ∀ r ∈ s.nodes, ∀ cluster, s.statSize r.node cluster =
    ((s.versions.filter fun v => v.cluster = cluster ∧ r.node ∈ s.strictAncestors v.node).map
      VersionRow.size).sum

/-- Every node's `population` is the number of versions of the cluster at its children,
the versions at `ROOTNODE` not counted. -/
def PopulationRollup (s : Store) : Prop :=
  ∀ r ∈ s.nodes, ∀ cluster, s.statPopulation r.node cluster =
    (s.versions.filter fun v => v.cluster = cluster ∧ v.node ≠ 0 ∧
      (s.nodeGetProperties v.node).map Prod.fst = some r.node).length

end Store

/-- Node `a` with a version of size 1 and its child `a/b` with one of size 5: `node_purge`
of `a` deletes `a` once its version is gone, and the cascade deletes `a/b` with its
version, so `ROOTNODE` keeps size 5 over no version at all. -/
theorem nodePurge_cascade_breaks_sizeRollup :
    let ops : List Op := [.nodeCreate 0 [97], .nodeCreate 1 [97, 47, 98],
      .versionCreate 1 "h1" 1 none "u" 0 10, .versionCreate 2 "h2" 5 none "u" 0 11,
      .nodePurge 1 ⊤ 0 12]
    ∃ s, Store.init.run ops = .ok s ∧
      Reachable s ∧ s.versions = [] ∧ s.statSize 0 0 = 5 ∧ ¬ s.SizeRollup := by
  intro ops
  refine ⟨_, rfl, Reachable.init.run ops rfl, rfl, rfl, fun h => ?_⟩
  exact absurd (h ⟨0, 0, []⟩ (by decide) 0) (by decide)

/-- A version at `a/b`, then `node_purge_children` of `a`: `a`'s population returns to 0, but
the walk from `a` also takes 1 off the population of `ROOTNODE`, which counted only `a`. -/
theorem nodePurgeChildren_breaks_populationRollup :
    let ops : List Op := [.nodeCreate 0 [97], .nodeCreate 1 [97, 47, 98],
      .versionCreate 2 "h" 4 none "u" 0 10, .nodePurgeChildren 1 ⊤ 0 11]
    ∃ s, Store.init.run ops = .ok s ∧
      Reachable s ∧ s.versions = [] ∧ s.statPopulation 0 0 = -1 ∧ ¬ s.PopulationRollup := by
  intro ops
  refine ⟨_, rfl, Reachable.init.run ops rfl, rfl, rfl, fun h => ?_⟩
  exact absurd (h ⟨0, 0, []⟩ (by decide) 0) (by decide)

end Pithos
