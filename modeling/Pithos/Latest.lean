import Pithos.Bookkeeping

/-!
# `statistics_latest`

`statistics_latest(node, before, except_cluster)` reads the latest version of `node` before
`before` outside the cluster, counts such versions at the children of `node`, and, when
there is one, sums the sizes of those at the nodes whose path matches `path || '%'`, less
the node's own. The stored full paths stand in for the subtree. `escape_like` is not among
the sources, and the pattern is read as "starts with the path". The docstring describes an
aggregate over the subtree; the path match, which also meets a sibling whose name extends
the node's, and the early return for a count of zero both part from it. Where neither does,
that is where the paths that start with the node's are those of the node and its strict
descendants, and a count of zero leaves no live version below, `statistics_latest` is the
docstring's summary.

`version_lookup` runs the same `max(serial)` subquery and then asks for the cluster, so it
reads the latest version over all clusters, or nothing.
-/
namespace Pithos

namespace Store

/-- The condition the three queries put on a version: the latest of its node before
`before`, outside `exceptCluster`. -/
def latestOutside (s : Store) (before : ℕ∞) (exceptCluster : ℤ) (v : VersionRow) : Bool :=
  some v.serial = s.maxSerialBefore v.node before ∧ v.cluster ≠ exceptCluster

/-- `count(serial), sum(size), max(mtime)` over those versions at the nodes `inNodes` picks,
the maximum taken with `mtime` as Python 2's `max(mtime, None)` leaves `mtime`. -/
def latestAggregate (s : Store) (before : ℕ∞) (exceptCluster : ℤ) (inNodes : ℤ → Bool)
    (mtime : ℕ) : ℕ × ℤ × ℕ :=
  let rows := s.versions.filter fun v =>
    s.latestOutside before exceptCluster v ∧ inNodes v.node
  (rows.length, (rows.map VersionRow.size).sum, rows.foldl (fun m v => max m v.mtime) mtime)

/-- `statistics_latest(node, before, except_cluster)`: `none` for a missing node or when the
node has no latest version outside the cluster. -/
def statisticsLatest (s : Store) (node : ℤ) (before : ℕ∞) (exceptCluster : ℤ) :
    Option (ℕ × ℤ × ℕ) :=
  match s.nodeGetProperties node with
  | none => none
  | some (_, path) =>
    match s.versions.find? fun v =>
        some v.serial = s.maxSerialBefore node before ∧ v.cluster ≠ exceptCluster with
    | none => none
    | some props =>
      let (count, _, mtime) := s.latestAggregate before exceptCluster
        (fun n => n ∈ (s.nodes.filter (·.parent = node)).map NodeRow.node) props.mtime
      if count = 0 then some (0, 0, mtime)
      else
        let (_, total, mtime) := s.latestAggregate before exceptCluster
          (fun n => n ∈ (s.nodes.filter fun m => path <+: m.path).map NodeRow.node) mtime
        some (count, total - props.size, mtime)

/-- What the docstring promises for a node with a latest version outside the cluster: the
number of its children with one, and the total size and the latest mtime of those versions
over its strict descendants, its own mtime counted. -/
def promisedSummary (s : Store) (node : ℤ) (before : ℕ∞) (exceptCluster : ℤ) :
    Option (ℕ × ℤ × ℕ) :=
  let live (n : ℤ) := (s.latestVersion n before).filter (·.cluster ≠ exceptCluster)
  match live node with
  | none => none
  | some own =>
    let children := s.nodes.filter fun c => c.node ≠ 0 ∧ c.parent = node ∧ (live c.node).isSome
    let below := (s.nodes.filter fun d => node ∈ s.strictAncestors d.node).filterMap
      fun d => live d.node
    some (children.length, (below.map VersionRow.size).sum,
      below.foldl (fun m v => max m v.mtime) own.mtime)

end Store

/-- The path a node is meant to have: its bare name under `ROOTNODE`, else its parent's path,
`/` and its name. -/
def joinPath (parent : ℤ) (parentPath name : List ℕ) : List ℕ :=
  if parent = 0 then name else parentPath ++ 47 :: name

/-- Every node but `ROOTNODE` has a parent row and a non-empty name without `/` that makes its
path. The name is a suffix of the path, so only suffixes are tried. -/
def Store.NamesJoined (s : Store) : Prop :=
  ∀ n ∈ s.nodes, n.node ≠ 0 → ∃ p ∈ s.nodes, p.node = n.parent ∧
    ∃ name ∈ n.path.tails, name ≠ [] ∧ 47 ∉ name ∧ n.path = joinPath n.parent p.path name

instance (s : Store) : Decidable s.NamesJoined :=
  inferInstanceAs (Decidable (∀ n ∈ s.nodes, n.node ≠ 0 → ∃ p ∈ s.nodes, p.node = n.parent ∧
    ∃ name ∈ n.path.tails, name ≠ [] ∧ 47 ∉ name ∧ n.path = joinPath n.parent p.path name))

/-- `a` (size 1) with child `a/x` (size 2), its sibling `ab` (size 4), and `b` (size 8) whose
child `b/x` has no version and whose grandchild `b/x/y` has size 16. For `a`, the match on
`a%` also sums `ab`; for `b`, the count of zero at `b/x` returns before `b/x/y` is seen. -/
theorem statisticsLatest_not_subtree_aggregate :
    let ops : List Op := [.nodeCreate 0 [97], .nodeCreate 1 [97, 47, 120],
      .nodeCreate 0 [97, 98], .nodeCreate 0 [98], .nodeCreate 4 [98, 47, 120],
      .nodeCreate 5 [98, 47, 120, 47, 121],
      .versionCreate 1 "h" 1 none "u" 0 10, .versionCreate 2 "h" 2 none "u" 0 11,
      .versionCreate 3 "h" 4 none "u" 0 12, .versionCreate 4 "h" 8 none "u" 0 13,
      .versionCreate 6 "h" 16 none "u" 0 14]
    ∃ s, Store.init.run ops = .ok s ∧ Reachable s ∧ s.NamesJoined ∧
      s.statisticsLatest 1 ⊤ 1 = some (1, 6, 12) ∧ s.promisedSummary 1 ⊤ 1 = some (1, 2, 11) ∧
      s.statisticsLatest 4 ⊤ 1 = some (0, 0, 13) ∧
      s.promisedSummary 4 ⊤ 1 = some (0, 16, 14) := by
  intro ops
  exact ⟨_, rfl, Reachable.init.run ops rfl, by decide, rfl, rfl, rfl, rfl⟩

/-! ## Where the paths stand for the subtree -/

namespace Store

section Subtree

variable {s : Store} {before : ℕ∞} {exceptCluster : ℤ}

/-- A row whose serial is the `max(serial)` of the node's versions before `before`, and which
meets `q`, is the node's latest version when that one meets `q`, and there is none otherwise. -/
theorem find?_maxSerial (node : ℤ) (q : VersionRow → Prop) [DecidablePred q] :
    s.versions.find? (fun v => some v.serial = s.maxSerialBefore node before ∧ q v) =
      (s.latestVersion node before).filter fun v => q v := by
  cases hf : s.versions.find? fun v => some v.serial = s.maxSerialBefore node before ∧ q v with
  | none =>
    cases hl : s.latestVersion node before with
    | none => rfl
    | some w =>
      obtain ⟨hwv, -, hmax⟩ := latestVersion_eq_some_iff.1 hl
      have := List.find?_eq_none.1 hf w hwv
      simp only [decide_eq_true_eq, not_and] at this
      simp [Option.filter, this hmax]
  | some v =>
    have hp := List.find?_some hf
    simp only [decide_eq_true_eq] at hp
    obtain ⟨hmax, hc⟩ := hp
    have hv := List.mem_of_find?_eq_some hf
    obtain ⟨u, hu, hus⟩ := List.mem_map.1 (maxSerialBefore_eq_some_iff.1 hmax.symm).1
    have huv : u = v := List.inj_on_of_nodup_map s.serial_key (List.mem_of_mem_filter hu) hv hus
    subst huv
    have hun : u.node = node := (of_decide_eq_true (List.mem_filter.1 hu).2).1
    rw [latestVersion_eq_some_iff.2 ⟨hv, hun, hmax⟩]
    simp [Option.filter, hc]

/-- The first query of `statistics_latest` finds the latest version of the node, when it is
outside the cluster. -/
theorem find?_latest (node : ℤ) :
    s.versions.find? (fun v => some v.serial = s.maxSerialBefore node before ∧
        v.cluster ≠ exceptCluster) =
      (s.latestVersion node before).filter (·.cluster ≠ exceptCluster) :=
  find?_maxSerial node fun v => v.cluster ≠ exceptCluster

/-- `version_lookup(node, before, cluster)` returns the node's latest version before `before`
over all clusters, when that version is in `cluster`, and `None` otherwise: it never falls
back to an older version in `cluster`. -/
theorem versionLookup_eq_latestVersion (node : ℤ) (cluster : ℤ) :
    s.versionLookup node before cluster =
      (s.latestVersion node before).filter (·.cluster = cluster) :=
  find?_maxSerial node fun v => v.cluster = cluster

/-- The versions the aggregates of `statistics_latest` read at the nodes `P` picks are the
latest versions outside the cluster of those nodes. -/
theorem latestOutside_perm (hw : s.Wf) (before : ℕ∞) (exceptCluster : ℤ) (P : ℤ → Bool) :
    (s.versions.filter fun v => s.latestOutside before exceptCluster v ∧ P v.node).Perm
      ((s.nodes.filter fun n => P n.node).filterMap fun n =>
        (s.latestVersion n.node before).filter (·.cluster ≠ exceptCluster)) := by
  have live : ∀ {node : ℤ} {v : VersionRow},
      v ∈ (s.latestVersion node before).filter (·.cluster ≠ exceptCluster) ↔
        v ∈ s.versions ∧ v.node = node ∧ s.latestOutside before exceptCluster v := by
    intro node v
    rw [Option.mem_def, Option.filter_eq_some, Option.mem_def, latestVersion_eq_some_iff]
    simp only [latestOutside, decide_eq_true_eq]
    constructor
    · rintro ⟨⟨hv, hn, hmax⟩, hc⟩
      exact ⟨hv, hn, hn ▸ hmax, hc⟩
    · rintro ⟨hv, hn, hmax, hc⟩
      exact ⟨⟨hv, hn, hn ▸ hmax⟩, hc⟩
  have hmap : ((s.nodes.filter fun n => P n.node).filterMap fun n =>
      (s.latestVersion n.node before).filter (·.cluster ≠ exceptCluster)) =
      ((s.nodes.filter fun n => P n.node).map NodeRow.node).filterMap fun node =>
        (s.latestVersion node before).filter (·.cluster ≠ exceptCluster) := by
    rw [List.filterMap_map]; rfl
  rw [hmap]
  have hnd : ((s.nodes.filter fun n => P n.node).map NodeRow.node).Nodup :=
    s.node_key.sublist ((List.filter_sublist _).map _)
  refine (List.perm_ext_iff_of_nodup ((List.Nodup.of_map _ s.serial_key).filter _)
    (hnd.filterMap fun a a' v hv hv' => (live.1 hv).2.1.symm.trans (live.1 hv').2.1)).2
    fun v => ?_
  simp only [List.mem_filter, List.mem_filterMap, List.mem_map, ← Option.mem_def, live,
    decide_eq_true_eq]
  constructor
  · rintro ⟨hv, hl, hp⟩
    obtain ⟨n, hn, hnv⟩ := List.mem_map.1 (by simpa [hasNode] using hw.version_node v hv)
    exact ⟨_, ⟨n, ⟨hn, hnv ▸ hp⟩, rfl⟩, hv, hnv.symm, hl⟩
  · rintro ⟨_, ⟨n, ⟨hn, hp⟩, rfl⟩, hv, hnv, hl⟩
    exact ⟨hv, hl, hnv ▸ hp⟩

theorem foldl_max_le_iff {l : List VersionRow} {init x : ℕ} :
    l.foldl (fun m v => max m v.mtime) init ≤ x ↔ init ≤ x ∧ ∀ v ∈ l, v.mtime ≤ x := by
  induction l generalizing init with
  | nil => simp
  | cons v l ih => simp [ih, max_le_iff, and_assoc]

/-- A child's parent is its first strict ancestor. -/
theorem parent_mem_strictAncestors {c : NodeRow} (hc : c ∈ s.nodes) (h0 : c.node ≠ 0) :
    c.parent ∈ s.strictAncestors c.node := by
  obtain ⟨k, hk⟩ := Nat.exists_eq_succ_of_ne_zero (List.ne_nil_of_mem hc ∘ List.length_eq_zero.1)
  simp [strictAncestors, hk, ancestorsWithin, h0, nodeGetProperties_of_mem hc]

/-- A node with a version is not its own strict ancestor: the version's chain ends. -/
theorem Wf.not_mem_strictAncestors_self (hw : s.Wf) {v : VersionRow} (hv : v ∈ s.versions) :
    v.node ∉ s.strictAncestors v.node := by
  obtain ⟨fuel, ch, hch⟩ := hw.version_chain v hv
  rw [strictAncestors_eq hw hch]
  exact (List.nodup_cons.1 (nodup_ancestorChain hw.parent_le hch)).1

/-- Picking the nodes whose id is among those of the nodes `q` picks picks the same nodes. -/
theorem filter_node_mem_map (q : NodeRow → Bool) :
    (s.nodes.filter fun n => n.node ∈ (s.nodes.filter q).map NodeRow.node) = s.nodes.filter q := by
  refine List.filter_congr fun n hn => Bool.eq_iff_iff.2 ?_
  rw [decide_eq_true_iff, List.mem_map]
  constructor
  · rintro ⟨m, hm, he⟩
    obtain ⟨hm, hq⟩ := List.mem_filter.1 hm
    rwa [← List.inj_on_of_nodup_map s.node_key hm hn he]
  · exact fun hq => ⟨n, List.mem_filter.2 ⟨hn, hq⟩, rfl⟩

/-- The nodes whose path starts with the node's are the node and its strict descendants. -/
theorem subtree_perm {node parent : ℤ} {path : List ℕ} (hrow : ⟨node, parent, path⟩ ∈ s.nodes)
    (hself : node ∉ s.strictAncestors node)
    (hsub : ∀ m ∈ s.nodes, path <+: m.path ↔ m.node = node ∨ node ∈ s.strictAncestors m.node) :
    (s.nodes.filter fun m => path <+: m.path).Perm
      (⟨node, parent, path⟩ :: s.nodes.filter fun d => node ∈ s.strictAncestors d.node) := by
  have hnd := List.Nodup.of_map _ s.node_key
  refine (List.perm_ext_iff_of_nodup (hnd.filter _) (List.nodup_cons.2
    ⟨fun h => hself (of_decide_eq_true (List.mem_filter.1 h).2), hnd.filter _⟩)).2 fun m => ?_
  simp only [List.mem_filter, List.mem_cons, decide_eq_true_eq]
  constructor
  · rintro ⟨hm, hp⟩
    rcases (hsub m hm).1 hp with he | hd
    · exact .inl (List.inj_on_of_nodup_map s.node_key hm hrow he)
    · exact .inr ⟨hm, hd⟩
  · rintro (rfl | ⟨hm, hd⟩)
    · exact ⟨hrow, List.prefix_refl _⟩
    · exact ⟨hm, (hsub m hm).2 (.inr hd)⟩

/-- Away from `ROOTNODE`, the children that the count of `statistics_latest`'s docstring
takes are the children with a live version. -/
theorem length_liveChildren (hw : s.Wf) {node : ℤ} (h0 : node ≠ 0) :
    (s.nodes.filter fun c => c.node ≠ 0 ∧ c.parent = node ∧
        ((s.latestVersion c.node before).filter (·.cluster ≠ exceptCluster)).isSome).length =
      ((s.nodes.filter fun x => x.parent = node).filterMap fun n =>
        (s.latestVersion n.node before).filter (·.cluster ≠ exceptCluster)).length := by
  rw [List.length_filterMap_eq_countP, List.countP_eq_length_filter, List.filter_filter]
  congr 1
  refine List.filter_congr fun c hc => ?_
  by_cases hp : c.parent = node
  · have : c.node ≠ 0 := fun hc0 => h0 (hp ▸ hw.root_parent c hc hc0)
    simp [hp, this]
  · simp [hp]

/-- Away from `ROOTNODE`, a live version at a child is one at a strict descendant. -/
theorem mem_liveDescendants_of_child (hw : s.Wf) {node : ℤ} (h0 : node ≠ 0) {v : VersionRow}
    (hv : v ∈ (s.nodes.filter fun x => x.parent = node).filterMap fun n =>
      (s.latestVersion n.node before).filter (·.cluster ≠ exceptCluster)) :
    v ∈ (s.nodes.filter fun d => node ∈ s.strictAncestors d.node).filterMap fun n =>
      (s.latestVersion n.node before).filter (·.cluster ≠ exceptCluster) := by
  obtain ⟨c, hc, hcv⟩ := List.mem_filterMap.1 hv
  obtain ⟨hc, hp⟩ := List.mem_filter.1 hc
  have hp : c.parent = node := of_decide_eq_true hp
  have hc0 : c.node ≠ 0 := fun hc0 => h0 (hp ▸ hw.root_parent c hc hc0)
  exact List.mem_filterMap.2 ⟨c, List.mem_filter.2
    ⟨hc, decide_eq_true (hp ▸ parent_mem_strictAncestors hc hc0)⟩, hcv⟩

/-- `statistics_latest` is the docstring's summary at a node other than `ROOTNODE` whose path
starts the paths of the node and its strict descendants and no others, when no strict
descendant has a live version unless a child has one. -/
theorem statisticsLatest_eq_promisedSummary (hw : s.Wf) {node parent : ℤ}
    {path : List ℕ} (hn : s.nodeGetProperties node = some (parent, path)) (h0 : node ≠ 0)
    (hsub : ∀ m ∈ s.nodes, path <+: m.path ↔ m.node = node ∨ node ∈ s.strictAncestors m.node)
    (hdeep : (∀ c ∈ s.nodes, c.parent = node →
        (s.latestVersion c.node before).filter (·.cluster ≠ exceptCluster) = none) →
      ∀ d ∈ s.nodes, node ∈ s.strictAncestors d.node →
        (s.latestVersion d.node before).filter (·.cluster ≠ exceptCluster) = none) :
    s.statisticsLatest node before exceptCluster = s.promisedSummary node before exceptCluster := by
  unfold statisticsLatest promisedSummary
  rw [hn]
  dsimp only
  rw [find?_latest]
  cases hown : (s.latestVersion node before).filter (·.cluster ≠ exceptCluster) with
  | none => rfl
  | some own =>
    dsimp only
    unfold latestAggregate
    dsimp only
    obtain ⟨hov, hon, -⟩ := latestVersion_eq_some_iff.1 (Option.mem_def.1
      (Option.filter_eq_some.1 hown).1)
    have hself := hon ▸ hw.not_mem_strictAncestors_self hov
    -- the children aggregate reads the live versions of the children
    have hC := latestOutside_perm hw before exceptCluster fun n =>
      n ∈ (s.nodes.filter fun x => x.parent = node).map NodeRow.node
    rw [filter_node_mem_map] at hC
    -- the subtree aggregate reads those of the node and its strict descendants
    have hM := latestOutside_perm hw before exceptCluster fun n =>
      n ∈ (s.nodes.filter fun m => path <+: m.path).map NodeRow.node
    rw [filter_node_mem_map] at hM
    replace hM := hM.trans ((subtree_perm (mem_of_nodeGetProperties hn) hself hsub).filterMap _)
    simp only [List.filterMap_cons, hown] at hM
    rw [hC.length_eq, length_liveChildren hw h0]
    split_ifs with hc0
    · -- no child has a live version, so no strict descendant has one
      have hfm := List.length_eq_zero.1 hc0
      have hb := hdeep fun c hc hp =>
        List.filterMap_eq_nil_iff.1 hfm c (List.mem_filter.2 ⟨hc, by simpa using hp⟩)
      rw [hfm] at hC
      rw [hfm, List.Perm.eq_nil hC, List.filterMap_eq_nil_iff.2 fun d hd =>
        hb d (List.mem_filter.1 hd).1 (by simpa using (List.mem_filter.1 hd).2)]
      rfl
    · -- the sizes add up over the subtree; the latest mtime is the node's or a descendant's
      rw [(hM.map VersionRow.size).sum_eq, List.map_cons, List.sum_cons, add_sub_cancel_left]
      refine congrArg some (Prod.ext rfl (Prod.ext rfl (eq_of_forall_ge_iff fun x => ?_)))
      simp only [foldl_max_le_iff, hM.mem_iff, hC.mem_iff, List.mem_cons, forall_eq_or_imp]
      constructor
      · rintro ⟨⟨ho, -⟩, -, hb⟩
        exact ⟨ho, hb⟩
      · rintro ⟨ho, hb⟩
        exact ⟨⟨ho, fun v hv => hb v (mem_liveDescendants_of_child hw h0 hv)⟩, ho, hb⟩

end Subtree

end Store

/-- `a` with a version and a child `a/x` with one, and `b` beside: no other path starts with
`a`, and `statistics_latest(a)` is the docstring's summary. With the child's one version in
the cluster left out instead, the early return fires, and loses nothing. -/
theorem statisticsLatest_eq_promisedSummary_a :
    let ops : List Op := [.nodeCreate 0 [97], .nodeCreate 1 [97, 47, 120], .nodeCreate 0 [98],
      .versionCreate 1 "h" 1 none "u" 0 10, .versionCreate 2 "h" 2 none "u" 0 11]
    let ops' : List Op := [.nodeCreate 0 [97], .nodeCreate 1 [97, 47, 120],
      .versionCreate 1 "h" 1 none "u" 0 10, .versionCreate 2 "h" 2 none "u" 1 11]
    (∃ s, Store.init.run ops = .ok s ∧ s.Wf ∧ s.nodeGetProperties 1 = some (0, [97]) ∧
      (1 : ℤ) ≠ 0 ∧
      (∀ m ∈ s.nodes, [97] <+: m.path ↔ m.node = 1 ∨ 1 ∈ s.strictAncestors m.node) ∧
      ((∀ c ∈ s.nodes, c.parent = 1 → (s.latestVersion c.node ⊤).filter (·.cluster ≠ 1) = none) →
        ∀ d ∈ s.nodes, 1 ∈ s.strictAncestors d.node →
          (s.latestVersion d.node ⊤).filter (·.cluster ≠ 1) = none) ∧
      s.statisticsLatest 1 ⊤ 1 = some (1, 2, 11) ∧
      s.statisticsLatest 1 ⊤ 1 = s.promisedSummary 1 ⊤ 1) ∧
    ∃ s, Store.init.run ops' = .ok s ∧ s.Wf ∧ s.nodeGetProperties 1 = some (0, [97]) ∧
      (1 : ℤ) ≠ 0 ∧
      (∀ m ∈ s.nodes, [97] <+: m.path ↔ m.node = 1 ∨ 1 ∈ s.strictAncestors m.node) ∧
      (∀ c ∈ s.nodes, c.parent = 1 → (s.latestVersion c.node ⊤).filter (·.cluster ≠ 1) = none) ∧
      ((∀ c ∈ s.nodes, c.parent = 1 → (s.latestVersion c.node ⊤).filter (·.cluster ≠ 1) = none) →
        ∀ d ∈ s.nodes, 1 ∈ s.strictAncestors d.node →
          (s.latestVersion d.node ⊤).filter (·.cluster ≠ 1) = none) ∧
      s.statisticsLatest 1 ⊤ 1 = some (0, 0, 10) ∧
      s.statisticsLatest 1 ⊤ 1 = s.promisedSummary 1 ⊤ 1 := by
  intro ops ops'
  obtain ⟨s, hs, hn, hsub, hdeep, hl⟩ : ∃ s, Store.init.run ops = .ok s ∧
      s.nodeGetProperties 1 = some (0, [97]) ∧
      (∀ m ∈ s.nodes, [97] <+: m.path ↔ m.node = 1 ∨ 1 ∈ s.strictAncestors m.node) ∧
      ((∀ c ∈ s.nodes, c.parent = 1 → (s.latestVersion c.node ⊤).filter (·.cluster ≠ 1) = none) →
        ∀ d ∈ s.nodes, 1 ∈ s.strictAncestors d.node →
          (s.latestVersion d.node ⊤).filter (·.cluster ≠ 1) = none) ∧
      s.statisticsLatest 1 ⊤ 1 = some (1, 2, 11) := ⟨_, rfl, rfl, by decide, by decide, rfl⟩
  obtain ⟨t, ht, htn, htsub, hnone, htdeep, htl⟩ : ∃ t, Store.init.run ops' = .ok t ∧
      t.nodeGetProperties 1 = some (0, [97]) ∧
      (∀ m ∈ t.nodes, [97] <+: m.path ↔ m.node = 1 ∨ 1 ∈ t.strictAncestors m.node) ∧
      (∀ c ∈ t.nodes, c.parent = 1 → (t.latestVersion c.node ⊤).filter (·.cluster ≠ 1) = none) ∧
      ((∀ c ∈ t.nodes, c.parent = 1 → (t.latestVersion c.node ⊤).filter (·.cluster ≠ 1) = none) →
        ∀ d ∈ t.nodes, 1 ∈ t.strictAncestors d.node →
          (t.latestVersion d.node ⊤).filter (·.cluster ≠ 1) = none) ∧
      t.statisticsLatest 1 ⊤ 1 = some (0, 0, 10) :=
    ⟨_, rfl, rfl, by decide, by decide, by decide, rfl⟩
  have hw := Reachable.wf (Reachable.init.run ops hs)
  have htw := Reachable.wf (Reachable.init.run ops' ht)
  exact ⟨⟨s, hs, hw, hn, by decide, hsub, hdeep, hl,
      Store.statisticsLatest_eq_promisedSummary hw hn (by decide) hsub hdeep⟩,
    t, ht, htw, htn, by decide, htsub, hnone, htdeep, htl,
      Store.statisticsLatest_eq_promisedSummary htw htn (by decide) htsub htdeep⟩

end Pithos
