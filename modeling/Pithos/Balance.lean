import Pithos.Bookkeeping
import Mathlib.Algebra.BigOperators.Group.List

/-!
# The rollups over runs without purges

Each version puts its size into the `size` of every strict ancestor of its node, and a one
into the `population` of its node's parent, in its own cluster: `sizeShare` and
`populationShare`. `Rollups` asks the statistics, at every id and cluster, to hold the sum of
the shares. A walk from a version's node with that version's deltas adds or takes away its
shares, so `version_create`, `version_remove`, `version_recluster` and `node_remove` keep
`Rollups`; `node_create` and the attribute and policy calls change no share and no row. So
every store that calls other than the two purges make of the empty database holds both
rollups of `Rollup`.
-/
namespace Pithos

/-- Whether a call is `node_purge` or `node_purge_children`. -/
def Op.isPurge : Op → Bool
  | .nodePurge .. | .nodePurgeChildren .. => true
  | _ => false

namespace Store

/-- What version `v` puts into the `size` of `x` in cluster `c`. -/
def sizeShare (s : Store) (x c : ℤ) (v : VersionRow) : ℤ :=
  if v.cluster = c ∧ x ∈ s.strictAncestors v.node then v.size else 0

/-- What version `v` puts into the `population` of `x` in cluster `c`. -/
def populationShare (s : Store) (x c : ℤ) (v : VersionRow) : ℤ :=
  if v.cluster = c ∧ v.node ≠ 0 ∧ (s.nodeGetProperties v.node).map Prod.fst = some x then 1
  else 0

/-- Both rollups, at every id and cluster. -/
def Rollups (s : Store) : Prop :=
  ∀ x c, s.statSize x c = (s.versions.map (s.sizeShare x c)).sum ∧
    s.statPopulation x c = (s.versions.map (s.populationShare x c)).sum

theorem rollups_init : init.Rollups := fun _ _ => ⟨rfl, rfl⟩

/-- At the ids of `nodes`, `Rollups` is `SizeRollup` and `PopulationRollup`. -/
theorem Rollups.sizeRollup_and_populationRollup {s : Store} (h : s.Rollups) :
    s.SizeRollup ∧ s.PopulationRollup := by
  refine ⟨fun r _ c => ?_, fun r _ c => ?_⟩
  · rw [(h r.node c).1]
    unfold sizeShare
    simp [List.sum_map_ite]
  · rw [(h r.node c).2]
    unfold populationShare
    simp [List.sum_map_ite]

/-! ## Shares -/

theorem shares_congr {s t : Store} (h : t.nodes = s.nodes) :
    t.sizeShare = s.sizeShare ∧ t.populationShare = s.populationShare := by
  constructor <;> funext x c v
  · simp only [sizeShare, strictAncestors_congr h]
  · simp only [populationShare, nodeGetProperties_congr h]

/-- A version keeps its shares in a store where its node keeps its chain and its row. -/
theorem shares_eq {s t : Store} (hw : s.Wf) (ht : t.Wf) {v : VersionRow} (hv : v ∈ s.versions)
    (hc : ∀ fuel, t.ancestorChain fuel v.node = s.ancestorChain fuel v.node)
    (hp : t.nodeGetProperties v.node = s.nodeGetProperties v.node) (x c : ℤ) :
    t.sizeShare x c v = s.sizeShare x c v ∧ t.populationShare x c v = s.populationShare x c v := by
  obtain ⟨fuel, ch, hch⟩ := hw.version_chain v hv
  have e : t.strictAncestors v.node = s.strictAncestors v.node := by
    rw [strictAncestors_eq hw hch, strictAncestors_eq ht ((hc fuel).trans hch)]
  simp only [sizeShare, populationShare, e, hp, and_self]

/-- The shares of versions all at one node. -/
theorem sum_shares_of_node (s : Store) {node : ℤ} (x c : ℤ) :
    ∀ {l : List VersionRow}, (∀ v ∈ l, v.node = node) →
      (l.map (s.sizeShare x c)).sum = (if x ∈ s.strictAncestors node then
        ((l.filter (·.cluster = c)).map VersionRow.size).sum else 0) ∧
      (l.map (s.populationShare x c)).sum =
        if node ≠ 0 ∧ (s.nodeGetProperties node).map Prod.fst = some x then
          ((l.filter (·.cluster = c)).length : ℤ) else 0
  | [], _ => by simp
  | v :: l, hl => by
    obtain ⟨ih₁, ih₂⟩ := sum_shares_of_node s x c fun w hw => hl w (List.mem_cons_of_mem _ hw)
    simp only [List.map_cons, List.sum_cons, ih₁, ih₂, sizeShare, populationShare,
      hl v (List.mem_cons_self _ _), List.filter_cons]
    by_cases hc : v.cluster = c
    · simp only [hc, true_and, decide_True, if_true, List.map_cons, List.sum_cons,
        List.length_cons]
      constructor <;> split_ifs <;> push_cast <;> ring
    · simp [hc]

/-! ## Walks -/

/-- The walk from a version's node with its size and a population of one adds its shares. -/
theorem walk_adds_shares {s s' : Store} (hw : s.Wf) (v : VersionRow) {mtime : ℕ}
    (h : s.statisticsUpdateAncestors v.node 1 v.size mtime v.cluster = .ok s') (x c : ℤ) :
    s'.statSize x c = s.statSize x c + s.sizeShare x c v ∧
      s'.statPopulation x c = s.statPopulation x c + s.populationShare x c v :=
  statisticsUpdateAncestors_spec hw h x c

/-- With the deltas negated, the walk takes the shares away. -/
theorem walk_takes_shares {s s' : Store} (hw : s.Wf) (v : VersionRow) {mtime : ℕ}
    (h : s.statisticsUpdateAncestors v.node (-1) (-v.size) mtime v.cluster = .ok s') (x c : ℤ) :
    s'.statSize x c + s.sizeShare x c v = s.statSize x c ∧
      s'.statPopulation x c + s.populationShare x c v = s.statPopulation x c := by
  obtain ⟨h₁, h₂⟩ := statisticsUpdateAncestors_spec hw h x c
  unfold sizeShare populationShare
  constructor
  · split_ifs at h₁ ⊢ <;> omega
  · split_ifs at h₂ ⊢ <;> omega

/-- `node_remove`'s walks, one for each cluster of `cl`, take `f c` off the ancestors of
`node` in cluster `c`. -/
theorem foldlM_walks_spec {node : ℤ} {now : ℕ} (f : ℤ → ℤ × ℤ) :
    ∀ (cl : List ℤ) {s s' : Store}, s.Wf → cl.Nodup →
      cl.foldlM (fun t c => t.statisticsUpdateAncestors node (-(f c).1) (-(f c).2) now c) s =
        .ok s' → ∀ x c,
        s'.statSize x c =
            s.statSize x c - (if c ∈ cl ∧ x ∈ s.strictAncestors node then (f c).2 else 0) ∧
          s'.statPopulation x c = s.statPopulation x c -
            if c ∈ cl ∧ node ≠ 0 ∧ (s.nodeGetProperties node).map Prod.fst = some x then (f c).1
            else 0
  | [], _, _, _, _, h, x, c => by cases h; simp
  | c' :: cl, s, s', hw, hnd, h, x, c => by
    obtain ⟨t, ht, h'⟩ := except_bind_eq_ok h
    have hst := statisticsUpdateAncestors_statsStep ht
    obtain ⟨h₁, h₂⟩ := statisticsUpdateAncestors_spec hw ht x c
    obtain ⟨h₃, h₄⟩ :=
      foldlM_walks_spec f cl (hw.of_statsStep hst) (List.nodup_cons.1 hnd).2 h' x c
    simp only [strictAncestors_congr hst.nodes, nodeGetProperties_congr hst.nodes] at h₃ h₄
    rw [h₃, h₄, h₁, h₂]
    by_cases hc : c' = c
    · subst hc
      simp only [List.nodup_cons.1 hnd, List.mem_cons_self, true_and, false_and, if_false]
      constructor <;> split_ifs <;> ring
    · have hcl : c ∈ cl ∧ x ∈ s.strictAncestors node ↔ c ∈ c' :: cl ∧ x ∈ s.strictAncestors node := by
        simp [Ne.symm hc]
      simp only [hc, false_and, if_false, add_zero]
      constructor <;> congr 2 <;> simp [Ne.symm hc]

/-! ## Each call -/

/-- A write that trades the versions `out` for `inn`, leaves the other versions' shares as
they were, and moves the statistics by the traded shares keeps `Rollups`. -/
theorem Rollups.of_trade {s t : Store} (h : s.Rollups) {out inn : List VersionRow}
    (hv : (t.versions ++ out).Perm (s.versions ++ inn))
    (hsh : ∀ v ∈ t.versions, ∀ x c,
      t.sizeShare x c v = s.sizeShare x c v ∧ t.populationShare x c v = s.populationShare x c v)
    (hd : ∀ x c,
      t.statSize x c + (out.map (s.sizeShare x c)).sum =
          s.statSize x c + (inn.map (s.sizeShare x c)).sum ∧
        t.statPopulation x c + (out.map (s.populationShare x c)).sum =
          s.statPopulation x c + (inn.map (s.populationShare x c)).sum) :
    t.Rollups := by
  intro x c
  have e₁ := (hv.map (s.sizeShare x c)).sum_eq
  have e₂ := (hv.map (s.populationShare x c)).sum_eq
  simp only [List.map_append, List.sum_append] at e₁ e₂
  rw [List.map_congr_left fun v hv => (hsh v hv x c).1,
    List.map_congr_left fun v hv => (hsh v hv x c).2]
  obtain ⟨h₁, h₂⟩ := h x c
  obtain ⟨h₃, h₄⟩ := hd x c
  constructor <;> omega

/-- A write to neither `nodes`, `versions` nor `statistics`. -/
theorem Rollups.of_tables {s t : Store} (h : s.Rollups) (hn : t.nodes = s.nodes)
    (hv : t.versions = s.versions) (hs : t.statistics = s.statistics) : t.Rollups := by
  have hp : (t.versions ++ []).Perm (s.versions ++ []) := by rw [hv]
  obtain ⟨e₁, e₂⟩ := shares_congr hn
  exact h.of_trade hp (fun _ _ _ _ => by rw [e₁, e₂]; exact ⟨rfl, rfl⟩)
    fun x c => by simp [statSize_congr hs, statPopulation_congr hs]

theorem Rollups.nodeCreate {s s' : Store} {parent node : ℤ} {path : List ℕ} (hw : s.Wf)
    (h : s.Rollups) (hc : s.nodeCreate parent path = .ok (s', node)) : s'.Rollups := by
  obtain ⟨-, -, hn, hv, hs, -, -⟩ := nodeCreate_eq_ok hc
  have hp : (s'.versions ++ []).Perm (s.versions ++ []) := by rw [hv]
  refine h.of_trade hp (fun v hv' x c => ?_)
    fun x c => by simp [statSize_congr hs, statPopulation_congr hs]
  rw [hv] at hv'
  have hk := hw.version_node v hv'
  exact shares_eq hw (hw.nodeCreate hc) hv'
    (fun _ => ancestorChain_of_nodes_append hn hw.parent_key hk)
    (nodeGetProperties_of_nodes_append hn hk) x c

theorem Rollups.versionCreate {s s' : Store} {node : ℤ} {hash : String} {size : ℤ}
    {source : Option ℤ} {muser : String} {cluster : ℤ} {now : ℕ} {serial : ℤ} {mtime : ℕ}
    (hw : s.Wf) (h : s.Rollups)
    (hc : s.versionCreate node hash size source muser cluster now = .ok (s', serial, mtime)) :
    s'.Rollups := by
  obtain ⟨hn, -, -, s₁, h₁, h₂, h₃, h₄, h₅, hwalk⟩ := versionCreate_eq_ok hc
  obtain ⟨ch, hch⟩ := ancestorChain_of_walk hwalk
  have hw₁ : s₁.Wf := by
    refine hw.of_versions_append h₁ h₂ h₃ h₄ h₅ hn ?_
    exact ⟨_, ch, (ancestorChain_congr h₁ _ _).symm.trans hch⟩
  have hst := statisticsUpdateAncestors_statsStep hwalk
  obtain ⟨e₁, e₂⟩ := shares_congr (hst.nodes.trans h₁)
  obtain ⟨e₃, e₄⟩ := shares_congr h₁
  have hp : (s'.versions ++ []).Perm
      (s.versions ++ [(⟨serial, node, hash, size, source, now, muser, cluster⟩ : VersionRow)]) := by
    rw [hst.versions, h₂, List.append_nil]
  refine h.of_trade hp (fun _ _ _ _ => by rw [e₁, e₂]; exact ⟨rfl, rfl⟩) fun x c => ?_
  obtain ⟨w₁, w₂⟩ := walk_adds_shares hw₁ ⟨serial, node, hash, size, source, now, muser, cluster⟩
    hwalk x c
  simp only [w₁, w₂, e₃, e₄, statSize_congr h₃, statPopulation_congr h₃, List.map_nil,
    List.sum_nil, add_zero, List.map_cons, List.sum_cons, and_self]

/-- A version and the others, by its unique serial. -/
theorem perm_serial {l : List VersionRow} (hk : (l.map VersionRow.serial).Nodup)
    {v : VersionRow} (hv : v ∈ l) :
    l.Perm (v :: l.filter fun u => !decide (u.serial = v.serial)) := by
  have hone : l.filter (fun u => decide (u.serial = v.serial)) = [v] := by
    induction l with
    | nil => cases hv
    | cons u l ih =>
      rw [List.map_cons, List.nodup_cons] at hk
      rcases List.mem_cons.1 hv with rfl | hv
      · have hnil : l.filter (fun u => decide (u.serial = v.serial)) = [] :=
          List.filter_eq_nil_iff.2 fun u hu he =>
            hk.1 ((of_decide_eq_true he) ▸ List.mem_map_of_mem _ hu)
        simp [List.filter_cons, hnil]
      · have hne : u.serial ≠ v.serial := fun he => hk.1 (he ▸ List.mem_map_of_mem _ hv)
        simp [List.filter_cons, hne, ih hk.2 hv]
  have := List.filter_append_perm (fun u => decide (u.serial = v.serial)) l
  rw [hone] at this
  exact this.symm

theorem Rollups.versionRemove {s s' : Store} {serial : ℤ} {now : ℕ} {hash : Option String}
    (hw : s.Wf) (h : s.Rollups) (hr : s.versionRemove serial now = .ok (s', hash)) :
    s'.Rollups := by
  rcases versionRemove_eq_ok hr with ⟨-, rfl⟩ | ⟨v, s₁, hv, h₁, rfl⟩
  · exact h
  obtain ⟨hmem, rfl⟩ := mem_of_versionGetProperties hv
  have hst := statisticsUpdateAncestors_statsStep h₁
  have hn : (s₁.deleteVersions (·.serial = v.serial)).nodes = s.nodes := hst.nodes
  obtain ⟨e₁, e₂⟩ := shares_congr hn
  have hp : ((s₁.deleteVersions (·.serial = v.serial)).versions ++ [v]).Perm (s.versions ++ []) := by
    rw [deleteVersions_versions, hst.versions, List.append_nil]
    exact (List.perm_append_singleton _ _).trans (perm_serial s.serial_key hmem).symm
  refine h.of_trade hp (fun _ _ _ _ => by rw [e₁, e₂]; exact ⟨rfl, rfl⟩) fun x c => ?_
  obtain ⟨w₁, w₂⟩ := walk_takes_shares hw v h₁ x c
  simpa [statSize_congr (deleteVersions_statistics s₁ _),
    statPopulation_congr (deleteVersions_statistics s₁ _)] using ⟨w₁, w₂⟩

theorem Rollups.versionRecluster {s s' : Store} {serial cluster : ℤ} {now : ℕ} (hw : s.Wf)
    (h : s.Rollups) (hr : s.versionRecluster serial cluster now = .ok s') : s'.Rollups := by
  rcases versionRecluster_eq_ok hr with rfl | ⟨v, s₁, s₂, hv, -, h₁, h₂, rfl⟩
  · exact h
  obtain ⟨hmem, rfl⟩ := mem_of_versionGetProperties hv
  have hst₁ := statisticsUpdateAncestors_statsStep h₁
  have hst₂ := statisticsUpdateAncestors_statsStep h₂
  have hn : (s₂.setCluster v.serial cluster).nodes = s.nodes := hst₂.nodes.trans hst₁.nodes
  obtain ⟨e₁, e₂⟩ := shares_congr hn
  obtain ⟨e₃, e₄⟩ := shares_congr hst₁.nodes
  set rest := s.versions.filter fun u => !decide (u.serial = v.serial)
  have hrest : rest.map (fun u => if u.serial = v.serial then { u with cluster } else u) =
      rest :=
    (List.map_congr_left (g := id) fun u hu => by simp_all [rest]).trans (List.map_id _)
  have hmap : (s₂.setCluster v.serial cluster).versions.Perm ({ v with cluster } :: rest) := by
    show (s₂.versions.map _).Perm _
    rw [hst₂.versions, hst₁.versions]
    simpa [hrest] using (perm_serial s.serial_key hmem).map
      (fun u => if u.serial = v.serial then { u with cluster } else u)
  have hp : ((s₂.setCluster v.serial cluster).versions ++ [v]).Perm
      (s.versions ++ [{ v with cluster }]) :=
    (hmap.append_right [v]).trans <| (List.perm_append_singleton _ _).trans <|
      (List.Perm.swap _ _ _).trans <| (List.perm_append_singleton _ (v :: rest)).symm.trans <|
        (perm_serial s.serial_key hmem).symm.append_right _
  refine h.of_trade hp (fun _ _ _ _ => by rw [e₁, e₂]; exact ⟨rfl, rfl⟩) fun x c => ?_
  obtain ⟨w₁, w₂⟩ := walk_takes_shares hw v h₁ x c
  obtain ⟨w₃, w₄⟩ := walk_adds_shares (hw.of_statsStep hst₁) { v with cluster } h₂ x c
  rw [e₃] at w₃
  rw [e₄] at w₄
  have hs : (s₂.setCluster v.serial cluster).statistics = s₂.statistics := rfl
  simp only [List.map_cons, List.map_nil, List.sum_cons, List.sum_nil, add_zero,
    statSize_congr hs, statPopulation_congr hs]
  constructor <;> omega

/-! ## Deleting a node with no children -/

/-- `statistics_get` after a write that keeps the rows of `statistics` with the id. -/
theorem statisticsGet_of_statistics_filter {s t : Store} {q : StatisticsRow → Bool}
    (h : t.statistics = s.statistics.filter q) {x : ℤ}
    (hx : ∀ r : StatisticsRow, r.node = x → q r) (c : ℤ) :
    t.statisticsGet x c = s.statisticsGet x c := by
  unfold statisticsGet
  rw [h, List.find?_filter]
  congr 1
  funext r
  by_cases hr : r.node = x <;> simp [hr, hx]

/-- An id with no row in `nodes` has no statistics. -/
theorem Wf.statisticsGet_eq_none {s : Store} (hw : s.Wf) {x : ℤ} (hx : ¬s.hasNode x) (c : ℤ) :
    s.statisticsGet x c = none :=
  List.find?_eq_none.2 fun r hr he =>
    hx ((of_decide_eq_true he).1 ▸ hw.statistics_node r hr)

section Delete

variable {t : Store} (hw : t.Wf)
include hw

/-- After a delete, an id the cascade takes has no statistics, and any other keeps its own. -/
theorem Wf.stats_deleteNodes (victims : List ℤ) (x c : ℤ) :
    (t.deleteNodes victims).statSize x c =
        (if x ∈ cascade t.nodes (victims.filter t.hasNode) then 0 else t.statSize x c) ∧
      (t.deleteNodes victims).statPopulation x c =
        if x ∈ cascade t.nodes (victims.filter t.hasNode) then 0 else t.statPopulation x c := by
  split_ifs with hx
  · have hw' : (t.deleteNodes victims).Wf := hw.deleteNodes
    have hnone := hw'.statisticsGet_eq_none (fun hk => (hasNode_deleteNodes.1 hk).2 hx) c
    simp [statSize, statPopulation, hnone]
  · have hs := statisticsGet_of_statistics_filter (t := t.deleteNodes victims) rfl
      (fun r hr => by simpa [hr] using hx) c
    simp only [statSize, statPopulation, hs, and_self]

/-- A version the delete keeps keeps its shares. -/
theorem Wf.shares_deleteNodes {victims : List ℤ} {v : VersionRow} (hv : v ∈ t.versions)
    (hg : v.node ∉ cascade t.nodes (victims.filter t.hasNode)) (x c : ℤ) :
    (t.deleteNodes victims).sizeShare x c v = t.sizeShare x c v ∧
      (t.deleteNodes victims).populationShare x c v = t.populationShare x c v :=
  shares_eq hw hw.deleteNodes hv (fun _ => ancestorChain_deleteNodes hg)
    (nodeGetProperties_of_nodes_filter rfl fun r hr => by simpa [hr] using hg) x c

variable {node : ℤ} (hc : t.nodeCountChildren node = 0)
include hc

/-- Where `node` has no children, a row whose parent is `node` is `node` itself, `ROOTNODE`. -/
theorem Wf.eq_of_parent_leaf {r : NodeRow} (hr : r ∈ t.nodes) (hp : r.parent = node) :
    r.node = node := by
  rw [nodeCountChildren, List.length_eq_zero, List.filter_eq_nil_iff] at hc
  have h0 : r.node = 0 := by
    by_contra h0
    exact hc r hr (by simp [hp, h0])
  have := hw.root_parent r hr h0
  omega

/-- The delete of a node with no children takes that node alone. -/
theorem Wf.cascade_leaf : cascade t.nodes ([node].filter t.hasNode) = [node].filter t.hasNode :=
  cascade_of_closed fun r hr hp => by
    simp only [List.mem_filter, List.mem_singleton] at hp ⊢
    exact ⟨hw.eq_of_parent_leaf hc hr hp.1,
      by simpa [hasNode] using List.mem_map_of_mem NodeRow.node hr⟩

theorem Wf.deleteNodes_leaf_versions :
    (t.deleteNodes [node]).versions = t.versions.filter fun v => !decide (v.node = node) := by
  show t.versions.filter _ = _
  refine List.filter_congr fun v hv => ?_
  simp [hw.cascade_leaf hc, hw.version_node v hv]

/-- A node with no children holds no version's share. -/
theorem Wf.shares_of_leaf {v : VersionRow} (hv : v ∈ t.versions) (c : ℤ) :
    t.sizeShare node c v = 0 ∧ t.populationShare node c v = 0 := by
  have hl' : ∀ y path, y ≠ 0 → t.nodeGetProperties y ≠ some (node, path) := by
    intro y path hy hp
    rw [nodeCountChildren, List.length_eq_zero, List.filter_eq_nil_iff] at hc
    exact hc _ (mem_of_nodeGetProperties hp) (by simpa using hy)
  obtain ⟨fuel, ch, hch⟩ := hw.version_chain v hv
  constructor
  · rw [sizeShare, if_neg]
    rw [strictAncestors_eq hw hch]
    rintro ⟨-, hm⟩
    obtain ⟨y, path, hy, hp⟩ := parent_of_mem_ancestorChain hch hm
    exact hl' y path hy hp
  · rw [populationShare, if_neg]
    rintro ⟨-, h0, hp⟩
    obtain ⟨⟨p, path⟩, hp', rfl⟩ := Option.map_eq_some'.1 hp
    exact hl' _ path h0 hp'

theorem Wf.sum_shares_of_leaf {l : List VersionRow} (hl : l ⊆ t.versions) (c : ℤ) :
    (l.map (t.sizeShare node c)).sum = 0 ∧ (l.map (t.populationShare node c)).sum = 0 :=
  ⟨List.sum_eq_zero fun y hy => by
      obtain ⟨v, hv, rfl⟩ := List.mem_map.1 hy
      exact (hw.shares_of_leaf hc (hl hv) c).1,
    List.sum_eq_zero fun y hy => by
      obtain ⟨v, hv, rfl⟩ := List.mem_map.1 hy
      exact (hw.shares_of_leaf hc (hl hv) c).2⟩

end Delete

theorem Rollups.nodeRemove {s s' : Store} {node : ℤ} {now : ℕ} {b : Bool} (hw : s.Wf)
    (h : s.Rollups) (hr : s.nodeRemove node now = .ok (s', b)) : s'.Rollups := by
  rcases nodeRemove_eq_ok hr with ⟨-, rfl⟩ | ⟨hc, s₁, h₁, rfl⟩
  · exact h
  set here := s.versions.filter (·.node = node)
  have hst := foldlM_statsStep (fun _ _ _ ht => statisticsUpdateAncestors_statsStep ht) _ h₁
  have hw₁ := hw.of_statsStep hst
  have hc₁ : s₁.nodeCountChildren node = 0 := by rwa [nodeCountChildren, hst.nodes]
  -- the delete takes `node` alone, with the versions `here`
  have hgone : ∀ x ∈ cascade s₁.nodes ([node].filter s₁.hasNode), x = node := fun x hx => by
    rw [hw₁.cascade_leaf hc₁, List.mem_filter, List.mem_singleton] at hx
    exact hx.1
  have hvers : (s₁.deleteNodes [node]).versions =
      s.versions.filter fun v => !decide (v.node = node) := by
    rw [hw₁.deleteNodes_leaf_versions hc₁, hst.versions]
  have hp : ((s₁.deleteNodes [node]).versions ++ here).Perm (s.versions ++ []) := by
    rw [hvers, List.append_nil]
    exact List.perm_append_comm.trans (List.filter_append_perm _ _)
  obtain ⟨e₁, e₂⟩ := shares_congr hst.nodes
  refine h.of_trade hp (fun v hv x c => ?_) fun x c => ?_
  · rw [hvers, List.mem_filter] at hv
    have hg : v.node ∉ cascade s₁.nodes ([node].filter s₁.hasNode) := fun hg => by
      simp [hgone _ hg] at hv
    rw [← e₁, ← e₂]
    exact hw₁.shares_deleteNodes (by rw [hst.versions]; exact hv.1) hg x c
  obtain ⟨d₁, d₂⟩ := hw₁.stats_deleteNodes [node] x c
  simp only [List.map_nil, List.sum_nil, add_zero, d₁, d₂]
  split_ifs with hx
  · -- `node` itself: its statistics go, and it held no share
    obtain rfl := hgone x hx
    obtain ⟨z₁, z₂⟩ := hw.sum_shares_of_leaf hc (List.filter_subset' _) c
    obtain ⟨a₁, a₂⟩ := hw.sum_shares_of_leaf hc (List.Subset.refl _) c
    rw [(h x c).1, (h x c).2, z₁, z₂, a₁, a₂]
    exact ⟨rfl, rfl⟩
  · -- any other id: the walks took off the versions at `node`
    obtain ⟨f₁, f₂⟩ := foldlM_walks_spec (fun c => tally (here.filter (·.cluster = c))) _ hw
      (List.nodup_dedup _) h₁ x c
    obtain ⟨g₁, g₂⟩ := sum_shares_of_node s x c (l := here) fun v hv =>
      of_decide_eq_true (List.mem_filter.1 hv).2
    simp only [tally] at f₁ f₂
    rw [g₁, g₂, f₁, f₂]
    by_cases hcl : c ∈ (here.map VersionRow.cluster).dedup
    · simp only [hcl, true_and]
      constructor <;> split_ifs <;> ring
    · have hnil : here.filter (·.cluster = c) = [] := List.filter_eq_nil_iff.2 fun v hv he =>
        hcl (List.mem_dedup.2 ((of_decide_eq_true he) ▸ List.mem_map_of_mem _ hv))
      simp [hcl, hnil]

/-! ## `node_purge` of a node with no children -/

/-- Walking the tally of some versions, all at `node` and in `cluster`, off the ancestors, then
deleting them, keeps `Rollups`. -/
theorem Rollups.walk_deleteVersions {s s₁ : Store} (hw : s.Wf) (h : s.Rollups)
    {node cluster : ℤ} {now : ℕ} {p : VersionRow → Bool}
    (hp : ∀ v ∈ s.versions, p v → v.node = node ∧ v.cluster = cluster)
    (h₁ : s.statisticsUpdateAncestors node (-(tally (s.versions.filter p)).1)
      (-(tally (s.versions.filter p)).2) now cluster = .ok s₁) :
    (s₁.deleteVersions p).Rollups := by
  set vs := s.versions.filter p
  have hst := statisticsUpdateAncestors_statsStep h₁
  have hn : (s₁.deleteVersions p).nodes = s.nodes := hst.nodes
  obtain ⟨e₁, e₂⟩ := shares_congr hn
  have hperm : ((s₁.deleteVersions p).versions ++ vs).Perm (s.versions ++ []) := by
    rw [deleteVersions_versions, hst.versions, List.append_nil]
    exact List.perm_append_comm.trans (List.filter_append_perm _ _)
  have hvs : ∀ v ∈ vs, v.node = node ∧ v.cluster = cluster := fun v hv =>
    hp v (List.mem_of_mem_filter hv) (List.mem_filter.1 hv).2
  refine h.of_trade hperm (fun _ _ _ _ => by rw [e₁, e₂]; exact ⟨rfl, rfl⟩) fun x c => ?_
  obtain ⟨w₁, w₂⟩ := statisticsUpdateAncestors_spec hw h₁ x c
  obtain ⟨g₁, g₂⟩ := sum_shares_of_node s x c fun v hv => (hvs v hv).1
  have hc : vs.filter (·.cluster = c) = if cluster = c then vs else [] := by
    split_ifs with hc
    · exact List.filter_eq_self.2 fun v hv => by simp [(hvs v hv).2, hc]
    · exact List.filter_eq_nil_iff.2 fun v hv => by simp [(hvs v hv).2, hc]
  rw [statSize_congr (deleteVersions_statistics s₁ p),
    statPopulation_congr (deleteVersions_statistics s₁ p), w₁, w₂, g₁, g₂, hc]
  simp only [tally, List.map_nil, List.sum_nil, add_zero]
  by_cases hcc : cluster = c
  · -- the walk's cluster: it took exactly the shares of `vs` off
    simp only [hcc, true_and, if_true]
    constructor <;> split_ifs <;> ring
  · -- any other cluster: neither the walk nor the delete touches it
    simp [hcc]

/-- A delete that takes at most `node`, with no children, and no version keeps `Rollups`. -/
theorem Rollups.deleteNodes_of_leaf {t : Store} (hw : t.Wf) (h : t.Rollups) {node : ℤ}
    {victims : List ℤ} (hc : t.nodeCountChildren node = 0)
    (hg : ∀ x ∈ cascade t.nodes (victims.filter t.hasNode), x = node)
    (hv : ∀ v ∈ t.versions, v.node ∉ cascade t.nodes (victims.filter t.hasNode)) :
    (t.deleteNodes victims).Rollups := by
  have hvers : (t.deleteNodes victims).versions = t.versions := by
    show t.versions.filter _ = _
    exact List.filter_eq_self.2 fun v hv' => by simpa using hv v hv'
  have hp : ((t.deleteNodes victims).versions ++ []).Perm (t.versions ++ []) := by rw [hvers]
  refine h.of_trade hp (fun v hv' x c => ?_) fun x c => ?_
  · rw [hvers] at hv'
    exact hw.shares_deleteNodes hv' (hv v hv') x c
  obtain ⟨d₁, d₂⟩ := hw.stats_deleteNodes victims x c
  simp only [List.map_nil, List.sum_nil, add_zero, d₁, d₂]
  split_ifs with hx
  · obtain rfl := hg x hx
    obtain ⟨a₁, a₂⟩ := hw.sum_shares_of_leaf hc (List.Subset.refl _) c
    rw [(h x c).1, (h x c).2, a₁, a₂]
    exact ⟨rfl, rfl⟩
  · exact ⟨rfl, rfl⟩

/-- In a store that keeps the invariant and both rollups, `node_purge` of a node with no
children keeps the rollups: the walk takes the purged versions off the ancestors, and the node
is deleted only when no version is left at it. -/
theorem Rollups.nodePurge_of_leaf {s s' : Store} {node : ℤ} {before : ℕ∞} {cluster : ℤ}
    {now : ℕ} {hashes : List String} (hw : s.Wf) (h : s.Rollups) (hc : s.nodeCountChildren node = 0)
    (hp : s.nodePurge node before cluster now = .ok (s', hashes)) : s'.Rollups := by
  rcases nodePurge_eq_ok hp with rfl | ⟨s₁, h₁, rfl⟩
  · exact h
  have hst := statisticsUpdateAncestors_statsStep h₁
  have h₂ := h.walk_deleteVersions hw (fun v _ hv => by
    simp only [decide_eq_true_eq] at hv
    exact ⟨hv.1, hv.2.1⟩) h₁
  have hw₂ := (hw.of_statsStep hst).deleteVersions fun v =>
    decide (v.node = node ∧ v.cluster = cluster ∧ v.mtime ≤ before)
  have hc₂ : (s₁.deleteVersions fun v =>
      decide (v.node = node ∧ v.cluster = cluster ∧ v.mtime ≤ before)).nodeCountChildren node = 0 := by
    rwa [nodeCountChildren, deleteVersions_nodes, hst.nodes]
  split_ifs with hany
  · exact h₂.deleteNodes_of_leaf hw₂ hc₂ (by simp [cascade_nil]) (by simp [cascade_nil])
  · refine h₂.deleteNodes_of_leaf hw₂ hc₂ (fun x hx => ?_) fun v hv hg => ?_
    · rw [hw₂.cascade_leaf hc₂, List.mem_filter, List.mem_singleton] at hx
      exact hx.1
    · rw [hw₂.cascade_leaf hc₂, List.mem_filter, List.mem_singleton] at hg
      exact hany (List.any_eq_true.2 ⟨v, hv, by simp [hg.1]⟩)

/-! ## Runs -/

/-- Every call but the two purges that succeeds keeps `Rollups`. -/
theorem Rollups.apply {s s' : Store} {op : Op} (hw : s.Wf) (h : s.Rollups)
    (hp : op.isPurge = false) (ha : s.apply op = .ok s') : s'.Rollups := by
  cases op with
  | nodeCreate parent path =>
    obtain ⟨⟨t, _⟩, ht, rfl⟩ := except_map_eq_ok ha
    exact h.nodeCreate hw ht
  | nodeRemove node now =>
    obtain ⟨⟨t, _⟩, ht, rfl⟩ := except_map_eq_ok ha
    exact h.nodeRemove hw ht
  | nodePurge => cases hp
  | nodePurgeChildren => cases hp
  | versionCreate node hash size source muser cluster now =>
    obtain ⟨⟨t, _, _⟩, ht, rfl⟩ := except_map_eq_ok ha
    exact h.versionCreate hw ht
  | versionRemove serial now =>
    obtain ⟨⟨t, _⟩, ht, rfl⟩ := except_map_eq_ok ha
    exact h.versionRemove hw ht
  | versionRecluster serial cluster now => exact h.versionRecluster hw ha
  | attributeSet serial items =>
    obtain ⟨hn, hv, hs⟩ := attributeSet_tables ha
    exact h.of_tables hn hv hs
  | attributeCopy source dest =>
    obtain ⟨hn, hv, hs⟩ := attributeSet_tables ha
    exact h.of_tables hn hv hs
  | attributeDel serial keys =>
    cases ha
    exact h.of_tables rfl rfl rfl
  | policySet node policy =>
    obtain ⟨hn, hv, hs⟩ := policySet_tables ha
    exact h.of_tables hn hv hs

theorem rollups_run : ∀ (ops : List Op) {s s' : Store}, s.Wf → s.Rollups →
    (∀ op ∈ ops, op.isPurge = false) → s.run ops = .ok s' → s'.Wf ∧ s'.Rollups
  | [], _, _, hw, h, _, hr => by cases hr; exact ⟨hw, h⟩
  | op :: ops, s, s', hw, h, hp, hr => by
    simp only [run] at hr
    split at hr
    · rename_i t ht
      exact rollups_run ops (hw.apply ht) (h.apply hw (hp op (List.mem_cons_self _ _)) ht)
        (fun o ho => hp o (List.mem_cons_of_mem _ ho)) hr
    · cases hr

end Store

/-- Every store that a sequence of calls other than `node_purge` and `node_purge_children`
makes of the empty database holds both rollups. -/
theorem rollups_of_run_without_purge {ops : List Op} {s : Store}
    (hp : ∀ op ∈ ops, op.isPurge = false) (h : Store.init.run ops = .ok s) :
    s.SizeRollup ∧ s.PopulationRollup :=
  (Store.rollups_run ops Store.wf_init Store.rollups_init hp h).2.sizeRollup_and_populationRollup

/-- Two files, one moved to another cluster and one removed with its node: the rollups
hold. -/
theorem rollups_of_run_without_purge_files :
    let ops : List Op := [.nodeCreate 0 [97], .nodeCreate 1 [97, 47, 98],
      .nodeCreate 1 [97, 47, 99], .versionCreate 2 "h" 4 none "u" 0 10,
      .versionCreate 3 "k" 7 none "u" 0 11, .versionRecluster 1 2 12, .nodeRemove 3 13]
    (∀ op ∈ ops, op.isPurge = false) ∧
      ∃ s, Store.init.run ops = .ok s ∧ s.SizeRollup ∧ s.PopulationRollup := by
  intro ops
  exact ⟨by decide, _, rfl, @rollups_of_run_without_purge ops _ (by decide) rfl⟩

/-- A file with one version: `node_purge` of it deletes the version and the node, and the
rollups still hold. -/
theorem nodePurge_keeps_rollups_file :
    let ops : List Op := [.nodeCreate 0 [97], .versionCreate 1 "h" 4 none "u" 0 10]
    ∃ s s', Store.init.run ops = .ok s ∧ s.Wf ∧ s.Rollups ∧ s.nodeCountChildren 1 = 0 ∧
      s.nodePurge 1 ⊤ 0 11 = .ok (s', ["h"]) ∧ s'.Rollups ∧ s'.nodes = [⟨0, 0, []⟩] := by
  intro ops
  obtain ⟨s, s', hs, hc, hp, hn⟩ : ∃ s s', Store.init.run ops = .ok s ∧
      s.nodeCountChildren 1 = 0 ∧ s.nodePurge 1 ⊤ 0 11 = .ok (s', ["h"]) ∧
      s'.nodes = [⟨0, 0, []⟩] := ⟨_, _, rfl, rfl, rfl, rfl⟩
  obtain ⟨hw, h⟩ := Store.rollups_run ops Store.wf_init Store.rollups_init (by decide) hs
  exact ⟨s, s', hs, hw, h, hc, hp, h.nodePurge_of_leaf hw hc hp, hn⟩

end Pithos
