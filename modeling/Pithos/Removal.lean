import Pithos.Integrity

/-!
# Deletes at the edges of the tree

`node_remove` of an id that is no node finds no child and no version, and its delete finds
no row: it changes nothing and returns `True`, where its docstring promises `False`.

`node_purge_children(ROOTNODE)` picks its victims among the rows whose parent is `0`, and
`ROOTNODE` is such a row, as its own parent. `node_count_children` leaves it out with
`node != 0`; the purge does not. Once the purge hits a version and the root holds none, the
root is a victim, and the cascade on `parent` takes every node that descends from it, which
is every node when no other node is its own parent.
-/
namespace Pithos

namespace Store

/-- A delete of ids that are no nodes changes nothing. -/
theorem deleteNodes_of_not_hasNode {s : Store} {victims : List ℤ}
    (h : ∀ x ∈ victims, s.hasNode x = false) : s.deleteNodes victims = s := by
  have hv : victims.filter s.hasNode = [] :=
    List.filter_eq_nil_iff.2 fun x hx => by simp [h x hx]
  cases s
  simp [deleteNodes, deleteVersions, hv, cascade_nil]

/-- `node_remove` of an id that is no node, in a store that keeps its foreign keys: the call
returns `True` and leaves the store as it was. -/
theorem nodeRemove_of_not_hasNode {s : Store} (hw : s.Wf) {node : ℤ}
    (hn : s.hasNode node = false) (now : ℕ) : s.nodeRemove node now = .ok (s, true) := by
  -- a child or a version at `node` would name it through a foreign key
  have hc : s.nodeCountChildren node = 0 :=
    List.length_eq_zero.2 <| List.filter_eq_nil_iff.2 fun r hr h => by
      have := hw.parent_key r hr
      rw [(of_decide_eq_true h).1, hn] at this
      cases this
  have hv : s.versions.filter (·.node = node) = [] :=
    List.filter_eq_nil_iff.2 fun v hv h => by
      have := hw.version_node v hv
      rw [of_decide_eq_true h, hn] at this
      cases this
  have hd : s.deleteNodes [node] = s := deleteNodes_of_not_hasNode (by simpa using hn)
  simp [nodeRemove, hc, hv, hd]
  rfl

/-- After `node_create(ROOTNODE, 'a')` and `node_remove` of the new node, a second
`node_remove` of it still returns `True`. -/
theorem nodeRemove_of_not_hasNode_twice :
    let ops : List Op := [.nodeCreate 0 [97], .nodeRemove 1 10]
    ∃ s, init.run ops = .ok s ∧ s.hasNode 1 = false ∧ s.nodeRemove 1 11 = .ok (s, true) := by
  intro ops
  obtain ⟨s, hs, hn⟩ : ∃ s, init.run ops = .ok s ∧ s.hasNode 1 = false := ⟨_, rfl, rfl⟩
  exact ⟨s, hs, hn, nodeRemove_of_not_hasNode (Reachable.init.run ops hs).wf hn 11⟩

/-- A delete that takes `ROOTNODE` takes every node, when no other node is its own parent:
a node's parent then has a smaller id, which the cascade has taken first. -/
theorem Wf.mem_cascade_of_root {s : Store} (hw : s.Wf)
    (hself : ∀ n ∈ s.nodes, n.parent = n.node → n.node = rootNode) {ids : List ℤ}
    (h0 : rootNode ∈ ids) : ∀ n ∈ s.nodes, n.node ∈ cascade s.nodes ids := by
  suffices key : ∀ k : ℕ, ∀ n ∈ s.nodes, n.node.toNat = k → n.node ∈ cascade s.nodes ids from
    fun n hn => key _ n hn rfl
  intro k
  induction k using Nat.strongRecOn with
  | ind k ih =>
    intro n hn hk
    by_cases hn0 : n.node = rootNode
    · exact hn0 ▸ subset_cascade _ _ h0
    · obtain ⟨p, hp, hpn⟩ := List.mem_map.1 (of_decide_eq_true (hw.parent_key n hn))
      have hlt : n.parent < n.node :=
        lt_of_le_of_ne (hw.parent_le n hn) fun he => hn0 (hself n hn he)
      have hp0 := hw.node_nonneg p hp
      have hpc := ih p.node.toNat (by omega) p hp rfl
      exact cascade_closed _ _ n hn (hpn ▸ hpc)

/-- A delete whose cascade holds every node leaves no node, and no version at a node. -/
theorem deleteNodes_clears {s : Store} {victims : List ℤ}
    (hall : ∀ n ∈ s.nodes, n.node ∈ cascade s.nodes (victims.filter s.hasNode))
    (hv : ∀ v ∈ s.versions, s.hasNode v.node) :
    (s.deleteNodes victims).nodes = [] ∧ (s.deleteNodes victims).versions = [] := by
  constructor
  · exact List.filter_eq_nil_iff.2 fun n hn => by simpa using hall n hn
  · refine List.filter_eq_nil_iff.2 fun v hv' => ?_
    obtain ⟨n, hn, hnv⟩ := List.mem_map.1 (of_decide_eq_true (hv v hv'))
    simpa [← hnv] using hall n hn

theorem hasNode_of_nodes_eq {s t : Store} (h : t.nodes = s.nodes) (x : ℤ) :
    t.hasNode x = s.hasNode x := by
  simp only [hasNode, h]

/-- A delete that takes `ROOTNODE` from a store with the nodes of `s` and some of its versions
leaves no node and no version, when no other node of `s` is its own parent. -/
theorem deleteNodes_root_clears {s t : Store} (hw : s.Wf)
    (hself : ∀ n ∈ s.nodes, n.parent = n.node → n.node = rootNode) (hnodes : t.nodes = s.nodes)
    (hvers : ∀ v ∈ t.versions, v ∈ s.versions) (hroot : s.hasNode rootNode) {victims : List ℤ}
    (hv : rootNode ∈ victims) :
    (t.deleteNodes victims).nodes = [] ∧ (t.deleteNodes victims).versions = [] := by
  have h0 : rootNode ∈ victims.filter t.hasNode :=
    List.mem_filter.2 ⟨hv, by rw [hasNode_of_nodes_eq hnodes]; exact hroot⟩
  refine deleteNodes_clears (fun n hn => ?_) fun v hv => ?_
  · rw [hnodes] at hn ⊢
    exact hw.mem_cascade_of_root hself h0 n hn
  · rw [hasNode_of_nodes_eq hnodes]
    exact hw.version_node v (hvers v hv)

/-- `node_purge_children(ROOTNODE)` that purges a version, when the root holds no version and
no other node is its own parent, deletes every node, the root too, and every version. -/
theorem nodePurgeChildren_root_clears {s s' : Store} {before : ℕ∞} {cluster : ℤ} {now : ℕ}
    {hashes : List String} (hw : s.Wf)
    (hself : ∀ n ∈ s.nodes, n.parent = n.node → n.node = rootNode)
    (h0 : s.nodeGetVersions rootNode = [])
    (h : s.nodePurgeChildren rootNode before cluster now = .ok (s', hashes)) (hh : hashes ≠ []) :
    s'.nodes = [] ∧ s'.versions = [] := by
  unfold nodePurgeChildren at h
  dsimp only at h
  split_ifs at h with hz
  · cases h
    exact absurd rfl hh
  obtain ⟨s₁, h₁, h'⟩ := except_bind_eq_ok h
  obtain ⟨s₂, h₂, he⟩ := except_bind_eq_ok h'
  cases he
  have hst := (statisticsUpdate_statsStep h₁).trans (statisticsUpdateAncestors_statsStep h₂)
  -- a version the purge hits lies at a child of the root, so the root row is there
  obtain ⟨v, hv⟩ := List.exists_mem_of_length_pos (Nat.pos_of_ne_zero hz)
  obtain ⟨c, hc, -⟩ := List.mem_map.1 (of_decide_eq_true (List.mem_filter.1 hv).2).1
  have hroot : s.hasNode rootNode :=
    of_decide_eq_true (List.mem_filter.1 hc).2 ▸ hw.parent_key c (List.mem_filter.1 hc).1
  have hnone : ∀ v ∈ s.versions, v.node ≠ rootNode := fun v hv he => by
    simpa [he] using List.filter_eq_nil_iff.1 h0 v hv
  refine deleteNodes_root_clears hw hself (by rw [deleteVersions_nodes, hst.nodes])
    (fun v hv => by
      rw [deleteVersions_versions, hst.versions] at hv
      exact List.mem_of_mem_filter hv) hroot ?_
  -- the root is its own parent and holds no version: a victim
  obtain ⟨r, hr, hr0⟩ := List.mem_map.1 (of_decide_eq_true hroot)
  refine List.mem_map.2 ⟨r, List.mem_filter.2 ⟨by rwa [deleteVersions_nodes, hst.nodes], ?_⟩, hr0⟩
  simp only [decide_eq_true_eq, Bool.not_eq_true', deleteVersions_versions, hst.versions,
    List.any_eq_false]
  refine ⟨hw.root_parent r hr hr0, fun x hx => ?_⟩
  simpa [hr0] using hnone x (List.mem_of_mem_filter hx)

/-- One file under the root: purging the children of `ROOTNODE` deletes the file's version,
then the root with the file, as neither holds a version. -/
theorem nodePurgeChildren_root_clears_file :
    let ops : List Op := [.nodeCreate 0 [97], .versionCreate 1 "h" 1 none "u" 0 10]
    ∃ s s', init.run ops = .ok s ∧ (∀ n ∈ s.nodes, n.parent = n.node → n.node = rootNode) ∧
      s.nodeGetVersions rootNode = [] ∧ s.nodePurgeChildren rootNode ⊤ 0 11 = .ok (s', ["h"]) ∧
      ["h"] ≠ [] ∧ s'.nodes = [] ∧ s'.versions = [] := by
  intro ops
  obtain ⟨s, s', hs, hself, h0, h⟩ : ∃ s s', init.run ops = .ok s ∧
      (∀ n ∈ s.nodes, n.parent = n.node → n.node = rootNode) ∧
      s.nodeGetVersions rootNode = [] ∧ s.nodePurgeChildren rootNode ⊤ 0 11 = .ok (s', ["h"]) :=
    ⟨_, _, rfl, by decide, rfl, rfl⟩
  exact ⟨s, s', hs, hself, h0, h, List.cons_ne_nil _ _,
    nodePurgeChildren_root_clears (Reachable.init.run ops hs).wf hself h0 h (List.cons_ne_nil _ _)⟩

end Store

end Pithos
