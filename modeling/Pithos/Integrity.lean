import Pithos.Tree
import Pithos.Cascade

/-!
# What every reachable store keeps

Besides its keys, a store the calls of `Node` reach keeps the five foreign keys of the
schema; every parent is at most its child, since a new node takes an id above all others
and its parent already exists or is that id; `ROOTNODE` is the only row with id `0`; and
every node with a version has a parent chain that ends, since `version_create` walks it.
`Store.Wf` gathers these facts, and `Reachable.wf` proves them of every reachable store,
one lemma for each kind of write.
-/
namespace Pithos

namespace Store

/-- The invariant of the node store. -/
structure Wf (s : Store) : Prop where
  node_nonneg : ∀ r ∈ s.nodes, 0 ≤ r.node
  root_parent : ∀ r ∈ s.nodes, r.node = 0 → r.parent = 0
  parent_le : ∀ r ∈ s.nodes, r.parent ≤ r.node
  parent_key : ∀ r ∈ s.nodes, s.hasNode r.parent
  version_node : ∀ v ∈ s.versions, s.hasNode v.node
  statistics_node : ∀ r ∈ s.statistics, s.hasNode r.node
  attribute_serial : ∀ a ∈ s.attributes, s.hasVersion a.serial
  policy_node : ∀ r ∈ s.policy, s.hasNode r.node
  version_chain : ∀ v ∈ s.versions, ∃ fuel ch, s.ancestorChain fuel v.node = some ch

theorem wf_init : init.Wf where
  node_nonneg := by simp [init, rootNode]
  root_parent := by simp [init, rootNode]
  parent_le := by simp [init, rootNode]
  parent_key := by simp [init, hasNode, rootNode]
  version_node := by simp [init]
  statistics_node := by simp [init]
  attribute_serial := by simp [init]
  policy_node := by simp [init]
  version_chain := by simp [init]

/-! ## Writes to the statistics -/

/-- A write to the statistics alone, each new row on a node. -/
structure StatsStep (s s' : Store) : Prop where
  nodes : s'.nodes = s.nodes
  versions : s'.versions = s.versions
  attributes : s'.attributes = s.attributes
  policy : s'.policy = s.policy
  statistics : ∀ r ∈ s'.statistics, r ∈ s.statistics ∨ s.hasNode r.node

theorem StatsStep.refl (s : Store) : StatsStep s s :=
  ⟨rfl, rfl, rfl, rfl, fun _ h => .inl h⟩

theorem StatsStep.trans {s t u : Store} (h₁ : StatsStep s t) (h₂ : StatsStep t u) :
    StatsStep s u where
  nodes := h₂.nodes.trans h₁.nodes
  versions := h₂.versions.trans h₁.versions
  attributes := h₂.attributes.trans h₁.attributes
  policy := h₂.policy.trans h₁.policy
  statistics r hr := by
    rcases h₂.statistics r hr with h | h
    · exact h₁.statistics r h
    · exact .inr (by simpa [hasNode, h₁.nodes] using h)

theorem statisticsUpdate_statsStep {s s' : Store} {node population size : ℤ} {mtime : ℕ}
    {cluster : ℤ} (h : s.statisticsUpdate node population size mtime cluster = .ok s') :
    StatsStep s s' := by
  unfold statisticsUpdate at h
  split_ifs at h with hn
  cases h
  refine ⟨rfl, rfl, rfl, rfl, fun r hr => ?_⟩
  rcases List.mem_append.1 hr with hr | hr
  · exact .inl (List.mem_of_mem_filter hr)
  · rw [List.mem_singleton.1 hr]
    exact .inr hn

theorem statisticsUpdateAncestorsFuel_statsStep :
    ∀ {fuel : ℕ} {s s' : Store} {node population size : ℤ} {mtime : ℕ} {cluster : ℤ},
      statisticsUpdateAncestorsFuel fuel s node population size mtime cluster = .ok s' →
        StatsStep s s'
  | 0, _, _, _, _, _, _, _, h => by cases h
  | _ + 1, s, _, _, _, _, _, _, h => by
    rcases statisticsUpdateAncestorsFuel_succ_eq_ok h with
      ⟨-, rfl⟩ | ⟨-, -, rfl⟩ | ⟨_, _, t, -, -, ht, h'⟩
    · exact StatsStep.refl _
    · exact StatsStep.refl _
    · exact (statisticsUpdate_statsStep ht).trans (statisticsUpdateAncestorsFuel_statsStep h')

theorem statisticsUpdateAncestors_statsStep {s s' : Store} {node population size : ℤ}
    {mtime : ℕ} {cluster : ℤ}
    (h : s.statisticsUpdateAncestors node population size mtime cluster = .ok s') :
    StatsStep s s' :=
  statisticsUpdateAncestorsFuel_statsStep h

/-- A walk that ends has followed a chain that ends. -/
theorem ancestorChain_of_walk :
    ∀ {fuel : ℕ} {s s' : Store} {node population size : ℤ} {mtime : ℕ} {cluster : ℤ},
      statisticsUpdateAncestorsFuel fuel s node population size mtime cluster = .ok s' →
        ∃ ch, s.ancestorChain fuel node = some ch
  | 0, _, _, _, _, _, _, _, h => by cases h
  | _ + 1, s, _, _, _, _, _, _, h => by
    rcases statisticsUpdateAncestorsFuel_succ_eq_ok h with
      ⟨h0, -⟩ | ⟨h0, hp, -⟩ | ⟨parent, path, t, h0, hp, ht, h'⟩
    · exact ⟨[], by simp [ancestorChain, h0]⟩
    · exact ⟨[], by simp [ancestorChain, h0, hp]⟩
    · obtain ⟨ch, hch⟩ := ancestorChain_of_walk h'
      rw [ancestorChain_congr (statisticsUpdate_nodes ht)] at hch
      exact ⟨parent :: ch, by simp [ancestorChain, h0, hp, hch]⟩

theorem Wf.of_statsStep {s s' : Store} (hw : s.Wf) (h : StatsStep s s') : s'.Wf := by
  have hn : ∀ x, s'.hasNode x = s.hasNode x := fun x => by simp [hasNode, h.nodes]
  refine ⟨?_, ?_, ?_, ?_, ?_, ?_, ?_, ?_, ?_⟩ <;> simp only [h.nodes, h.versions,
    h.attributes, h.policy, hn, hasVersion, ancestorChain_congr h.nodes]
  · exact hw.node_nonneg
  · exact hw.root_parent
  · exact hw.parent_le
  · exact hw.parent_key
  · exact hw.version_node
  · intro r hr
    rcases h.statistics r hr with hr | hr
    · exact hw.statistics_node r hr
    · exact hr
  · exact hw.attribute_serial
  · exact hw.policy_node
  · exact hw.version_chain

/-! ## Deletes -/

theorem Wf.deleteVersions {s : Store} (hw : s.Wf) (p : VersionRow → Bool) :
    (s.deleteVersions p).Wf := by
  have hc := ancestorChain_congr (deleteVersions_nodes s p)
  refine ⟨hw.node_nonneg, hw.root_parent, hw.parent_le, hw.parent_key,
    fun v hv => hw.version_node v (List.mem_of_mem_filter hv), hw.statistics_node, ?_,
    hw.policy_node, fun v hv => by simpa only [hc] using hw.version_chain v (List.mem_of_mem_filter hv)⟩
  intro a ha
  obtain ⟨ha, hk⟩ := List.mem_filter.1 ha
  obtain ⟨v, hv, hs⟩ : ∃ v ∈ s.versions, v.serial = a.serial := by
    simpa [hasVersion] using hw.attribute_serial a ha
  have hp : p v = false := by
    by_contra hp
    simp at hk
    exact hk v hv (by simpa using hp) hs
  simpa [hasVersion] using ⟨v, ⟨hv, hp⟩, hs⟩

/-- `node_get_properties` after a write that keeps the rows of `nodes` with the id. -/
theorem nodeGetProperties_of_nodes_filter {s s' : Store} {q : NodeRow → Bool}
    (h : s'.nodes = s.nodes.filter q) {x : ℤ} (hx : ∀ r : NodeRow, r.node = x → q r) :
    s'.nodeGetProperties x = s.nodeGetProperties x := by
  unfold nodeGetProperties
  rw [h, List.find?_filter]
  congr 2
  funext r
  by_cases hr : r.node = x <;> simp [hr, hx]

section DeleteNodes

variable {s : Store} {victims : List ℤ}

theorem hasNode_deleteNodes {x : ℤ} :
    (s.deleteNodes victims).hasNode x ↔
      s.hasNode x ∧ x ∉ cascade s.nodes (victims.filter s.hasNode) := by
  simp only [hasNode, deleteNodes, List.mem_map, List.mem_filter, decide_eq_true_eq]
  constructor
  · rintro ⟨r, ⟨hr, hg⟩, rfl⟩
    exact ⟨⟨r, hr, rfl⟩, hg⟩
  · rintro ⟨⟨r, hr, rfl⟩, hg⟩
    exact ⟨r, ⟨hr, hg⟩, rfl⟩

/-- The walk from a node the delete keeps meets only nodes it keeps. -/
theorem ancestorChain_deleteNodes :
    ∀ {fuel : ℕ} {x : ℤ}, x ∉ cascade s.nodes (victims.filter s.hasNode) →
      (s.deleteNodes victims).ancestorChain fuel x = s.ancestorChain fuel x
  | 0, _, _ => rfl
  | fuel + 1, x, hx => by
    have hp : (s.deleteNodes victims).nodeGetProperties x = s.nodeGetProperties x :=
      nodeGetProperties_of_nodes_filter rfl fun r hr => by simpa [hr] using hx
    simp only [ancestorChain, hp]
    split_ifs
    · rfl
    · cases hq : s.nodeGetProperties x with
      | none => rfl
      | some pp =>
        have hpar : pp.1 ∉ cascade s.nodes (victims.filter s.hasNode) := fun hg =>
          hx (cascade_closed _ _ _ (mem_of_nodeGetProperties hq) hg)
        simp only [ancestorChain_deleteNodes hpar]

theorem Wf.deleteNodes (hw : s.Wf) : (s.deleteNodes victims).Wf := by
  have hv := hw.deleteVersions fun v => v.node ∈ cascade s.nodes (victims.filter s.hasNode)
  refine ⟨fun r hr => hw.node_nonneg r (List.mem_of_mem_filter hr),
    fun r hr => hw.root_parent r (List.mem_of_mem_filter hr),
    fun r hr => hw.parent_le r (List.mem_of_mem_filter hr), ?_, ?_, ?_, hv.attribute_serial,
    ?_, ?_⟩
  · intro r hr
    obtain ⟨hr, hg⟩ := List.mem_filter.1 hr
    refine hasNode_deleteNodes.2 ⟨hw.parent_key r hr, fun hp => ?_⟩
    exact (by simpa using hg : r.node ∉ _) (cascade_closed _ _ r hr hp)
  · intro v hv
    obtain ⟨hv, hg⟩ := List.mem_filter.1 hv
    exact hasNode_deleteNodes.2 ⟨hw.version_node v hv, by simpa using hg⟩
  · intro r hr
    obtain ⟨hr, hg⟩ := List.mem_filter.1 hr
    exact hasNode_deleteNodes.2 ⟨hw.statistics_node r hr, by simpa using hg⟩
  · intro r hr
    obtain ⟨hr, hg⟩ := List.mem_filter.1 hr
    exact hasNode_deleteNodes.2 ⟨hw.policy_node r hr, by simpa using hg⟩
  · intro v hv
    obtain ⟨hv, hg⟩ := List.mem_filter.1 hv
    have hx : v.node ∉ cascade s.nodes (victims.filter s.hasNode) := by simpa using hg
    simp only [ancestorChain_deleteNodes hx]
    exact hw.version_chain v hv

end DeleteNodes

/-! ## Inserts -/

theorem nextRowid_pos {ids : List ℤ} (h : ∀ i ∈ ids, 0 ≤ i) : 0 < nextRowid ids := by
  unfold nextRowid
  split
  · exact Int.one_pos
  · rename_i m hm
    have := h m (List.max?_mem (fun a b => max_choice a b) hm)
    omega

theorem nodeGetProperties_of_nodes_append {s s' : Store} {row : NodeRow}
    (h : s'.nodes = s.nodes ++ [row]) {x : ℤ} (hx : s.hasNode x) :
    s'.nodeGetProperties x = s.nodeGetProperties x := by
  obtain ⟨r, hr, rfl⟩ : ∃ r ∈ s.nodes, r.node = x := by simpa [hasNode] using hx
  obtain ⟨r', hr'⟩ := Option.isSome_iff_exists.1
    (List.find?_isSome.2 ⟨r, hr, by simp⟩ : (s.nodes.find? (·.node = r.node)).isSome)
  simp [nodeGetProperties, h, hr']

/-- A new row leaves the chain of every node alone, when every parent is a node. -/
theorem ancestorChain_of_nodes_append {s s' : Store} {row : NodeRow}
    (h : s'.nodes = s.nodes ++ [row]) (hpk : ∀ r ∈ s.nodes, s.hasNode r.parent) :
    ∀ {fuel : ℕ} {x : ℤ}, s.hasNode x → s'.ancestorChain fuel x = s.ancestorChain fuel x
  | 0, _, _ => rfl
  | fuel + 1, x, hx => by
    simp only [ancestorChain, nodeGetProperties_of_nodes_append h hx]
    split_ifs
    · rfl
    · cases hq : s.nodeGetProperties x with
      | none => rfl
      | some pp =>
        simp only [ancestorChain_of_nodes_append h hpk (hpk _ (mem_of_nodeGetProperties hq))]

theorem Wf.of_nodes_append {s t : Store} (hw : s.Wf) {row : NodeRow}
    (hn : t.nodes = s.nodes ++ [row]) (hv : t.versions = s.versions)
    (hs : t.statistics = s.statistics) (ha : t.attributes = s.attributes)
    (hpo : t.policy = s.policy) (h0 : 0 < row.node) (hle : row.parent ≤ row.node)
    (hp : s.hasNode row.parent ∨ row.parent = row.node) : t.Wf := by
  have hk : ∀ x, s.hasNode x → t.hasNode x := fun x hx => by
    simp only [hasNode, hn, List.map_append, List.mem_append, decide_eq_true_eq] at hx ⊢
    exact .inl hx
  refine ⟨?_, ?_, ?_, ?_, ?_, ?_, ?_, ?_, ?_⟩ <;> simp only [hn, hv, hs, ha, hpo,
    List.mem_append, List.mem_singleton]
  · rintro r (hr | rfl)
    · exact hw.node_nonneg r hr
    · exact h0.le
  · rintro r (hr | rfl) h
    · exact hw.root_parent r hr h
    · omega
  · rintro r (hr | rfl)
    · exact hw.parent_le r hr
    · exact hle
  · rintro r (hr | rfl)
    · exact hk _ (hw.parent_key r hr)
    · rcases hp with hp | hp
      · exact hk _ hp
      · simp [hasNode, hn, hp]
  · exact fun v hv => hk _ (hw.version_node v hv)
  · exact fun r hr => hk _ (hw.statistics_node r hr)
  · simpa [hasVersion, hv] using hw.attribute_serial
  · exact fun r hr => hk _ (hw.policy_node r hr)
  · intro v hv
    simp only [ancestorChain_of_nodes_append hn hw.parent_key (hw.version_node v hv)]
    exact hw.version_chain v hv

theorem Wf.nodeCreate {s s' : Store} {parent node : ℤ} {path : List ℕ} (hw : s.Wf)
    (h : s.nodeCreate parent path = .ok (s', node)) : s'.Wf := by
  obtain ⟨rfl, hpar, hn, hv, hs, ha, hpo⟩ := nodeCreate_eq_ok h
  refine hw.of_nodes_append hn hv hs ha hpo (nextRowid_pos fun i hi => ?_) ?_ hpar
  · obtain ⟨r, hr, rfl⟩ := List.mem_map.1 hi
    exact hw.node_nonneg r hr
  · rcases hpar with hpar | hpar
    · exact (lt_nextRowid (by simpa [hasNode] using hpar)).le
    · exact hpar.le

theorem Wf.of_versions_append {s t : Store} (hw : s.Wf) {row : VersionRow}
    (hn : t.nodes = s.nodes) (hv : t.versions = s.versions ++ [row])
    (hs : t.statistics = s.statistics) (ha : t.attributes = s.attributes)
    (hpo : t.policy = s.policy) (hnode : s.hasNode row.node)
    (hch : ∃ fuel ch, s.ancestorChain fuel row.node = some ch) : t.Wf := by
  have hk : ∀ x, t.hasNode x = s.hasNode x := fun x => by simp [hasNode, hn]
  refine ⟨?_, ?_, ?_, ?_, ?_, ?_, ?_, ?_, ?_⟩ <;> simp only [hn, hv, hs, ha, hpo, hk,
    ancestorChain_congr hn, List.mem_append, List.mem_singleton]
  · exact hw.node_nonneg
  · exact hw.root_parent
  · exact hw.parent_le
  · exact hw.parent_key
  · rintro v (hv | rfl)
    · exact hw.version_node v hv
    · exact hnode
  · exact hw.statistics_node
  · intro a ha
    simpa [hasVersion, hv] using .inl (by simpa [hasVersion] using hw.attribute_serial a ha)
  · exact hw.policy_node
  · rintro v (hv | rfl)
    · exact hw.version_chain v hv
    · exact hch

theorem Wf.versionCreate {s s' : Store} {node : ℤ} {hash : String} {size : ℤ}
    {source : Option ℤ} {muser : String} {cluster : ℤ} {now : ℕ} {serial : ℤ} {mtime : ℕ}
    (hw : s.Wf)
    (h : s.versionCreate node hash size source muser cluster now = .ok (s', serial, mtime)) :
    s'.Wf := by
  obtain ⟨hn, -, -, s₁, h₁, h₂, h₃, h₄, h₅, hwalk⟩ := versionCreate_eq_ok h
  obtain ⟨ch, hch⟩ := ancestorChain_of_walk hwalk
  exact (hw.of_versions_append h₁ h₂ h₃ h₄ h₅ hn
    ⟨_, ch, (ancestorChain_congr h₁ _ _).symm.trans hch⟩).of_statsStep
    (statisticsUpdateAncestors_statsStep hwalk)

/-! ## Updates and the other calls -/

/-- A write that leaves `nodes` and `versions` as they are keeps the invariant when the rows
it leaves in the other tables keep their foreign keys. -/
theorem Wf.of_rows {s t : Store} (hw : s.Wf) (hn : t.nodes = s.nodes)
    (hv : t.versions = s.versions) (hs : ∀ r ∈ t.statistics, s.hasNode r.node)
    (ha : ∀ a ∈ t.attributes, s.hasVersion a.serial) (hpo : ∀ r ∈ t.policy, s.hasNode r.node) :
    t.Wf := by
  have hk : ∀ x, t.hasNode x = s.hasNode x := fun x => by simp [hasNode, hn]
  have hkv : ∀ x, t.hasVersion x = s.hasVersion x := fun x => by simp [hasVersion, hv]
  refine ⟨?_, ?_, ?_, ?_, ?_, ?_, ?_, ?_, ?_⟩ <;> simp only [hn, hv, hk, hkv,
    ancestorChain_congr hn]
  · exact hw.node_nonneg
  · exact hw.root_parent
  · exact hw.parent_le
  · exact hw.parent_key
  · exact hw.version_node
  · exact hs
  · exact ha
  · exact hpo
  · exact hw.version_chain

theorem setCluster_serials (s : Store) (serial cluster : ℤ) :
    (s.setCluster serial cluster).versions.map VersionRow.serial =
      s.versions.map VersionRow.serial := by
  show (s.versions.map _).map _ = _
  rw [List.map_map]
  congr 1
  funext v
  by_cases h : v.serial = serial <;> simp [h]

theorem Wf.setCluster {s : Store} (hw : s.Wf) (serial cluster : ℤ) :
    (s.setCluster serial cluster).Wf := by
  have hm : ∀ v' ∈ (s.setCluster serial cluster).versions, ∃ v ∈ s.versions,
      v'.node = v.node := by
    intro v' hv'
    obtain ⟨v, hv, rfl⟩ := List.mem_map.1 hv'
    exact ⟨v, hv, by split_ifs <;> rfl⟩
  have hc : ∀ fuel x, (s.setCluster serial cluster).ancestorChain fuel x =
      s.ancestorChain fuel x := ancestorChain_congr rfl
  refine ⟨hw.node_nonneg, hw.root_parent, hw.parent_le, hw.parent_key, fun v' hv' => ?_,
    hw.statistics_node, fun a ha => ?_, hw.policy_node, fun v' hv' => ?_⟩
  · obtain ⟨v, hv, hn⟩ := hm v' hv'
    exact hn ▸ hw.version_node v hv
  · simpa [hasVersion, setCluster_serials] using hw.attribute_serial a ha
  · obtain ⟨v, hv, hn⟩ := hm v' hv'
    simpa only [hc, hn] using hw.version_chain v hv

theorem foldlM_statsStep {f : Store → ℤ → Except Fault Store}
    (hf : ∀ t c t', f t c = .ok t' → StatsStep t t') :
    ∀ (l : List ℤ) {s s' : Store}, l.foldlM f s = .ok s' → StatsStep s s'
  | [], _, _, h => by cases h; exact StatsStep.refl _
  | c :: l, _, _, h => by
    obtain ⟨t, ht, h'⟩ := except_bind_eq_ok h
    exact (hf _ _ _ ht).trans (foldlM_statsStep hf l h')

theorem mem_foldl_upsertAttribute {serial : ℤ} :
    ∀ (items : List (List ℕ × List ℕ)) (rows : List AttributeRow) {a : AttributeRow},
      a ∈ items.foldl (fun rows kv => upsertAttribute rows ⟨serial, kv.1, kv.2⟩) rows →
        a ∈ rows ∨ a.serial = serial
  | [], _, _, h => .inl h
  | _ :: items, _, _, h => by
    rcases mem_foldl_upsertAttribute items _ h with h | h
    · rcases List.mem_append.1 h with h | h
      · exact .inl (List.mem_of_mem_filter h)
      · exact .inr (by rw [List.mem_singleton.1 h])
    · exact .inr h

theorem mem_foldl_upsertPolicy {node : ℤ} :
    ∀ (policy : List (List ℕ × List ℕ)) (rows : List PolicyRow) {r : PolicyRow},
      r ∈ policy.foldl (fun rows kv => upsertPolicy rows ⟨node, kv.1, kv.2⟩) rows →
        r ∈ rows ∨ r.node = node
  | [], _, _, h => .inl h
  | _ :: policy, _, _, h => by
    rcases mem_foldl_upsertPolicy policy _ h with h | h
    · rcases List.mem_append.1 h with h | h
      · exact .inl (List.mem_of_mem_filter h)
      · exact .inr (by rw [List.mem_singleton.1 h])
    · exact .inr h

theorem Wf.attributeSet {s s' : Store} {serial : ℤ} {items : List (List ℕ × List ℕ)}
    (hw : s.Wf) (h : s.attributeSet serial items = .ok s') : s'.Wf := by
  unfold Store.attributeSet at h
  split_ifs at h with hc
  cases h
  refine hw.of_rows rfl rfl hw.statistics_node (fun a ha => ?_) hw.policy_node
  rcases mem_foldl_upsertAttribute items s.attributes ha with ha | rfl
  · exact hw.attribute_serial a ha
  · by_cases hi : items = []
    · subst hi
      exact hw.attribute_serial a ha
    · simpa [hi] using hc

theorem Wf.attributeDel {s : Store} (hw : s.Wf) (serial : ℤ) (keys : List (List ℕ)) :
    (s.attributeDel serial keys).Wf :=
  hw.of_rows rfl rfl hw.statistics_node
    (fun a ha => hw.attribute_serial a (List.mem_of_mem_filter ha)) hw.policy_node

theorem Wf.policySet {s s' : Store} {node : ℤ} {policy : List (List ℕ × List ℕ)}
    (hw : s.Wf) (h : s.policySet node policy = .ok s') : s'.Wf := by
  unfold Store.policySet at h
  split_ifs at h with hc
  cases h
  refine hw.of_rows rfl rfl hw.statistics_node hw.attribute_serial fun r hr => ?_
  rcases mem_foldl_upsertPolicy policy s.policy hr with hr | rfl
  · exact hw.policy_node r hr
  · by_cases hi : policy = []
    · subst hi
      exact hw.policy_node r hr
    · simpa [hi] using hc

theorem attributeSet_tables {s s' : Store} {serial : ℤ} {items : List (List ℕ × List ℕ)}
    (h : s.attributeSet serial items = .ok s') :
    s'.nodes = s.nodes ∧ s'.versions = s.versions ∧ s'.statistics = s.statistics := by
  unfold attributeSet at h
  split_ifs at h
  cases h
  exact ⟨rfl, rfl, rfl⟩

theorem policySet_tables {s s' : Store} {node : ℤ} {policy : List (List ℕ × List ℕ)}
    (h : s.policySet node policy = .ok s') :
    s'.nodes = s.nodes ∧ s'.versions = s.versions ∧ s'.statistics = s.statistics := by
  unfold policySet at h
  split_ifs at h
  cases h
  exact ⟨rfl, rfl, rfl⟩

/-! ## Every call -/

section Calls

variable {s s' : Store}

theorem Wf.versionRemove {serial : ℤ} {now : ℕ} {hash : Option String} (hw : s.Wf)
    (h : s.versionRemove serial now = .ok (s', hash)) : s'.Wf := by
  rcases versionRemove_eq_ok h with ⟨-, rfl⟩ | ⟨v, s₁, -, h₁, rfl⟩
  · exact hw
  · exact (hw.of_statsStep (statisticsUpdateAncestors_statsStep h₁)).deleteVersions _

theorem Wf.versionRecluster {serial cluster : ℤ} {now : ℕ} (hw : s.Wf)
    (h : s.versionRecluster serial cluster now = .ok s') : s'.Wf := by
  rcases versionRecluster_eq_ok h with rfl | ⟨v, s₁, s₂, -, -, h₁, h₂, rfl⟩
  · exact hw
  · exact ((hw.of_statsStep (statisticsUpdateAncestors_statsStep h₁)).of_statsStep
      (statisticsUpdateAncestors_statsStep h₂)).setCluster _ _

theorem Wf.nodeRemove {node : ℤ} {now : ℕ} {b : Bool} (hw : s.Wf)
    (h : s.nodeRemove node now = .ok (s', b)) : s'.Wf := by
  rcases nodeRemove_eq_ok h with ⟨-, rfl⟩ | ⟨-, s₁, h₁, rfl⟩
  · exact hw
  · exact (hw.of_statsStep (foldlM_statsStep
      (fun _ _ _ ht => statisticsUpdateAncestors_statsStep ht) _ h₁)).deleteNodes

theorem Wf.nodePurge {node : ℤ} {before : ℕ∞} {cluster : ℤ} {now : ℕ} {hashes : List String}
    (hw : s.Wf) (h : s.nodePurge node before cluster now = .ok (s', hashes)) : s'.Wf := by
  rcases nodePurge_eq_ok h with rfl | ⟨s₁, h₁, rfl⟩
  · exact hw
  · exact ((hw.of_statsStep (statisticsUpdateAncestors_statsStep h₁)).deleteVersions _).deleteNodes

theorem Wf.nodePurgeChildren {parent : ℤ} {before : ℕ∞} {cluster : ℤ} {now : ℕ}
    {hashes : List String} (hw : s.Wf)
    (h : s.nodePurgeChildren parent before cluster now = .ok (s', hashes)) : s'.Wf := by
  rcases nodePurgeChildren_eq_ok h with rfl | ⟨_, _, s₁, s₂, _, _, h₁, h₂, rfl⟩
  · exact hw
  · exact (((hw.of_statsStep (statisticsUpdate_statsStep h₁)).of_statsStep
      (statisticsUpdateAncestors_statsStep h₂)).deleteVersions _).deleteNodes

/-- Every call that succeeds keeps the invariant. -/
theorem Wf.apply {op : Op} (hw : s.Wf) (h : s.apply op = .ok s') : s'.Wf := by
  cases op with
  | nodeCreate parent path =>
    obtain ⟨⟨t, _⟩, ht, rfl⟩ := except_map_eq_ok h
    exact hw.nodeCreate ht
  | nodeRemove node now =>
    obtain ⟨⟨t, _⟩, ht, rfl⟩ := except_map_eq_ok h
    exact hw.nodeRemove ht
  | nodePurge node before cluster now =>
    obtain ⟨⟨t, _⟩, ht, rfl⟩ := except_map_eq_ok h
    exact hw.nodePurge ht
  | nodePurgeChildren parent before cluster now =>
    obtain ⟨⟨t, _⟩, ht, rfl⟩ := except_map_eq_ok h
    exact hw.nodePurgeChildren ht
  | versionCreate node hash size source muser cluster now =>
    obtain ⟨⟨t, _, _⟩, ht, rfl⟩ := except_map_eq_ok h
    exact hw.versionCreate ht
  | versionRemove serial now =>
    obtain ⟨⟨t, _⟩, ht, rfl⟩ := except_map_eq_ok h
    exact hw.versionRemove ht
  | versionRecluster serial cluster now => exact hw.versionRecluster h
  | attributeSet serial items => exact hw.attributeSet h
  | attributeDel serial keys =>
    cases h
    exact hw.attributeDel serial keys
  | attributeCopy source dest => exact hw.attributeSet h
  | policySet node policy => exact hw.policySet h

end Calls

end Store

/-- Every reachable store keeps the invariant. -/
theorem Reachable.wf {s : Store} (h : Reachable s) : s.Wf := by
  induction h with
  | init => exact Store.wf_init
  | step _ _ hs ih => exact ih.apply hs

/-- `node_purge` of a node whose child holds a version: the cascade takes the child, and the
store keeps the invariant. -/
theorem reachable_wf_after_purge :
    let ops : List Op := [.nodeCreate 0 [97], .nodeCreate 1 [97, 47, 98],
      .versionCreate 1 "h1" 1 none "u" 0 10, .versionCreate 2 "h2" 5 none "u" 0 11,
      .nodePurge 1 ⊤ 0 12]
    ∃ s, Store.init.run ops = .ok s ∧ s.Wf ∧ s.nodes = [⟨0, 0, []⟩] := by
  intro ops
  exact ⟨_, rfl, Reachable.wf (Reachable.init.run ops rfl), rfl⟩

end Pithos
