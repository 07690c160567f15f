import Pithos.Statistics

/-!
# The operations of `Node`

Each method of `Node` that writes is a function from the store to the store and its
result. A statement the engine refuses raises, and the caller's transaction is rolled back:
such a call is an `.error` and leaves no store. A call that reads the clock takes its
reading `now`. `Reachable` is every store that some finite sequence of these calls, with
any arguments, makes of the store `Node.__init__` leaves.
-/
namespace Pithos

namespace Store

/-- `node_create`: insert `(parent, path)` under the next rowid. The path index refuses a
path in use. The foreign key on `parent` is checked once the row is in, so a `parent` equal
to the new row's own id passes. -/
def nodeCreate (s : Store) (parent : ℤ) (path : List ℕ) : Except Fault (Store × ℤ) :=
  let node := nextRowid (s.nodes.map NodeRow.node)
  if hp : path ∈ s.nodes.map NodeRow.path then .error .constraint
  else if s.hasNode parent ∨ parent = node then
    .ok ({ s with
      nodes := s.nodes ++ [⟨node, parent, path⟩]
      node_key := nodup_map_append_fresh s.node_key (nextRowid_not_mem _)
      path_key := nodup_map_append_fresh s.path_key hp }, node)
  else .error .constraint

/-- `version_create` at clock reading `now`: insert under the next serial, then add one
version of `size` to the statistics of the ancestors. Returns `(serial, mtime)`. -/
def versionCreate (s : Store) (node : ℤ) (hash : String) (size : ℤ) (source : Option ℤ)
    (muser : String) (cluster : ℤ) (now : ℕ) : Except Fault (Store × ℤ × ℕ) :=
  if s.hasNode node then
    let serial := nextRowid (s.versions.map VersionRow.serial)
    let row : VersionRow := ⟨serial, node, hash, size, source, now, muser, cluster⟩
    let s₁ := { s with
      versions := s.versions ++ [row]
      serial_key := nodup_map_append_fresh s.serial_key (nextRowid_not_mem _) }
    (s₁.statisticsUpdateAncestors node 1 size now cluster).map fun s₂ => (s₂, serial, now)
  else .error .constraint

/-- `version_lookup`: the version of `node` with the largest serial before `before`, if it
is in `cluster`. -/
def versionLookup (s : Store) (node : ℤ) (before : ℕ∞) (cluster : ℤ) : Option VersionRow :=
  s.versions.find? fun v => some v.serial = s.maxSerialBefore node before ∧ v.cluster = cluster

/-- `version_remove`: take the version off the ancestors' statistics, then delete it.
Returns its hash. -/
def versionRemove (s : Store) (serial : ℤ) (now : ℕ) : Except Fault (Store × Option String) :=
  match s.versionGetProperties serial with
  | none => .ok (s, none)
  | some v => do
    let s₁ ← s.statisticsUpdateAncestors v.node (-1) (-v.size) now v.cluster
    return (s₁.deleteVersions (·.serial = serial), some v.hash)

/-- `update versions set cluster = ? where serial = ?`. -/
def setCluster (s : Store) (serial cluster : ℤ) : Store :=
  { s with
    versions := s.versions.map fun v => if v.serial = serial then { v with cluster } else v
    serial_key := by
      rw [List.map_map]
      convert s.serial_key using 2
      funext v
      by_cases h : v.serial = serial <;> simp [h] }

/-- `version_recluster`: move the version's statistics from its cluster to `cluster` along
the ancestors, then move the version. -/
def versionRecluster (s : Store) (serial cluster : ℤ) (now : ℕ) : Except Fault Store :=
  match s.versionGetProperties serial with
  | none => .ok s
  | some v =>
    if cluster = v.cluster then .ok s
    else do
      let s₁ ← s.statisticsUpdateAncestors v.node (-1) (-v.size) now v.cluster
      let s₂ ← s₁.statisticsUpdateAncestors v.node 1 v.size now cluster
      return s₂.setCluster serial cluster

/-- The `(population, size)` of the versions `vs`, as `count(serial), sum(size)`. -/
def tally (vs : List VersionRow) : ℤ × ℤ := (vs.length, (vs.map VersionRow.size).sum)

/-- `node_remove`: refuse a node with children; otherwise take each cluster's versions at
the node off the ancestors' statistics, then delete the node. -/
def nodeRemove (s : Store) (node : ℤ) (now : ℕ) : Except Fault (Store × Bool) :=
  if s.nodeCountChildren node ≠ 0 then .ok (s, false)
  else do
    let here := s.versions.filter (·.node = node)
    let s₁ ← (here.map VersionRow.cluster).dedup.foldlM (fun t cluster =>
      let n := tally (here.filter (·.cluster = cluster))
      t.statisticsUpdateAncestors node (-n.1) (-n.2) now cluster) s
    return (s₁.deleteNodes [node], true)

/-- `node_purge`: delete the versions of `node` in `cluster` up to `before`, taking them off
the ancestors' statistics, and delete the node if no version is left at it. -/
def nodePurge (s : Store) (node : ℤ) (before : ℕ∞) (cluster : ℤ) (now : ℕ) :
    Except Fault (Store × List String) :=
  let hit : VersionRow → Bool := fun v => v.node = node ∧ v.cluster = cluster ∧ v.mtime ≤ before
  let vs := s.versions.filter hit
  if vs.length = 0 then .ok (s, [])
  else do
    let s₁ ← s.statisticsUpdateAncestors node (-(tally vs).1) (-(tally vs).2) now cluster
    let s₂ := s₁.deleteVersions hit
    let victims := if s₂.versions.any (·.node = node) then [] else [node]
    return (s₂.deleteNodes victims, vs.map VersionRow.hash)

/-- `node_purge_children`: delete the versions in `cluster` up to `before` at the children
of `parent`, taking them off `parent`'s statistics and, through the walk from `parent`, off
its ancestors'; then delete each child with no version left. -/
def nodePurgeChildren (s : Store) (parent : ℤ) (before : ℕ∞) (cluster : ℤ) (now : ℕ) :
    Except Fault (Store × List String) :=
  let children := (s.nodes.filter (·.parent = parent)).map NodeRow.node
  let hit : VersionRow → Bool := fun v =>
    v.node ∈ children ∧ v.cluster = cluster ∧ v.mtime ≤ before
  let vs := s.versions.filter hit
  if vs.length = 0 then .ok (s, [])
  else do
    let s₁ ← s.statisticsUpdate parent (-(tally vs).1) (-(tally vs).2) now cluster
    let s₂ ← s₁.statisticsUpdateAncestors parent (-(tally vs).1) (-(tally vs).2) now cluster
    let s₃ := s₂.deleteVersions hit
    let victims := (s₃.nodes.filter fun r =>
      r.parent = parent ∧ !(s₃.versions.any (·.node = r.node))).map NodeRow.node
    return (s₃.deleteNodes victims, vs.map VersionRow.hash)

/-- `insert or replace` of an attribute row. -/
def upsertAttribute (rows : List AttributeRow) (r : AttributeRow) : List AttributeRow :=
  rows.filter (fun x => !(x.serial = r.serial ∧ x.key = r.key)) ++ [r]

theorem nodup_foldl_upsertAttribute {serial : ℤ} :
    ∀ (items : List (List ℕ × List ℕ)) {rows : List AttributeRow},
      (rows.map fun a => (a.serial, a.key)).Nodup →
        ((items.foldl (fun rows kv => upsertAttribute rows ⟨serial, kv.1, kv.2⟩) rows).map
          fun a => (a.serial, a.key)).Nodup
  | [], _, h => h
  | _ :: items, _, h => nodup_foldl_upsertAttribute items <|
    nodup_map_replace h fun x hx he => by
      simp only [Prod.mk.injEq] at he
      simp [he] at hx

/-- `attribute_get`: the `(key, value)` pairs of the version, all or those of `keys`. -/
def attributeGet (s : Store) (serial : ℤ) (keys : List (List ℕ)) : List (List ℕ × List ℕ) :=
  (s.attributes.filter fun a => a.serial = serial ∧ (keys = [] ∨ a.key ∈ keys)).map
    fun a => (a.key, a.value)

/-- `attribute_set`: upsert each pair; the foreign key on `serial` refuses them all when
the version does not exist. -/
def attributeSet (s : Store) (serial : ℤ) (items : List (List ℕ × List ℕ)) :
    Except Fault Store :=
  if items ≠ [] ∧ !s.hasVersion serial then .error .constraint
  else
    .ok { s with
      attributes := items.foldl (fun rows kv => upsertAttribute rows ⟨serial, kv.1, kv.2⟩)
        s.attributes
      attributes_key := nodup_foldl_upsertAttribute items s.attributes_key }

/-- `attribute_del`: delete the version's attributes, all or those of `keys`. -/
def attributeDel (s : Store) (serial : ℤ) (keys : List (List ℕ)) : Store :=
  { s with
    attributes := s.attributes.filter fun a => !(a.serial = serial ∧ (keys = [] ∨ a.key ∈ keys))
    attributes_key := nodup_map_filter _ s.attributes_key }

/-- `attribute_copy`: upsert the attributes of `source` into `dest`. -/
def attributeCopy (s : Store) (source dest : ℤ) : Except Fault Store :=
  s.attributeSet dest ((s.attributes.filter (·.serial = source)).map fun a => (a.key, a.value))

/-- `insert or replace` of a policy row. -/
def upsertPolicy (rows : List PolicyRow) (r : PolicyRow) : List PolicyRow :=
  rows.filter (fun x => !(x.node = r.node ∧ x.key = r.key)) ++ [r]

theorem nodup_foldl_upsertPolicy {node : ℤ} :
    ∀ (policy : List (List ℕ × List ℕ)) {rows : List PolicyRow},
      (rows.map fun r => (r.node, r.key)).Nodup →
        ((policy.foldl (fun rows kv => upsertPolicy rows ⟨node, kv.1, kv.2⟩) rows).map
          fun r => (r.node, r.key)).Nodup
  | [], _, h => h
  | _ :: policy, _, h => nodup_foldl_upsertPolicy policy <|
    nodup_map_replace h fun x hx he => by
      simp only [Prod.mk.injEq] at he
      simp [he] at hx

/-- `policy_get`. -/
def policyGet (s : Store) (node : ℤ) : List (List ℕ × List ℕ) :=
  (s.policy.filter (·.node = node)).map fun r => (r.key, r.value)

/-- `policy_set`: upsert each pair of the policy; the foreign key on `node` refuses them all
when the node does not exist. -/
def policySet (s : Store) (node : ℤ) (policy : List (List ℕ × List ℕ)) : Except Fault Store :=
  if policy ≠ [] ∧ !s.hasNode node then .error .constraint
  else
    .ok { s with
      policy := policy.foldl (fun rows kv => upsertPolicy rows ⟨node, kv.1, kv.2⟩) s.policy
      policy_key := nodup_foldl_upsertPolicy policy s.policy_key }

/-! ### What a call that succeeds has done -/

section Spec

variable {s s' : Store}

theorem nodeCreate_eq_ok {parent node : ℤ} {path : List ℕ}
    (h : s.nodeCreate parent path = .ok (s', node)) :
    node = nextRowid (s.nodes.map NodeRow.node) ∧ (s.hasNode parent ∨ parent = node) ∧
      s'.nodes = s.nodes ++ [⟨node, parent, path⟩] ∧ s'.versions = s.versions ∧
      s'.statistics = s.statistics ∧ s'.attributes = s.attributes ∧ s'.policy = s.policy := by
  rw [nodeCreate] at h
  split at h
  · cases h
  split_ifs at h with hpar
  cases h
  exact ⟨rfl, hpar, rfl, rfl, rfl, rfl, rfl⟩

theorem versionCreate_eq_ok {node : ℤ} {hash : String} {size : ℤ} {source : Option ℤ}
    {muser : String} {cluster : ℤ} {now : ℕ} {serial : ℤ} {mtime : ℕ}
    (h : s.versionCreate node hash size source muser cluster now = .ok (s', serial, mtime)) :
    s.hasNode node ∧ serial = nextRowid (s.versions.map VersionRow.serial) ∧ mtime = now ∧
      ∃ s₁ : Store, s₁.nodes = s.nodes ∧
        s₁.versions = s.versions ++ [⟨serial, node, hash, size, source, now, muser, cluster⟩] ∧
        s₁.statistics = s.statistics ∧ s₁.attributes = s.attributes ∧ s₁.policy = s.policy ∧
        s₁.statisticsUpdateAncestors node 1 size now cluster = .ok s' := by
  unfold versionCreate at h
  split_ifs at h with hn
  obtain ⟨s₂, hw₂, he⟩ := except_map_eq_ok h
  cases he
  refine ⟨hn, rfl, rfl, _, ?_, ?_, ?_, ?_, ?_, hw₂⟩ <;> rfl

theorem versionRemove_eq_ok {serial : ℤ} {now : ℕ} {hash : Option String}
    (h : s.versionRemove serial now = .ok (s', hash)) :
    (s.versionGetProperties serial = none ∧ s' = s) ∨
      ∃ v s₁, s.versionGetProperties serial = some v ∧
        s.statisticsUpdateAncestors v.node (-1) (-v.size) now v.cluster = .ok s₁ ∧
        s' = s₁.deleteVersions (·.serial = serial) := by
  unfold versionRemove at h
  split at h
  · cases h
    exact .inl ⟨‹_›, rfl⟩
  · rename_i v hv
    obtain ⟨s₁, h₁, he⟩ := except_bind_eq_ok h
    cases he
    exact .inr ⟨v, s₁, hv, h₁, rfl⟩

theorem versionRecluster_eq_ok {serial cluster : ℤ} {now : ℕ}
    (h : s.versionRecluster serial cluster now = .ok s') :
    s' = s ∨ ∃ v s₁ s₂, s.versionGetProperties serial = some v ∧ cluster ≠ v.cluster ∧
      s.statisticsUpdateAncestors v.node (-1) (-v.size) now v.cluster = .ok s₁ ∧
      s₁.statisticsUpdateAncestors v.node 1 v.size now cluster = .ok s₂ ∧
      s' = s₂.setCluster serial cluster := by
  unfold versionRecluster at h
  split at h
  · cases h; exact .inl rfl
  · rename_i v hv
    split_ifs at h with hc
    · cases h; exact .inl rfl
    · obtain ⟨s₁, h₁, h'⟩ := except_bind_eq_ok h
      obtain ⟨s₂, h₂, he⟩ := except_bind_eq_ok h'
      cases he
      exact .inr ⟨v, s₁, s₂, hv, hc, h₁, h₂, rfl⟩

theorem nodeRemove_eq_ok {node : ℤ} {now : ℕ} {b : Bool}
    (h : s.nodeRemove node now = .ok (s', b)) :
    (s.nodeCountChildren node ≠ 0 ∧ s' = s) ∨
      s.nodeCountChildren node = 0 ∧ ∃ s₁,
        ((s.versions.filter (·.node = node)).map VersionRow.cluster).dedup.foldlM
          (fun t c => t.statisticsUpdateAncestors node
            (-(tally ((s.versions.filter (·.node = node)).filter (·.cluster = c))).1)
            (-(tally ((s.versions.filter (·.node = node)).filter (·.cluster = c))).2) now c) s =
          .ok s₁ ∧ s' = s₁.deleteNodes [node] := by
  unfold nodeRemove at h
  split_ifs at h with hc
  · cases h
    exact .inl ⟨hc, rfl⟩
  · obtain ⟨s₁, h₁, he⟩ := except_bind_eq_ok h
    cases he
    exact .inr ⟨not_not.1 hc, s₁, h₁, rfl⟩

/-- `node_purge` takes the versions it hits off the ancestors' statistics, deletes them, and
deletes the node if no version is left at it. -/
theorem nodePurge_eq_ok {node : ℤ} {before : ℕ∞} {cluster : ℤ} {now : ℕ}
    {hashes : List String} (h : s.nodePurge node before cluster now = .ok (s', hashes)) :
    let hit : VersionRow → Bool := fun v =>
      v.node = node ∧ v.cluster = cluster ∧ v.mtime ≤ before
    s' = s ∨ ∃ s₁, s.statisticsUpdateAncestors node (-(tally (s.versions.filter hit)).1)
        (-(tally (s.versions.filter hit)).2) now cluster = .ok s₁ ∧
      s' = (s₁.deleteVersions hit).deleteNodes
        (if (s₁.deleteVersions hit).versions.any (·.node = node) then [] else [node]) := by
  unfold nodePurge at h
  dsimp only at h ⊢
  split_ifs at h
  · cases h
    exact .inl rfl
  · obtain ⟨s₁, h₁, he⟩ := except_bind_eq_ok h
    cases he
    exact .inr ⟨s₁, h₁, rfl⟩

/-- `node_purge_children` updates the parent and walks from it with the same deltas, then
deletes versions and nodes. -/
theorem nodePurgeChildren_eq_ok {parent : ℤ} {before : ℕ∞} {cluster : ℤ} {now : ℕ}
    {hashes : List String} (h : s.nodePurgeChildren parent before cluster now = .ok (s', hashes)) :
    s' = s ∨ ∃ population size s₁ s₂ p victims,
      s.statisticsUpdate parent population size now cluster = .ok s₁ ∧
        s₁.statisticsUpdateAncestors parent population size now cluster = .ok s₂ ∧
        s' = (s₂.deleteVersions p).deleteNodes victims := by
  unfold nodePurgeChildren at h
  dsimp only at h
  split_ifs at h
  · cases h
    exact .inl rfl
  · obtain ⟨s₁, h₁, h'⟩ := except_bind_eq_ok h
    obtain ⟨s₂, h₂, he⟩ := except_bind_eq_ok h'
    cases he
    exact .inr ⟨_, _, s₁, s₂, _, _, h₁, h₂, rfl⟩

end Spec

end Store

/-- A call of a method of `Node` that writes, with its arguments and clock reading. -/
inductive Op
  | nodeCreate (parent : ℤ) (path : List ℕ)
  | nodeRemove (node : ℤ) (now : ℕ)
  | nodePurge (node : ℤ) (before : ℕ∞) (cluster : ℤ) (now : ℕ)
  | nodePurgeChildren (parent : ℤ) (before : ℕ∞) (cluster : ℤ) (now : ℕ)
  | versionCreate (node : ℤ) (hash : String) (size : ℤ) (source : Option ℤ) (muser : String)
      (cluster : ℤ) (now : ℕ)
  | versionRemove (serial : ℤ) (now : ℕ)
  | versionRecluster (serial cluster : ℤ) (now : ℕ)
  | attributeSet (serial : ℤ) (items : List (List ℕ × List ℕ))
  | attributeDel (serial : ℤ) (keys : List (List ℕ))
  | attributeCopy (source dest : ℤ)
  | policySet (node : ℤ) (policy : List (List ℕ × List ℕ))

namespace Store

/-- The store after one call. -/
def apply (s : Store) : Op → Except Fault Store
  | .nodeCreate parent path => (s.nodeCreate parent path).map Prod.fst
  | .nodeRemove node now => (s.nodeRemove node now).map Prod.fst
  | .nodePurge node before cluster now => (s.nodePurge node before cluster now).map Prod.fst
  | .nodePurgeChildren parent before cluster now =>
    (s.nodePurgeChildren parent before cluster now).map Prod.fst
  | .versionCreate node hash size source muser cluster now =>
    (s.versionCreate node hash size source muser cluster now).map Prod.fst
  | .versionRemove serial now => (s.versionRemove serial now).map Prod.fst
  | .versionRecluster serial cluster now => s.versionRecluster serial cluster now
  | .attributeSet serial items => s.attributeSet serial items
  | .attributeDel serial keys => .ok (s.attributeDel serial keys)
  | .attributeCopy source dest => s.attributeCopy source dest
  | .policySet node policy => s.policySet node policy

/-- The store after a sequence of calls, each on the store the one before leaves. -/
def run (s : Store) : List Op → Except Fault Store
  | [] => .ok s
  | op :: ops => match s.apply op with
    | .ok s' => s'.run ops
    | .error e => .error e

end Store

/-- The stores some finite sequence of calls makes of `Store.init`. -/
inductive Reachable : Store → Prop
  | init : Reachable Store.init
  | step {s s' : Store} (op : Op) : Reachable s → s.apply op = .ok s' → Reachable s'

theorem Reachable.run {s s' : Store} (h : Reachable s) (ops : List Op)
    (hr : s.run ops = .ok s') : Reachable s' := by
  induction ops generalizing s with
  | nil => cases hr; exact h
  | cons op ops ih =>
    simp only [Store.run] at hr
    split at hr
    · exact ih (h.step op ‹_›) hr
    · cases hr

end Pithos
