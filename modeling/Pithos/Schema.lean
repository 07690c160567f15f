import Pithos.Text
import Mathlib.Data.ENat.Lattice
import Mathlib.Order.CompleteBooleanAlgebra
import Mathlib.Order.CompletePartialOrder
import Mathlib.Algebra.Order.Ring.Int
import Mathlib.Data.List.Dedup
import Mathlib.Data.List.MinMax

/-!
# The tables of the node store

`Node.__init__` creates five tables. Each is a list of rows; the store carries the primary
keys and the unique path index as fields, since the engine refuses any statement that
would break them. Foreign keys are checked by the statements that insert rows, and
`on delete cascade` is the closure `cascade` below. Times are clock readings in `ℕ`; a
`before` bound is in `ℕ∞`, whose `⊤` is the default `inf`.
-/
namespace Pithos

/-- `ROOTNODE`. -/
def rootNode : ℤ := 0

/-- A row of `nodes`. -/
structure NodeRow where
  node : ℤ
  parent : ℤ
  path : List ℕ
  deriving DecidableEq, Repr

/-- A row of `versions`. -/
structure VersionRow where
  serial : ℤ
  node : ℤ
  hash : String
  size : ℤ
  source : Option ℤ
  mtime : ℕ
  muser : String
  cluster : ℤ
  deriving DecidableEq, Repr

/-- A row of `statistics`. -/
structure StatisticsRow where
  node : ℤ
  population : ℤ
  size : ℤ
  mtime : ℕ
  cluster : ℤ
  deriving DecidableEq, Repr

/-- A row of `attributes`. -/
structure AttributeRow where
  serial : ℤ
  key : List ℕ
  value : List ℕ
  deriving DecidableEq, Repr

/-- A row of `policy`. -/
structure PolicyRow where
  node : ℤ
  key : List ℕ
  value : List ℕ
  deriving DecidableEq, Repr

/-- What a call can end in besides a result: a statement refused by a constraint, the
`RuntimeError` of `strnextling`, the `OperationalError` of a malformed statement, or a loop
that never ends. -/
inductive Fault
  | constraint
  | runtimeError
  | operationalError
  | diverges
  deriving DecidableEq, Repr

/-- The database: the five tables, with the primary keys `nodes.node`, `versions.serial`,
`(node, cluster)` of `statistics`, `(serial, key)` of `attributes` and `(node, key)` of
`policy`, and the unique index on `nodes.path`. An `insert or replace` drops the row with the
new row's key, and a delete keeps the keys, so each write proves them for the rows it
builds. -/
structure Store where
  nodes : List NodeRow
  versions : List VersionRow
  statistics : List StatisticsRow
  attributes : List AttributeRow
  policy : List PolicyRow
  node_key : (nodes.map NodeRow.node).Nodup
  path_key : (nodes.map NodeRow.path).Nodup
  serial_key : (versions.map VersionRow.serial).Nodup
  statistics_key : (statistics.map fun r => (r.node, r.cluster)).Nodup
  attributes_key : (attributes.map fun a => (a.serial, a.key)).Nodup
  policy_key : (policy.map fun r => (r.node, r.key)).Nodup

theorem except_map_eq_ok {α β ε : Type} {f : α → β} {x : Except ε α} {b : β}
    (h : x.map f = .ok b) : ∃ a, x = .ok a ∧ f a = b := by
  cases x with
  | error e => cases h
  | ok a => exact ⟨a, rfl, by simpa [Except.map] using h⟩

theorem except_bind_eq_ok {α β ε : Type} {x : Except ε α} {f : α → Except ε β} {b : β}
    (h : x >>= f = .ok b) : ∃ a, x = .ok a ∧ f a = .ok b := by
  cases x with
  | error e => cases h
  | ok a => exact ⟨a, rfl, h⟩

theorem nodup_map_filter {α β : Type} {f : α → β} {l : List α} (p : α → Bool)
    (h : (l.map f).Nodup) : ((l.filter p).map f).Nodup :=
  h.sublist ((List.filter_sublist l).map f)

theorem nodup_map_append_fresh {α β : Type} {f : α → β} {l : List α} {x : α}
    (h : (l.map f).Nodup) (hx : f x ∉ l.map f) : ((l ++ [x]).map f).Nodup := by
  simpa [List.nodup_append, hx] using h

/-- An `insert or replace`: the rows left have keys other than the new row's. -/
theorem nodup_map_replace {α β : Type} {k : α → β} {l : List α} {p : α → Bool} {r : α}
    (h : (l.map k).Nodup) (hp : ∀ x, p x = true → k x ≠ k r) :
    ((l.filter p ++ [r]).map k).Nodup :=
  nodup_map_append_fresh (nodup_map_filter p h) fun hm => by
    obtain ⟨x, hx, he⟩ := List.mem_map.1 hm
    exact hp x (List.mem_filter.1 hx).2 he

/-- The rowid SQLite gives a new row of an `integer primary key` table: one more than the
largest, or `1` in an empty table. -/
def nextRowid (ids : List ℤ) : ℤ :=
  match ids.max? with
  | none => 1
  | some m => m + 1

theorem lt_nextRowid {ids : List ℤ} {i : ℤ} (h : i ∈ ids) : i < nextRowid ids := by
  unfold nextRowid
  split
  · simp_all
  · rename_i m hm
    have := (List.max?_le_iff (fun _ _ _ => max_le_iff) hm).1 le_rfl i h
    omega

theorem nextRowid_not_mem (ids : List ℤ) : nextRowid ids ∉ ids :=
  fun h => lt_irrefl _ (lt_nextRowid h)

namespace Store

/-- The store `Node.__init__` leaves in an empty database: `ROOTNODE`, its own parent. -/
def init : Store where
  nodes := [⟨rootNode, rootNode, []⟩]
  versions := []
  statistics := []
  attributes := []
  policy := []
  node_key := by simp
  path_key := by simp
  serial_key := by simp
  statistics_key := by simp
  attributes_key := by simp
  policy_key := by simp

/-- `node_get_properties`: the node's `(parent, path)`. -/
def nodeGetProperties (s : Store) (node : ℤ) : Option (ℤ × List ℕ) :=
  (s.nodes.find? (·.node = node)).map fun r => (r.parent, r.path)

/-- `node_lookup`: the node of a path. -/
def nodeLookup (s : Store) (path : List ℕ) : Option ℤ :=
  (s.nodes.find? (·.path = path)).map NodeRow.node

/-- `node_get_versions` with no keys: the rows of `versions` at `node`. -/
def nodeGetVersions (s : Store) (node : ℤ) : List VersionRow :=
  s.versions.filter (·.node = node)

/-- `node_count_children`: the nodes whose parent is `node`, `ROOTNODE` not counted. -/
def nodeCountChildren (s : Store) (node : ℤ) : ℕ :=
  (s.nodes.filter fun r => r.parent = node ∧ r.node ≠ 0).length

/-- `version_get_properties` with no keys. -/
def versionGetProperties (s : Store) (serial : ℤ) : Option VersionRow :=
  s.versions.find? (·.serial = serial)

/-- `select max(serial) from versions where node = ? and mtime < ?`. -/
def maxSerialBefore (s : Store) (node : ℤ) (before : ℕ∞) : Option ℤ :=
  ((s.versions.filter fun v => v.node = node ∧ (v.mtime : ℕ∞) < before).map
    VersionRow.serial).max?

/-- The version of `node` with the largest serial among those before `before`. -/
def latestVersion (s : Store) (node : ℤ) (before : ℕ∞) : Option VersionRow :=
  (s.versions.filter fun v => v.node = node ∧ (v.mtime : ℕ∞) < before).argmax VersionRow.serial

/-- `statistics_get`. -/
def statisticsGet (s : Store) (node : ℤ) (cluster : ℤ) : Option StatisticsRow :=
  s.statistics.find? fun r => r.node = node ∧ r.cluster = cluster

/-- Whether `node` is a key of `nodes`, which a foreign key on it asks for. -/
def hasNode (s : Store) (node : ℤ) : Bool := node ∈ s.nodes.map NodeRow.node

/-- Whether `serial` is a key of `versions`. -/
def hasVersion (s : Store) (serial : ℤ) : Bool := serial ∈ s.versions.map VersionRow.serial

/-- `delete from versions where ...`, with the cascade to `attributes`. -/
def deleteVersions (s : Store) (p : VersionRow → Bool) : Store :=
  { s with
    versions := s.versions.filter (fun v => !p v)
    attributes := s.attributes.filter fun a =>
      !(s.versions.any fun v => p v ∧ v.serial = a.serial)
    serial_key := nodup_map_filter _ s.serial_key
    attributes_key := nodup_map_filter _ s.attributes_key }

/-- One round of `on delete cascade` on `nodes.parent`: add the children of the ids. -/
def cascadeStep (nodes : List NodeRow) (ids : List ℤ) : List ℤ :=
  ids ++ ((nodes.filter fun r => r.parent ∈ ids ∧ r.node ∉ ids).map NodeRow.node)

/-- The nodes a delete of `ids` removes: the ids and, by cascade, all their descendants.
`nodes.length` rounds reach the closure, as each round that changes anything adds a node. -/
def cascade (nodes : List NodeRow) (ids : List ℤ) : List ℤ :=
  (cascadeStep nodes)^[nodes.length] ids

/-- `delete from nodes where node in (...)` for the existing ids among `victims`, with the
cascade through `nodes`, `versions`, `attributes`, `statistics` and `policy`. -/
def deleteNodes (s : Store) (victims : List ℤ) : Store :=
  let gone := cascade s.nodes (victims.filter s.hasNode)
  let s' := s.deleteVersions fun v => v.node ∈ gone
  { s' with
    nodes := s.nodes.filter fun r => r.node ∉ gone
    statistics := s.statistics.filter fun r => r.node ∉ gone
    policy := s.policy.filter fun r => r.node ∉ gone
    node_key := nodup_map_filter _ s.node_key
    path_key := nodup_map_filter _ s.path_key
    statistics_key := nodup_map_filter _ s.statistics_key
    policy_key := nodup_map_filter _ s.policy_key }

theorem maxSerialBefore_eq_some_iff {s : Store} {node : ℤ} {before : ℕ∞} {m : ℤ} :
    s.maxSerialBefore node before = some m ↔
      m ∈ (s.versions.filter fun v => v.node = node ∧ (v.mtime : ℕ∞) < before).map
        VersionRow.serial ∧
      ∀ v ∈ s.versions, v.node = node → (v.mtime : ℕ∞) < before → v.serial ≤ m := by
  unfold maxSerialBefore
  constructor
  · intro h
    refine ⟨List.max?_mem (fun a b => max_choice a b) h, fun v hv hn ht => ?_⟩
    exact (List.max?_le_iff (fun _ _ _ => max_le_iff) h).1 le_rfl _
      (List.mem_map_of_mem _ (List.mem_filter.2 ⟨hv, by simp [hn, ht]⟩))
  · rintro ⟨hm, hle⟩
    obtain ⟨m', hm'⟩ := Option.isSome_iff_exists.1 (List.isSome_max?_of_mem hm)
    have h₁ : m ≤ m' := (List.max?_le_iff (fun _ _ _ => max_le_iff) hm').1 le_rfl _ hm
    obtain ⟨w, hw, rfl⟩ := List.mem_map.1 (List.max?_mem (fun a b => max_choice a b) hm')
    simp only [List.mem_filter, decide_eq_true_eq] at hw
    rw [hm', le_antisymm h₁ (hle w hw.1 hw.2.1 hw.2.2)]

/-- The latest version before `before` is the version whose serial the query's
`max(serial)` subquery returns. -/
theorem latestVersion_eq_some_iff {s : Store} {node : ℤ} {before : ℕ∞} {v : VersionRow} :
    s.latestVersion node before = some v ↔
      v ∈ s.versions ∧ v.node = node ∧ some v.serial = s.maxSerialBefore node before := by
  have inj := List.inj_on_of_nodup_map s.serial_key
  unfold latestVersion
  constructor
  · intro h
    have hv := List.mem_filter.1 (List.argmax_mem h)
    simp only [decide_eq_true_eq] at hv
    refine ⟨hv.1, hv.2.1, (maxSerialBefore_eq_some_iff.2 ⟨List.mem_map_of_mem _
      (List.mem_filter.2 ⟨hv.1, by simp [hv.2]⟩), fun w hw hn ht => ?_⟩).symm⟩
    exact List.le_of_mem_argmax (List.mem_filter.2 ⟨hw, by simp [hn, ht]⟩) h
  · rintro ⟨hv, hn, hmax⟩
    obtain ⟨hm, hle⟩ := maxSerialBefore_eq_some_iff.1 hmax.symm
    obtain ⟨w, hw, hws⟩ := List.mem_map.1 hm
    have hwv : w = v := inj (List.mem_filter.1 hw).1 hv hws
    subst hwv
    obtain ⟨m, hm'⟩ : ∃ m, (s.versions.filter fun v => v.node = node ∧
        (v.mtime : ℕ∞) < before).argmax VersionRow.serial = some m :=
      Option.ne_none_iff_exists'.1 fun h => List.ne_nil_of_mem hw (List.argmax_eq_none.1 h)
    have hmF := List.mem_filter.1 (List.argmax_mem hm')
    simp only [decide_eq_true_eq] at hmF
    have : m.serial = w.serial :=
      le_antisymm (hle m hmF.1 hmF.2.1 hmF.2.2) (List.le_of_mem_argmax hw hm')
    rw [hm', inj hmF.1 hv this]

theorem mem_of_versionGetProperties {s : Store} {serial : ℤ} {v : VersionRow}
    (h : s.versionGetProperties serial = some v) : v ∈ s.versions ∧ v.serial = serial :=
  ⟨List.mem_of_find?_eq_some h, by simpa using List.find?_some h⟩

@[simp] theorem deleteVersions_nodes (s : Store) (p : VersionRow → Bool) :
    (s.deleteVersions p).nodes = s.nodes := rfl

@[simp] theorem deleteVersions_versions (s : Store) (p : VersionRow → Bool) :
    (s.deleteVersions p).versions = s.versions.filter (fun v => !p v) := rfl

@[simp] theorem deleteVersions_statistics (s : Store) (p : VersionRow → Bool) :
    (s.deleteVersions p).statistics = s.statistics := rfl

end Store

end Pithos
