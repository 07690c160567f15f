import Pithos.Schema

/-!
# The `keys` projection of the version getters

`version_get_properties` and `node_get_versions` select the eight columns
`serial, node, hash, size, source, mtime, muser, cluster` and, given `keys`, keep for each key
that `propnames` knows the value at the position it names, `r[propnames[k]]`. A position is
read as Python reads an index: a negative one counts from the end, and one past either end
raises `IndexError`. With the default `_propnames`, each key that names a column picks that
column, whatever the other keys, and nothing raises.
-/
namespace Pithos

/-- A value of a column as the driver returns it: an integer, a text or `None`. -/
inductive Value
  | int (z : ℤ)
  | text (t : String)
  | null
  deriving DecidableEq, Repr

/-- The row `select serial, node, hash, size, source, mtime, muser, cluster` returns. -/
def VersionRow.props (v : VersionRow) : List Value :=
  [.int v.serial, .int v.node, .text v.hash, .int v.size, (v.source.map .int).getD .null,
    .int v.mtime, .text v.muser, .int v.cluster]

/-- The column of a version named `k`, as the docstrings name the properties. -/
def VersionRow.column (v : VersionRow) : String → Option Value
  | "serial" => some (.int v.serial)
  | "node" => some (.int v.node)
  | "hash" => some (.text v.hash)
  | "size" => some (.int v.size)
  | "source" => some ((v.source.map .int).getD .null)
  | "mtime" => some (.int v.mtime)
  | "muser" => some (.text v.muser)
  | "cluster" => some (.int v.cluster)
  | _ => none

/-- `_propnames`. -/
def propnames : String → Option ℤ
  | "serial" => some 0
  | "node" => some 1
  | "hash" => some 2
  | "size" => some 3
  | "source" => some 4
  | "mtime" => some 5
  | "muser" => some 6
  | "cluster" => some 7
  | _ => none

/-- Python's `r[i]`: a negative index counts from the end; past either end, `IndexError`,
here `none`. -/
def pyIndex (r : List Value) (i : ℤ) : Option Value :=
  let j := if i < 0 then i + r.length else i
  if 0 ≤ j then r[j.toNat]? else none

/-- `[r[propnames[k]] for k in keys if k in propnames]`, `none` when an index raises. -/
def project (propnames : String → Option ℤ) (keys : List String) (r : List Value) :
    Option (List Value) :=
  (keys.filterMap propnames).mapM (pyIndex r)

namespace Store

/-- `version_get_properties(serial, keys, propnames)`: `none` when the projection raises;
otherwise the row, or `None` when no version has the serial. -/
def versionGetPropertiesKeys (s : Store) (serial : ℤ) (keys : List String)
    (propnames : String → Option ℤ) : Option (Option (List Value)) :=
  match s.versionGetProperties serial with
  | none => some none
  | some v => if keys = [] then some (some v.props) else (project propnames keys v.props).map some

/-- `node_get_versions(node, keys, propnames)`: `none` when the projection raises. -/
def nodeGetVersionsKeys (s : Store) (node : ℤ) (keys : List String)
    (propnames : String → Option ℤ) : Option (List (List Value)) :=
  let r := (s.nodeGetVersions node).map VersionRow.props
  if keys = [] then some r else r.mapM (project propnames keys)

end Store

/-- Each position `_propnames` gives holds the column of that name. -/
theorem pyIndex_propnames (v : VersionRow) (k : String) :
    (propnames k).map (pyIndex v.props) = (v.column k).map some := by
  unfold propnames VersionRow.column
  split <;> rfl

/-- With `_propnames` the projection never raises, and picks the column each key names. -/
theorem project_propnames (v : VersionRow) (keys : List String) :
    project propnames keys v.props = some (keys.filterMap v.column) := by
  induction keys with
  | nil => rfl
  | cons k keys ih =>
    have hk := pyIndex_propnames v k
    unfold project at ih ⊢
    cases hp : propnames k with
    | none =>
      rw [hp, Option.map_none'] at hk
      rw [List.filterMap_cons_none hp, List.filterMap_cons_none (Option.map_eq_none'.1 hk.symm), ih]
    | some i =>
      obtain ⟨c, hc, hi⟩ := Option.map_eq_some'.1 (hk.symm.trans (by rw [hp]; rfl))
      rw [List.filterMap_cons_some hp, List.filterMap_cons_some hc, List.mapM_cons, ih, ← hi]
      rfl

theorem mapM_project_propnames (keys : List String) :
    ∀ vs : List VersionRow, (vs.map VersionRow.props).mapM (project propnames keys) =
      some (vs.map fun v => keys.filterMap v.column)
  | [] => rfl
  | v :: vs => by
    rw [List.map_cons, List.mapM_cons, project_propnames, mapM_project_propnames keys vs]
    rfl

/-- With the default `_propnames`, `version_get_properties(serial, keys)` and
`node_get_versions(node, keys)` never raise. Given keys, each row is the columns the keys
name, in their order, the other keys left out; given none, all eight columns, `hash` among
them. -/
theorem getters_propnames_eq_columns (s : Store) (serial node : ℤ) (keys : List String) :
    s.versionGetPropertiesKeys serial keys propnames =
        some ((s.versionGetProperties serial).map fun v =>
          if keys = [] then v.props else keys.filterMap v.column) ∧
      s.nodeGetVersionsKeys node keys propnames =
        some ((s.nodeGetVersions node).map fun v =>
          if keys = [] then v.props else keys.filterMap v.column) := by
  constructor
  · unfold Store.versionGetPropertiesKeys
    cases s.versionGetProperties serial with
    | none => rfl
    | some v => split_ifs <;> simp [project_propnames, *]
  · unfold Store.nodeGetVersionsKeys
    split_ifs with hk
    · simp [hk]
    · simp only [hk, if_false, mapM_project_propnames]

end Pithos
