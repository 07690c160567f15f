import Pithos.Filters
import Pithos.Node
import Mathlib.Data.List.Sort

/-!
# `latest_version_list`

The listing query selects the `(path, serial)` pairs of the latest versions before `before`
at the children of `parent`, outside `except_cluster`, with a path in
`(start, strnextling(prefix))`, in path order. Without a delimiter its first `limit` rows
are the answer. With one, the `while True` loop reads the rows one at a time, keeps the
paths with no delimiter after the prefix, or only one at their end, and reports each
other path's common prefix once, re-running the query above `strnextling` of it. A filter
that `_construct_filters` turns into a fragment makes the call raise, as the fragment
follows the last condition with no `and`.
-/
namespace Pithos

/-- `order by n.path` on `(path, serial)` rows. -/
def pathLe (x y : List ℕ × ℤ) : Prop := x.1 ≤ y.1

instance : DecidableRel pathLe := fun x y => inferInstanceAs (Decidable (x.1 ≤ y.1))

instance : IsTotal (List ℕ × ℤ) pathLe := ⟨fun x y => le_total x.1 y.1⟩

instance : IsTrans (List ℕ × ℤ) pathLe := ⟨fun _ _ _ => le_trans⟩

/-- The rows in path order. -/
def sortByPath (rows : List (List ℕ × ℤ)) : List (List ℕ × ℤ) := rows.insertionSort pathLe

/-- The `where` clause of the query on a version `v` and a node row `n`, but for its lower
bound `n.path > ?`. `pathq` is `_construct_paths`, each `like` on an escaped pattern read
as a prefix test. The query that runs has no filter fragment, and so no `attributes` join. -/
def queryCond (s : Store) (parent : ℤ) (nextling : List ℕ) (before : ℕ∞) (exceptCluster : ℤ)
    (pathq : List (List ℕ)) (v : VersionRow) (n : NodeRow) : Bool :=
  some v.serial = s.maxSerialBefore v.node before ∧ v.cluster ≠ exceptCluster ∧
    (s.nodes.any fun m => m.node = v.node ∧ m.parent = parent) ∧ n.node = v.node ∧
    n.path < nextling ∧ (pathq = [] ∨ pathq.any (· <+: n.path))

/-- `select distinct n.path, v.serial from versions v, nodes n where ...`. -/
def queryRows (s : Store) (parent : ℤ) (start nextling : List ℕ) (before : ℕ∞)
    (exceptCluster : ℤ) (pathq : List (List ℕ)) : List (List ℕ × ℤ) :=
  (s.versions.flatMap fun v =>
    (s.nodes.filter fun n =>
      start < n.path ∧ queryCond s parent nextling before exceptCluster pathq v n).map
      fun n => (n.path, v.serial)).dedup

/-- The query of `latest_version_list` run with lower bound `start`, in path order. -/
def listingQuery (s : Store) (parent : ℤ) (nextling : List ℕ) (before : ℕ∞)
    (exceptCluster : ℤ) (pathq : List (List ℕ)) (start : List ℕ) : List (List ℕ × ℤ) :=
  sortByPath (queryRows s parent start nextling before exceptCluster pathq)

/-- `if not start or start < prefix: start = strprevling(prefix)`. -/
def scanStart (pre start : List ℕ) : List ℕ :=
  if start = [] ∨ start < pre then strprevling pre else start

/-- `limit ?`: SQLite reads a negative limit as no limit. -/
def limitRows (limit : ℤ) (rows : List (List ℕ × ℤ)) : List (List ℕ × ℤ) :=
  if limit < 0 then rows else rows.take limit.toNat

/-- The `while True` loop of `latest_version_list` with a delimiter, for `fuel` fetches.
`rows` is what the open cursor has left; a common prefix re-runs `query` from
`strnextling` of it. -/
def delimiterLoop (query : List ℕ → List (List ℕ × ℤ)) (pfz : ℕ) (delimiter : List ℕ)
    (limit : ℤ) :
    ℕ → List (List ℕ × ℤ) → ℕ → List (List ℕ × ℤ) → List (List ℕ) →
      Except Fault (List (List ℕ × ℤ) × List (List ℕ))
  | 0, _, _, _, _ => .error .diverges
  | _ + 1, [], _, matched, prefixes => .ok (matched, prefixes)
  | fuel + 1, props :: rows, count, matched, prefixes =>
    match find props.1 delimiter pfz with
    | none =>
      if limit ≤ (count + 1 : ℕ) then .ok (matched ++ [props], prefixes)
      else delimiterLoop query pfz delimiter limit fuel rows (count + 1) (matched ++ [props])
        prefixes
    | some idx =>
      if idx + delimiter.length = props.1.length then
        delimiterLoop query pfz delimiter limit fuel rows (count + 1) (matched ++ [props])
          prefixes
      else
        let pf := props.1.take (idx + delimiter.length)
        if limit ≤ (count : ℕ) then .ok (matched, prefixes ++ [pf])
        else match strnextling pf with
          | none => .error .runtimeError
          | some start =>
            delimiterLoop query pfz delimiter limit fuel (query start) count matched
              (prefixes ++ [pf])

/-- `latest_version_list(parent, prefix, delimiter, start, limit, before, except_cluster,
pathq, filterq)`, with `None` and the empty string alike read as `[]`. A filter fragment is
appended to the query with no `and` before it, and the first `execute` raises. The loop is
given one fetch more than the rows of the first query. -/
def latestVersionList (cls : CharClasses) (s : Store) (parent : ℤ) (pre delimiter start : List ℕ)
    (limit : ℤ) (before : ℕ∞) (exceptCluster : ℤ) (pathq : List (List ℕ)) (filterq : List ℕ) :
    Except Fault (List (List ℕ × ℤ) × List (List ℕ)) :=
  match strnextling pre with
  | none => .error .runtimeError
  | some nextling =>
    match constructFilters cls filterq with
    | some _ => .error .operationalError
    | none =>
      let query := listingQuery s parent nextling before exceptCluster pathq
      let rows := query (scanStart pre start)
      if delimiter = [] then .ok (limitRows limit rows, [])
      else delimiterLoop query pre.length delimiter limit (rows.length + 1) rows 0 [] []

section Call

variable {cls : CharClasses} {s : Store} {parent : ℤ} {pre delimiter start : List ℕ} {limit : ℤ}
  {before : ℕ∞} {exceptCluster : ℤ} {pathq : List (List ℕ)} {filterq : List ℕ}

/-- A call that returns has a `strnextling` of the prefix and no filter fragment. -/
theorem latestVersionList_ok_cases {res : List (List ℕ × ℤ) × List (List ℕ)}
    (h : latestVersionList cls s parent pre delimiter start limit before exceptCluster pathq
      filterq = .ok res) :
    ∃ nextling, strnextling pre = some nextling ∧ constructFilters cls filterq = none := by
  unfold latestVersionList at h
  split at h
  · cases h
  split at h
  · cases h
  exact ⟨_, ‹_›, ‹_›⟩

/-- With a `strnextling` of the prefix and no filter fragment, the call runs its query. -/
theorem latestVersionList_unfiltered {nextling : List ℕ} (hn : strnextling pre = some nextling)
    (hf : constructFilters cls filterq = none) :
    latestVersionList cls s parent pre delimiter start limit before exceptCluster pathq filterq =
      let query := listingQuery s parent nextling before exceptCluster pathq
      let rows := query (scanStart pre start)
      if delimiter = [] then .ok (limitRows limit rows, [])
      else delimiterLoop query pre.length delimiter limit (rows.length + 1) rows 0 [] [] := by
  simp only [latestVersionList, hn, hf]

/-- With a filter fragment, the first `execute` raises. -/
theorem latestVersionList_filtered {nextling : List ℕ} {f : Filters}
    (hn : strnextling pre = some nextling) (hf : constructFilters cls filterq = some f) :
    latestVersionList cls s parent pre delimiter start limit before exceptCluster pathq filterq =
      .error .operationalError := by
  simp only [latestVersionList, hn, hf]

end Call

/-- `latest_attribute_keys`: `select distinct a.key from attributes a, versions v, nodes n`
under the `where` clause of `latest_version_list` without its bounds on `n.path` and its
filter; `pathq` is `_construct_paths`, read as there. -/
def latestAttributeKeys (s : Store) (parent : ℤ) (before : ℕ∞) (exceptCluster : ℤ)
    (pathq : List (List ℕ)) : List (List ℕ) :=
  (s.attributes.flatMap fun a => s.versions.flatMap fun v =>
    (s.nodes.filter fun n => some v.serial = s.maxSerialBefore v.node before ∧
      v.cluster ≠ exceptCluster ∧ (s.nodes.any fun m => m.node = v.node ∧ m.parent = parent) ∧
      a.serial = v.serial ∧ n.node = v.node ∧ (pathq = [] ∨ pathq.any (· <+: n.path))).map
      fun _ => a.key).dedup

/-! ## Path order -/

/-- Strict path order on rows. -/
def pathLt (x y : List ℕ × ℤ) : Prop := x.1 < y.1

instance : IsAntisymm (List ℕ × ℤ) pathLt := ⟨fun _ _ h₁ h₂ => absurd (h₁.trans h₂) (lt_irrefl _)⟩

theorem sortByPath_perm (rows : List (List ℕ × ℤ)) : (sortByPath rows).Perm rows :=
  List.perm_insertionSort _ _

/-- Rows with pairwise distinct paths sort strictly increasing. -/
theorem sortByPath_strict {rows : List (List ℕ × ℤ)} (h : (rows.map Prod.fst).Nodup) :
    (sortByPath rows).Sorted pathLt := by
  have hp : (sortByPath rows).Pairwise fun x y => x.1 ≠ y.1 :=
    List.pairwise_map.1 (((sortByPath_perm rows).map _).nodup_iff.2 h)
  exact ((List.sorted_insertionSort pathLe rows).and hp).imp fun h => lt_of_le_of_ne h.1 h.2

theorem nodup_of_map_fst {rows : List (List ℕ × ℤ)} (h : (rows.map Prod.fst).Nodup) :
    rows.Nodup := h.of_map _

/-- Lists of the same rows with distinct paths sort to the same list. -/
theorem sortByPath_congr {l₁ l₂ : List (List ℕ × ℤ)} (h₁ : (l₁.map Prod.fst).Nodup)
    (h₂ : (l₂.map Prod.fst).Nodup) (h : ∀ r, r ∈ l₁ ↔ r ∈ l₂) : sortByPath l₁ = sortByPath l₂ :=
  List.eq_of_perm_of_sorted
    (((sortByPath_perm l₁).trans
      ((List.perm_ext_iff_of_nodup (nodup_of_map_fst h₁) (nodup_of_map_fst h₂)).2 h)).trans
      (sortByPath_perm l₂).symm)
    (sortByPath_strict h₁) (sortByPath_strict h₂)

theorem filter_sortByPath {rows : List (List ℕ × ℤ)} (h : (rows.map Prod.fst).Nodup)
    (p : List ℕ × ℤ → Bool) : (sortByPath rows).filter p = sortByPath (rows.filter p) := by
  have h' : ((rows.filter p).map Prod.fst).Nodup := h.sublist ((List.filter_sublist _).map _)
  exact List.eq_of_perm_of_sorted
    (((sortByPath_perm rows).filter p).trans (sortByPath_perm _).symm)
    ((sortByPath_strict h).filter p) (sortByPath_strict h')

/-! ## The rows of the query -/

/-- The rows of the query without its lower bound. -/
def unboundedRows (s : Store) (parent : ℤ) (nextling : List ℕ) (before : ℕ∞)
    (exceptCluster : ℤ) (pathq : List (List ℕ)) : List (List ℕ × ℤ) :=
  (s.versions.flatMap fun v =>
    (s.nodes.filter (queryCond s parent nextling before exceptCluster pathq v)).map
      fun n => (n.path, v.serial)).dedup

section Rows

variable {s : Store} {parent : ℤ} {nextling : List ℕ} {before : ℕ∞} {exceptCluster : ℤ}
  {pathq : List (List ℕ)}

theorem mem_unboundedRows {r : List ℕ × ℤ} :
    r ∈ unboundedRows s parent nextling before exceptCluster pathq ↔
      ∃ v ∈ s.versions, ∃ n ∈ s.nodes,
        queryCond s parent nextling before exceptCluster pathq v n ∧
          (n.path, v.serial) = r := by
  simp [unboundedRows, List.mem_dedup, and_assoc]

theorem mem_queryRows {start : List ℕ} {r : List ℕ × ℤ} :
    r ∈ queryRows s parent start nextling before exceptCluster pathq ↔
      r ∈ unboundedRows s parent nextling before exceptCluster pathq ∧ start < r.1 := by
  simp only [queryRows, List.mem_dedup, List.mem_flatMap, List.mem_map, List.mem_filter,
    decide_eq_true_eq, mem_unboundedRows]
  constructor
  · rintro ⟨v, hv, n, ⟨hn, hs, hc⟩, rfl⟩
    exact ⟨⟨v, hv, n, hn, hc, rfl⟩, hs⟩
  · rintro ⟨⟨v, hv, n, hn, hc, rfl⟩, hs⟩
    exact ⟨v, hv, n, ⟨hn, hs, hc⟩, rfl⟩

/-- Two rows of the query with one path are one row: the path is the key of its node,
and a node has one latest serial. -/
theorem unboundedRows_path_inj {r r' : List ℕ × ℤ}
    (h : r ∈ unboundedRows s parent nextling before exceptCluster pathq)
    (h' : r' ∈ unboundedRows s parent nextling before exceptCluster pathq)
    (hp : r.1 = r'.1) : r = r' := by
  obtain ⟨v, -, n, hn, hc, rfl⟩ := mem_unboundedRows.1 h
  obtain ⟨v', -, n', hn', hc', rfl⟩ := mem_unboundedRows.1 h'
  simp only [queryCond, decide_eq_true_eq] at hc hc'
  have hnn : n = n' := List.inj_on_of_nodup_map s.path_key hn hn' hp
  subst hnn
  have hvv : v.node = v'.node := hc.2.2.2.1.symm.trans hc'.2.2.2.1
  have hs : v.serial = v'.serial := Option.some_injective _ (hc.1.trans (hvv ▸ hc'.1.symm))
  rw [hs]

theorem unboundedRows_paths_nodup :
    ((unboundedRows s parent nextling before exceptCluster pathq).map Prod.fst).Nodup :=
  (List.nodup_dedup _).map_on fun _ h _ h' hp => unboundedRows_path_inj h h' hp

theorem queryRows_paths_nodup {start : List ℕ} :
    ((queryRows s parent start nextling before exceptCluster pathq).map Prod.fst).Nodup :=
  (List.nodup_dedup _).map_on fun _ h _ h' hp =>
    unboundedRows_path_inj (mem_queryRows.1 h).1 (mem_queryRows.1 h').1 hp

/-- Every run of the query is the path-ordered rows without a lower bound, cut at it. -/
theorem listingQuery_eq_filter (start : List ℕ) :
    listingQuery s parent nextling before exceptCluster pathq start =
      (sortByPath (unboundedRows s parent nextling before exceptCluster pathq)).filter
        (fun r => start < r.1) := by
  rw [filter_sortByPath unboundedRows_paths_nodup, listingQuery]
  refine sortByPath_congr queryRows_paths_nodup ?_ ?_
  · exact unboundedRows_paths_nodup.sublist ((List.filter_sublist _).map _)
  · intro r
    simp [mem_queryRows]

/-- Every row of the query is the path of a child of `parent`. -/
theorem parent_of_mem_listingQuery {start : List ℕ} {r : List ℕ × ℤ}
    (hr : r ∈ listingQuery s parent nextling before exceptCluster pathq start) :
    ∃ n ∈ s.nodes, n.parent = parent ∧ n.path = r.1 := by
  rw [listingQuery, (sortByPath_perm _).mem_iff, mem_queryRows, mem_unboundedRows] at hr
  obtain ⟨⟨v, -, n, hn, hc, rfl⟩, -⟩ := hr
  simp only [queryCond, decide_eq_true_eq, List.any_eq_true] at hc
  obtain ⟨-, -, ⟨m, hm, hmv, hmp⟩, hnv, -⟩ := hc
  exact ⟨n, hn, List.inj_on_of_nodup_map s.node_key hm hn (hmv.trans hnv.symm) ▸ hmp, rfl⟩

end Rows

/-! ## Without a delimiter -/

/-- With the last code point of `prefix` below `0xffff`, the range the query scans, with
`start` replaced as the code does, holds exactly the paths that start with `prefix` and lie
above `start`. -/
theorem scanRange_iff {pre start path nextling : List ℕ} (hn : strnextling pre = some nextling)
    (hpath : ∀ c ∈ path, c < 0xffff) :
    scanStart pre start < path ∧ path < nextling ↔ pre <+: path ∧ start < path := by
  rcases List.eq_nil_or_concat' pre with rfl | ⟨q, c, rfl⟩
  · cases hn
    have hs : scanStart [] start = start := by
      unfold scanStart
      split_ifs with h
      · rcases h with rfl | h
        · rfl
        · exact absurd h (not_lt_nil _)
      · rfl
    rw [hs]
    refine ⟨fun h => ⟨List.nil_prefix, h.1⟩, fun h => ⟨h.2, ?_⟩⟩
    cases path with
    | nil => exact absurd h.2 (not_lt_nil _)
    | cons d path => exact List.Lex.rel (hpath d (List.mem_cons_self _ _))
  · obtain hc | hc := lt_or_le c 0xffff
    · rw [strnextling_snoc q hc] at hn
      cases hn
      unfold scanStart
      split_ifs with hs
      · rw [prevling_lt_and_lt_succ_iff hpath]
        refine ⟨fun h => ⟨h, ?_⟩, fun h => h.1⟩
        rcases hs with rfl | hs
        · obtain ⟨r, rfl⟩ := h
          cases q <;> exact List.nil_lt_cons _ _
        · exact lt_of_lt_of_le hs (prefix_le h)
      · push_neg at hs
        exact ⟨fun h => ⟨prefix_of_lt_of_lt_succ (lt_of_le_of_lt hs.2 h.1) h.2, h.1⟩,
          fun h => ⟨h.2, prefix_lt_succ h.1⟩⟩
    · simp [strnextling_snoc_of_le q hc] at hn

theorem strnextling_of_lt {pre : List ℕ} (h : ∀ c ∈ pre, c < 0xffff) :
    ∃ nextling, strnextling pre = some nextling := by
  rcases List.eq_nil_or_concat' pre with rfl | ⟨q, c, rfl⟩
  · exact ⟨_, rfl⟩
  · exact ⟨_, strnextling_snoc q (h c (by simp))⟩

theorem limitRows_natCast (limit : ℕ) (rows : List (List ℕ × ℤ)) :
    limitRows limit rows = rows.take limit := by
  rw [limitRows, if_neg (by omega), Int.toNat_natCast]

/-- The pairs the docstring promises without delimiter, path alternatives or filter: for
each node with parent `parent` whose path starts with `prefix` and lies above `start`, and
whose latest version before `before` is outside `exceptCluster`, its path and that
version's serial. -/
def promisedRows (s : Store) (parent : ℤ) (pre start : List ℕ) (before : ℕ∞)
    (exceptCluster : ℤ) : List (List ℕ × ℤ) :=
  s.nodes.filterMap fun n =>
    if n.parent = parent ∧ pre <+: n.path ∧ start < n.path then
      (s.latestVersion n.node before).bind fun v =>
        if v.cluster ≠ exceptCluster then some (n.path, v.serial) else none
    else none

/-- The first `limit` promised pairs in path order. -/
def promisedListing (s : Store) (parent : ℤ) (pre start : List ℕ) (limit : ℕ) (before : ℕ∞)
    (exceptCluster : ℤ) : List (List ℕ × ℤ) :=
  (sortByPath (promisedRows s parent pre start before exceptCluster)).take limit

section Promised

variable {s : Store} {parent : ℤ} {pre start : List ℕ} {before : ℕ∞} {exceptCluster : ℤ}

theorem mem_promisedRows {r : List ℕ × ℤ} :
    r ∈ promisedRows s parent pre start before exceptCluster ↔
      ∃ n ∈ s.nodes, n.parent = parent ∧ pre <+: n.path ∧ start < n.path ∧
        ∃ v, s.latestVersion n.node before = some v ∧ v.cluster ≠ exceptCluster ∧
          (n.path, v.serial) = r := by
  simp only [promisedRows, List.mem_filterMap]
  refine exists_congr fun n => and_congr_right fun _ => ?_
  split_ifs with h
  · simp only [Option.bind_eq_some, h, true_and]
    refine exists_congr fun v => and_congr_right fun _ => ?_
    split_ifs <;> simp_all
  · simp only [reduceCtorEq, false_iff]
    rintro ⟨h₁, h₂, h₃, -⟩
    exact h ⟨h₁, h₂, h₃⟩

theorem filterMap_paths_sublist {f : NodeRow → Option (List ℕ × ℤ)}
    (hf : ∀ n r, f n = some r → r.1 = n.path) :
    ∀ nodes : List NodeRow, ((nodes.filterMap f).map Prod.fst).Sublist (nodes.map NodeRow.path)
  | [] => List.Sublist.slnil
  | n :: ns => by
    cases h : f n with
    | none => simpa [h] using (filterMap_paths_sublist hf ns).cons _
    | some r => simpa [h, hf n r h] using (filterMap_paths_sublist hf ns).cons₂ n.path

theorem promisedRows_paths_nodup :
    ((promisedRows s parent pre start before exceptCluster).map Prod.fst).Nodup := by
  refine s.path_key.sublist (filterMap_paths_sublist (fun n r h => ?_) _)
  split_ifs at h
  · obtain ⟨v, -, hv⟩ := Option.bind_eq_some.1 h
    split_ifs at hv
    cases hv
    rfl

end Promised

/-- Without a delimiter, path alternatives or filter, `latest_version_list` returns the first
`limit` promised pairs in path order, and no common prefix. -/
theorem latestVersionList_without_delimiter (cls : CharClasses) (s : Store) (parent : ℤ)
    (pre start : List ℕ) (limit : ℕ) (before : ℕ∞) (exceptCluster : ℤ)
    (hpaths : ∀ n ∈ s.nodes, ∀ c ∈ n.path, c < 0xffff) (hpre : ∀ c ∈ pre, c < 0xffff) :
    latestVersionList cls s parent pre [] start limit before exceptCluster [] [] =
      .ok (promisedListing s parent pre start limit before exceptCluster, []) := by
  obtain ⟨nextling, hnx⟩ := strnextling_of_lt hpre
  simp only [latestVersionList_unfiltered hnx (constructFilters_nil cls), if_true,
    limitRows_natCast, promisedListing, listingQuery]
  congr 3
  refine sortByPath_congr queryRows_paths_nodup promisedRows_paths_nodup fun r => ?_
  rw [mem_queryRows, mem_unboundedRows, mem_promisedRows]
  constructor
  · rintro ⟨⟨v, hv, n, hn, hc, rfl⟩, hs⟩
    simp only [queryCond, decide_eq_true_eq, List.any_eq_true, true_or, and_true] at hc
    obtain ⟨hmax, hcl, ⟨m, hm, hmv, hmp⟩, hnv, hlt⟩ := hc
    have hmn : m = n := List.inj_on_of_nodup_map s.node_key hm hn (hmv.trans hnv.symm)
    subst hmn
    obtain ⟨hpre', hst⟩ := (scanRange_iff hnx (hpaths m hn)).1 ⟨hs, hlt⟩
    exact ⟨m, hn, hmp, hpre', hst, v,
      Store.latestVersion_eq_some_iff.2 ⟨hv, hmv.symm, by rw [hmv]; exact hmax⟩, hcl, rfl⟩
  · rintro ⟨n, hn, hp, hpre', hst, v, hlv, hcl, hr⟩
    subst hr
    obtain ⟨hv, hvn, hmax⟩ := Store.latestVersion_eq_some_iff.1 hlv
    obtain ⟨hs, hlt⟩ := (scanRange_iff hnx (hpaths n hn)).2 ⟨hpre', hst⟩
    refine ⟨⟨v, hv, n, hn, ?_, rfl⟩, hs⟩
    simp only [queryCond, decide_eq_true_eq, List.any_eq_true, true_or, and_true]
    exact ⟨by rw [hvn]; exact hmax, hcl, ⟨n, hn, hvn.symm, hp⟩, hvn.symm, hlt⟩

/-- `ab`, `aa` and `b` under `ROOTNODE`, made in that order, each with one version, listed
under `prefix = "a"`: the hypotheses hold, and the listing is the promised one, `aa` before
`ab` and `b` left out. -/
theorem latestVersionList_without_delimiter_two_files :
    let ops : List Op := [.nodeCreate 0 [97, 98], .nodeCreate 0 [97, 97], .nodeCreate 0 [98],
      .versionCreate 1 "h" 3 none "u" 0 10, .versionCreate 2 "k" 3 none "u" 0 11,
      .versionCreate 3 "m" 3 none "u" 0 12]
    ∃ s, Store.init.run ops = .ok s ∧
      ((∀ n ∈ s.nodes, ∀ c ∈ n.path, c < 0xffff) ∧ ∀ c ∈ [97], c < 0xffff) ∧
      latestVersionList ⟨fun _ => false, fun _ => false⟩ s 0 [97] [] [] 5 ⊤ 1 [] [] =
        .ok (promisedListing s 0 [97] [] 5 ⊤ 1, []) ∧
      promisedListing s 0 [97] [] 5 ⊤ 1 = [([97, 97], 2), ([97, 98], 1)] := by
  intro ops
  exact ⟨_, rfl, ⟨by decide, by decide⟩,
    latestVersionList_without_delimiter _ _ 0 [97] [] 5 ⊤ 1 (by decide) (by decide), rfl⟩

/-! ## Filters -/

/-- `color==red` on a version whose attribute `color` is `red`: with no filter the listing
returns the version, and with the filter the call raises, as the fragment
`(a.key = ? and a.value == ?)` follows `n.path < ?` with no `and`. -/
theorem latestVersionList_filter_raises :
    ∀ cls : CharClasses,
      let color := [99, 111, 108, 111, 114]
      let filterq := color ++ [61, 61, 114, 101, 100]
      let ops : List Op := [.nodeCreate 0 [120], .versionCreate 1 "h" 1 none "u" 0 10,
        .attributeSet 1 [(color, [114, 101, 100])]]
      parseFilters cls filterq = ⟨[], [], [(color, .eq, [114, 101, 100])]⟩ ∧
      ∃ s, Store.init.run ops = .ok s ∧ Reachable s ∧
        s.attributeGet 1 [color] = [(color, [114, 101, 100])] ∧
        latestVersionList cls s 0 [] [] [] 10 ⊤ 1 [] [] = .ok ([([120], 1)], []) ∧
        latestVersionList cls s 0 [] [] [] 10 ⊤ 1 [] filterq = .error .operationalError := by
  intro cls color filterq ops
  have hp : parseFilters cls filterq = ⟨[], [], [(color, .eq, [114, 101, 100])]⟩ := rfl
  obtain ⟨s, hs, hget, hl⟩ : ∃ s, Store.init.run ops = .ok s ∧
      s.attributeGet 1 [color] = [(color, [114, 101, 100])] ∧
      latestVersionList ⟨fun _ => false, fun _ => false⟩ s 0 [] [] [] 10 ⊤ 1 [] [] =
        .ok ([([120], 1)], []) := ⟨_, rfl, rfl, rfl⟩
  have hf : constructFilters cls filterq = some ⟨[], [], [(color, .eq, [114, 101, 100])]⟩ := by
    rw [constructFilters, if_neg (List.append_ne_nil_of_right_ne_nil _ (List.cons_ne_nil _ _)),
      hp]
    rfl
  refine ⟨hp, s, hs, Reachable.init.run ops hs, hget, ?_, latestVersionList_filtered strnextling_nil hf⟩
  -- the unfiltered call reads `cls` nowhere
  rwa [latestVersionList_unfiltered strnextling_nil (constructFilters_nil _)] at hl ⊢

/-! ## The attribute keys of the listed versions -/

theorem mem_latestAttributeKeys {s : Store} {parent : ℤ} {before : ℕ∞} {exceptCluster : ℤ}
    {pathq : List (List ℕ)} {k : List ℕ} :
    k ∈ latestAttributeKeys s parent before exceptCluster pathq ↔
      ∃ a ∈ s.attributes, ∃ v ∈ s.versions, ∃ n ∈ s.nodes,
        (some v.serial = s.maxSerialBefore v.node before ∧ v.cluster ≠ exceptCluster ∧
          (∃ m ∈ s.nodes, m.node = v.node ∧ m.parent = parent) ∧ a.serial = v.serial ∧
          n.node = v.node ∧ (pathq = [] ∨ ∃ p ∈ pathq, p <+: n.path)) ∧ a.key = k := by
  simp only [latestAttributeKeys, List.mem_dedup, List.mem_flatMap, List.mem_map, List.mem_filter,
    decide_eq_true_eq, List.any_eq_true, and_assoc]

/-- Under a parent whose children have paths between the empty string and `0xffff`, the
keys `latest_attribute_keys` returns are the keys of the attributes of the versions that
`latest_version_list` lists with no prefix, delimiter, start, limit or filter, at the same
`before`, `except_cluster` and `pathq`. -/
theorem latestAttributeKeys_listed (cls : CharClasses) (s : Store) (parent : ℤ) (before : ℕ∞)
    (exceptCluster : ℤ) (pathq : List (List ℕ))
    (hpaths : ∀ n ∈ s.nodes, n.parent = parent → [] < n.path ∧ n.path < [0xffff]) :
    ∃ rows, latestVersionList cls s parent [] [] [] (-1) before exceptCluster pathq [] =
        .ok (rows, []) ∧
      ∀ k, k ∈ latestAttributeKeys s parent before exceptCluster pathq ↔
        ∃ r ∈ rows, ∃ a ∈ s.attributes, a.serial = r.2 ∧ a.key = k := by
  refine ⟨listingQuery s parent [0xffff] before exceptCluster pathq [], rfl, fun k => ?_⟩
  simp only [mem_latestAttributeKeys, listingQuery_eq_filter, List.mem_filter,
    (sortByPath_perm _).mem_iff, mem_unboundedRows, queryCond, decide_eq_true_eq,
    List.any_eq_true]
  constructor
  · rintro ⟨a, ha, v, hv, n, hn, ⟨hmax, hcl, ⟨m, hm, hmv, hmp⟩, has, hnv, hpq⟩, rfl⟩
    have hmn : m = n := List.inj_on_of_nodup_map s.node_key hm hn (hmv.trans hnv.symm)
    subst hmn
    obtain ⟨hlo, hhi⟩ := hpaths m hn hmp
    exact ⟨_, ⟨⟨v, hv, m, hn, ⟨hmax, hcl, ⟨m, hm, hmv, hmp⟩, hnv, hhi, hpq⟩, rfl⟩, hlo⟩,
      a, ha, has, rfl⟩
  · rintro ⟨_, ⟨⟨v, hv, n, hn, ⟨hmax, hcl, hm, hnv, -, hpq⟩, rfl⟩, -⟩, a, ha, has, rfl⟩
    exact ⟨a, ha, v, hv, n, hn, ⟨hmax, hcl, hm, has, hnv, hpq⟩, rfl⟩

/-- A container `a` holding the file `a/b` whose version has the attribute `k`: its keys
are those of the listed file. -/
theorem latestAttributeKeys_listed_file :
    let ops : List Op := [.nodeCreate 0 [97], .nodeCreate 1 [97, 47, 98],
      .versionCreate 2 "h" 1 none "u" 0 10, .attributeSet 1 [([107], [118])]]
    ∃ s, Store.init.run ops = .ok s ∧
      (∀ n ∈ s.nodes, n.parent = 1 → [] < n.path ∧ n.path < [0xffff]) ∧
      latestAttributeKeys s 1 ⊤ 5 [] = [[107]] ∧
      ∃ rows, latestVersionList ⟨fun _ => false, fun _ => false⟩ s 1 [] [] [] (-1) ⊤ 5 [] [] =
          .ok (rows, []) ∧
        ∀ k, k ∈ latestAttributeKeys s 1 ⊤ 5 [] ↔
          ∃ r ∈ rows, ∃ a ∈ s.attributes, a.serial = r.2 ∧ a.key = k := by
  intro ops
  exact ⟨_, rfl, by decide, rfl, latestAttributeKeys_listed _ _ 1 ⊤ 5 [] (by decide)⟩

/-! ## Pages -/

/-- In a strictly path-ordered list, the rows above the last of its first `k` rows are the
rows after them. -/
theorem filter_gt_of_getLast_take {F : List (List ℕ × ℤ)} (hF : F.Sorted pathLt) {k : ℕ}
    {r : List ℕ × ℤ} (hr : (F.take k).getLast? = some r) :
    F.filter (fun x => r.1 < x.1) = F.drop k := by
  obtain ⟨ys, hys⟩ := List.getLast?_eq_some_iff.1 hr
  have hsplit := List.take_append_drop k F
  rw [hys] at hsplit
  generalize F.drop k = D at hsplit ⊢
  subst hsplit
  obtain ⟨hys, -, hD⟩ := List.pairwise_append.1 hF
  obtain ⟨-, -, hlt⟩ := List.pairwise_append.1 hys
  have hlow : (ys ++ [r]).filter (fun x => r.1 < x.1) = [] := by
    refine List.filter_eq_nil_iff.2 fun a ha => ?_
    rcases List.mem_append.1 ha with ha | ha
    · simpa using (hlt a ha r (List.mem_singleton_self r)).le
    · simp [List.mem_singleton.1 ha]
  have hhigh : D.filter (fun x => r.1 < x.1) = D := List.filter_eq_self.2 fun b hb =>
    decide_eq_true_iff.2 (hD r (List.mem_append_right _ (List.mem_singleton_self r)) b hb)
  rw [List.filter_append, hlow, hhigh, List.nil_append]

/-- Paging without a delimiter: listing from the last path of a page of `k` rows gives the
next `m` rows of the listing of `k + m`, when every path is below `0xffff`. -/
theorem latestVersionList_next_page (cls : CharClasses) (s : Store) (parent : ℤ)
    (pre start : List ℕ) (k m : ℕ) (before : ℕ∞) (exceptCluster : ℤ) (pathq : List (List ℕ))
    (filterq : List ℕ) (hpaths : ∀ n ∈ s.nodes, ∀ c ∈ n.path, c < 0xffff)
    {rows : List (List ℕ × ℤ)} {r : List ℕ × ℤ}
    (h : latestVersionList cls s parent pre [] start k before exceptCluster pathq filterq =
      .ok (rows, []))
    (hr : rows.getLast? = some r) :
    ∃ all, latestVersionList cls s parent pre [] start (k + m : ℕ) before exceptCluster pathq
        filterq = .ok (all, []) ∧ rows = all.take k ∧
      latestVersionList cls s parent pre [] r.1 m before exceptCluster pathq filterq =
        .ok (all.drop k, []) := by
  obtain ⟨nextling, hn, hf⟩ := latestVersionList_ok_cases h
  simp only [latestVersionList_unfiltered hn hf, if_true, limitRows_natCast,
    listingQuery_eq_filter] at h ⊢
  set F := sortByPath (unboundedRows s parent nextling before exceptCluster pathq)
  set G := F.filter fun x => scanStart pre start < x.1
  have hG : G.Sorted pathLt := (sortByPath_strict unboundedRows_paths_nodup).filter _
  obtain rfl : G.take k = rows := by injection h with h; injection h
  -- the last row is a row of the query: above the scan start, below the nextling
  have hrG : r ∈ G := List.mem_of_mem_take (List.mem_of_mem_getLast? hr)
  obtain ⟨hrF, hsr⟩ := List.mem_filter.1 hrG
  obtain ⟨v, -, n, hn', hc, rfl⟩ :=
    mem_unboundedRows.1 ((sortByPath_perm _).mem_iff.1 hrF)
  simp only [queryCond, decide_eq_true_eq] at hc hsr
  have hpre := ((scanRange_iff hn (hpaths n hn')).1 ⟨hsr, hc.2.2.2.2.1⟩).1
  have hscan : scanStart pre n.path = n.path := by
    rw [scanStart, if_neg]
    rintro (he | hlt)
    · exact not_lt_nil _ (he ▸ hsr)
    · exact absurd (prefix_le hpre) (not_le.2 hlt)
  have hnext : F.filter (fun x => n.path < x.1) = G.drop k := by
    rw [← filter_gt_of_getLast_take hG hr, List.filter_filter]
    refine List.filter_congr fun x _ => ?_
    by_cases hx : n.path < x.1
    · simp [hx, hsr.trans hx]
    · simp [hx]
  refine ⟨G.take (k + m), rfl, by rw [List.take_take, min_eq_left (Nat.le_add_right k m)], ?_⟩
  rw [hscan, hnext, List.drop_take, Nat.add_sub_cancel_left]

/-- Files `a`, `b` and `c`: the first page of two ends at `b`, and the page from `b` is `c`. -/
theorem latestVersionList_next_page_abc :
    let cls : CharClasses := ⟨fun _ => false, fun _ => false⟩
    let ops : List Op := [.nodeCreate 0 [97], .nodeCreate 0 [98], .nodeCreate 0 [99],
      .versionCreate 1 "h" 1 none "u" 0 10, .versionCreate 2 "h" 1 none "u" 0 11,
      .versionCreate 3 "h" 1 none "u" 0 12]
    ∃ s, Store.init.run ops = .ok s ∧ (∀ n ∈ s.nodes, ∀ c ∈ n.path, c < 0xffff) ∧
      latestVersionList cls s 0 [] [] [] (2 : ℕ) ⊤ 5 [] [] = .ok ([([97], 1), ([98], 2)], []) ∧
      ∃ all, latestVersionList cls s 0 [] [] [] (2 + 1 : ℕ) ⊤ 5 [] [] = .ok (all, []) ∧
        [([97], 1), ([98], 2)] = all.take 2 ∧
        latestVersionList cls s 0 [] [] [98] (1 : ℕ) ⊤ 5 [] [] = .ok (all.drop 2, []) := by
  intro cls ops
  obtain ⟨s, hs, hpaths, hl⟩ : ∃ s, Store.init.run ops = .ok s ∧
      (∀ n ∈ s.nodes, ∀ c ∈ n.path, c < 0xffff) ∧
      latestVersionList cls s 0 [] [] [] (2 : ℕ) ⊤ 5 [] [] = .ok ([([97], 1), ([98], 2)], []) :=
    ⟨_, rfl, by decide, rfl⟩
  exact ⟨s, hs, hpaths, hl, latestVersionList_next_page cls s 0 [] [] 2 1 ⊤ 5 [] [] hpaths hl
    (r := ([98], 2)) rfl⟩

end Pithos
