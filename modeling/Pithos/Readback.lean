import Pithos.Integrity
import Pithos.Listing

/-!
# What the reads return after the writes

`attribute_get` after `attribute_set`, `attribute_copy` and `attribute_del`, `policy_get`
after `policy_set`, `version_lookup` and `latest_version_list` after `version_create`,
`version_get_properties` after `version_remove`, `node_lookup` and `node_get_properties`
after `node_create`, and `node_get_versions` after `node_purge`: each write is read back as
the read's query says, and the other keys read as before. Last, what no call does: rewrite a
row it leaves in place.
-/
namespace Pithos

namespace Store

/-! ## Keyed upserts -/

/-- A run of `insert or replace` keyed by `key`, read back at one key: the last row written
with that key, or the rows the table had there. -/
theorem filter_foldl_upsert {α β κ : Type} [DecidableEq κ] (key : α → κ) (mk : β → α)
    (upsert : List α → α → List α)
    (hup : ∀ rows r, upsert rows r = rows.filter (fun x => key x ≠ key r) ++ [r]) (k : κ)
    (rows : List α) (items : List β) :
    ((items.foldl (fun rows b => upsert rows (mk b)) rows).filter fun x => key x = k) =
      match ((items.map mk).filter fun x => key x = k).getLast? with
      | some r => [r]
      | none => rows.filter fun x => key x = k := by
  induction items using List.reverseRecOn with
  | nil => rfl
  | append_singleton items b ih =>
    rw [List.foldl_append, List.foldl_cons, List.foldl_nil, hup, List.filter_append,
      List.map_append, List.filter_append]
    by_cases hb : key (mk b) = k
    · have hnil : ((items.foldl (fun rows b => upsert rows (mk b)) rows).filter
          fun x => key x ≠ key (mk b)).filter (fun x => key x = k) = [] :=
        List.filter_eq_nil_iff.2 fun x hx => by
          simpa [← hb] using (List.mem_filter.1 hx).2
      simp [hnil, hb]
    · rw [List.filter_filter]
      simp only [List.map_cons, List.map_nil, List.filter_cons, hb, decide_False,
        Bool.false_eq_true, if_false, List.filter_nil, List.append_nil, ← ih]
      refine List.filter_congr fun x _ => ?_
      by_cases hx : key x = k
      · simp only [hx, decide_True, ne_eq, Bool.true_and, decide_eq_true_eq]
        exact fun h => hb h.symm
      · simp [hx]

theorem upsertAttribute_eq (rows : List AttributeRow) (r : AttributeRow) :
    upsertAttribute rows r =
      rows.filter (fun x => (x.serial, x.key) ≠ (r.serial, r.key)) ++ [r] := by
  simp [upsertAttribute, Prod.mk.injEq]

/-- `attribute_get` of one key reads the rows of that serial and key. -/
theorem attributeGet_singleton (s : Store) (serial : ℤ) (k : List ℕ) :
    s.attributeGet serial [k] =
      (s.attributes.filter fun a => (a.serial, a.key) = (serial, k)).map
        fun a => (a.key, a.value) := by
  simp [attributeGet, Prod.mk.injEq]

/-! ## Attributes -/

/-- `attribute_get` after `attribute_set`: at the version written, a key among the items reads
as the last pair with that key; any other key, or any other version, reads as before. -/
theorem attributeSet_attributeGet {s s' : Store} {serial : ℤ} {items : List (List ℕ × List ℕ)}
    (h : s.attributeSet serial items = .ok s') (serial' : ℤ) (k : List ℕ) :
    s'.attributeGet serial' [k] =
      if serial' = serial then
        match (items.filter fun kv => kv.1 = k).getLast? with
        | some kv => [kv]
        | none => s.attributeGet serial [k]
      else s.attributeGet serial' [k] := by
  unfold attributeSet at h
  split_ifs at h
  cases h
  simp only [attributeGet_singleton]
  rw [filter_foldl_upsert (fun a : AttributeRow => (a.serial, a.key))
    (fun kv : List ℕ × List ℕ => (⟨serial, kv.1, kv.2⟩ : AttributeRow)) upsertAttribute
    upsertAttribute_eq]
  split_ifs with hs
  · subst hs
    simp only [List.filter_map, Function.comp_def, Prod.mk.injEq, true_and, List.getLast?_map]
    cases (items.filter fun kv => kv.1 = k).getLast? <;> rfl
  · -- every pair written lies at `serial`
    have hnil : ((items.map fun kv : List ℕ × List ℕ => (⟨serial, kv.1, kv.2⟩ : AttributeRow)).filter
        fun x => (x.serial, x.key) = (serial', k)) = [] :=
      List.filter_eq_nil_iff.2 fun x hx => by
        obtain ⟨kv, -, rfl⟩ := List.mem_map.1 hx
        simp [Ne.symm hs]
    rw [hnil]
    rfl

/-- Version `1` has `k=1`; `attribute_set` writes `k=2`, `l=3`, `k=4`: `k` reads `4`. -/
theorem attributeSet_attributeGet_last :
    let ops : List Op := [.nodeCreate 0 [97], .versionCreate 1 "h" 1 none "u" 0 10,
      .attributeSet 1 [([107], [49])]]
    let items : List (List ℕ × List ℕ) := [([107], [50]), ([108], [51]), ([107], [52])]
    ∃ s s', init.run ops = .ok s ∧ s.attributeSet 1 items = .ok s' ∧
      s'.attributeGet 1 [[107]] =
        if (1 : ℤ) = 1 then
          match (items.filter fun kv => kv.1 = [107]).getLast? with
          | some kv => [kv]
          | none => s.attributeGet 1 [[107]]
        else s.attributeGet 1 [[107]] := by
  intro ops items
  obtain ⟨s, s', hs, h⟩ : ∃ s s', init.run ops = .ok s ∧ s.attributeSet 1 items = .ok s' :=
    ⟨_, _, rfl, rfl⟩
  exact ⟨s, s', hs, h, attributeSet_attributeGet h 1 [107]⟩

/-- Under the key of `attributes`, `attribute_get` of one key reads at most one pair. -/
theorem attributeGet_length_le (s : Store) (serial : ℤ) (k : List ℕ) :
    (s.attributeGet serial [k]).length ≤ 1 := by
  rw [attributeGet_singleton, List.length_map]
  have hnd : ((s.attributes.filter fun a => (a.serial, a.key) = (serial, k)).map
      fun a => (a.serial, a.key)).Nodup := s.attributes_key.sublist ((List.filter_sublist _).map _)
  match hl : s.attributes.filter fun a => (a.serial, a.key) = (serial, k) with
  | [] | [_] => rw [hl]; simp
  | a :: b :: _ =>
    -- two rows of one `(serial, key)` would repeat the key
    have ha := of_decide_eq_true (List.mem_filter.1 (hl ▸ List.mem_cons_self a _ :)).2
    have hb := of_decide_eq_true (List.mem_filter.1
      (hl ▸ List.mem_cons_of_mem a (List.mem_cons_self b _) :)).2
    rw [hl] at hnd
    exact absurd (List.mem_map.2 ⟨b, List.mem_cons_self _ _, hb.trans ha.symm⟩)
      (List.nodup_cons.1 hnd).1

/-- `attribute_get` after `attribute_copy`: at `dest`, a key that `source` has reads as at
`source`; any other key, or any other version, reads as before. -/
theorem attributeCopy_attributeGet {s s' : Store} {source dest : ℤ}
    (h : s.attributeCopy source dest = .ok s') (serial' : ℤ) (k : List ℕ) :
    s'.attributeGet serial' [k] =
      if serial' = dest ∧ s.attributeGet source [k] ≠ [] then s.attributeGet source [k]
      else s.attributeGet serial' [k] := by
  unfold attributeCopy at h
  have hsrc : (((s.attributes.filter (·.serial = source)).map fun a => (a.key, a.value)).filter
      fun kv => kv.1 = k) = s.attributeGet source [k] := by
    rw [attributeGet_singleton, List.filter_map, List.filter_filter]
    congr 1
    refine List.filter_congr fun a _ => ?_
    simp [Prod.mk.injEq, Bool.and_comm]
  rw [attributeSet_attributeGet h, hsrc]
  have hlen := s.attributeGet_length_le source k
  match hl : s.attributeGet source [k], hlen with
  | [], _ => by_cases hs : serial' = dest <;> simp [hs]
  | [kv], _ => by_cases hs : serial' = dest <;> simp [hs]

/-- Versions `1` (`k=1`) and `2` (`k=2`, `l=3`): `attribute_copy(1, 2)` makes `k` read `1` at
`2`. -/
theorem attributeCopy_attributeGet_over :
    let ops : List Op := [.nodeCreate 0 [97], .versionCreate 1 "h" 1 none "u" 0 10,
      .versionCreate 1 "h" 1 none "u" 0 11, .attributeSet 1 [([107], [49])],
      .attributeSet 2 [([107], [50]), ([108], [51])]]
    ∃ s s', init.run ops = .ok s ∧ s.attributeCopy 1 2 = .ok s' ∧
      s'.attributeGet 2 [[107]] =
        if (2 : ℤ) = 2 ∧ s.attributeGet 1 [[107]] ≠ [] then s.attributeGet 1 [[107]]
        else s.attributeGet 2 [[107]] := by
  intro ops
  obtain ⟨s, s', hs, hc⟩ : ∃ s s', init.run ops = .ok s ∧ s.attributeCopy 1 2 = .ok s' :=
    ⟨_, _, rfl, rfl⟩
  exact ⟨s, s', hs, hc, attributeCopy_attributeGet hc 2 [107]⟩

/-- `attribute_get` after `attribute_del(serial, keys)`: at `serial`, a key among `keys`, or
any key when `keys` is empty, reads as nothing; every other key and version reads as before. -/
theorem attributeDel_attributeGet (s : Store) (serial : ℤ) (keys : List (List ℕ)) (serial' : ℤ)
    (k : List ℕ) :
    (s.attributeDel serial keys).attributeGet serial' [k] =
      if serial' = serial ∧ (keys = [] ∨ k ∈ keys) then [] else s.attributeGet serial' [k] := by
  unfold attributeGet attributeDel
  dsimp only
  rw [List.filter_filter]
  split_ifs with hd
  · obtain ⟨rfl, hk⟩ := hd
    refine List.map_eq_nil_iff.2 (List.filter_eq_nil_iff.2 fun a _ => ?_)
    by_cases ha : a.serial = serial' ∧ a.key = k
    · obtain ⟨hs, rfl⟩ := ha
      simp [hs, hk]
    · simp_all
  · congr 1
    refine List.filter_congr fun a _ => ?_
    by_cases hs : serial' = serial <;> simp_all

/-! ## Policy -/

theorem upsertPolicy_eq (rows : List PolicyRow) (r : PolicyRow) :
    upsertPolicy rows r = rows.filter (fun x => (x.node, x.key) ≠ (r.node, r.key)) ++ [r] := by
  simp [upsertPolicy, Prod.mk.injEq]

/-- The pairs `policy_get` reads at one key are the rows of that node and key. -/
theorem policyGet_filter_key (s : Store) (node : ℤ) (k : List ℕ) :
    (s.policyGet node).filter (·.1 = k) =
      (s.policy.filter fun r => (r.node, r.key) = (node, k)).map fun r => (r.key, r.value) := by
  simp only [policyGet, List.filter_map, List.filter_filter, Function.comp_def, Prod.mk.injEq]
  congr 1
  exact List.filter_congr fun r _ => by rw [Bool.decide_and, Bool.and_comm]

/-- `policy_get` after `policy_set(node, policy)`, read at one key: at the node written, a key
of the policy reads as the last pair with that key; any other key, or any other node, reads
as before. -/
theorem policySet_policyGet {s s' : Store} {node : ℤ} {policy : List (List ℕ × List ℕ)}
    (h : s.policySet node policy = .ok s') (node' : ℤ) (k : List ℕ) :
    (s'.policyGet node').filter (·.1 = k) =
      if node' = node then
        match (policy.filter fun kv => kv.1 = k).getLast? with
        | some kv => [kv]
        | none => (s.policyGet node).filter (·.1 = k)
      else (s.policyGet node').filter (·.1 = k) := by
  unfold policySet at h
  split_ifs at h
  cases h
  simp only [policyGet_filter_key]
  rw [filter_foldl_upsert (fun r : PolicyRow => (r.node, r.key))
    (fun kv : List ℕ × List ℕ => (⟨node, kv.1, kv.2⟩ : PolicyRow)) upsertPolicy upsertPolicy_eq]
  split_ifs with hn
  · subst hn
    simp only [List.filter_map, Function.comp_def, Prod.mk.injEq, true_and, List.getLast?_map]
    cases (policy.filter fun kv => kv.1 = k).getLast? <;> rfl
  · -- every pair written lies at `node`
    have hnil : ((policy.map fun kv : List ℕ × List ℕ => (⟨node, kv.1, kv.2⟩ : PolicyRow)).filter
        fun x => (x.node, x.key) = (node', k)) = [] :=
      List.filter_eq_nil_iff.2 fun x hx => by
        obtain ⟨kv, -, rfl⟩ := List.mem_map.1 hx
        simp [Ne.symm hn]
    rw [hnil]
    rfl

/-- A container with `quota=1` and `versioning=auto`; `policy_set` writes `quota=2`: `quota`
reads `2`. -/
theorem policySet_policyGet_quota :
    let ops : List Op := [.nodeCreate 0 [97], .policySet 1 [([113], [49]), ([118], [97])]]
    ∃ s s', init.run ops = .ok s ∧ s.policySet 1 [([113], [50])] = .ok s' ∧
      (s'.policyGet 1).filter (·.1 = [113]) =
        if (1 : ℤ) = 1 then
          match ([([113], [50])].filter fun kv : List ℕ × List ℕ => kv.1 = [113]).getLast? with
          | some kv => [kv]
          | none => (s.policyGet 1).filter (·.1 = [113])
        else (s.policyGet 1).filter (·.1 = [113]) := by
  intro ops
  obtain ⟨s, s', hs, h⟩ : ∃ s s', init.run ops = .ok s ∧
      s.policySet 1 [([113], [50])] = .ok s' := ⟨_, _, rfl, rfl⟩
  exact ⟨s, s', hs, h, policySet_policyGet h 1 [113]⟩

/-! ## Versions -/

/-- A successful `version_create` appends its row under a serial above every older one, so
that the row is the latest version of its node for any `before` after `now`. -/
theorem versionCreate_latest {s s' : Store} {node : ℤ} {hash : String} {size : ℤ}
    {source : Option ℤ} {muser : String} {cluster : ℤ} {now : ℕ} {serial : ℤ} {mtime : ℕ}
    (h : s.versionCreate node hash size source muser cluster now = .ok (s', serial, mtime))
    {before : ℕ∞} (hb : (now : ℕ∞) < before) :
    s'.nodes = s.nodes ∧
      s'.versions = s.versions ++ [⟨serial, node, hash, size, source, now, muser, cluster⟩] ∧
      (∀ v ∈ s.versions, v.serial < serial) ∧ s'.maxSerialBefore node before = some serial := by
  obtain ⟨-, rfl, -, s₁, hn, hv, -, -, -, hw⟩ := versionCreate_eq_ok h
  have hst := statisticsUpdateAncestors_statsStep hw
  have hvers := hst.versions.trans hv
  have hold : ∀ v ∈ s.versions, v.serial < nextRowid (s.versions.map VersionRow.serial) :=
    fun v hv => lt_nextRowid (List.mem_map_of_mem _ hv)
  have hrow : (⟨nextRowid (s.versions.map VersionRow.serial), node, hash, size, source, now,
      muser, cluster⟩ : VersionRow) ∈ s'.versions := by simp [hvers]
  refine ⟨hst.nodes.trans hn, hvers, hold, maxSerialBefore_eq_some_iff.2
    ⟨List.mem_map_of_mem _ (List.mem_filter.2 ⟨hrow, by simpa using hb⟩), fun v hv _ _ => ?_⟩⟩
  rw [hvers, List.mem_append, List.mem_singleton] at hv
  rcases hv with hv | rfl
  · exact (hold v hv).le
  · exact le_rfl

/-- `version_lookup` after `version_create` at clock reading `now`: for any `before` later than
`now`, the new version is what `version_lookup` returns for its node in its cluster, and the
node has none in any other cluster, whatever versions it had. -/
theorem versionCreate_versionLookup {s s' : Store} {node : ℤ} {hash : String} {size : ℤ}
    {source : Option ℤ} {muser : String} {cluster : ℤ} {now : ℕ} {serial : ℤ} {mtime : ℕ}
    (h : s.versionCreate node hash size source muser cluster now = .ok (s', serial, mtime))
    {before : ℕ∞} (hb : (now : ℕ∞) < before) (c : ℤ) :
    s'.versionLookup node before c =
      if c = cluster then some ⟨serial, node, hash, size, source, now, muser, cluster⟩
      else none := by
  obtain ⟨-, hvers, hold, hmax⟩ := versionCreate_latest h hb
  unfold versionLookup
  rw [hmax, hvers, List.find?_append, List.find?_eq_none.2 fun v hv => by
    simp [(hold v hv).ne]]
  by_cases hc : c = cluster
  · simp [hc]
  · simp [hc, Ne.symm hc]

/-- Node `1` has a version in cluster `1`; a new version in cluster `0` leaves
`version_lookup(1, inf, 1)` with none. -/
theorem versionCreate_versionLookup_recluster :
    let ops : List Op := [.nodeCreate 0 [97], .versionCreate 1 "h" 1 none "u" 1 10]
    ∃ s s', init.run ops = .ok s ∧ s.versionCreate 1 "k" 2 none "u" 0 11 = .ok (s', 2, 11) ∧
      ((11 : ℕ) : ℕ∞) < ⊤ ∧
      s'.versionLookup 1 ⊤ 1 =
        if (1 : ℤ) = 0 then some ⟨2, 1, "k", 2, none, 11, "u", 0⟩ else none := by
  intro ops
  obtain ⟨s, s', hs, h⟩ : ∃ s s', init.run ops = .ok s ∧
      s.versionCreate 1 "k" 2 none "u" 0 11 = .ok (s', 2, 11) := ⟨_, _, rfl, rfl⟩
  exact ⟨s, s', hs, h, ENat.coe_lt_top 11,
    versionCreate_versionLookup h (ENat.coe_lt_top 11) 1⟩

/-- `latest_version_list` after `version_create`: when the node's path has every code point
below `0xffff`, the listing of its parent lists the path with the new serial. This holds
without delimiter, filter or limit, for any prefix of the path and any start below it, for
any `before` after `now`, and for any `pathq` the path meets, when the cluster left out is
another. -/
theorem versionCreate_latestVersionList (cls : CharClasses) {s s' : Store} {node : ℤ}
    {hash : String} {size : ℤ} {source : Option ℤ} {muser : String} {cluster : ℤ} {now : ℕ}
    {serial : ℤ} {mtime : ℕ}
    (h : s.versionCreate node hash size source muser cluster now = .ok (s', serial, mtime))
    {parent : ℤ} {path pre start : List ℕ} (hn : s.nodeGetProperties node = some (parent, path))
    (hpath : ∀ c ∈ path, c < 0xffff) (hpre : pre <+: path) (hstart : start < path)
    {before : ℕ∞} (hb : (now : ℕ∞) < before) {exceptCluster : ℤ} (hc : cluster ≠ exceptCluster)
    {pathq : List (List ℕ)} (hq : pathq = [] ∨ ∃ p ∈ pathq, p <+: path) :
    ∃ rows, latestVersionList cls s' parent pre [] start (-1) before exceptCluster pathq [] =
        .ok (rows, []) ∧ (path, serial) ∈ rows := by
  obtain ⟨hnodes, hvers, -, hmax⟩ := versionCreate_latest h hb
  obtain ⟨nextling, hnx⟩ := strnextling_of_lt fun c hc => hpath c (hpre.subset hc)
  have hrange := (scanRange_iff hnx hpath).2 ⟨hpre, hstart⟩
  refine ⟨_, by rw [latestVersionList_unfiltered hnx (constructFilters_nil cls)]; rfl, ?_⟩
  rw [limitRows, if_pos (by decide), listingQuery_eq_filter, List.mem_filter,
    (sortByPath_perm _).mem_iff, mem_unboundedRows]
  have hm := hnodes ▸ mem_of_nodeGetProperties hn
  refine ⟨⟨⟨serial, node, hash, size, source, now, muser, cluster⟩, by simp [hvers], _, hm,
    ?_, rfl⟩, decide_eq_true hrange.1⟩
  simp only [queryCond, decide_eq_true_eq, List.any_eq_true]
  exact ⟨hmax.symm, hc, ⟨_, hm, rfl, rfl⟩, trivial, hrange.2, hq⟩

/-- `a` under `ROOTNODE`, then a version of it: the listing of `ROOTNODE` lists `a` with
serial `1`. -/
theorem versionCreate_latestVersionList_a :
    ∃ s s', init.nodeCreate 0 [97] = .ok (s, 1) ∧
      s.versionCreate 1 "h" 1 none "u" 0 10 = .ok (s', 1, 10) ∧
      ∃ rows, latestVersionList ⟨fun _ => false, fun _ => false⟩ s' 0 [] [] [] (-1) ⊤ 1 [] [] =
        .ok (rows, []) ∧ ([97], 1) ∈ rows := by
  obtain ⟨s, s', h₁, h₂, hn⟩ : ∃ s s', init.nodeCreate 0 [97] = .ok (s, 1) ∧
      s.versionCreate 1 "h" 1 none "u" 0 10 = .ok (s', 1, 10) ∧
      s.nodeGetProperties 1 = some (0, [97]) := ⟨_, _, rfl, rfl, rfl⟩
  exact ⟨s, s', h₁, h₂, versionCreate_latestVersionList _ h₂ hn (by decide) List.nil_prefix
    (List.nil_lt_cons _ _) (ENat.coe_lt_top 10) (by decide) (.inl rfl)⟩

/-- `version_remove(serial)` returns the version's hash and deletes the version with its
attributes; every other serial reads as before. -/
theorem versionRemove_versionGetProperties {s s' : Store} {serial : ℤ} {now : ℕ}
    {hash : Option String} (hw : s.Wf) (h : s.versionRemove serial now = .ok (s', hash)) :
    hash = (s.versionGetProperties serial).map VersionRow.hash ∧
      s'.versionGetProperties serial = none ∧ s'.attributeGet serial [] = [] ∧
      ∀ serial' ≠ serial, s'.versionGetProperties serial' = s.versionGetProperties serial' ∧
        s'.attributeGet serial' [] = s.attributeGet serial' [] := by
  unfold versionRemove at h
  split at h
  · rename_i hv
    cases h
    refine ⟨by rw [hv]; rfl, hv, ?_, fun _ _ => ⟨rfl, rfl⟩⟩
    -- a missing version has no attributes
    refine List.map_eq_nil_iff.2 (List.filter_eq_nil_iff.2 fun a ha he => ?_)
    obtain ⟨w, hw', hws⟩ := List.mem_map.1 (by simpa [hasVersion] using hw.attribute_serial a ha)
    have := List.find?_eq_none.1 hv w hw'
    simp only [decide_eq_true_eq] at he this
    exact this (hws.trans he.1)
  · rename_i v hv
    obtain ⟨s₁, h₁, he⟩ := except_bind_eq_ok h
    cases he
    have hst := statisticsUpdateAncestors_statsStep h₁
    obtain ⟨hvm, hvs⟩ := mem_of_versionGetProperties hv
    refine ⟨by rw [hv]; rfl, List.find?_eq_none.2 fun w hw' => ?_, ?_, fun serial' hne => ⟨?_, ?_⟩⟩
    · simp only [deleteVersions_versions, List.mem_filter] at hw'
      simpa using hw'.2
    · refine List.map_eq_nil_iff.2 (List.filter_eq_nil_iff.2 fun a ha he => ?_)
      have hk := (List.mem_filter.1 ha).2
      simp only [decide_eq_true_eq] at he
      rw [List.any_eq_true.2 ⟨v, hst.versions ▸ hvm, by simp [hvs, he.1]⟩] at hk
      exact absurd hk (by decide)
    · unfold versionGetProperties
      rw [deleteVersions_versions, List.find?_filter, hst.versions]
      congr 1
      funext w
      by_cases hw' : w.serial = serial' <;> simp [hw', hne]
    · unfold attributeGet
      congr 1
      show List.filter _ (List.filter _ s₁.attributes) = _
      rw [hst.attributes, List.filter_filter]
      refine List.filter_congr fun a _ => ?_
      by_cases ha : a.serial = serial'
      · simp only [ha, List.mem_nil_iff, or_false, true_and, decide_true_eq_true,
          Bool.true_and, Bool.not_eq_true', List.any_eq_false, decide_eq_true_eq, not_and]
        exact fun w _ h₁ h₂ => hne (h₂.symm.trans h₁)
      · simp [ha]

/-- Versions `1` and `2` of `a`, an attribute on `1`: removing `1` returns its hash. -/
theorem versionRemove_versionGetProperties_first :
    let ops : List Op := [.nodeCreate 0 [97], .versionCreate 1 "h1" 1 none "u" 0 10,
      .versionCreate 1 "h2" 1 none "u" 0 11, .attributeSet 1 [([107], [118])]]
    ∃ s s' hash, init.run ops = .ok s ∧ s.Wf ∧ s.versionRemove 1 12 = .ok (s', hash) ∧
      hash = some "h1" ∧
      (hash = (s.versionGetProperties 1).map VersionRow.hash ∧
        s'.versionGetProperties 1 = none ∧ s'.attributeGet 1 [] = [] ∧
        ∀ serial' ≠ 1, s'.versionGetProperties serial' = s.versionGetProperties serial' ∧
          s'.attributeGet serial' [] = s.attributeGet serial' []) := by
  intro ops
  obtain ⟨s, s', hash, hs, h, hh⟩ : ∃ s s' hash, init.run ops = .ok s ∧
      s.versionRemove 1 12 = .ok (s', hash) ∧ hash = some "h1" := ⟨_, _, _, rfl, rfl, rfl⟩
  have hw := Reachable.wf (Reachable.init.run ops hs)
  exact ⟨s, s', hash, hs, hw, h, hh, versionRemove_versionGetProperties hw h⟩

/-! ## Nodes -/

/-- `node_lookup` and `node_get_properties` after `node_create(parent, path)`: the path reads
as the new node, the new node reads as `(parent, path)`, and every other path reads as
before. -/
theorem nodeCreate_nodeLookup {s s' : Store} {parent node : ℤ} {path : List ℕ}
    (h : s.nodeCreate parent path = .ok (s', node)) :
    s'.nodeLookup path = some node ∧ s'.nodeGetProperties node = some (parent, path) ∧
      ∀ p ≠ path, s'.nodeLookup p = s.nodeLookup p := by
  obtain ⟨rfl, -, hn, -⟩ := nodeCreate_eq_ok h
  -- the path and the id are new: no older node has either
  have hpath : ∀ r ∈ s.nodes, r.path ≠ path := fun r hr he => by
    have hpk := s'.path_key
    rw [hn, List.map_append, List.nodup_append] at hpk
    exact hpk.2.2 (List.mem_map_of_mem _ hr) (by simp [he])
  have hid : ∀ r ∈ s.nodes, r.node ≠ nextRowid (s.nodes.map NodeRow.node) := fun r hr he =>
    nextRowid_not_mem _ (he ▸ List.mem_map_of_mem NodeRow.node hr)
  unfold nodeLookup nodeGetProperties
  rw [hn]
  refine ⟨?_, ?_, fun p hp => ?_⟩
  · rw [List.find?_append, List.find?_eq_none.2 fun r hr => by simp [hpath r hr]]
    simp
  · rw [List.find?_append, List.find?_eq_none.2 fun r hr => by simp [hid r hr]]
    simp
  · simp [List.find?_append, Ne.symm hp]

/-- `node_lookup` and `node_get_properties` are inverse: a path reads as a node exactly when
that node reads with that path. -/
theorem nodeLookup_eq_some_iff (s : Store) (path : List ℕ) (node : ℤ) :
    s.nodeLookup path = some node ↔ ∃ parent, s.nodeGetProperties node = some (parent, path) := by
  constructor
  · intro h
    obtain ⟨r, hr, rfl⟩ := Option.map_eq_some'.1 h
    have hp : r.path = path := by simpa using List.find?_some hr
    exact ⟨r.parent, hp ▸ nodeGetProperties_of_mem (List.mem_of_find?_eq_some hr)⟩
  · rintro ⟨parent, h⟩
    have hm := mem_of_nodeGetProperties h
    obtain ⟨r, hr⟩ := Option.isSome_iff_exists.1
      (List.find?_isSome.2 ⟨_, hm, by simp⟩ : (s.nodes.find? (·.path = path)).isSome)
    have hp : r.path = path := by simpa using List.find?_some hr
    rw [nodeLookup, hr, List.inj_on_of_nodup_map s.path_key (List.mem_of_find?_eq_some hr) hm hp]
    rfl

/-- `a` exists; `node_create(0, "b")` gives node `2`, and `a` still reads as node `1`. -/
theorem nodeCreate_nodeLookup_b :
    ∃ s s', init.nodeCreate 0 [97] = .ok (s, 1) ∧ s.nodeCreate 0 [98] = .ok (s', 2) ∧
      s'.nodeLookup [98] = some 2 ∧ s'.nodeGetProperties 2 = some (0, [98]) ∧
        ∀ p ≠ [98], s'.nodeLookup p = s.nodeLookup p := by
  obtain ⟨s, s', h₁, h₂⟩ : ∃ s s', init.nodeCreate 0 [97] = .ok (s, 1) ∧
      s.nodeCreate 0 [98] = .ok (s', 2) := ⟨_, _, rfl, rfl⟩
  exact ⟨s, s', h₁, h₂, nodeCreate_nodeLookup h₂⟩

theorem nodeGetVersions_filter (s : Store) (node : ℤ) (p : VersionRow → Bool) :
    (s.nodeGetVersions node).filter p = s.versions.filter fun v => v.node = node ∧ p v := by
  simp only [nodeGetVersions, List.filter_filter, Bool.decide_and, Bool.decide_eq_true,
    Bool.and_comm]

theorem nodeGetVersions_deleteVersions (s : Store) (p : VersionRow → Bool) (node : ℤ) :
    (s.deleteVersions p).nodeGetVersions node = (s.nodeGetVersions node).filter fun v => !p v := by
  simp only [nodeGetVersions, deleteVersions_versions, List.filter_filter, Bool.and_comm]

/-- A delete of nodes takes all the versions of a node in its cascade and none of the others. -/
theorem nodeGetVersions_deleteNodes (s : Store) (victims : List ℤ) (node : ℤ) :
    (s.deleteNodes victims).nodeGetVersions node =
      if node ∈ cascade s.nodes (victims.filter s.hasNode) then [] else s.nodeGetVersions node := by
  show ((s.deleteVersions _).versions.filter _) = _
  rw [deleteVersions_versions, List.filter_filter]
  split_ifs with hg
  · refine List.filter_eq_nil_iff.2 fun v _ hv => ?_
    simp only [Bool.and_eq_true, Bool.not_eq_true', decide_eq_false_iff_not,
      decide_eq_true_eq] at hv
    exact hv.2 (hv.1 ▸ hg)
  · exact List.filter_congr fun v _ => by by_cases hv : v.node = node <;> simp_all

/-- `node_get_versions(node)` after `node_purge(node, before, cluster)`: the versions the node
had outside `cluster` or after `before`; the hashes returned are those of the others. -/
theorem nodePurge_nodeGetVersions {s s' : Store} {node : ℤ} {before : ℕ∞} {cluster : ℤ}
    {now : ℕ} {hashes : List String}
    (h : s.nodePurge node before cluster now = .ok (s', hashes)) :
    s'.nodeGetVersions node =
        (s.nodeGetVersions node).filter (fun v => !(v.cluster = cluster ∧ v.mtime ≤ before)) ∧
      hashes = ((s.nodeGetVersions node).filter fun v =>
        v.cluster = cluster ∧ v.mtime ≤ before).map VersionRow.hash := by
  let hit : VersionRow → Bool := fun v => v.node = node ∧ v.cluster = cluster ∧ v.mtime ≤ before
  -- at the node, a version is hit when it is in `cluster` up to `before`
  have hat : ∀ v ∈ s.nodeGetVersions node,
      hit v = decide (v.cluster = cluster ∧ v.mtime ≤ before) := fun v hv => by
    simp [hit, of_decide_eq_true (List.mem_filter.1 hv).2]
  have hhit : (s.nodeGetVersions node).filter (fun v => v.cluster = cluster ∧ v.mtime ≤ before) =
      s.versions.filter hit := by
    rw [← List.filter_congr hat, nodeGetVersions_filter]
    exact List.filter_congr fun v _ => by simp [hit]
  have hkeep : (s.nodeGetVersions node).filter (fun v => !hit v) =
      (s.nodeGetVersions node).filter fun v => !(v.cluster = cluster ∧ v.mtime ≤ before) :=
    List.filter_congr fun v hv => by rw [hat v hv]
  rw [hhit, ← hkeep]
  unfold nodePurge at h
  dsimp only at h
  split_ifs at h with h0
  · cases h
    refine ⟨(List.filter_eq_self.2 fun v hv => ?_).symm,
      by rw [List.eq_nil_of_length_eq_zero h0]; rfl⟩
    cases hv' : hit v
    · rfl
    · exact absurd h0
        (List.length_pos_of_mem (List.mem_filter.2 ⟨(List.mem_filter.1 hv).1, hv'⟩)).ne'
  · obtain ⟨s₁, h₁, he⟩ := except_bind_eq_ok h
    cases he
    have hs₂ : (s₁.deleteVersions hit).nodeGetVersions node =
        (s.nodeGetVersions node).filter fun v => !hit v := by
      rw [nodeGetVersions_deleteVersions, nodeGetVersions, nodeGetVersions,
        (statisticsUpdateAncestors_statsStep h₁).versions]
    refine ⟨?_, rfl⟩
    rw [nodeGetVersions_deleteNodes, ← hs₂]
    split_ifs with hany hg hg
    · simp [cascade_nil] at hg
    · rfl
    · -- the node keeps no version, and goes
      refine (List.filter_eq_nil_iff.2 fun v hv hn => hany ?_).symm
      exact List.any_eq_true.2 ⟨v, hv, hn⟩
    · rfl

/-- A file with versions at `10` and `11` in cluster `0` and one at `12` in cluster `1`:
purging cluster `0` up to `10` takes the first and returns its hash. -/
theorem nodePurge_nodeGetVersions_first :
    ∃ s s' hashes, init.run [.nodeCreate 0 [97], .versionCreate 1 "h1" 1 none "u" 0 10,
        .versionCreate 1 "h2" 1 none "u" 0 11, .versionCreate 1 "h3" 1 none "u" 1 12] = .ok s ∧
      s.nodePurge 1 10 0 13 = .ok (s', hashes) ∧ hashes = ["h1"] ∧
      (s'.nodeGetVersions 1 =
          (s.nodeGetVersions 1).filter (fun v => !(v.cluster = 0 ∧ v.mtime ≤ (10 : ℕ∞))) ∧
        hashes = ((s.nodeGetVersions 1).filter fun v =>
          v.cluster = 0 ∧ v.mtime ≤ (10 : ℕ∞)).map VersionRow.hash) := by
  obtain ⟨s, s', hashes, hs, h, hh⟩ : ∃ s s' hashes,
      init.run [.nodeCreate 0 [97], .versionCreate 1 "h1" 1 none "u" 0 10,
        .versionCreate 1 "h2" 1 none "u" 0 11, .versionCreate 1 "h3" 1 none "u" 1 12] = .ok s ∧
      s.nodePurge 1 10 0 13 = .ok (s', hashes) ∧ hashes = ["h1"] := ⟨_, _, _, rfl, rfl, rfl⟩
  exact ⟨s, s', hashes, hs, h, hh, nodePurge_nodeGetVersions h⟩

/-! ## What no call rewrites

`node_create` and `version_create` insert under a fresh id, the deletes drop rows, and the one
`UPDATE versions` of the module is `version_recluster`'s, which sets a cluster. -/

/-- `version_recluster(serial, cluster)` sets the cluster of the row with that serial and
leaves every other field of every version row as it was. -/
theorem versionRecluster_versions {s s' : Store} {serial cluster : ℤ} {now : ℕ}
    (h : s.versionRecluster serial cluster now = .ok s') :
    s'.nodes = s.nodes ∧ (s'.versions = s.versions ∨
      s'.versions = s.versions.map fun v => if v.serial = serial then { v with cluster } else v) := by
  rcases versionRecluster_eq_ok h with rfl | ⟨v, s₁, s₂, -, -, h₁, h₂, rfl⟩
  · exact ⟨rfl, .inl rfl⟩
  · have h₁ := statisticsUpdateAncestors_statsStep h₁
    have h₂ := statisticsUpdateAncestors_statsStep h₂
    exact ⟨h₂.nodes.trans h₁.nodes, .inr (by rw [← h₁.versions, ← h₂.versions]; rfl)⟩

/-- The node and version rows a call leaves: `node_create` adds one node row and
`version_create` one version row, each under an id no row of `s` has, and the other table
stays; `version_recluster` keeps the nodes and the serials; every other call only deletes. -/
def AddsRows (s s' : Store) : Op → Prop
  | .nodeCreate parent path => ∃ node, node ∉ s.nodes.map NodeRow.node ∧
      s'.nodes = s.nodes ++ [⟨node, parent, path⟩] ∧ s'.versions = s.versions
  | .versionCreate node hash size source muser cluster now => ∃ serial,
      serial ∉ s.versions.map VersionRow.serial ∧ s'.nodes = s.nodes ∧
      s'.versions = s.versions ++ [⟨serial, node, hash, size, source, now, muser, cluster⟩]
  | .versionRecluster .. => s'.nodes = s.nodes ∧
      s'.versions.map VersionRow.serial = s.versions.map VersionRow.serial
  | _ => s'.nodes ⊆ s.nodes ∧ s'.versions ⊆ s.versions

theorem subset_of_statsStep {s t s' : Store} (h : StatsStep s t) (hn : s'.nodes ⊆ t.nodes)
    (hv : s'.versions ⊆ t.versions) : s'.nodes ⊆ s.nodes ∧ s'.versions ⊆ s.versions :=
  ⟨h.nodes ▸ hn, h.versions ▸ hv⟩

theorem apply_addsRows {s s' : Store} {op : Op} (h : s.apply op = .ok s') : AddsRows s s' op := by
  have hsub : ∀ {l : List VersionRow} {p q : VersionRow → Bool},
      (l.filter p).filter q ⊆ l := fun {_ _ _} =>
    ((List.filter_sublist _).trans (List.filter_sublist _)).subset
  have hsame : ∀ {t : Store}, t.nodes = s.nodes → t.versions = s.versions →
      t.nodes ⊆ s.nodes ∧ t.versions ⊆ s.versions :=
    fun hn hv => ⟨hn ▸ List.Subset.refl _, hv ▸ List.Subset.refl _⟩
  cases op with
  | nodeCreate parent path =>
    obtain ⟨⟨t, _⟩, ht, rfl⟩ := except_map_eq_ok h
    obtain ⟨rfl, -, hn, hv, -⟩ := nodeCreate_eq_ok ht
    exact ⟨_, nextRowid_not_mem _, hn, hv⟩
  | nodeRemove node now =>
    obtain ⟨⟨t, _⟩, ht, rfl⟩ := except_map_eq_ok h
    rcases nodeRemove_eq_ok ht with ⟨-, rfl⟩ | ⟨-, s₁, h₁, rfl⟩
    · exact hsame rfl rfl
    · exact subset_of_statsStep (foldlM_statsStep
        (fun _ _ _ ht => statisticsUpdateAncestors_statsStep ht) _ h₁)
        (List.filter_sublist _).subset (List.filter_sublist _).subset
  | nodePurge node before cluster now =>
    obtain ⟨⟨t, _⟩, ht, rfl⟩ := except_map_eq_ok h
    rcases nodePurge_eq_ok ht with rfl | ⟨s₁, h₁, rfl⟩
    · exact hsame rfl rfl
    · exact subset_of_statsStep (statisticsUpdateAncestors_statsStep h₁)
        (List.filter_sublist _).subset hsub
  | nodePurgeChildren parent before cluster now =>
    obtain ⟨⟨t, _⟩, ht, rfl⟩ := except_map_eq_ok h
    rcases nodePurgeChildren_eq_ok ht with rfl | ⟨_, _, s₁, s₂, _, _, h₁, h₂, rfl⟩
    · exact hsame rfl rfl
    · exact subset_of_statsStep ((statisticsUpdate_statsStep h₁).trans
        (statisticsUpdateAncestors_statsStep h₂)) (List.filter_sublist _).subset hsub
  | versionCreate node hash size source muser cluster now =>
    obtain ⟨⟨t, _, _⟩, ht, rfl⟩ := except_map_eq_ok h
    obtain ⟨-, rfl, -, s₁, hn, hv, -, -, -, hwalk⟩ := versionCreate_eq_ok ht
    have hst := statisticsUpdateAncestors_statsStep hwalk
    exact ⟨_, nextRowid_not_mem _, hst.nodes.trans hn, hst.versions.trans hv⟩
  | versionRemove serial now =>
    obtain ⟨⟨t, _⟩, ht, rfl⟩ := except_map_eq_ok h
    rcases versionRemove_eq_ok ht with ⟨-, rfl⟩ | ⟨v, s₁, -, h₁, rfl⟩
    · exact hsame rfl rfl
    · exact subset_of_statsStep (statisticsUpdateAncestors_statsStep h₁) (List.Subset.refl _)
        (List.filter_sublist _).subset
  | versionRecluster serial cluster now =>
    obtain ⟨hn, hvs | hvs⟩ := versionRecluster_versions h
    · exact ⟨hn, by rw [hvs]⟩
    · exact ⟨hn, by rw [hvs]; exact setCluster_serials s serial cluster⟩
  | attributeSet serial items =>
    obtain ⟨hn, hv, -⟩ := attributeSet_tables h
    exact hsame hn hv
  | attributeCopy source dest =>
    obtain ⟨hn, hv, -⟩ := attributeSet_tables h
    exact hsame hn hv
  | attributeDel serial keys =>
    cases h
    exact hsame rfl rfl
  | policySet node policy =>
    obtain ⟨hn, hv, -⟩ := policySet_tables h
    exact hsame hn hv

/-- Every row a call leaves, but a row `version_recluster` rewrites, is a row of `s` or has an
id that `s` does not have. -/
theorem AddsRows.keeps {s s' : Store} {op : Op} (h : AddsRows s s' op) :
    (∀ n ∈ s'.nodes, n ∈ s.nodes ∨ n.node ∉ s.nodes.map NodeRow.node) ∧
      ((∀ serial cluster now, op ≠ .versionRecluster serial cluster now) →
        ∀ v ∈ s'.versions, v ∈ s.versions ∨ v.serial ∉ s.versions.map VersionRow.serial) := by
  cases op with
  | nodeCreate parent path =>
    obtain ⟨node, hfresh, hn, hv⟩ := h
    refine ⟨fun n hm => ?_, fun _ v hm => .inl (hv ▸ hm)⟩
    rcases List.mem_append.1 (hn ▸ hm) with hm | hm
    · exact .inl hm
    · exact .inr (List.mem_singleton.1 hm ▸ hfresh)
  | versionCreate node hash size source muser cluster now =>
    obtain ⟨serial, hfresh, hn, hv⟩ := h
    refine ⟨fun n hm => .inl (hn ▸ hm), fun _ v hm => ?_⟩
    rcases List.mem_append.1 (hv ▸ hm) with hm | hm
    · exact .inl hm
    · exact .inr (List.mem_singleton.1 hm ▸ hfresh)
  | versionRecluster serial cluster now =>
    exact ⟨fun n hm => .inl (h.1 ▸ hm), fun hop => absurd rfl (hop serial cluster now)⟩
  | _ => exact ⟨fun _ hm => .inl (h.1 hm), fun _ _ hm => .inl (h.2 hm)⟩

/-- No call rewrites a stored row. A node row that stays in the store through a call is the
row it was. A version row that stays keeps its node, hash, size, source, mtime and muser, and
its cluster changes only under `version_recluster` of its own serial. `node_create` and
`version_create` add one row each under a fresh id, and every other call adds none. -/
theorem apply_keeps_rows {s s' : Store} {op : Op} (h : s.apply op = .ok s') :
    (∀ n ∈ s'.nodes, ∀ m ∈ s.nodes, n.node = m.node → n = m) ∧
      (∀ v ∈ s'.versions, ∀ w ∈ s.versions, v.serial = w.serial →
        v = { w with cluster := v.cluster } ∧
          (v.cluster = w.cluster ∨ ∃ now, op = .versionRecluster v.serial v.cluster now)) ∧
      AddsRows s s' op := by
  have hadd := apply_addsRows h
  have hver : ∀ {v w}, v ∈ s.versions ∨ v.serial ∉ s.versions.map VersionRow.serial →
      w ∈ s.versions → v.serial = w.serial → v = w := fun hv hw he => hv.elim
    (fun hv => List.inj_on_of_nodup_map s.serial_key hv hw he)
    fun hv => absurd (he ▸ List.mem_map_of_mem VersionRow.serial hw) hv
  refine ⟨fun n hn m hm he => (hadd.keeps.1 n hn).elim
    (fun hn => List.inj_on_of_nodup_map s.node_key hn hm he)
    fun hn => absurd (he ▸ List.mem_map_of_mem NodeRow.node hm) hn, ?_, hadd⟩
  by_cases hop : ∃ serial cluster now, op = .versionRecluster serial cluster now
  · obtain ⟨serial, cluster, now, rfl⟩ := hop
    intro v hv w hw he
    rcases (versionRecluster_versions h).2 with hvs | hvs
    · obtain rfl := hver (.inl (hvs ▸ hv)) hw he
      exact ⟨rfl, .inl rfl⟩
    · obtain ⟨u, hu, rfl⟩ := List.mem_map.1 (hvs ▸ hv)
      by_cases hs : u.serial = serial
      · subst hs
        rw [if_pos rfl] at he ⊢
        obtain rfl := hver (.inl hu) hw he
        exact ⟨rfl, .inr ⟨now, rfl⟩⟩
      · rw [if_neg hs] at he ⊢
        obtain rfl := hver (.inl hu) hw he
        exact ⟨rfl, .inl rfl⟩
  · intro v hv w hw he
    obtain rfl := hver (hadd.keeps.2 (fun serial cluster now he => hop ⟨serial, cluster, now, he⟩)
      v hv) hw he
    exact ⟨rfl, .inl rfl⟩

/-- A file's version moved to cluster `2`: it keeps every other field. -/
theorem apply_keeps_rows_recluster :
    ∃ s s', init.run [.nodeCreate 0 [97], .versionCreate 1 "h" 4 none "u" 0 10] = .ok s ∧
      s.apply (.versionRecluster 1 2 11) = .ok s' ∧
      s'.versions = [⟨1, 1, "h", 4, none, 10, "u", 2⟩] ∧
      ((∀ n ∈ s'.nodes, ∀ m ∈ s.nodes, n.node = m.node → n = m) ∧
        (∀ v ∈ s'.versions, ∀ w ∈ s.versions, v.serial = w.serial →
          v = { w with cluster := v.cluster } ∧
            (v.cluster = w.cluster ∨ ∃ now, Op.versionRecluster 1 2 11 =
              .versionRecluster v.serial v.cluster now)) ∧
        AddsRows s s' (.versionRecluster 1 2 11)) := by
  obtain ⟨s, s', hs, h⟩ : ∃ s s',
      init.run [.nodeCreate 0 [97], .versionCreate 1 "h" 4 none "u" 0 10] = .ok s ∧
        s.apply (.versionRecluster 1 2 11) = .ok s' := ⟨_, _, rfl, rfl⟩
  exact ⟨s, s', hs, h, by cases hs; cases h; rfl, apply_keeps_rows h⟩

end Store

end Pithos
