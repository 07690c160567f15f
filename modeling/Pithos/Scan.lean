import Pithos.Listing

/-!
# The delimiter loop

Every query the loop runs is the path-ordered rows of the query without lower bound, cut
at the current bound. A fetched row is the first row above the bound, so the rest of the
cursor is cut at its path; a common prefix `pf` of a fetched path re-runs the query from
`strnextling(pf)`, which lies above that path. Each fetch thus lowers the number of rows
above the bound, and the loop stops within one fetch more than the first query's rows.
-/
namespace Pithos

section Sorted

variable {B : List (List ℕ × ℤ)}

/-- In rows sorted strictly by path, what follows the first row above `lo` is the rows
above that row's path. -/
theorem filter_lt_of_cons (hB : B.Sorted pathLt) {lo : List ℕ} {r : List ℕ × ℤ}
    {rest : List (List ℕ × ℤ)} (h : B.filter (fun x => lo < x.1) = r :: rest) :
    rest = B.filter (fun x => r.1 < x.1) := by
  have hs : (r :: rest).Sorted pathLt := h ▸ hB.filter _
  have hmem : r ∈ B.filter (fun x => lo < x.1) := h ▸ List.mem_cons_self r rest
  have hlo : lo < r.1 := of_decide_eq_true (List.mem_filter.1 hmem).2
  have key : B.filter (fun x => r.1 < x.1) = (B.filter fun x => lo < x.1).filter
      (fun x => r.1 < x.1) := by
    rw [List.filter_filter]
    refine List.filter_congr fun x _ => ?_
    by_cases hx : r.1 < x.1
    · simp [hx, hlo.trans hx]
    · simp [hx]
  rw [key, h, List.filter_cons_of_neg (by simp)]
  exact (List.filter_eq_self.2 fun x hx => by
    simpa using List.rel_of_sorted_cons hs x hx).symm

theorem filter_lt_length_le {lo lo' : List ℕ} (h : lo ≤ lo') :
    (B.filter fun x => lo' < x.1).length ≤ (B.filter fun x => lo < x.1).length :=
  (List.monotone_filter_right B fun x hx => by
    simp only [decide_eq_true_eq] at hx ⊢
    exact lt_of_le_of_lt h hx).length_le

end Sorted

/-- A common prefix found by `find` is the path before the delimiter, then the delimiter. -/
theorem take_find_add {path delimiter : List ℕ} {pfz idx : ℕ}
    (h : find path delimiter pfz = some idx) :
    path.take (idx + delimiter.length) = path.take idx ++ delimiter := by
  obtain ⟨t, ht⟩ := (find_spec h).2
  rw [List.take_add, ← ht, List.take_left' rfl]

/-- A common prefix found by `find` ends with the delimiter, so with a delimiter below
`0xffff` its `strnextling` exists and lies above the path. -/
theorem strnextling_commonPrefix {path delimiter : List ℕ} {pfz idx : ℕ} (hd : delimiter ≠ [])
    (hcp : ∀ c ∈ delimiter, c < 0xffff) (h : find path delimiter pfz = some idx) :
    ∃ nx, strnextling (path.take (idx + delimiter.length)) = some nx ∧ path < nx := by
  have hpf := take_find_add h
  obtain ⟨d, c, rfl⟩ : ∃ d c, delimiter = d ++ [c] :=
    ⟨_, _, (List.dropLast_append_getLast hd).symm⟩
  rw [hpf, ← List.append_assoc, strnextling_snoc _ (hcp c (by simp))]
  refine ⟨_, rfl, prefix_lt_succ ?_⟩
  rw [List.append_assoc, ← hpf]
  exact List.take_prefix _ _

section Loop

variable {B : List (List ℕ × ℤ)} {query : List ℕ → List (List ℕ × ℤ)} {pfz : ℕ}
  {delimiter : List ℕ} {limit : ℤ}

/-- From a cursor holding the rows above some bound, with more fuel than rows, the loop
ends without running out. -/
theorem delimiterLoop_ne_diverges (hB : B.Sorted pathLt)
    (hq : ∀ lo, query lo = B.filter fun x => lo < x.1) (hd : delimiter ≠ [])
    (hcp : ∀ c ∈ delimiter, c < 0xffff) :
    ∀ fuel lo count matched prefixes, (B.filter fun x => lo < x.1).length < fuel →
      delimiterLoop query pfz delimiter limit fuel (B.filter fun x => lo < x.1) count matched
        prefixes ≠ .error .diverges := by
  intro fuel
  induction fuel with
  | zero => intro _ _ _ _ h; omega
  | succ fuel ih =>
    intro lo count matched prefixes hlen
    cases hF : B.filter (fun x => lo < x.1) with
    | nil => simp [delimiterLoop]
    | cons r rest =>
      have hrest := filter_lt_of_cons hB hF
      have hlen' : (B.filter fun x => r.1 < x.1).length < fuel := by
        rw [hF] at hlen; rw [← hrest]; simpa using hlen
      simp only [delimiterLoop]
      split
      · split_ifs
        · simp
        · rw [hrest]; exact ih _ _ _ _ hlen'
      · rename_i idx hidx
        split_ifs
        · rw [hrest]; exact ih _ _ _ _ hlen'
        · simp
        · obtain ⟨nx, hnx, hlt⟩ := strnextling_commonPrefix hd hcp hidx
          simp only [hnx, hq]
          exact ih _ _ _ _ (lt_of_le_of_lt (filter_lt_length_le hlt.le) hlen')

/-- More fuel than a loop that ended needs changes nothing. -/
theorem delimiterLoop_add_fuel :
    ∀ fuel rows count matched prefixes k,
      delimiterLoop query pfz delimiter limit fuel rows count matched prefixes ≠
          .error .diverges →
        delimiterLoop query pfz delimiter limit (fuel + k) rows count matched prefixes =
          delimiterLoop query pfz delimiter limit fuel rows count matched prefixes := by
  intro fuel
  induction fuel with
  | zero => intro _ _ _ _ _ h; exact absurd rfl h
  | succ fuel ih =>
    intro rows count matched prefixes k h
    rw [Nat.add_right_comm]
    cases rows with
    | nil => rfl
    | cons r rest =>
      simp only [delimiterLoop] at h ⊢
      cases hf : find r.1 delimiter pfz with
      | none =>
        simp only [hf] at h ⊢
        split_ifs at h ⊢
        · rfl
        · exact ih _ _ _ _ _ h
      | some idx =>
        simp only [hf] at h ⊢
        split_ifs at h ⊢
        · exact ih _ _ _ _ _ h
        · rfl
        · cases hn : strnextling (r.1.take (idx + delimiter.length)) with
          | none => rfl
          | some nx =>
            simp only [hn] at h ⊢
            exact ih _ _ _ _ _ h

/-- A cursor whose rows hold no delimiter at or after `pfz` is read as matches up to the limit,
and always at least one row: the loop tests the limit only after it takes a match. -/
theorem delimiterLoop_of_find_none {prefixes : List (List ℕ)} :
    ∀ rows fuel count matched, rows.length < fuel →
      (∀ r ∈ rows, find r.1 delimiter pfz = none) →
      delimiterLoop query pfz delimiter limit fuel rows count matched prefixes =
        .ok (matched ++ rows.take (max (limit - count) 1).toNat, prefixes) := by
  intro rows
  induction rows with
  | nil =>
    intro fuel count matched hf _
    obtain ⟨k, rfl⟩ : ∃ k, fuel = k + 1 := Nat.exists_eq_succ_of_ne_zero (by simp at hf; omega)
    simp [delimiterLoop]
  | cons r rest ih =>
    intro fuel count matched hf hno
    obtain ⟨k, rfl⟩ : ∃ k, fuel = k + 1 := Nat.exists_eq_succ_of_ne_zero (by omega)
    simp only [delimiterLoop, hno r (List.mem_cons_self _ _)]
    split_ifs with hl
    · have h1 : (max (limit - count) 1).toNat = 1 := by omega
      simp [h1]
    · rw [ih k (count + 1) (matched ++ [r]) (by simp at hf; omega)
        fun x hx => hno x (List.mem_cons_of_mem _ hx)]
      have h1 : (max (limit - count) 1).toNat = (max (limit - ↑(count + 1)) 1).toNat + 1 := by
        omega
      simp [h1]

end Loop

/-- With a non-empty delimiter below `0xffff`, the loop of `latest_version_list` ends within
one fetch more than the rows `L` of its first query: it does not run out of its `L.length + 1`
fetches, and any more fuel gives the same answer. A filter fragment makes the call raise
before the loop. -/
theorem latestVersionList_loop_terminates (cls : CharClasses) (s : Store) (parent : ℤ)
    (pre delimiter start : List ℕ) (limit : ℤ) (before : ℕ∞) (exceptCluster : ℤ)
    (pathq : List (List ℕ)) (filterq : List ℕ) (nextling : List ℕ)
    (hn : strnextling pre = some nextling) (hd : delimiter ≠ [])
    (hcp : ∀ c ∈ delimiter, c < 0xffff) :
    let query := listingQuery s parent nextling before exceptCluster pathq
    let rows := query (scanStart pre start)
    latestVersionList cls s parent pre delimiter start limit before exceptCluster pathq filterq ≠
        .error .diverges ∧
      ∀ fuel, rows.length + 1 ≤ fuel →
        (if (constructFilters cls filterq).isSome then .error .operationalError
          else delimiterLoop query pre.length delimiter limit fuel rows 0 [] []) =
          latestVersionList cls s parent pre delimiter start limit before exceptCluster pathq
            filterq := by
  intro query rows
  cases hf : constructFilters cls filterq with
  | some f =>
    rw [latestVersionList_filtered hn hf]
    exact ⟨(nomatch ·), fun _ _ => rfl⟩
  | none =>
    have hq : ∀ lo, query lo = _ := fun lo => listingQuery_eq_filter lo
    have hne : delimiterLoop query pre.length delimiter limit (rows.length + 1) rows 0 [] [] ≠
        .error .diverges := by
      rw [show rows = _ from hq _]
      exact delimiterLoop_ne_diverges (sortByPath_strict unboundedRows_paths_nodup) hq hd hcp _ _
        _ _ _ (by simp)
    rw [latestVersionList_unfiltered hn hf]
    refine ⟨if_neg hd ▸ hne, fun fuel hf' => ?_⟩
    obtain ⟨k, rfl⟩ := Nat.exists_eq_add_of_le hf'
    exact (delimiterLoop_add_fuel _ _ _ _ _ k hne).trans (if_neg hd).symm

/-- The file `a/b` listed with delimiter `/`: the hypotheses hold at `prefix = ""`. -/
theorem latestVersionList_loop_terminates_slash :
    let cls : CharClasses := ⟨fun _ => false, fun _ => false⟩
    let ops : List Op := [.nodeCreate 0 [97, 47, 98], .versionCreate 1 "h" 3 none "u" 0 10]
    ∃ s, Store.init.run ops = .ok s ∧
      (strnextling [] = some [0xffff] ∧ [47] ≠ [] ∧ ∀ c ∈ [47], c < 0xffff) ∧
      let query := listingQuery s 0 [0xffff] ⊤ 1 []
      let rows := query (scanStart [] [])
      latestVersionList cls s 0 [] [47] [] 5 ⊤ 1 [] [] ≠ .error .diverges ∧
        ∀ fuel, rows.length + 1 ≤ fuel →
          (if (constructFilters cls []).isSome then .error .operationalError
            else delimiterLoop query 0 [47] 5 fuel rows 0 [] []) =
            latestVersionList cls s 0 [] [47] [] 5 ⊤ 1 [] [] := by
  intro cls ops
  exact ⟨_, rfl, ⟨rfl, by decide, by decide⟩,
    latestVersionList_loop_terminates cls _ 0 [] [47] [] 5 ⊤ 1 [] [] [0xffff] rfl (by decide)
      (by decide)⟩

/-- A delimiter that no path under `parent` holds after the prefix changes the listing only at
a limit below one: `latest_version_list` with it returns what the plain listing returns at
limit `max limit 1`, and no common prefix. -/
theorem latestVersionList_unused_delimiter (cls : CharClasses) (s : Store) (parent : ℤ)
    (pre delimiter start : List ℕ) (limit : ℤ) (before : ℕ∞) (exceptCluster : ℤ)
    (pathq : List (List ℕ)) (filterq : List ℕ) (hd : delimiter ≠ [])
    (hno : ∀ n ∈ s.nodes, n.parent = parent → find n.path delimiter pre.length = none) :
    latestVersionList cls s parent pre delimiter start limit before exceptCluster pathq filterq =
      latestVersionList cls s parent pre [] start (max limit 1) before exceptCluster pathq
        filterq := by
  unfold latestVersionList
  split
  · rfl
  split
  · rfl
  dsimp only
  rw [if_neg hd, if_pos rfl, delimiterLoop_of_find_none _ _ _ _ (Nat.lt_succ_self _) fun r hr => ?_]
  · simp [limitRows, show ¬ max limit 1 < 0 by omega]
  · obtain ⟨n, hn, hnp, hnr⟩ := parent_of_mem_listingQuery hr
    exact hnr ▸ hno n hn hnp

/-- Two files `a` and `b` under `ROOTNODE` and delimiter `/`: at limit `0` the listing with the
delimiter still returns `a`, as the plain listing does at limit `1`. -/
theorem latestVersionList_unused_delimiter_zero :
    let cls : CharClasses := ⟨fun _ => false, fun _ => false⟩
    let ops : List Op := [.nodeCreate 0 [97], .nodeCreate 0 [98],
      .versionCreate 1 "h" 1 none "u" 0 10, .versionCreate 2 "h" 1 none "u" 0 11]
    ∃ s, Store.init.run ops = .ok s ∧ [47] ≠ [] ∧
      (∀ n ∈ s.nodes, n.parent = 0 → find n.path [47] 0 = none) ∧
      latestVersionList cls s 0 [] [47] [] 0 ⊤ 1 [] [] =
        latestVersionList cls s 0 [] [] [] (max 0 1) ⊤ 1 [] [] ∧
      latestVersionList cls s 0 [] [47] [] 0 ⊤ 1 [] [] = .ok ([([97], 1)], []) := by
  intro cls ops
  obtain ⟨s, hs, hno, hl⟩ : ∃ s, Store.init.run ops = .ok s ∧
      (∀ n ∈ s.nodes, n.parent = 0 → find n.path [47] 0 = none) ∧
      latestVersionList cls s 0 [] [47] [] 0 ⊤ 1 [] [] = .ok ([([97], 1)], []) :=
    ⟨_, rfl, by decide, rfl⟩
  exact ⟨s, hs, List.cons_ne_nil _ _, hno,
    latestVersionList_unused_delimiter cls s 0 [] [47] [] 0 ⊤ 1 [] [] (List.cons_ne_nil _ _) hno,
    hl⟩

/-! ## What the loop returns -/

/-- A path the loop may return as a match: no delimiter at or after `pfz`, or the first one
ends the path. -/
def Listed (pfz : ℕ) (delimiter path : List ℕ) : Prop :=
  find path delimiter pfz = none ∨
    ∃ idx, find path delimiter pfz = some idx ∧ idx + delimiter.length = path.length

/-- A common prefix of a row that meets `good`: its path up to and with its first delimiter
at or after `pfz`. -/
def CommonPrefixOf (good : List ℕ × ℤ → Prop) (pfz : ℕ) (delimiter pf : List ℕ) : Prop :=
  ∃ r, good r ∧ ∃ idx, find r.1 delimiter pfz = some idx ∧ pf = r.1.take (idx + delimiter.length)

section Sound

variable {query : List ℕ → List (List ℕ × ℤ)} {pfz : ℕ} {delimiter : List ℕ} {limit : ℤ}
  {good : List ℕ × ℤ → Prop}

/-- One fetch of a loop that ends well: the fetched row is a match, and the loop stops on the
limit or goes on with the rest of the cursor; or the row gives a common prefix, and the loop
stops on the limit or re-runs the query from the prefix's `strnextling`. -/
theorem delimiterLoop_cons_eq_ok {fuel count : ℕ} {r : List ℕ × ℤ}
    {rest matched : List (List ℕ × ℤ)} {prefixes : List (List ℕ)}
    {res : List (List ℕ × ℤ) × List (List ℕ)}
    (h : delimiterLoop query pfz delimiter limit (fuel + 1) (r :: rest) count matched prefixes =
      .ok res) :
    (Listed pfz delimiter r.1 ∧
      (res = (matched ++ [r], prefixes) ∧ limit ≤ ((count + 1 : ℕ) : ℤ) ∨
        delimiterLoop query pfz delimiter limit fuel rest (count + 1) (matched ++ [r]) prefixes =
          .ok res)) ∨
    ∃ idx, find r.1 delimiter pfz = some idx ∧ idx + delimiter.length ≠ r.1.length ∧
      (res = (matched, prefixes ++ [r.1.take (idx + delimiter.length)]) ∧ limit ≤ (count : ℤ) ∨
        ∃ nx, strnextling (r.1.take (idx + delimiter.length)) = some nx ∧
          delimiterLoop query pfz delimiter limit fuel (query nx) count matched
            (prefixes ++ [r.1.take (idx + delimiter.length)]) = .ok res) := by
  simp only [delimiterLoop] at h
  cases hf : find r.1 delimiter pfz with
  | none =>
    simp only [hf] at h
    split_ifs at h with hl
    · cases h; exact .inl ⟨.inl hf, .inl ⟨rfl, hl⟩⟩
    · exact .inl ⟨.inl hf, .inr h⟩
  | some idx =>
    simp only [hf] at h
    split_ifs at h with hend hl
    · exact .inl ⟨.inr ⟨idx, hf, hend⟩, .inr h⟩
    · cases h; exact .inr ⟨idx, rfl, hend, .inl ⟨rfl, hl⟩⟩
    · cases hn : strnextling (r.1.take (idx + delimiter.length)) with
      | none => simp [hn] at h
      | some nx =>
        simp only [hn] at h
        exact .inr ⟨idx, rfl, hend, .inr ⟨nx, hn, h⟩⟩

/-- The loop returns fetched rows and their common prefixes only, when each re-run of the
query from above a fetched row fetches rows that meet `good` again. -/
theorem delimiterLoop_sound (hd : delimiter ≠ []) (hcp : ∀ c ∈ delimiter, c < 0xffff)
    (hq : ∀ r lo, good r → r.1 < lo → ∀ r' ∈ query lo, good r') :
    ∀ fuel rows count matched prefixes res,
      delimiterLoop query pfz delimiter limit fuel rows count matched prefixes = .ok res →
      (∀ r ∈ rows, good r) → (∀ m ∈ matched, good m ∧ Listed pfz delimiter m.1) →
      (∀ pf ∈ prefixes, CommonPrefixOf good pfz delimiter pf) →
      (∀ m ∈ res.1, good m ∧ Listed pfz delimiter m.1) ∧
        ∀ pf ∈ res.2, CommonPrefixOf good pfz delimiter pf := by
  intro fuel
  induction fuel with
  | zero => intro _ _ _ _ _ h; cases h
  | succ fuel ih =>
    intro rows count matched prefixes res h hr hm hp
    cases rows with
    | nil => cases h; exact ⟨hm, hp⟩
    | cons r rest =>
      have hgr := hr r (List.mem_cons_self _ _)
      have hrest : ∀ x ∈ rest, good x := fun x hx => hr x (List.mem_cons_of_mem _ hx)
      rcases delimiterLoop_cons_eq_ok h with ⟨hl, hres⟩ | ⟨idx, hf, -, hres⟩
      · -- a match: it joins `matched`
        have hm' : ∀ m ∈ matched ++ [r], good m ∧ Listed pfz delimiter m.1 :=
          List.forall_mem_append.2 ⟨hm, List.forall_mem_singleton.2 ⟨hgr, hl⟩⟩
        rcases hres with ⟨rfl, -⟩ | h
        · exact ⟨hm', hp⟩
        · exact ih _ _ _ _ _ h hrest hm' hp
      · -- a common prefix: it joins `prefixes`
        have hp' : ∀ pf ∈ prefixes ++ [r.1.take (idx + delimiter.length)],
            CommonPrefixOf good pfz delimiter pf :=
          List.forall_mem_append.2 ⟨hp, List.forall_mem_singleton.2 ⟨r, hgr, idx, hf, rfl⟩⟩
        rcases hres with ⟨rfl, -⟩ | ⟨nx, hnx, h⟩
        · exact ⟨hm, hp'⟩
        · obtain ⟨nx', hnx', hlt⟩ := strnextling_commonPrefix hd hcp hf
          obtain rfl : nx = nx' := Option.some.inj (hnx.symm.trans hnx')
          exact ih _ _ _ _ _ h (hq r nx hgr hlt) hm hp'

/-- After a common prefix `pf` of the first cursor row, the query re-run from `strnextling pf`
fetches rows at or above the `strnextling` of every prefix so far. -/
theorem prefixBounds_requery (hq : ∀ lo, ∀ r ∈ query lo, lo < r.1) {r : List ℕ × ℤ}
    {rest : List (List ℕ × ℤ)} {prefixes : List (List ℕ)} {pf nx : List ℕ}
    (hb : ∀ p ∈ prefixes, ∃ nx', strnextling p = some nx' ∧ ∀ x ∈ r :: rest, nx' ≤ x.1)
    (hnx : strnextling pf = some nx) (hlt : r.1 < nx) :
    ∀ p ∈ prefixes ++ [pf], ∃ nx', strnextling p = some nx' ∧ ∀ x ∈ query nx, nx' ≤ x.1 := by
  intro p hp
  rcases List.mem_append.1 hp with hp | hp
  · obtain ⟨nx', hnx', hle⟩ := hb p hp
    exact ⟨nx', hnx', fun x hx =>
      (hle r (List.mem_cons_self _ _)).trans (hlt.trans (hq nx x hx)).le⟩
  · rw [List.mem_singleton.1 hp]
    exact ⟨nx, hnx, fun x hx => (hq nx x hx).le⟩

/-- A common prefix is reported once: after it, the cursor holds only rows at or above its
`strnextling`, which no path with that prefix reaches. -/
theorem delimiterLoop_prefixes_nodup (hd : delimiter ≠ []) (hcp : ∀ c ∈ delimiter, c < 0xffff)
    (hq : ∀ lo, ∀ r ∈ query lo, lo < r.1) :
    ∀ fuel rows count matched prefixes res,
      delimiterLoop query pfz delimiter limit fuel rows count matched prefixes = .ok res →
      prefixes.Nodup → (∀ pf ∈ prefixes, ∃ nx, strnextling pf = some nx ∧ ∀ r ∈ rows, nx ≤ r.1) →
      res.2.Nodup := by
  intro fuel
  induction fuel with
  | zero => intro _ _ _ _ _ h; cases h
  | succ fuel ih =>
    intro rows count matched prefixes res h hnd hb
    cases rows with
    | nil => cases h; exact hnd
    | cons r rest =>
      rcases delimiterLoop_cons_eq_ok h with ⟨-, ⟨rfl, -⟩ | h⟩ | ⟨idx, hf, -, hres⟩
      · exact hnd
      · refine ih _ _ _ _ _ h hnd fun pf hpf => ?_
        obtain ⟨nx', hnx', hle⟩ := hb pf hpf
        exact ⟨nx', hnx', fun x hx => hle x (List.mem_cons_of_mem _ hx)⟩
      · -- a common prefix: not an old one, whose `strnextling` lies at or below `r`
        obtain ⟨nx, hnx, hlt⟩ := strnextling_commonPrefix hd hcp hf
        have hnew : (prefixes ++ [r.1.take (idx + delimiter.length)]).Nodup := by
          refine List.nodup_append.2 ⟨hnd, List.nodup_singleton _, ?_⟩
          intro pf hpf hpf'
          rw [List.mem_singleton.1 hpf'] at hpf
          obtain ⟨nx', hnx', hle⟩ := hb _ hpf
          rw [hnx] at hnx'
          cases hnx'
          exact absurd (hle r (List.mem_cons_self _ _)) (not_le.2 hlt)
        rcases hres with ⟨rfl, -⟩ | ⟨nx', hnx', h⟩
        · exact hnew
        obtain rfl : nx = nx' := Option.some.inj (hnx.symm.trans hnx')
        exact ih _ _ _ _ _ h hnew (prefixBounds_requery hq hb hnx hlt)

/-- A common prefix whose `strnextling` lies at or below a path sorts below the path's own
common prefix: a smaller one would start that path too, and so end at the same delimiter. -/
theorem commonPrefix_lt_take {p nx path : List ℕ} {idx : ℕ} (hd : delimiter ≠ [])
    (hp : CommonPrefixOf good pfz delimiter p) (hnx : strnextling p = some nx) (hle : nx ≤ path)
    (hf : find path delimiter pfz = some idx) : p < path.take (idx + delimiter.length) := by
  obtain ⟨⟨t, _⟩, -, idxp, hfp, rfl⟩ := hp
  dsimp only at hfp hnx ⊢
  have hne : t.take (idxp + delimiter.length) ≠ [] := by
    have := find_add_le hfp
    have := List.length_pos.2 hd
    rw [← List.length_pos, List.length_take]; omega
  have hnot : ¬ t.take (idxp + delimiter.length) <+: path := fun h =>
    not_lt.2 hle <| lt_strnextling_of_prefix hne hnx h
  have hlt : t.take (idxp + delimiter.length) < nx :=
    lt_strnextling_of_prefix hne hnx (List.prefix_refl _)
  rcases lt_trichotomy (t.take (idxp + delimiter.length)) (path.take (idx + delimiter.length))
    with h | h | h
  · exact h
  · exact absurd (by rw [h]; exact List.take_prefix _ _) hnot
  · have hpt : path.take (idx + delimiter.length) <+: t.take (idxp + delimiter.length) :=
      prefix_of_prefix_of_lt_of_lt (List.take_prefix _ _) h (hlt.trans_le hle)
    have hft := find_of_take_prefix hf (hpt.trans (List.take_prefix _ _))
    obtain rfl : idx = idxp := Option.some.inj (hft.symm.trans hfp)
    have heq := hpt.eq_of_length (by
      rw [List.length_take, List.length_take, min_eq_left (find_add_le hf),
        min_eq_left (find_add_le hfp)])
    exact absurd (by rw [← heq]; exact List.take_prefix _ _) hnot

/-- The common prefixes come out in increasing order: each new one lies above the cursor's
rows, which lie at or above every older prefix's `strnextling`. -/
theorem delimiterLoop_prefixes_sorted (hd : delimiter ≠ []) (hcp : ∀ c ∈ delimiter, c < 0xffff)
    (hq : ∀ lo, ∀ r ∈ query lo, lo < r.1) :
    ∀ fuel rows count matched prefixes res,
      delimiterLoop query pfz delimiter limit fuel rows count matched prefixes = .ok res →
      prefixes.Sorted (· < ·) →
      (∀ pf ∈ prefixes, ∃ nx, strnextling pf = some nx ∧ ∀ r ∈ rows, nx ≤ r.1) →
      (∀ pf ∈ prefixes, CommonPrefixOf (fun _ => True) pfz delimiter pf) →
      res.2.Sorted (· < ·) := by
  intro fuel
  induction fuel with
  | zero => intro _ _ _ _ _ h; cases h
  | succ fuel ih =>
    intro rows count matched prefixes res h hs hb hc
    cases rows with
    | nil => cases h; exact hs
    | cons r rest =>
      rcases delimiterLoop_cons_eq_ok h with ⟨-, ⟨rfl, -⟩ | h⟩ | ⟨idx, hf, -, hres⟩
      · exact hs
      · refine ih _ _ _ _ _ h hs (fun pf hpf => ?_) hc
        obtain ⟨nx', hnx', hle⟩ := hb pf hpf
        exact ⟨nx', hnx', fun x hx => hle x (List.mem_cons_of_mem _ hx)⟩
      · -- a common prefix: above every old one
        have hnew : (prefixes ++ [r.1.take (idx + delimiter.length)]).Sorted (· < ·) := by
          refine List.pairwise_append.2 ⟨hs, List.pairwise_singleton _ _, fun p hp q hq' => ?_⟩
          obtain ⟨nx', hnx', hle⟩ := hb p hp
          rw [List.mem_singleton.1 hq']
          exact commonPrefix_lt_take hd (hc p hp) hnx' (hle r (List.mem_cons_self _ _)) hf
        have hc' : ∀ pf ∈ prefixes ++ [r.1.take (idx + delimiter.length)],
            CommonPrefixOf (fun _ => True) pfz delimiter pf :=
          List.forall_mem_append.2 ⟨hc, List.forall_mem_singleton.2 ⟨r, trivial, idx, hf, rfl⟩⟩
        rcases hres with ⟨rfl, -⟩ | ⟨nx, hnx, h⟩
        · exact hnew
        obtain ⟨nx', hnx', hlt⟩ := strnextling_commonPrefix hd hcp hf
        obtain rfl : nx = nx' := Option.some.inj (hnx.symm.trans hnx')
        exact ih _ _ _ _ _ h hnew (prefixBounds_requery hq hb hnx hlt) hc'

end Sound

/-- With a non-empty delimiter and paths below `0xffff`, every pair `latest_version_list`
returns is a row of its query (the latest version before `before` at a child of `parent`,
outside `except_cluster`, meeting `pathq` and the filter) whose path starts with `prefix`,
lies above `start`, and has no delimiter after the prefix or only one at its end; every
common prefix is the path of such a row up to its first delimiter after the prefix, with the
delimiter. -/
theorem latestVersionList_sound (cls : CharClasses) (s : Store) (parent : ℤ)
    (pre delimiter start : List ℕ) (limit : ℤ) (before : ℕ∞) (exceptCluster : ℤ)
    (pathq : List (List ℕ)) (filterq : List ℕ) (nextling : List ℕ)
    (hn : strnextling pre = some nextling) (hd : delimiter ≠ [])
    (hcp : ∀ c ∈ delimiter, c < 0xffff) (hpaths : ∀ n ∈ s.nodes, ∀ c ∈ n.path, c < 0xffff)
    {res : List (List ℕ × ℤ) × List (List ℕ)}
    (h : latestVersionList cls s parent pre delimiter start limit before exceptCluster pathq
      filterq = .ok res) :
    (∀ m ∈ res.1, m ∈ unboundedRows s parent nextling before exceptCluster pathq ∧
        pre <+: m.1 ∧ start < m.1 ∧ Listed pre.length delimiter m.1) ∧
      ∀ pf ∈ res.2, ∃ r ∈ unboundedRows s parent nextling before exceptCluster pathq,
        pre <+: r.1 ∧ start < r.1 ∧
        ∃ idx, find r.1 delimiter pre.length = some idx ∧ pf = r.1.take idx ++ delimiter := by
  set rows := unboundedRows s parent nextling before exceptCluster pathq
  set good : List ℕ × ℤ → Prop := fun r => r ∈ rows ∧ scanStart pre start < r.1
  have hq : ∀ lo, ∀ r ∈ listingQuery s parent nextling before exceptCluster pathq lo,
      r ∈ rows ∧ lo < r.1 := fun lo r hr => by
    rw [listingQuery_eq_filter, List.mem_filter] at hr
    exact ⟨(sortByPath_perm _).subset hr.1, of_decide_eq_true hr.2⟩
  have hgood : ∀ r lo, good r → r.1 < lo →
      ∀ r' ∈ listingQuery s parent nextling before exceptCluster pathq lo, good r' :=
    fun r lo hr hlt r' hr' => ⟨(hq lo r' hr').1, hr.2.trans (hlt.trans (hq lo r' hr').2)⟩
  -- a row above the start the code computes starts with the prefix and lies above `start`
  have hrange : ∀ r, good r → pre <+: r.1 ∧ start < r.1 := fun r ⟨hr, hlo⟩ => by
    obtain ⟨v, -, n, hn', hc, rfl⟩ := mem_unboundedRows.1 hr
    simp only [queryCond, decide_eq_true_eq] at hc
    exact (scanRange_iff hn (hpaths n hn')).1 ⟨hlo, hc.2.2.2.2.1⟩
  obtain ⟨-, -, hf⟩ := latestVersionList_ok_cases h
  simp only [latestVersionList_unfiltered hn hf, hd, if_false] at h
  obtain ⟨h₁, h₂⟩ := delimiterLoop_sound hd hcp hgood _ _ _ _ _ _ h (fun r hr => hq _ r hr)
    (by simp) (by simp)
  refine ⟨fun m hm => ?_, fun pf hpf => ?_⟩
  · obtain ⟨hg, hl⟩ := h₁ m hm
    exact ⟨hg.1, (hrange m hg).1, (hrange m hg).2, hl⟩
  · obtain ⟨r, hr, idx, hf, rfl⟩ := h₂ pf hpf
    exact ⟨r, hr.1, (hrange r hr).1, (hrange r hr).2, idx, hf, take_find_add hf⟩

/-- `a/b` and `c` under `ROOTNODE`, delimiter `/`: the match `c` and the prefix `a/`. -/
theorem latestVersionList_sound_files :
    let cls : CharClasses := ⟨fun _ => false, fun _ => false⟩
    let ops : List Op := [.nodeCreate 0 [97, 47, 98], .nodeCreate 0 [99],
      .versionCreate 1 "h" 1 none "u" 0 10, .versionCreate 2 "k" 2 none "u" 0 11]
    ∃ s, Store.init.run ops = .ok s ∧
      (strnextling [] = some [0xffff] ∧ [47] ≠ [] ∧ (∀ c ∈ [47], c < 0xffff) ∧
        (∀ n ∈ s.nodes, ∀ c ∈ n.path, c < 0xffff) ∧
        latestVersionList cls s 0 [] [47] [] 5 ⊤ 1 [] [] = .ok ([([99], 2)], [[97, 47]])) ∧
      (∀ m ∈ [([99], (2 : ℤ))], m ∈ unboundedRows s 0 [0xffff] ⊤ 1 [] ∧
        [] <+: m.1 ∧ [] < m.1 ∧ Listed 0 [47] m.1) ∧
      ∀ pf ∈ [[97, 47]], ∃ r ∈ unboundedRows s 0 [0xffff] ⊤ 1 [],
        [] <+: r.1 ∧ [] < r.1 ∧ ∃ idx, find r.1 [47] 0 = some idx ∧ pf = r.1.take idx ++ [47] := by
  intro cls ops
  obtain ⟨s, hs, hpaths, hl⟩ : ∃ s, Store.init.run ops = .ok s ∧
      (∀ n ∈ s.nodes, ∀ c ∈ n.path, c < 0xffff) ∧
      latestVersionList cls s 0 [] [47] [] 5 ⊤ 1 [] [] = .ok ([([99], 2)], [[97, 47]]) :=
    ⟨_, rfl, by decide, rfl⟩
  exact ⟨s, hs, ⟨rfl, by decide, by decide, hpaths, hl⟩,
    latestVersionList_sound cls s 0 [] [47] [] 5 ⊤ 1 [] [] [0xffff] rfl (by decide) (by decide)
      hpaths hl⟩

/-- With a delimiter below `0xffff`, `latest_version_list` reports each common prefix once. -/
theorem latestVersionList_prefixes_nodup (cls : CharClasses) (s : Store) (parent : ℤ)
    (pre delimiter start : List ℕ) (limit : ℤ) (before : ℕ∞) (exceptCluster : ℤ)
    (pathq : List (List ℕ)) (filterq : List ℕ) (hcp : ∀ c ∈ delimiter, c < 0xffff)
    {res : List (List ℕ × ℤ) × List (List ℕ)}
    (h : latestVersionList cls s parent pre delimiter start limit before exceptCluster pathq
      filterq = .ok res) :
    res.2.Nodup := by
  obtain ⟨nextling, hn, hf⟩ := latestVersionList_ok_cases h
  rw [latestVersionList_unfiltered hn hf] at h
  dsimp only at h
  split_ifs at h with hd
  · cases h; exact List.nodup_nil
  have hq : ∀ lo, ∀ r ∈ listingQuery s parent nextling before exceptCluster pathq lo,
      lo < r.1 := fun lo r hr => by
    rw [listingQuery_eq_filter, List.mem_filter] at hr
    exact of_decide_eq_true hr.2
  exact delimiterLoop_prefixes_nodup hd hcp hq _ _ _ _ _ _ h List.nodup_nil (by simp)

/-- `a/x` and `b/z` under `ROOTNODE`, delimiter `/`: the prefixes `a/` and `b/`. -/
theorem latestVersionList_prefixes_nodup_dirs :
    let cls : CharClasses := ⟨fun _ => false, fun _ => false⟩
    let ops : List Op := [.nodeCreate 0 [97, 47, 120], .nodeCreate 0 [98, 47, 122],
      .versionCreate 1 "h" 1 none "u" 0 10, .versionCreate 2 "h" 1 none "u" 0 11]
    ∃ s, Store.init.run ops = .ok s ∧
      ((∀ c ∈ [47], c < 0xffff) ∧
        latestVersionList cls s 0 [] [47] [] 10 ⊤ 1 [] [] = .ok ([], [[97, 47], [98, 47]])) ∧
      [[97, 47], [98, 47]].Nodup := by
  intro cls ops
  obtain ⟨s, hs, hl⟩ : ∃ s, Store.init.run ops = .ok s ∧
      latestVersionList cls s 0 [] [47] [] 10 ⊤ 1 [] [] = .ok ([], [[97, 47], [98, 47]]) :=
    ⟨_, rfl, rfl⟩
  exact ⟨s, hs, ⟨by decide, hl⟩,
    latestVersionList_prefixes_nodup cls s 0 [] [47] [] 10 ⊤ 1 [] [] (by decide) hl⟩

/-- With a delimiter below `0xffff`, `latest_version_list` reports its common prefixes in
increasing order, the order of the paths they stand for. -/
theorem latestVersionList_prefixes_sorted (cls : CharClasses) (s : Store) (parent : ℤ)
    (pre delimiter start : List ℕ) (limit : ℤ) (before : ℕ∞) (exceptCluster : ℤ)
    (pathq : List (List ℕ)) (filterq : List ℕ) (hcp : ∀ c ∈ delimiter, c < 0xffff)
    {res : List (List ℕ × ℤ) × List (List ℕ)}
    (h : latestVersionList cls s parent pre delimiter start limit before exceptCluster pathq
      filterq = .ok res) :
    res.2.Sorted (· < ·) := by
  obtain ⟨nextling, hn, hf⟩ := latestVersionList_ok_cases h
  rw [latestVersionList_unfiltered hn hf] at h
  dsimp only at h
  split_ifs at h with hd
  · cases h; exact List.sorted_nil
  have hq : ∀ lo, ∀ r ∈ listingQuery s parent nextling before exceptCluster pathq lo,
      lo < r.1 := fun lo r hr => by
    rw [listingQuery_eq_filter, List.mem_filter] at hr
    exact of_decide_eq_true hr.2
  exact delimiterLoop_prefixes_sorted hd hcp hq _ _ _ _ _ _ h List.sorted_nil (by simp) (by simp)

/-- `b/z` made before `a/x`: the prefixes still come as `a/`, then `b/`. -/
theorem latestVersionList_prefixes_sorted_dirs :
    let cls : CharClasses := ⟨fun _ => false, fun _ => false⟩
    let ops : List Op := [.nodeCreate 0 [98, 47, 122], .nodeCreate 0 [97, 47, 120],
      .versionCreate 1 "h" 1 none "u" 0 10, .versionCreate 2 "h" 1 none "u" 0 11]
    ∃ s, Store.init.run ops = .ok s ∧
      ((∀ c ∈ [47], c < 0xffff) ∧
        latestVersionList cls s 0 [] [47] [] 10 ⊤ 1 [] [] = .ok ([], [[97, 47], [98, 47]])) ∧
      [[97, 47], [98, 47]].Sorted (· < ·) := by
  intro cls ops
  obtain ⟨s, hs, hl⟩ : ∃ s, Store.init.run ops = .ok s ∧
      latestVersionList cls s 0 [] [47] [] 10 ⊤ 1 [] [] = .ok ([], [[97, 47], [98, 47]]) :=
    ⟨_, rfl, rfl⟩
  exact ⟨s, hs, ⟨by decide, hl⟩,
    latestVersionList_prefixes_sorted cls s 0 [] [47] [] 10 ⊤ 1 [] [] (by decide) hl⟩

/-! ## What the loop does not miss -/

section Complete

variable {B : List (List ℕ × ℤ)} {query : List ℕ → List (List ℕ × ℤ)} {pfz : ℕ}
  {delimiter : List ℕ} {limit : ℤ}

end Complete

section Order

variable {query : List ℕ → List (List ℕ × ℤ)} {pfz : ℕ} {delimiter : List ℕ} {limit : ℤ}

/-- The loop returns its matches in strictly increasing path order, when each query returns its
rows in that order above its bound. -/
theorem delimiterLoop_sorted (hd : delimiter ≠ [])
    (hq : ∀ lo, (query lo).Sorted pathLt ∧ ∀ x ∈ query lo, lo < x.1) :
    ∀ {fuel : ℕ} {rows : List (List ℕ × ℤ)} {count : ℕ} {matched : List (List ℕ × ℤ)}
      {prefixes : List (List ℕ)} {res : List (List ℕ × ℤ) × List (List ℕ)},
      delimiterLoop query pfz delimiter limit fuel rows count matched prefixes = .ok res →
      rows.Sorted pathLt → matched.Sorted pathLt → (∀ m ∈ matched, ∀ x ∈ rows, m.1 < x.1) →
      res.1.Sorted pathLt
  | 0, _, _, _, _, _, h, _, _, _ => by cases h
  | _ + 1, [], _, _, _, _, h, _, hm, _ => by cases h; exact hm
  | _ + 1, r :: _, _, matched, _, _, h, hr, hm, hmr => by
    -- a match joins `matched` above all of it
    have hm' : (matched ++ [r]).Sorted pathLt :=
      List.pairwise_append.2 ⟨hm, List.pairwise_singleton _ _, fun m hm' y hy => by
        rw [List.mem_singleton.1 hy]
        exact hmr m hm' r (List.mem_cons_self _ _)⟩
    rcases delimiterLoop_cons_eq_ok h with
      ⟨-, ⟨rfl, -⟩ | h⟩ | ⟨idx, hf, -, ⟨rfl, -⟩ | ⟨nx, hnx, h⟩⟩
    · exact hm'
    · refine delimiterLoop_sorted hd hq h hr.of_cons hm' fun m hm'' x hx => ?_
      rcases List.mem_append.1 hm'' with hm'' | hm''
      · exact hmr m hm'' x (List.mem_cons_of_mem _ hx)
      · rw [List.mem_singleton.1 hm'']
        exact List.rel_of_sorted_cons hr x hx
    · exact hm
    · -- the re-run query starts above `strnextling pf`, itself above `r`
      have hpf : r.1.take (idx + delimiter.length) ≠ [] := fun he => by
        have h₁ := find_add_le hf
        have h₂ := List.length_pos.2 hd
        have := congrArg List.length he
        simp only [List.length_take, List.length_nil] at this
        omega
      have hlt := lt_strnextling_of_prefix hpf hnx (List.take_prefix _ _)
      exact delimiterLoop_sorted hd hq h (hq nx).1 hm fun m hm'' x hx =>
        (hmr m hm'' r (List.mem_cons_self _ _)).trans (hlt.trans ((hq nx).2 x hx))

end Order

/-- `latest_version_list` returns its matches in strictly increasing path order, with a
delimiter or without. -/
theorem latestVersionList_matches_sorted (cls : CharClasses) (s : Store) (parent : ℤ)
    (pre delimiter start : List ℕ) (limit : ℤ) (before : ℕ∞) (exceptCluster : ℤ)
    (pathq : List (List ℕ)) (filterq : List ℕ) {res : List (List ℕ × ℤ) × List (List ℕ)}
    (h : latestVersionList cls s parent pre delimiter start limit before exceptCluster pathq
      filterq = .ok res) :
    res.1.Sorted pathLt := by
  obtain ⟨nextling, hn, hf⟩ := latestVersionList_ok_cases h
  rw [latestVersionList_unfiltered hn hf] at h
  have hB : (sortByPath (unboundedRows s parent nextling before exceptCluster pathq)).Sorted
      pathLt := sortByPath_strict unboundedRows_paths_nodup
  have hq : ∀ lo, (listingQuery s parent nextling before exceptCluster pathq lo).Sorted
      pathLt ∧ ∀ x ∈ listingQuery s parent nextling before exceptCluster pathq lo,
        lo < x.1 := fun lo => by
    rw [listingQuery_eq_filter]
    exact ⟨hB.filter _, fun x hx => of_decide_eq_true (List.mem_filter.1 hx).2⟩
  dsimp only at h
  split_ifs at h with hd
  · cases h
    unfold limitRows
    split_ifs
    · exact (hq _).1
    · exact (hq _).1.sublist (List.take_sublist _ _)
  · exact delimiterLoop_sorted hd hq h (hq _).1 List.sorted_nil fun _ hm => absurd hm
      (List.not_mem_nil _)

/-- `b` created before `a`, listed under `ROOTNODE` with delimiter `/`: `a` comes first. -/
theorem latestVersionList_matches_sorted_ba :
    let cls : CharClasses := ⟨fun _ => false, fun _ => false⟩
    let ops : List Op := [.nodeCreate 0 [98], .nodeCreate 0 [97],
      .versionCreate 1 "h" 1 none "u" 0 10, .versionCreate 2 "h" 1 none "u" 0 11]
    ∃ s, Store.init.run ops = .ok s ∧
      latestVersionList cls s 0 [] [47] [] 5 ⊤ 1 [] [] = .ok ([([97], 2), ([98], 1)], []) ∧
      [(([97] : List ℕ), (2 : ℤ)), ([98], 1)].Sorted pathLt := by
  intro cls ops
  obtain ⟨s, hs, hl⟩ : ∃ s, Store.init.run ops = .ok s ∧
      latestVersionList cls s 0 [] [47] [] 5 ⊤ 1 [] [] = .ok ([([97], 2), ([98], 1)], []) :=
    ⟨_, rfl, rfl⟩
  exact ⟨s, hs, hl, latestVersionList_matches_sorted cls s 0 [] [47] [] 5 ⊤ 1 [] [] hl⟩

/-! ## Against one pass over the rows -/

/-- The answer the loop stands for: one pass over the rows of the first query, in which a
row whose path has no delimiter at or after `pfz`, or whose first one ends the path, is a
match, and any other row gives its common prefix, each kept once in order of first
occurrence. -/
def singlePassListing (pfz : ℕ) (delimiter : List ℕ) (rows : List (List ℕ × ℤ)) :
    List (List ℕ × ℤ) × List (List ℕ) :=
  rows.foldl (fun (matched, prefixes) r =>
    match find r.1 delimiter pfz with
    | none => (matched ++ [r], prefixes)
    | some idx =>
      if idx + delimiter.length = r.1.length then (matched ++ [r], prefixes)
      else
        let pf := r.1.take (idx + delimiter.length)
        (matched, if pf ∈ prefixes then prefixes else prefixes ++ [pf])) ([], [])

/-- `a/b` and `a0` under `ROOTNODE`, delimiter `/`, limit 2. One pass gives the match `a0` and
the prefix `a/`; the loop re-runs the query above `strnextling("a/") = "a0"`, whose strict
bound leaves `a0` out. -/
theorem latestVersionList_skips_strnextling_path :
    ∀ cls : CharClasses,
      let ops : List Op := [.nodeCreate 0 [97, 47, 98], .nodeCreate 0 [97, 48],
        .versionCreate 1 "h" 1 none "u" 0 10, .versionCreate 2 "h" 1 none "u" 0 11]
      ∃ s, Store.init.run ops = .ok s ∧ Reachable s ∧
        listingQuery s 0 [0xffff] ⊤ 1 [] (scanStart [] []) =
          [([97, 47, 98], 1), ([97, 48], 2)] ∧
        singlePassListing 0 [47] [([97, 47, 98], 1), ([97, 48], 2)] =
          ([([97, 48], 2)], [[97, 47]]) ∧
        latestVersionList cls s 0 [] [47] [] 2 ⊤ 1 [] [] = .ok ([], [[97, 47]]) := by
  intro cls ops
  exact ⟨_, rfl, Reachable.init.run ops rfl, rfl, rfl, rfl⟩

/-! ## The limit -/

/-- `a/` and `b` under `ROOTNODE`, delimiter `/`, limit 1: `a/` ends with its delimiter and
is matched with no check of the count, and `b` is matched before the check stops the loop,
so two matches come back. -/
theorem latestVersionList_exceeds_limit :
    ∀ cls : CharClasses,
      let ops : List Op := [.nodeCreate 0 [97, 47], .nodeCreate 0 [98],
        .versionCreate 1 "h" 1 none "u" 0 10, .versionCreate 2 "h" 1 none "u" 0 11]
      ∃ s, Store.init.run ops = .ok s ∧ Reachable s ∧
        latestVersionList cls s 0 [] [47] [] 1 ⊤ 1 [] [] = .ok ([([97, 47], 1), ([98], 2)], []) := by
  intro cls ops
  exact ⟨_, rfl, Reachable.init.run ops rfl, rfl⟩

end Pithos
