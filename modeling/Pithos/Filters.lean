import Pithos.Schema

/-!
# The attribute filter language

`_parse_filters` splits a filter query at commas and matches each term against
`_regexfilter`, `(!?)\s*([\w-]+)\s*(==|!=|<=|>=|<|>)?\s*(.*)$` under `re.UNICODE`, sorting
the terms into included keys, excluded keys and comparisons. The match is modelled as the
greedy scan that `re.match` tries first: when that scan fails at the final `.*$`, every
backtracking choice leaves the offending newline inside the last group as well, so no
other match exists. `\w` and `\s` are Python's tables; above ASCII they come from the
unicode database and are taken as given. `_construct_filters` builds its SQL fragment from the
non-empty buckets; the fragment is `' ' + ' and '.join(subqlist)`, which `latest_version_list`
appends to its query right after `n.path < ?` with no `and`, so the statement it runs is
malformed whenever there is a fragment. A filter written as its
included keys, its excluded keys after `!` and its comparisons, joined by commas, is read back
as written when its keys are of `[\w-]` and its values hold no comma or newline.
-/
namespace Pithos

/-- Python's `\w` and `\s` on code points from 128 on. -/
structure CharClasses where
  word : ℕ → Bool
  space : ℕ → Bool

namespace CharClasses

/-- `\w` under `re.UNICODE`: `[0-9A-Za-z_]` in ASCII. -/
def isWord (cls : CharClasses) (c : ℕ) : Bool :=
  if c < 128 then (48 ≤ c ∧ c ≤ 57) ∨ (65 ≤ c ∧ c ≤ 90) ∨ (97 ≤ c ∧ c ≤ 122) ∨ c = 95
  else cls.word c

/-- `\s` under `re.UNICODE`: tab to carriage return, `0x1c` to `0x1f` and space in ASCII. -/
def isSpace (cls : CharClasses) (c : ℕ) : Bool :=
  if c < 128 then (9 ≤ c ∧ c ≤ 13) ∨ (28 ≤ c ∧ c ≤ 32) else cls.space c

/-- `[\w-]`. -/
def isKey (cls : CharClasses) (c : ℕ) : Bool := cls.isWord c || c = 45

end CharClasses

/-- The comparison of a filter term: `==`, `!=`, `<=`, `>=`, `<`, `>`. -/
inductive Oper
  | eq | ne | le | ge | lt | gt
  deriving DecidableEq, Repr

namespace Oper

/-- The operators in the order the alternation of `_regexfilter` tries them. -/
def table : List (List ℕ × Oper) :=
  [([61, 61], .eq), ([33, 61], .ne), ([60, 61], .le), ([62, 61], .ge), ([60], .lt), ([62], .gt)]

end Oper

/-- The optional operator group: the first alternative that starts `s`, and the rest. -/
def matchOper (s : List ℕ) : Option Oper × List ℕ :=
  match Oper.table.find? (·.1 <+: s) with
  | some (text, op) => (some op, s.drop text.length)
  | none => (none, s)

/-- `(.*)$`: all of `s` when it has no newline, `s` less a final newline, else no match. -/
def matchTail (s : List ℕ) : Option (List ℕ) :=
  if 10 ∉ s then some s
  else if 10 ∉ s.dropLast ∧ s.getLast? = some 10 then some s.dropLast
  else none

/-- `_regexfilter.match(term)`: `(neg, key, op, value)`, or `none` when it does not match. -/
def regexfilterMatch (cls : CharClasses) (term : List ℕ) :
    Option (Bool × List ℕ × Option Oper × List ℕ) :=
  let neg := term.head? = some 33
  let rest := (if neg then term.tail else term).dropWhile cls.isSpace
  let key := rest.takeWhile cls.isKey
  if key = [] then none
  else
    let (op, rest) := matchOper ((rest.dropWhile cls.isKey).dropWhile cls.isSpace)
    (matchTail (rest.dropWhile cls.isSpace)).map fun value => (neg, key, op, value)

/-- The buckets of a filter query. -/
structure Filters where
  included : List (List ℕ)
  excluded : List (List ℕ)
  opers : List (List ℕ × Oper × List ℕ)
  deriving DecidableEq, Repr

/-- `_parse_filters`: a negated term excludes its key, a term without value includes it, a
term with an operator and a value compares; other terms are skipped. -/
def parseFilters (cls : CharClasses) (filterq : List ℕ) : Filters :=
  (filterq.splitOn 44).foldl (fun f term =>
    match regexfilterMatch cls term with
    | none => f
    | some (neg, key, op, value) =>
      if neg then { f with excluded := f.excluded ++ [key] }
      else if value = [] then { f with included := f.included ++ [key] }
      else match op with
        | some o => { f with opers := f.opers ++ [(key, o, value)] }
        | none => f) ⟨[], [], []⟩

/-- `_construct_filters`: the parsed filter whose non-empty buckets give the fragment
`a.key in (..)`, `a.key not in (..)` and the comparisons joined by `or`, with their
arguments; `none` when it returns `(None, None)`, for an empty query or empty buckets. -/
def constructFilters (cls : CharClasses) (filterq : List ℕ) : Option Filters :=
  if filterq = [] then none
  else
    let f := parseFilters cls filterq
    if f.included = [] ∧ f.excluded = [] ∧ f.opers = [] then none else some f

@[simp] theorem constructFilters_nil (cls : CharClasses) : constructFilters cls [] = none := rfl

/-! ## Filters as a client writes them -/

/-- The text of an operator, as the alternation of `_regexfilter` spells it. -/
def Oper.text : Oper → List ℕ
  | .eq => [61, 61]
  | .ne => [33, 61]
  | .le => [60, 61]
  | .ge => [62, 61]
  | .lt => [60]
  | .gt => [62]

/-- A filter query that lists the included keys, then `!` and each excluded key, then each
comparison, joined by commas. -/
def renderFilters (f : Filters) : List ℕ :=
  [44].intercalate (f.included ++ f.excluded.map (33 :: ·) ++
    f.opers.map fun o => o.1 ++ o.2.1.text ++ o.2.2)

/-- A key a term can carry: non-empty, of `[\w-]`, and not starting with `\s`. -/
def ValidKey (cls : CharClasses) (k : List ℕ) : Prop :=
  k ≠ [] ∧ (∀ c ∈ k, cls.isKey c) ∧ ∀ c ∈ k.head?, cls.isSpace c = false

/-- A value a comparison can carry: non-empty, without comma or newline, not starting with
`\s`, and, after `<` or `>`, not starting with `=`. -/
def ValidValue (cls : CharClasses) (o : Oper) (v : List ℕ) : Prop :=
  v ≠ [] ∧ 44 ∉ v ∧ 10 ∉ v ∧
    ∀ c ∈ v.head?, cls.isSpace c = false ∧ (o = .lt ∨ o = .gt → c ≠ 61)

instance (cls : CharClasses) (k : List ℕ) : Decidable (ValidKey cls k) :=
  inferInstanceAs (Decidable (k ≠ [] ∧ (∀ c ∈ k, cls.isKey c) ∧
    ∀ c ∈ k.head?, cls.isSpace c = false))

instance (cls : CharClasses) (o : Oper) (v : List ℕ) : Decidable (ValidValue cls o v) :=
  inferInstanceAs (Decidable (v ≠ [] ∧ 44 ∉ v ∧ 10 ∉ v ∧
    ∀ c ∈ v.head?, cls.isSpace c = false ∧ (o = .lt ∨ o = .gt → c ≠ 61)))

/-- After `<` or `>` the value does not start with `=`, so the text of an operator is matched
as that operator. -/
theorem matchOper_text (o : Oper) (v : List ℕ) (hv : o = .lt ∨ o = .gt → v.head? ≠ some 61) :
    matchOper (o.text ++ v) = (some o, v) := by
  have h61 : o = .lt ∨ o = .gt → ¬ [61] <+: v := fun ho ⟨t, ht⟩ => hv ho (by simp [← ht])
  cases o <;> simp_all [matchOper, Oper.table, Oper.text]

section RoundTrip

variable {cls : CharClasses}

theorem ValidKey.cons {k : List ℕ} (hk : ValidKey cls k) :
    ∃ c cs, k = c :: cs ∧ c ≠ 33 ∧ cls.isSpace c = false := by
  obtain ⟨hne, hkey, hsp⟩ := hk
  obtain ⟨c, cs, rfl⟩ := List.exists_cons_of_ne_nil hne
  refine ⟨c, cs, rfl, fun h => ?_, hsp c rfl⟩
  have := hkey c (List.mem_cons_self _ _)
  simp [h, CharClasses.isKey, CharClasses.isWord] at this

/-- An included key reads back as itself. -/
theorem regexfilterMatch_key {k : List ℕ} (hk : ValidKey cls k) :
    regexfilterMatch cls k = some (false, k, none, []) := by
  obtain ⟨c, cs, rfl, h33, hsp⟩ := hk.cons
  simp [regexfilterMatch, h33, List.dropWhile_cons_of_neg, hsp, List.takeWhile_eq_self_iff.2 hk.2.1,
    List.dropWhile_eq_nil_iff.2 hk.2.1, matchOper, matchTail, Oper.table]

/-- An excluded key, after its `!`, reads back as itself. -/
theorem regexfilterMatch_excluded {k : List ℕ} (hk : ValidKey cls k) :
    regexfilterMatch cls (33 :: k) = some (true, k, none, []) := by
  obtain ⟨c, cs, rfl, -, hsp⟩ := hk.cons
  simp [regexfilterMatch, List.dropWhile_cons_of_neg, hsp, List.takeWhile_eq_self_iff.2 hk.2.1,
    List.dropWhile_eq_nil_iff.2 hk.2.1, matchOper, matchTail, Oper.table]

/-- A comparison reads back as its key, operator and value. -/
theorem regexfilterMatch_oper {k v : List ℕ} {o : Oper} (hk : ValidKey cls k)
    (hv : ValidValue cls o v) :
    regexfilterMatch cls (k ++ o.text ++ v) = some (false, k, some o, v) := by
  obtain ⟨c, cs, rfl, h33, hsp⟩ := hk.cons
  obtain ⟨hne, -, h10, hfirst⟩ := hv
  obtain ⟨d, ds, rfl⟩ := List.exists_cons_of_ne_nil hne
  obtain ⟨hdsp, hd61⟩ := hfirst d rfl
  -- the operator's first character is neither `[\w-]` nor `\s`
  obtain ⟨e, es, he, hek, hes⟩ : ∃ e es, o.text = e :: es ∧ cls.isKey e = false ∧
      cls.isSpace e = false := by
    cases o <;> exact ⟨_, _, rfl, by simp [CharClasses.isKey, CharClasses.isWord],
      by simp [CharClasses.isSpace]⟩
  have hm := matchOper_text o (d :: ds) fun ho => by simpa using hd61 ho
  rw [he] at hm
  have hkey : ((c :: cs) ++ e :: (es ++ d :: ds)).takeWhile cls.isKey = c :: cs := by
    rw [List.takeWhile_append_of_pos hk.2.1, List.takeWhile_cons_of_neg (by simp [hek]),
      List.append_nil]
  have hrest : ((c :: cs) ++ e :: (es ++ d :: ds)).dropWhile cls.isKey = e :: (es ++ d :: ds) := by
    rw [List.dropWhile_append_of_pos hk.2.1, List.dropWhile_cons_of_neg (by simp [hek])]
  have hlead : ((c :: cs) ++ e :: (es ++ d :: ds)).dropWhile cls.isSpace =
      (c :: cs) ++ e :: (es ++ d :: ds) := List.dropWhile_cons_of_neg (by simp [hsp])
  rw [he, List.append_assoc, List.cons_append e]
  rw [List.cons_append e] at hm
  have hhead : ((c :: cs) ++ e :: (es ++ d :: ds)).head? = some c := rfl
  have hvalue : (d :: ds).dropWhile cls.isSpace = d :: ds :=
    List.dropWhile_cons_of_neg (by simp [hdsp])
  have hop : (e :: (es ++ d :: ds)).dropWhile cls.isSpace = e :: (es ++ d :: ds) :=
    List.dropWhile_cons_of_neg (by simp [hes])
  simp only [regexfilterMatch, hhead, Option.some.injEq, h33, if_false, decide_False, hlead, hkey,
    hrest, hop, hm, hvalue, matchTail, h10, reduceCtorEq, not_false_eq_true, if_true,
    Option.map_some']

theorem ValidKey.comma_not_mem {k : List ℕ} (hk : ValidKey cls k) : 44 ∉ k := fun h => by
  simpa [CharClasses.isKey, CharClasses.isWord] using hk.2.1 44 h

/-- The fold of `_parse_filters` over rendered terms, for a step that sorts each kind of term
into its bucket. -/
theorem foldl_buckets {F : Filters → List ℕ → Filters}
    (hinc : ∀ g k, ValidKey cls k → F g k = { g with included := g.included ++ [k] })
    (hexc : ∀ g k, ValidKey cls k → F g (33 :: k) = { g with excluded := g.excluded ++ [k] })
    (hcmp : ∀ g (o : List ℕ × Oper × List ℕ), ValidKey cls o.1 → ValidValue cls o.2.1 o.2.2 →
      F g (o.1 ++ o.2.1.text ++ o.2.2) = { g with opers := g.opers ++ [o] })
    (f : Filters) (hi : ∀ k ∈ f.included, ValidKey cls k)
    (he : ∀ k ∈ f.excluded, ValidKey cls k)
    (ho : ∀ o ∈ f.opers, ValidKey cls o.1 ∧ ValidValue cls o.2.1 o.2.2) :
    (f.included ++ f.excluded.map (33 :: ·) ++
      f.opers.map fun o => o.1 ++ o.2.1.text ++ o.2.2).foldl F ⟨[], [], []⟩ = f := by
  have h₁ : ∀ (ks : List (List ℕ)) g, (∀ k ∈ ks, ValidKey cls k) →
      ks.foldl F g = { g with included := g.included ++ ks } := by
    intro ks
    induction ks with
    | nil => intro g _; simp
    | cons k ks ih =>
      intro g h
      rw [List.foldl_cons, hinc g k (h k (List.mem_cons_self _ _)),
        ih _ fun k hk => h k (List.mem_cons_of_mem _ hk)]
      simp
  have h₂ : ∀ (ks : List (List ℕ)) g, (∀ k ∈ ks, ValidKey cls k) →
      (ks.map (33 :: ·)).foldl F g = { g with excluded := g.excluded ++ ks } := by
    intro ks
    induction ks with
    | nil => intro g _; simp
    | cons k ks ih =>
      intro g h
      rw [List.map_cons, List.foldl_cons, hexc g k (h k (List.mem_cons_self _ _)),
        ih _ fun k hk => h k (List.mem_cons_of_mem _ hk)]
      simp
  have h₃ : ∀ (os : List (List ℕ × Oper × List ℕ)) g,
      (∀ o ∈ os, ValidKey cls o.1 ∧ ValidValue cls o.2.1 o.2.2) →
      (os.map fun o => o.1 ++ o.2.1.text ++ o.2.2).foldl F g = { g with opers := g.opers ++ os } := by
    intro os
    induction os with
    | nil => intro g _; simp
    | cons o os ih =>
      intro g h
      obtain ⟨hk, hv⟩ := h o (List.mem_cons_self _ _)
      rw [List.map_cons, List.foldl_cons, hcmp g o hk hv,
        ih _ fun o ho => h o (List.mem_cons_of_mem _ ho)]
      simp
  rw [List.foldl_append, List.foldl_append, h₁ _ _ hi, h₂ _ _ he, h₃ _ _ ho]
  rfl

/-- A filter whose keys and values terms can carry is read back from its rendering by
`_parse_filters`, bucket by bucket and in order. -/
theorem parseFilters_renderFilters (f : Filters) (hi : ∀ k ∈ f.included, ValidKey cls k)
    (he : ∀ k ∈ f.excluded, ValidKey cls k)
    (ho : ∀ o ∈ f.opers, ValidKey cls o.1 ∧ ValidValue cls o.2.1 o.2.2) :
    parseFilters cls (renderFilters f) = f := by
  unfold parseFilters renderFilters
  by_cases hnil : f.included ++ f.excluded.map (33 :: ·) ++
      f.opers.map (fun o => o.1 ++ o.2.1.text ++ o.2.2) = []
  · rcases f with ⟨inc, exc, ops⟩
    simp only [List.append_eq_nil, List.map_eq_nil_iff] at hnil
    obtain ⟨⟨rfl, rfl⟩, rfl⟩ := hnil
    rfl
  · rw [List.splitOn_intercalate _ _ ?_ hnil]
    · refine foldl_buckets (fun g k hk => ?_) (fun g k hk => ?_) (fun g o hk hv => ?_) f hi he ho
      · simp [regexfilterMatch_key hk]
      · simp [regexfilterMatch_excluded hk]
      · simp only [regexfilterMatch_oper hk hv]
        simp [hv.1]
    · -- no term holds a comma
      intro t ht
      simp only [List.mem_append, List.mem_map] at ht
      rcases ht with (hk | ⟨k, hk, rfl⟩) | ⟨⟨k, op, v⟩, hmem, rfl⟩
      · exact (hi t hk).comma_not_mem
      · simpa using (he k hk).comma_not_mem
      · obtain ⟨hk, hv⟩ := ho _ hmem
        simp only [List.mem_append, not_or]
        exact ⟨⟨hk.comma_not_mem, by cases op <;> decide⟩, hv.2.1⟩

end RoundTrip

/-- `c,!d,e<5` parses back into its three buckets. -/
theorem parseFilters_renderFilters_three :
    let cls : CharClasses := ⟨fun _ => false, fun _ => false⟩
    let f : Filters := ⟨[[99]], [[100]], [([101], .lt, [53])]⟩
    renderFilters f = [99, 44, 33, 100, 44, 101, 60, 53] ∧
      ((∀ k ∈ f.included, ValidKey cls k) ∧ (∀ k ∈ f.excluded, ValidKey cls k) ∧
        ∀ o ∈ f.opers, ValidKey cls o.1 ∧ ValidValue cls o.2.1 o.2.2) ∧
      parseFilters cls (renderFilters f) = f := by
  intro cls f
  have hi : ∀ k ∈ f.included, ValidKey cls k := by decide
  have he : ∀ k ∈ f.excluded, ValidKey cls k := by decide
  have ho : ∀ o ∈ f.opers, ValidKey cls o.1 ∧ ValidValue cls o.2.1 o.2.2 := by decide
  exact ⟨rfl, ⟨hi, he, ho⟩, parseFilters_renderFilters f hi he ho⟩

end Pithos
