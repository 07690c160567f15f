import Mathlib.Data.List.Lex
import Mathlib.Data.List.Infix
import Mathlib.Order.Basic

/-!
# Code-point strings and the prefix range

Paths, prefixes and delimiters are unicode strings. They are modelled as their lists of
code points, ordered lexicographically: this is Python's comparison of unicode strings and
SQLite's BINARY collation on their UTF-8 encoding, which agree for every code point.
`strnextling` and `strprevling` turn "starts with `P`" into the half-open range the
listing query scans; `find` is Python's `str.find` with a start index.
-/
namespace Pithos

/-- `strnextling(prefix)`: the first string greater than but not starting with `prefix`.
`none` is the `RuntimeError` raised for a last code point of `0xffff` or more. -/
def strnextling (pre : List ℕ) : Option (List ℕ) :=
  match pre.getLast? with
  | none => some [0xffff]
  | some c => if 0xffff ≤ c then none else some (pre.dropLast ++ [c + 1])

/-- `strprevling(prefix)`: an approximation of the last string less than but not
starting with `prefix`. -/
def strprevling (pre : List ℕ) : List ℕ :=
  match pre.getLast? with
  | none => []
  | some c => if 0 < c then pre.dropLast ++ [c - 1, 0xffff] else pre.dropLast

/-- The first index at which `sub` occurs in `s`. -/
def indexOfSub (sub : List ℕ) : List ℕ → Option ℕ
  | [] => if sub = [] then some 0 else none
  | c :: cs => if sub <+: c :: cs then some 0 else (indexOfSub sub cs).map (· + 1)

/-- `s.find(sub, start)`: the least index from `start` on at which `sub` occurs. -/
def find (s sub : List ℕ) (start : ℕ) : Option ℕ :=
  if s.length < start then none else (indexOfSub sub (s.drop start)).map (· + start)

@[simp] theorem strnextling_nil : strnextling [] = some [0xffff] := rfl

@[simp] theorem strnextling_snoc (q : List ℕ) {c : ℕ} (h : c < 0xffff) :
    strnextling (q ++ [c]) = some (q ++ [c + 1]) := by
  simp [strnextling, List.dropLast_concat, Nat.not_le.2 h]

theorem strnextling_snoc_of_le (q : List ℕ) {c : ℕ} (h : 0xffff ≤ c) :
    strnextling (q ++ [c]) = none := by
  simp [strnextling, h]

@[simp] theorem strprevling_nil : strprevling [] = [] := rfl

@[simp] theorem strprevling_snoc_pos (q : List ℕ) {c : ℕ} (h : 0 < c) :
    strprevling (q ++ [c]) = q ++ [c - 1, 0xffff] := by
  simp [strprevling, List.dropLast_concat, h]

@[simp] theorem strprevling_snoc_zero (q : List ℕ) : strprevling (q ++ [0]) = q := by
  simp [strprevling, List.dropLast_concat]

theorem indexOfSub_spec {sub : List ℕ} :
    ∀ {s : List ℕ} {i : ℕ}, indexOfSub sub s = some i → sub <+: s.drop i
  | [], i, h => by
    simp only [indexOfSub, ite_eq_left_iff] at h
    split at h <;> simp_all
  | c :: cs, i, h => by
    simp only [indexOfSub] at h
    split at h
    · cases h; simpa
    · obtain ⟨j, hj, rfl⟩ := Option.map_eq_some'.1 h
      simpa using indexOfSub_spec hj

/-- An index that `find` returns is at or after `start`, and `sub` occurs there. -/
theorem find_spec {s sub : List ℕ} {start i : ℕ} (h : find s sub start = some i) :
    start ≤ i ∧ sub <+: s.drop i := by
  simp only [find] at h
  split at h
  · cases h
  · obtain ⟨j, hj, rfl⟩ := Option.map_eq_some'.1 h
    refine ⟨Nat.le_add_left _ _, ?_⟩
    simpa [List.drop_drop, Nat.add_comm] using indexOfSub_spec hj

theorem indexOfSub_add_le {sub : List ℕ} :
    ∀ {s : List ℕ} {i : ℕ}, indexOfSub sub s = some i → i + sub.length ≤ s.length
  | [], i, h => by
    simp only [indexOfSub] at h
    split_ifs at h with hs
    cases h; simp [hs]
  | c :: cs, i, h => by
    simp only [indexOfSub] at h
    split_ifs at h with hs
    · cases h; simpa using hs.length_le
    · obtain ⟨j, hj, rfl⟩ := Option.map_eq_some'.1 h
      have := indexOfSub_add_le hj
      simp only [List.length_cons]
      omega

/-- An occurrence that `find` returns lies inside the string. -/
theorem find_add_le {s sub : List ℕ} {start i : ℕ} (h : find s sub start = some i) :
    i + sub.length ≤ s.length := by
  simp only [find] at h
  split_ifs at h with hs
  obtain ⟨j, hj, rfl⟩ := Option.map_eq_some'.1 h
  have := indexOfSub_add_le hj
  simp only [List.length_drop] at this
  omega

/-- The first occurrence of `sub` in `s` is the first one in every string that starts with `s`
up to and with that occurrence. -/
theorem indexOfSub_of_take_prefix {sub : List ℕ} :
    ∀ {s t : List ℕ} {i : ℕ}, indexOfSub sub s = some i → s.take (i + sub.length) <+: t →
      indexOfSub sub t = some i
  | [], t, i, h, _ => by
    simp only [indexOfSub] at h
    split_ifs at h with hs
    cases h; subst hs
    cases t <;> simp [indexOfSub]
  | c :: cs, t, i, h, ht => by
    simp only [indexOfSub] at h
    split_ifs at h with hs
    · cases h
      have hst : sub <+: t := by
        rwa [Nat.zero_add, ← List.prefix_iff_eq_take.1 hs] at ht
      cases t with
      | nil => simp [indexOfSub, List.prefix_nil.1 hst]
      | cons d ds => simp [indexOfSub, hst]
    · obtain ⟨j, hj, rfl⟩ := Option.map_eq_some'.1 h
      have hlen := indexOfSub_add_le hj
      obtain ⟨u, rfl⟩ := ht
      have ht' : cs.take (j + sub.length) <+: cs.take (j + sub.length) ++ u :=
        List.prefix_append _ _
      -- a first occurrence at the head of the longer string would be one of `c :: cs`
      have hns : ¬ sub <+: c :: (cs.take (j + sub.length) ++ u) := fun hp => hs <| by
        rw [List.prefix_iff_eq_take] at hp ⊢
        refine hp.trans ?_
        rw [← List.cons_append, List.take_append_of_le_length (by simp; omega),
          ← List.take_succ_cons, List.take_take, Nat.min_eq_left (by omega)]
      simp only [Nat.add_right_comm j 1, List.take_succ_cons, List.cons_append]
      simp [indexOfSub, hns, indexOfSub_of_take_prefix hj ht']

/-- `find` is decided by the path up to and with the occurrence it returns. -/
theorem find_of_take_prefix {s t sub : List ℕ} {start i : ℕ} (h : find s sub start = some i)
    (ht : s.take (i + sub.length) <+: t) : find t sub start = some i := by
  unfold find at h ⊢
  split_ifs at h with hs
  obtain ⟨j, hj, rfl⟩ := Option.map_eq_some'.1 h
  have hle := indexOfSub_add_le hj
  simp only [List.length_drop] at hle
  have hlen : start ≤ (s.take (j + start + sub.length)).length := by
    simp only [List.length_take]
    omega
  obtain ⟨u, rfl⟩ := ht
  rw [if_neg (by simp only [List.length_append]; omega), List.drop_append_of_le_length hlen,
    List.drop_take, Nat.add_right_comm, Nat.add_sub_cancel,
    indexOfSub_of_take_prefix hj ⟨u, rfl⟩]
  rfl

/-! ## Lexicographic order and prefixes -/

theorem cons_lt_cons_of_ne {a b : ℕ} (l m : List ℕ) (h : a ≠ b) :
    a :: l < b :: m ↔ a < b := by
  constructor
  · rintro (_ | h' | h')
    · exact absurd rfl h
    · exact h'
  · exact List.Lex.rel

theorem cons_lt_cons_self (a : ℕ) (l m : List ℕ) : a :: l < a :: m ↔ l < m :=
  List.Lex.cons_iff

theorem append_lt_append_left (q : List ℕ) {a b : List ℕ} : q ++ a < q ++ b ↔ a < b := by
  induction q with
  | nil => rfl
  | cons c q ih => exact (cons_lt_cons_self c _ _).trans ih

theorem not_lt_nil (s : List ℕ) : ¬ s < [] := List.Lex.not_nil_right _ _

/-- When `q` is not a prefix of `s`, comparing `s` with any extension of `q` is decided
inside `q`. -/
theorem lt_append_iff_of_diverges {q s : List ℕ} (h : ¬ q <+: s) (t : List ℕ) :
    (s < q ++ t ↔ s < q) ∧ (q ++ t < s ↔ q < s) := by
  induction q generalizing s with
  | nil => exact absurd (List.nil_prefix) h
  | cons a q ih =>
    cases s with
    | nil => exact ⟨by simp [List.nil_lt_cons], by simp [not_lt_nil]⟩
    | cons b s =>
      by_cases hab : b = a
      · subst hab
        have := ih (s := s) (by simpa using h)
        simp only [List.cons_append, cons_lt_cons_self]
        exact this
      · simp only [List.cons_append, cons_lt_cons_of_ne _ _ hab,
          cons_lt_cons_of_ne _ _ (Ne.symm hab), and_self]

theorem prefix_le {q s : List ℕ} (h : q <+: s) : q ≤ s := by
  obtain ⟨r, rfl⟩ := h
  cases r with
  | nil => simp
  | cons c r =>
    refine le_of_lt ?_
    simpa using (append_lt_append_left q (a := []) (b := c :: r)).2 (List.nil_lt_cons _ _)

/-- Every string that starts with `q ++ [c]` lies below `q ++ [c + 1]`. -/
theorem prefix_lt_succ {q s : List ℕ} {c : ℕ} (h : q ++ [c] <+: s) : s < q ++ [c + 1] := by
  obtain ⟨r, rfl⟩ := h
  rw [List.append_assoc, append_lt_append_left]
  exact List.Lex.rel (Nat.lt_succ_self c)

/-- A string above `q ++ [c]` and below `q ++ [c + 1]` starts with `q ++ [c]`. -/
theorem prefix_of_lt_of_lt_succ {q s : List ℕ} {c : ℕ} (h₁ : q ++ [c] < s)
    (h₂ : s < q ++ [c + 1]) : q ++ [c] <+: s := by
  by_cases hq : q <+: s
  · obtain ⟨r, rfl⟩ := hq
    rw [append_lt_append_left] at h₁ h₂
    rcases h₁ with _ | _ | h₁
    · exact ⟨_, List.append_assoc _ _ _⟩
    · rcases h₂ with _ | h₂ | h₂
      · exact absurd h₂ (not_lt_nil _)
      · omega
  · have h₁' := (lt_append_iff_of_diverges hq [c]).2.1 h₁
    have h₂' := (lt_append_iff_of_diverges hq [c + 1]).1.1 h₂
    exact absurd (h₁'.trans h₂') (lt_irrefl _)

/-- Every string that starts with a non-empty `pf` lies below `strnextling pf`. -/
theorem lt_strnextling_of_prefix {pf s nx : List ℕ} (hpf : pf ≠ [])
    (h : strnextling pf = some nx) (hs : pf <+: s) : s < nx := by
  obtain ⟨q, c, rfl⟩ := (List.eq_nil_or_concat' pf).resolve_left hpf
  obtain hc | hc := lt_or_le c 0xffff
  · rw [strnextling_snoc q hc] at h
    cases h
    exact prefix_lt_succ hs
  · simp [strnextling_snoc_of_le q hc] at h

theorem cons_lt_cons_iff {a b : ℕ} {l m : List ℕ} : a :: l < b :: m ↔ a < b ∨ a = b ∧ l < m := by
  by_cases h : a = b
  · subst h; simp [cons_lt_cons_self]
  · simp [cons_lt_cons_of_ne _ _ h, h]

/-- A string strictly between a prefix `a` of `s` and `s` itself also starts with `a`. -/
theorem prefix_of_prefix_of_lt_of_lt {a b s : List ℕ} (hs : a <+: s) (h₁ : a < b) (h₂ : b < s) :
    a <+: b := by
  induction a generalizing b s with
  | nil => exact List.nil_prefix
  | cons x a ih =>
    obtain ⟨t, rfl⟩ := hs
    cases b with
    | nil => exact absurd h₁ (not_lt_nil _)
    | cons y b =>
      rw [List.cons_append, cons_lt_cons_iff] at h₂
      rcases cons_lt_cons_iff.1 h₁ with hxy | ⟨rfl, hab⟩
      · rcases h₂ with h₂ | ⟨h₂, -⟩ <;> omega
      · rcases h₂ with h₂ | ⟨-, h₂⟩
        · exact absurd h₂ (lt_irrefl _)
        · exact (List.prefix_cons_inj x).2 (ih ⟨t, rfl⟩ hab h₂)

theorem strprevling_snoc (q : List ℕ) (c : ℕ) : strprevling (q ++ [c]) = q ++ strprevling [c] := by
  rcases Nat.eq_zero_or_pos c with rfl | hc
  · simp [strprevling]
  · simp [strprevling, hc, List.dropLast_concat]

theorem strprevling_singleton (c : ℕ) :
    strprevling [c] = if 0 < c then [c - 1, 0xffff] else [] := by
  simp [strprevling]

/-- Below `0xffff` the range `(strprevling P, strnextling P)` holds exactly the strings that
start with `P = q ++ [c]`. -/
theorem prevling_lt_and_lt_succ_iff {q s : List ℕ} {c : ℕ} (hs : ∀ x ∈ s, x < 0xffff) :
    strprevling (q ++ [c]) < s ∧ s < q ++ [c + 1] ↔ q ++ [c] <+: s := by
  refine ⟨fun ⟨h₁, h₂⟩ => ?_, fun h => ⟨?_, prefix_lt_succ h⟩⟩
  · by_cases hq : q <+: s
    · obtain ⟨r, rfl⟩ := hq
      rw [strprevling_snoc, append_lt_append_left] at h₁
      rw [append_lt_append_left] at h₂
      cases r with
      | nil => exact absurd h₁ (not_lt_nil _)
      | cons d r =>
        have hd : d = c := by
          simp only [cons_lt_cons_iff, not_lt_nil, and_false, or_false] at h₂
          rcases Nat.eq_zero_or_pos c with rfl | hc
          · omega
          · have hr : ¬ [0xffff] < r := fun h => by
              cases r with
              | nil => exact not_lt_nil _ h
              | cons e r =>
                have := hs e (by simp)
                rcases cons_lt_cons_iff.1 h with h | ⟨h, -⟩ <;> omega
            simp only [strprevling_singleton, if_pos hc, cons_lt_cons_iff, hr, and_false,
              or_false] at h₁
            omega
        subst hd
        exact ⟨r, by simp⟩
    · rw [strprevling_snoc, (lt_append_iff_of_diverges hq _).2] at h₁
      rw [(lt_append_iff_of_diverges hq _).1] at h₂
      exact absurd (h₁.trans h₂) (lt_irrefl _)
  · obtain ⟨r, rfl⟩ := h
    rw [strprevling_snoc, List.append_assoc, append_lt_append_left, strprevling_singleton]
    split_ifs with hc
    · exact List.Lex.rel (by omega)
    · exact List.nil_lt_cons _ _

/-- Every non-empty string below `0xffff` lies in the range `("", "\uffff")` of the empty
prefix. -/
theorem nil_lt_and_lt_ffff {s : List ℕ} (hne : s ≠ []) (hs : ∀ x ∈ s, x < 0xffff) :
    [] < s ∧ s < [0xffff] := by
  obtain ⟨d, r, rfl⟩ := List.exists_cons_of_ne_nil hne
  exact ⟨List.nil_lt_cons _ _, cons_lt_cons_iff.2 (.inl (hs d (List.mem_cons_self _ _)))⟩

/-- Above `q ++ [c]`, the strings that do not start with it are those from `q ++ [c + 1]`
on. -/
theorem snoc_succ_le_iff {q s : List ℕ} {c : ℕ} :
    q ++ [c + 1] ≤ s ↔ q ++ [c] < s ∧ ¬ q ++ [c] <+: s := by
  constructor
  · intro h
    exact ⟨(prefix_lt_succ (List.prefix_refl _)).trans_le h,
      fun hp => absurd (prefix_lt_succ hp) (not_lt.2 h)⟩
  · rintro ⟨h₁, h₂⟩
    exact not_lt.1 fun h => h₂ (prefix_of_lt_of_lt_succ h₁ h)

/-- The prefix range: for `P` empty or ending below `0xffff`, `strnextling P` returns, and the
range `(strprevling P, strnextling P)` holds exactly the non-empty strings below `0xffff` that
start with `P`; for a non-empty such `P`, the strings from `strnextling P` on are those above
`P` that do not start with it. -/
theorem strprevling_strnextling_range :
    (∀ P s : List ℕ, (∀ c ∈ P.getLast?, c < 0xffff) → s ≠ [] → (∀ x ∈ s, x < 0xffff) →
      ∃ n, strnextling P = some n ∧ (strprevling P < s ∧ s < n ↔ P <+: s)) ∧
    ∀ (P s : List ℕ) (c : ℕ), P.getLast? = some c → c < 0xffff →
      ∃ n, strnextling P = some n ∧ (n ≤ s ↔ P < s ∧ ¬ P <+: s) := by
  refine ⟨fun P s hP hne hs => ?_, fun P s c hP hc => ?_⟩
  · rcases List.eq_nil_or_concat' P with rfl | ⟨q, c, rfl⟩
    · exact ⟨_, strnextling_nil, by simpa using nil_lt_and_lt_ffff hne hs⟩
    · exact ⟨_, strnextling_snoc q (hP c (by simp)), prevling_lt_and_lt_succ_iff hs⟩
  · rcases List.eq_nil_or_concat' P with rfl | ⟨q, d, rfl⟩
    · cases hP
    · obtain rfl : d = c := by simpa using hP
      exact ⟨_, strnextling_snoc q hc, snoc_succ_le_iff⟩

/-- `P = "a"`: `"ab"` lies in the range `("", "b")`, and `"b"`, the bound itself, is above
`"a"` without starting with it. -/
theorem strprevling_strnextling_range_a :
    (∃ n, strnextling [97] = some n ∧
      (strprevling [97] < [97, 98] ∧ [97, 98] < n ↔ [97] <+: [97, 98])) ∧
    ∃ n, strnextling [97] = some n ∧ (n ≤ [98] ↔ [97] < [98] ∧ ¬ [97] <+: [98]) :=
  ⟨strprevling_strnextling_range.1 [97] [97, 98] (by simp) (by simp) (by decide),
    strprevling_strnextling_range.2 [97] [98] 97 rfl (by decide)⟩

end Pithos
