import Pithos.Node
import Mathlib.Data.List.Chain

/-!
# Parent links and the end of the ancestor walk

The walk of `statistics_update_ancestors` stops at `ROOTNODE` or at an id with no row. A
node whose parent is itself and which is not `ROOTNODE` is a loop it never leaves, and
`node_create` makes one when it is given the id the new row is about to take. Where every
parent is at most its child, that is the only loop: a chain that ends is strictly
decreasing, meets no node twice, and, when its ids have rows, fits the walk's fuel.
-/
namespace Pithos

namespace Store

/-- The row behind an answer of `node_get_properties`. -/
theorem mem_of_nodeGetProperties {s : Store} {node parent : ℤ} {path : List ℕ}
    (h : s.nodeGetProperties node = some (parent, path)) : ⟨node, parent, path⟩ ∈ s.nodes := by
  obtain ⟨r, hr, he⟩ := Option.map_eq_some'.1 h
  have hn : r.node = node := by simpa using List.find?_some hr
  simp only [Prod.mk.injEq] at he
  rw [← hn, ← he.1, ← he.2]
  exact List.mem_of_find?_eq_some hr

/-- `node_get_properties` of a row's id is that row's parent and path. -/
theorem nodeGetProperties_of_mem {s : Store} {r : NodeRow} (hr : r ∈ s.nodes) :
    s.nodeGetProperties r.node = some (r.parent, r.path) := by
  obtain ⟨r', hr'⟩ := Option.isSome_iff_exists.1
    (List.find?_isSome.2 ⟨r, hr, by simp⟩ : (s.nodes.find? (·.node = r.node)).isSome)
  have hn : r'.node = r.node := by simpa using List.find?_some hr'
  have : r' = r := List.inj_on_of_nodup_map s.node_key (List.mem_of_find?_eq_some hr') hr hn
  simp [nodeGetProperties, hr', this]

theorem hasNode_of_nodeGetProperties {s : Store} {node parent : ℤ} {path : List ℕ}
    (h : s.nodeGetProperties node = some (parent, path)) : s.hasNode node := by
  simpa [hasNode] using ⟨_, mem_of_nodeGetProperties h, rfl⟩

theorem statisticsUpdate_of_hasNode {s : Store} {node : ℤ} (h : s.hasNode node)
    (population size : ℤ) (mtime : ℕ) (cluster : ℤ) :
    ∃ s', s.statisticsUpdate node population size mtime cluster = .ok s' := by
  simp only [statisticsUpdate, h, if_true]
  exact ⟨_, rfl⟩

/-- From a node other than `ROOTNODE` that is its own parent, the walk never stops. -/
theorem statisticsUpdateAncestorsFuel_self_parent {s : Store} {node : ℤ} {path : List ℕ}
    (h0 : node ≠ 0) (hp : s.nodeGetProperties node = some (node, path)) (fuel : ℕ)
    (population size : ℤ) (mtime : ℕ) (cluster : ℤ) :
    statisticsUpdateAncestorsFuel fuel s node population size mtime cluster =
      .error .diverges := by
  induction fuel generalizing s population with
  | zero => rfl
  | succ fuel ih =>
    obtain ⟨s', hs'⟩ := statisticsUpdate_of_hasNode (hasNode_of_nodeGetProperties hp)
      population size mtime cluster
    simp only [statisticsUpdateAncestorsFuel, h0, if_false, hp, hs', bind, Except.bind]
    exact ih ((nodeGetProperties_congr (statisticsUpdate_nodes hs') node).trans hp) 0

theorem ancestorChain_self_parent {s : Store} {node : ℤ} {path : List ℕ} (h0 : node ≠ 0)
    (hp : s.nodeGetProperties node = some (node, path)) :
    ∀ fuel, s.ancestorChain fuel node = none
  | 0 => rfl
  | fuel + 1 => by simp [ancestorChain, h0, hp, ancestorChain_self_parent h0 hp fuel]

theorem length_lt_of_ancestorChain {s : Store} :
    ∀ {fuel : ℕ} {node : ℤ} {ch : List ℤ}, s.ancestorChain fuel node = some ch → ch.length < fuel
  | 0, _, _, h => by cases h
  | fuel + 1, node, ch, h => by
    simp only [ancestorChain] at h
    split_ifs at h
    · cases h; simp
    · split at h
      · cases h; simp
      · obtain ⟨ps, hps, rfl⟩ := Option.map_eq_some'.1 h
        simpa using length_lt_of_ancestorChain hps

/-- A chain found with some fuel is found with any fuel above its length. -/
theorem ancestorChain_of_length_lt {s : Store} :
    ∀ {fuel fuel' : ℕ} {node : ℤ} {ch : List ℤ}, s.ancestorChain fuel node = some ch →
      ch.length < fuel' → s.ancestorChain fuel' node = some ch
  | 0, _, _, _, h, _ => by cases h
  | _ + 1, 0, _, _, _, hl => absurd hl (Nat.not_lt_zero _)
  | fuel + 1, fuel' + 1, node, ch, h, hl => by
    simp only [ancestorChain] at h ⊢
    split_ifs at h ⊢
    · exact h
    · cases hp : s.nodeGetProperties node with
      | none => simpa [hp] using h
      | some pp =>
        simp only [hp] at h ⊢
        obtain ⟨ps, hps, rfl⟩ := Option.map_eq_some'.1 h
        simp only [ancestorChain_of_length_lt hps (by simpa using hl), Option.map_some']

/-- Every id on a chain is the parent of a node other than `ROOTNODE` that the walk met. -/
theorem parent_of_mem_ancestorChain {s : Store} :
    ∀ {fuel : ℕ} {node m : ℤ} {ch : List ℤ}, s.ancestorChain fuel node = some ch → m ∈ ch →
      ∃ y path, y ≠ 0 ∧ s.nodeGetProperties y = some (m, path)
  | 0, _, _, _, h, _ => by cases h
  | fuel + 1, node, m, ch, h, hm => by
    simp only [ancestorChain] at h
    split_ifs at h with h0
    · cases h; cases hm
    · split at h
      · cases h; cases hm
      · rename_i parent path hp
        obtain ⟨ps, hps, rfl⟩ := Option.map_eq_some'.1 h
        rcases List.mem_cons.1 hm with rfl | hm
        · exact ⟨node, path, h0, hp⟩
        · exact parent_of_mem_ancestorChain hps hm

section Ordered

variable {s : Store} (hle : ∀ r ∈ s.nodes, r.parent ≤ r.node)
include hle

/-- Where no parent is above its child, a chain that ends strictly decreases. -/
theorem ancestorChain_chain_lt :
    ∀ {fuel : ℕ} {node : ℤ} {ch : List ℤ}, s.ancestorChain fuel node = some ch →
      List.Chain (· > ·) node ch
  | 0, _, _, h => by cases h
  | fuel + 1, node, ch, h => by
    simp only [ancestorChain] at h
    split_ifs at h with h0
    · cases h; exact .nil
    · split at h
      · cases h; exact .nil
      · rename_i parent path hp
        obtain ⟨ps, hps, rfl⟩ := Option.map_eq_some'.1 h
        have hne : parent ≠ node := by
          rintro rfl
          rw [ancestorChain_self_parent h0 hp] at hps
          cases hps
        have hle' : parent ≤ node := hle _ (mem_of_nodeGetProperties hp)
        exact .cons (lt_of_le_of_ne hle' hne) (ancestorChain_chain_lt hps)

theorem nodup_ancestorChain {fuel : ℕ} {node : ℤ} {ch : List ℤ}
    (h : s.ancestorChain fuel node = some ch) : (node :: ch).Nodup :=
  (List.chain_iff_pairwise.1 (ancestorChain_chain_lt hle h)).imp ne_of_gt

/-- With every parent a node, a chain that ends has at most `nodes.length` ids, so the walk's
`nodes.length + 1` rounds reach its end. -/
theorem ancestorChain_enough_fuel (hpm : ∀ r ∈ s.nodes, s.hasNode r.parent) {fuel : ℕ}
    {node : ℤ} {ch : List ℤ} (h : s.ancestorChain fuel node = some ch) :
    s.ancestorChain (s.nodes.length + 1) node = some ch := by
  have hsub : ch ⊆ s.nodes.map NodeRow.node := fun m hm => by
    obtain ⟨y, path, -, hy⟩ := parent_of_mem_ancestorChain h hm
    simpa [hasNode] using hpm _ (mem_of_nodeGetProperties hy)
  have hlen := (List.subperm_of_subset (nodup_ancestorChain hle h).of_cons hsub).length_le
  exact ancestorChain_of_length_lt h (by simpa using Nat.lt_succ_of_le hlen)

end Ordered

end Store

/-- From the empty database, `node_create(1, 'a')` is accepted and makes node `1` its own
parent; the walk from it then never stops, whatever its fuel. -/
theorem nodeCreate_own_id_loops :
    let ops : List Op := [.nodeCreate 1 [97]]
    ∃ s, Store.init.run ops = .ok s ∧ Reachable s ∧
      s.nodeGetProperties 1 = some (1, [97]) ∧
      ∀ fuel population size mtime cluster,
        Store.statisticsUpdateAncestorsFuel fuel s 1 population size mtime cluster =
          .error .diverges := by
  intro ops
  refine ⟨_, rfl, Reachable.init.run ops rfl, rfl, fun fuel => ?_⟩
  exact Store.statisticsUpdateAncestorsFuel_self_parent (by decide) (by rfl) fuel

end Pithos
