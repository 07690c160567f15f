import Pithos.Node

/-!
# Serials

`versions.serial` is an `integer primary key` without `autoincrement`: SQLite gives a new
row one more than the largest serial present. A new serial is above every version in the
table, so the versions present are ordered by creation. Serials are not unique over a run:
the next serial is one more than the largest left, so a deleted serial can be handed out
again.
-/
namespace Pithos

namespace Store

/-- What a successful `version_create` returns: the next rowid of `versions` and `now`. -/
theorem versionCreate_result {s s' : Store} {node : ℤ} {hash : String} {size : ℤ}
    {source : Option ℤ} {muser : String} {cluster : ℤ} {now : ℕ} {serial : ℤ} {mtime : ℕ}
    (h : s.versionCreate node hash size source muser cluster now = .ok (s', serial, mtime)) :
    serial = nextRowid (s.versions.map VersionRow.serial) ∧ mtime = now := by
  unfold versionCreate at h
  split at h
  · obtain ⟨_, -, he⟩ := except_map_eq_ok h
    simp only [Prod.mk.injEq] at he
    exact ⟨he.2.1.symm, he.2.2.symm⟩
  · cases h

end Store

/-- Every serial `version_create` returns is above the serial of every version present when
it is called. -/
theorem versionCreate_serial_gt {s s' : Store} {node : ℤ} {hash : String} {size : ℤ}
    {source : Option ℤ} {muser : String} {cluster : ℤ} {now : ℕ} {serial : ℤ} {mtime : ℕ}
    (h : s.versionCreate node hash size source muser cluster now = .ok (s', serial, mtime)) :
    serial = nextRowid (s.versions.map VersionRow.serial) ∧ ∀ v ∈ s.versions, v.serial < serial := by
  obtain ⟨rfl, -⟩ := Store.versionCreate_result h
  exact ⟨rfl, fun v hv => lt_nextRowid (List.mem_map_of_mem _ hv)⟩

/-- With serials `1` and `2` present, `version_create` returns `3`, above both. -/
theorem versionCreate_serial_gt_third :
    let ops : List Op := [.nodeCreate 0 [97], .versionCreate 1 "h" 0 none "u" 0 0,
      .versionCreate 1 "k" 0 none "u" 0 1]
    ∃ s s', Store.init.run ops = .ok s ∧ s.versions.map VersionRow.serial = [1, 2] ∧
      s.versionCreate 1 "m" 0 none "u" 0 2 = .ok (s', 3, 2) ∧
      (3 = nextRowid (s.versions.map VersionRow.serial) ∧ ∀ v ∈ s.versions, v.serial < 3) := by
  intro ops
  obtain ⟨s, s', hs, hv, h⟩ : ∃ s s', Store.init.run ops = .ok s ∧
      s.versions.map VersionRow.serial = [1, 2] ∧
      s.versionCreate 1 "m" 0 none "u" 0 2 = .ok (s', 3, 2) := ⟨_, _, rfl, rfl, rfl⟩
  exact ⟨s, s', hs, hv, h, versionCreate_serial_gt h⟩

/-- Serial `2` is returned twice in one run: with versions `1` and `2` present,
`version_remove(2)` leaves `1`, and the next `version_create` returns `2` again. -/
theorem versionCreate_reuses_removed_serial :
    let ops : List Op := [.nodeCreate 0 [97], .versionCreate 1 "h" 0 none "u" 0 0]
    ∃ s₁ s₂ s₃ s₄, Store.init.run ops = .ok s₁ ∧
      s₁.versionCreate 1 "k" 0 none "u" 0 1 = .ok (s₂, 2, 1) ∧
      s₂.versionRemove 2 2 = .ok (s₃, some "k") ∧
      s₃.versions.map VersionRow.serial = [1] ∧
      s₃.versionCreate 1 "m" 0 none "u" 0 3 = .ok (s₄, 2, 3) :=
  ⟨_, _, _, _, rfl, rfl, rfl, rfl, rfl⟩

end Pithos
