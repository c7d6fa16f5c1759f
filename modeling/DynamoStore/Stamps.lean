import DynamoStore.ConflictVerdict

/-!
# Stamps

A coordinator stamps a put by counting up its own entry of the client's clock. As long
as the counter does not wrap around, the stamped clock is later, and different
coordinators make different clocks from the same one.
-/

namespace Stamps

open VectorClocks StateMachine ConflictVerdict

variable {version : Version} {server name : String} {n : UInt64}

theorem mem_updateVersion_of_ne (h : name ≠ server) :
    (name, n) ∈ updateVersion version server ↔ (name, n) ∈ version := by
  have kept : (name, n) ∈ version.map (fun versionPair => if versionPair.1 = server then
      (versionPair.1, versionPair.2 + 1) else versionPair) ↔ (name, n) ∈ version := by
    rw [List.mem_map]
    constructor
    · rintro ⟨pair, hpair, heq⟩
      split at heq
      · rename_i hserver
        cases heq
        exact absurd hserver h
      · exact heq ▸ hpair
    · intro hmem
      exact ⟨(name, n), hmem, if_neg h⟩
  rw [updateVersion]
  split
  · exact kept
  · rw [List.mem_append, kept, List.mem_singleton, Prod.mk.injEq]
    exact or_iff_left fun heq => h heq.1

/-- The counters that the stamping server itself gets. -/
theorem mem_updateVersion_self :
    (server, n) ∈ updateVersion version server ↔
      (∃ k, (server, k) ∈ version ∧ n = k + 1) ∨ (server ∉ version.map Prod.fst ∧ n = 1) := by
  have counted : (server, n) ∈ version.map (fun versionPair => if versionPair.1 = server then
      (versionPair.1, versionPair.2 + 1) else versionPair) ↔
      ∃ k, (server, k) ∈ version ∧ n = k + 1 := by
    rw [List.mem_map]
    constructor
    · rintro ⟨pair, hpair, heq⟩
      split at heq
      · rename_i hserver
        cases heq
        exact ⟨pair.2, hpair, rfl⟩
      · rename_i hserver
        exact absurd (congrArg Prod.fst heq) hserver
    · rintro ⟨k, hk, rfl⟩
      exact ⟨(server, k), hk, if_pos rfl⟩
  have known : version.any (fun versionPair => versionPair.1 = server) = true ↔
      server ∈ version.map Prod.fst := by
    simp
  rw [updateVersion]
  by_cases h : server ∈ version.map Prod.fst
  · rw [if_pos (known.mpr h), counted]
    exact (or_iff_left fun heq => heq.1 h).symm
  · have hno : ¬ ∃ k, (server, k) ∈ version ∧ n = k + 1 := by
      rintro ⟨k, hk, _⟩
      exact h (List.mem_map_of_mem hk)
    rw [if_neg fun hk => h (known.mp hk), List.mem_append, counted, List.mem_singleton,
      Prod.mk.injEq]
    simp only [hno, h, true_and, not_false_eq_true, false_or]

/-- The clock of a stamp covers the stamped one, if the counter does not wrap around. -/
theorem below_updateVersion (small : ∀ k, (server, k) ∈ version → k < k + 1) :
    Below version (updateVersion version server) := by
  rintro ⟨name, n⟩ hp
  by_cases h : name = server
  · subst h
    exact ⟨(name, n + 1), mem_updateVersion_self.mpr (Or.inl ⟨n, hp, rfl⟩), rfl, (small n hp).le⟩
  · exact ⟨(name, n), (mem_updateVersion_of_ne h).mpr hp, rfl, le_rfl⟩

theorem lt_succ_of_lt {k : UInt64} (h : k.toNat < 2 ^ 64 - 1) : k < k + 1 := by
  rw [UInt64.lt_iff_toNat_lt, UInt64.toNat_add]
  have hone : (1 : UInt64).toNat = 1 := rfl
  omega

/-- A clock that covers another one, and is ahead on one server, is judged later. -/
theorem check_eq_one_of_ahead {incoming existing : Version} (distinct : Distinct incoming)
    (below : Below existing incoming) {p : String × UInt64} (hp : p ∈ incoming)
    (ahead : ∀ q ∈ existing, q.1 = p.1 → q.2 < p.2) :
    checkConflictVersion incoming existing = 1 := by
  by_cases he : existing = []
  · rw [he, check_existing_nil]
  obtain ⟨present, notBehind⟩ := (below_iff distinct).mp below
  rw [check_eq (List.ne_nil_of_mem hp) he, if_neg fun h => h.elim present fun h => notBehind h.2]
  by_cases hname : p.1 ∈ existing.map Prod.fst
  · obtain ⟨q, hq, hqp⟩ := List.mem_map.mp hname
    rw [if_pos (show Behind existing incoming from ⟨q, hq, p, hp, hqp, ahead q hq hqp⟩)]
  · have lacks : Lacks existing incoming := ⟨p, hp, hname⟩
    by_cases h : Behind existing incoming
    · rw [if_pos h]
    · rw [if_neg h, if_neg notBehind, if_pos lacks]

/-- The stamp of a clock is judged later than every clock that the stamped one covers, if
the counter does not wrap around. -/
theorem check_updateVersion {existing : Version} (distinct : Distinct version)
    (below : Below existing version) (small : ∀ k, (server, k) ∈ version → k < k + 1) :
    checkConflictVersion (updateVersion version server) existing = 1 := by
  have distinct' := distinct_updateVersion distinct server
  have below' := below.trans (below_updateVersion small)
  by_cases hserver : server ∈ version.map Prod.fst
  · obtain ⟨⟨name, k⟩, hk, rfl⟩ := List.mem_map.mp hserver
    refine check_eq_one_of_ahead distinct' below'
      (mem_updateVersion_self.mpr (Or.inl ⟨k, hk, rfl⟩)) fun q hq hname => ?_
    obtain ⟨r, hr, hrname, hle⟩ := below q hq
    have hr' : (name, r.2) ∈ version := by
      rwa [← show r.1 = name from hrname.trans hname]
    exact (hle.trans_eq (distinct.eq_of_mem hr' hk)).trans_lt (small k hk)
  · refine check_eq_one_of_ahead distinct' below'
      (mem_updateVersion_self.mpr (Or.inr ⟨hserver, rfl⟩)) fun q hq hname => ?_
    -- no clock below names this server
    obtain ⟨r, hr, hrname, _⟩ := below q hq
    exact absurd (List.mem_map.mpr ⟨r, hr, hrname.trans hname⟩) hserver

end Stamps
