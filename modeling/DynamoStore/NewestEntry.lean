import DynamoStore.ReadFilter
import DynamoStore.ReconciledClock
import DynamoStore.SequentialStore

/-!
# The newest entry of a key

Servers that were passed over keep older entries of a key. One entry is newer than all of
these, and so many replicas hold it that every quorum meets them. What a read finds is then
the newest entry, and perhaps older ones whose clocks lack a server of its clock: these look
like conflicts. A stamp of the newest clock, or of the merged one, is newer again.
-/

namespace NewestEntry

open GossipNode StateMachine VectorClocks ConflictVerdict ReadFilter ReconciledClock
open KeyTransfers Stamps SequentialStore

/-- Two parts of a list that are together longer than the list have a common member. -/
theorem exists_mem_of_majorities {α : Type} {P Q : α → Bool} {l : List α}
    (h : l.length < (l.filter P).length + (l.filter Q).length) :
    ∃ x ∈ l, P x = true ∧ Q x = true := by
  by_contra hnone
  have apart : ∀ x ∈ l, Q x = true → (!P x) = true := by
    intro x hx hQ
    rw [Bool.not_eq_true']
    exact Bool.eq_false_iff.mpr fun hP => hnone ⟨x, hx, hP, hQ⟩
  have hle : (l.filter Q).length ≤ (l.filter fun x => !P x).length := by
    rw [← List.countP_eq_length_filter, ← List.countP_eq_length_filter]
    exact List.countP_mono_left apart
  have hsplit := List.length_eq_length_filter_add P (l := l)
  omega

section Stamping

variable {version existing : Version} {n : Nat} {p q : String}

theorem small_of_counts (h : Counts n version) (short : n < 2 ^ 64 - 1) :
    ∀ k, (p, k) ∈ version → k < k + 1 :=
  fun k hk => (h.stampable short).small (p, k) hk

/-- The counter that a stamp sets is ahead of the stamped clock. -/
theorem exists_ahead (h : Counts n version) (short : n < 2 ^ 64 - 1) (q : String) :
    ∃ k, (q, k) ∈ updateVersion version q ∧ ∀ j, (q, j) ∈ version → j < k := by
  by_cases hq : q ∈ version.map Prod.fst
  · obtain ⟨⟨name, k⟩, hk, rfl⟩ := List.mem_map.mp hq
    refine ⟨k + 1, mem_updateVersion_self.mpr (Or.inl ⟨k, hk, rfl⟩), fun j hj => ?_⟩
    rw [h.distinct.eq_of_mem hj hk]
    exact small_of_counts h short k hk
  · exact ⟨1, mem_updateVersion_self.mpr (Or.inr ⟨hq, rfl⟩),
      fun j hj => absurd (List.mem_map_of_mem hj) hq⟩

theorem strictlyBelow_stamp (h : Counts n version) (short : n < 2 ^ 64 - 1)
    (distinct : Distinct existing) (below : Below existing version) (p : String) :
    StrictlyBelow existing (updateVersion version p) :=
  strictlyBelow_of_check (distinct_updateVersion h.distinct p) distinct
    (updateVersion_ne_nil version p)
    (check_updateVersion h.distinct below (small_of_counts h short))

theorem succ_le_succ_of_lt {i j : UInt64} (hle : j ≤ i) (small : i < i + 1) : j + 1 ≤ i + 1 := by
  rw [UInt64.lt_iff_toNat_lt, UInt64.toNat_add] at small
  rw [UInt64.le_iff_toNat_le] at hle ⊢
  rw [UInt64.toNat_add, UInt64.toNat_add]
  have hone : (1 : UInt64).toNat = 1 := rfl
  omega

theorem one_le_succ_of_lt {i : UInt64} (small : i < i + 1) : 1 ≤ i + 1 := by
  rw [UInt64.lt_iff_toNat_lt] at small
  rw [UInt64.le_iff_toNat_le]
  have hone : (1 : UInt64).toNat = 1 := rfl
  omega

/-- Stamping keeps the order. -/
theorem below_updateVersion_both {version' : Version} (below : Below version version')
    (h : Counts n version') (short : n < 2 ^ 64 - 1) (p : String) :
    Below (updateVersion version p) (updateVersion version' p) := by
  rintro ⟨name, k⟩ hk
  by_cases hname : name = p
  · subst hname
    by_cases known : name ∈ version'.map Prod.fst
    · obtain ⟨⟨name', i⟩, hi, rfl⟩ := List.mem_map.mp known
      have small := small_of_counts h short i hi
      refine ⟨(name', i + 1), mem_updateVersion_self.mpr (Or.inl ⟨i, hi, rfl⟩), rfl, ?_⟩
      rcases mem_updateVersion_self.mp hk with ⟨j, hj, rfl⟩ | ⟨_, rfl⟩
      · obtain ⟨⟨name'', i'⟩, hi', hname, hle⟩ := below _ hj
        cases hname
        rw [h.distinct.eq_of_mem hi' hi] at hle
        exact succ_le_succ_of_lt hle small
      · exact one_le_succ_of_lt small
    · refine ⟨(name, 1), mem_updateVersion_self.mpr (Or.inr ⟨known, rfl⟩), rfl, ?_⟩
      rcases mem_updateVersion_self.mp hk with ⟨j, hj, _⟩ | ⟨_, rfl⟩
      · obtain ⟨⟨name', i⟩, hi, hname, _⟩ := below _ hj
        cases hname
        exact absurd (List.mem_map_of_mem hi) known
      · exact le_rfl
  · obtain ⟨⟨name', j⟩, hj, hname', hle⟩ := below _ ((mem_updateVersion_of_ne hname).mp hk)
    cases hname'
    exact ⟨_, (mem_updateVersion_of_ne hname).mpr hj, rfl, hle⟩

/-- A clock that was stamped twice is newer than with the second stamp alone. -/
theorem strictlyBelow_stamp_again (h : Counts n version) (short : n + 1 < 2 ^ 64 - 1)
    (p q : String) :
    StrictlyBelow (updateVersion version p) (updateVersion (updateVersion version q) p) := by
  have stampedP := h.stamp (Nat.lt_of_succ_lt short) p
  have stampedQ := h.stamp (Nat.lt_of_succ_lt short) q
  have below := below_updateVersion_both
    (below_updateVersion (small_of_counts h (Nat.lt_of_succ_lt short))) stampedQ short p
  have distinct := distinct_updateVersion stampedQ.distinct p
  refine strictlyBelow_of_check distinct stampedP.distinct (updateVersion_ne_nil _ p) ?_
  by_cases hqp : q = p
  · subst hqp
    obtain ⟨k, hk, ahead⟩ := exists_ahead stampedP short q
    refine check_eq_one_of_ahead distinct below hk ?_
    rintro ⟨name, j⟩ hj rfl
    exact ahead j hj
  · obtain ⟨k, hk, ahead⟩ := exists_ahead h (Nat.lt_of_succ_lt short) q
    refine check_eq_one_of_ahead distinct below ((mem_updateVersion_of_ne hqp).mpr hk) ?_
    rintro ⟨name, j⟩ hj rfl
    exact ahead j ((mem_updateVersion_of_ne hqp).mp hj)

theorem check_of_strictlyBelow {incoming : Version} (hi : Distinct incoming)
    (he : Distinct existing) (below : StrictlyBelow existing incoming) :
    checkConflictVersion incoming existing = 1 := by
  by_cases hnil : existing = []
  · rw [hnil, check_existing_nil]
  · exact (check_eq_one_iff hi he hnil).mpr below

end Stamping

section Copies

variable {servers : Set String} {replicas quorum : List String} {n : Nat}
variable {held held' : String → Option Data} {history : List String} {e d : Data}

/-- After the values in `history` were written, the last one first, some replicas hold the
entry `e`, and no server holds a newer one. -/
structure Newest (servers : Set String) (replicas : List String) (n : Nat)
    (held : String → Option Data) (history : List String) (e : Data) : Prop where
  value : history.head? = some e.1
  stamped : Distinct e.2 ∧ e.2 ≠ []
  counts : ∀ x ∈ servers, ∀ d, held x = some d → Counts n d.2
  known : ∀ x ∈ servers, ∀ d, held x = some d → d.1 ∈ history
  older : ∀ x ∈ servers, ∀ d, held x = some d → d = e ∨ StrictlyBelow d.2 e.2
  copies : wCount ≤ (replicas.filter fun x => held x = some e).length

/-- Nothing was written yet, or there is a newest entry. -/
def Kept (servers : Set String) (replicas : List String) (n : Nat) (held : String → Option Data)
    (history : List String) : Prop :=
  (history = [] ∧ ∀ x ∈ servers, held x = none) ∨ ∃ e, Newest servers replicas n held history e

theorem Kept.counts (h : Kept servers replicas n held history) {x : String} (hx : x ∈ servers)
    (hd : held x = some d) : Counts n d.2 := by
  rcases h with ⟨_, hnone⟩ | ⟨e, newest⟩
  · rw [hnone x hx] at hd
    cases hd
  · exact newest.counts x hx d hd

theorem Kept.mono {n' : Nat} (h : Kept servers replicas n held history) (hn : n ≤ n') :
    Kept servers replicas n' held history :=
  h.imp_right fun ⟨e, newest⟩ =>
    ⟨e, { newest with counts := fun x hx d hd => (newest.counts x hx d hd).mono hn }⟩

/-- What a read finds: the entry `d` that was written last, and perhaps older ones. -/
structure Finds (servers : Set String) (n : Nat) (held : String → Option Data)
    (history : List String) (found : List Data) (d : Data) : Prop where
  mem : d ∈ found
  value : d.1 = history.headD noValue
  counts : ∀ d' ∈ found, Counts n d'.2
  above : ∀ x ∈ servers, ∀ d', held x = some d' → Below d'.2 d.2
  older : ∀ d' ∈ found, d' = d ∨ (d'.1 ∈ history ∧ StrictlyBelow d'.2 d.2)
  single : found = [d] ∨ d.1 ∈ history

/-- A quorum with enough replicas has a copy of the newest entry. -/
theorem Newest.meets (h : Newest servers replicas n held history e) {alive : String → Bool}
    (few : replicas.length ≤ replicaN) (enough : rCount ≤ (replicas.filter alive).length)
    (contains : ∀ x ∈ replicas, alive x = true → x ∈ quorum) :
    ∃ x ∈ quorum, held x = some e := by
  have majorities : replicas.length < (replicas.filter alive).length +
      (replicas.filter fun x => held x = some e).length := by
    have hcounts : replicaN < rCount + wCount := by decide
    have hcopies := h.copies
    omega
  obtain ⟨x, hx, halive, hheld⟩ := exists_mem_of_majorities majorities
  exact ⟨x, contains x hx halive, of_decide_eq_true hheld⟩

theorem Newest.finds (h : Newest servers replicas n held history e)
    (inside : ∀ x ∈ quorum, x ∈ servers) (meets : ∃ x ∈ quorum, held x = some e) :
    Finds servers n held history
      (getLatestData (quorum.map fun x => (held x).getD (noValue, []))) e := by
  have below : ∀ x ∈ servers, ∀ d, held x = some d → Below d.2 e.2 := by
    intro x hx d hd
    rcases h.older x hx d hd with rfl | hlt
    · exact Below.refl _
    · exact hlt.1
  obtain ⟨x, hx, hheld⟩ := meets
  have hmem : e ∈ quorum.map fun x => (held x).getD (noValue, []) :=
    List.mem_map.mpr ⟨x, hx, by rw [hheld]; rfl⟩
  have latest : ∀ d ∈ quorum.map (fun x => (held x).getD (noValue, [])),
      ¬ checkConflictVersion e.2 d.2 < 0 := by
    intro d hd
    obtain ⟨y, hy, rfl⟩ := List.mem_map.mp hd
    cases hy' : held y with
    | none =>
      rw [Option.getD_none, check_existing_nil]
      decide
    | some d =>
      rw [Option.getD_some]
      rcases h.older y (inside y hy) d hy' with rfl | hlt
      · exact check_self_nonneg _
      · rw [check_of_strictlyBelow h.stamped.1 (h.counts y (inside y hy) d hy').distinct hlt]
        decide
  -- the placeholder of a server without the key is dropped
  have stored : ∀ d ∈ getLatestData (quorum.map fun x => (held x).getD (noValue, [])),
      ∃ y ∈ servers, held y = some d := by
    intro d hd
    obtain ⟨hd, hlatest⟩ := mem_getLatestData.mp hd
    obtain ⟨y, hy, rfl⟩ := List.mem_map.mp hd
    cases hy' : held y with
    | none =>
      refine absurd ?_ (hlatest e hmem)
      rw [hy', Option.getD_none, check_incoming_nil h.stamped.2]
      decide
    | some d => exact ⟨y, inside y hy, hy'⟩
  refine ⟨mem_getLatestData.mpr ⟨hmem, latest⟩, ?_, fun d hd => ?_, below, fun d hd => ?_, ?_⟩
  · rw [List.headD_eq_head?_getD, h.value]
    rfl
  · obtain ⟨y, hy, hheld⟩ := stored d hd
    exact h.counts y hy d hheld
  · obtain ⟨y, hy, hheld⟩ := stored d hd
    exact (h.older y hy d hheld).imp_right fun hlt => ⟨h.known y hy d hheld, hlt⟩
  · exact Or.inr (h.known x (inside x hx) e hheld)

theorem Kept.finds (h : Kept servers replicas n held history) {alive : String → Bool}
    (few : replicas.length ≤ replicaN) (enough : rCount ≤ (replicas.filter alive).length)
    (inside : ∀ x ∈ quorum, x ∈ servers)
    (contains : ∀ x ∈ replicas, alive x = true → x ∈ quorum) :
    ∃ d, Finds servers n held history
      (getLatestData (quorum.map fun x => (held x).getD (noValue, []))) d := by
  rcases h with ⟨rfl, hnone⟩ | ⟨e, newest⟩
  · obtain ⟨x, hx⟩ : ∃ x, x ∈ replicas.filter alive := List.exists_mem_of_ne_nil _ fun hnil => by
      rw [hnil] at enough
      exact absurd enough (by decide)
    obtain ⟨hx, halive⟩ := List.mem_filter.mp hx
    have hfound : getLatestData (quorum.map fun x => (held x).getD (noValue, [])) =
        [(noValue, [])] := by
      refine getLatestData_of_all_eq (List.ne_nil_of_mem (List.mem_map_of_mem
        (contains x hx halive))) fun d hd => ?_
      obtain ⟨y, hy, rfl⟩ := List.mem_map.mp hd
      rw [hnone y (inside y hy)]
      rfl
    rw [hfound]
    refine ⟨(noValue, []), List.mem_singleton_self _, rfl, fun d hd => ?_, fun y hy d hd => ?_,
      fun d hd => Or.inl (List.mem_singleton.mp hd), Or.inl rfl⟩
    · rw [List.mem_singleton.mp hd]
      exact counts_nil n
    · rw [hnone y hy] at hd
      cases hd
  · exact ⟨e, newest.finds inside (newest.meets few enough contains)⟩

/-- A clock whose stamp is newer than everything that the servers hold. -/
structure Ahead (servers : Set String) (n : Nat) (held : String → Option Data) (version : Version)
    (p : String) : Prop where
  counts : Counts n version
  newer : ∀ x ∈ servers, ∀ d, held x = some d → StrictlyBelow d.2 (updateVersion version p)

theorem Ahead.mono {n' : Nat} {version : Version} {p : String}
    (h : Ahead servers n held version p) (hn : n ≤ n') : Ahead servers n' held version p :=
  ⟨h.counts.mono hn, h.newer⟩

theorem Finds.ahead {found : List Data} (h : Finds servers n held history found d)
    (kept : Kept servers replicas n held history) (short : n < 2 ^ 64 - 1) (p : String) :
    Ahead servers n held d.2 p :=
  ⟨h.counts d h.mem, fun x hx d' hd' => strictlyBelow_stamp (h.counts d h.mem) short
    (kept.counts hx hd').distinct (h.above x hx d' hd') p⟩

/-- The merged clock of everything that was found. -/
theorem Finds.ahead_merged {found : List Data} (h : Finds servers n held history found d)
    (kept : Kept servers replicas n held history) (short : n < 2 ^ 64 - 1)
    {order : List String → List String} (perm : ∀ l, (order l).Perm l) (p : String) :
    Ahead servers n held (reconcileVersion order found) p := by
  have counts : Counts n (reconcileVersion order found) := by
    refine ⟨distinct_reconcileVersion perm found, fun ⟨name, k⟩ hk => ?_⟩
    obtain ⟨⟨d', hd', hk'⟩, _⟩ := (mem_reconcileVersion perm _ _ _).mp hk
    exact (h.counts d' hd').counter _ hk'
  exact ⟨counts, fun x hx d' hd' => strictlyBelow_stamp counts short
    (kept.counts hx hd').distinct
    ((h.above x hx d' hd').trans (below_reconcileVersion perm h.mem)) p⟩

section Writes

variable {version : Version} {p value : String}

theorem Ahead.takenOver (h : Ahead servers n held version p)
    (kept : Kept servers replicas n held history) {x : String} (hx : x ∈ servers) :
    TakenOver (value, updateVersion version p) (held x) := by
  cases hd : held x with
  | none => exact check_existing_nil _
  | some d =>
    exact check_of_strictlyBelow (distinct_updateVersion h.counts.distinct p)
      (kept.counts hx hd).distinct (h.newer x hx d hd)

variable (h : Ahead servers n held version p) (short : n < 2 ^ 64 - 1)
variable (written : ∀ x, held' x =
  if x ∈ quorum then some (value, updateVersion version p) else held x)

include h short written

/-- The stamped entry is the newest one, once a quorum with enough replicas holds it. -/
theorem Kept.write (kept : Kept servers replicas n held history) {alive : String → Bool}
    (enough : wCount ≤ (replicas.filter alive).length)
    (contains : ∀ x ∈ replicas, alive x = true → x ∈ quorum) :
    Kept servers replicas (n + 1) held' (value :: history) := by
  have stamped := h.counts.stamp short p
  have cases_held : ∀ x ∈ servers, ∀ d, held' x = some d →
      d = (value, updateVersion version p) ∨ held x = some d := by
    intro x _ d hd
    rw [written] at hd
    split at hd
    · exact Or.inl (Option.some.inj hd).symm
    · exact Or.inr hd
  refine Or.inr ⟨(value, updateVersion version p), rfl,
    ⟨stamped.distinct, updateVersion_ne_nil version p⟩, fun x hx d hd => ?_, fun x hx d hd => ?_,
    fun x hx d hd => ?_, enough.trans ?_⟩
  · rcases cases_held x hx d hd with rfl | hd
    · exact stamped
    · exact (kept.counts hx hd).mono (Nat.le_succ n)
  · rcases cases_held x hx d hd with rfl | hd
    · exact List.mem_cons_self
    · rcases kept with ⟨_, hnone⟩ | ⟨e, newest⟩
      · rw [hnone x hx] at hd
        cases hd
      · exact List.mem_cons_of_mem _ (newest.known x hx d hd)
  · exact (cases_held x hx d hd).imp_right fun hd => h.newer x hx d hd
  · rw [← List.countP_eq_length_filter, ← List.countP_eq_length_filter]
    refine List.countP_mono_left fun x hx halive => ?_
    rw [decide_eq_true_eq, written, if_pos (contains x hx halive)]

/-- The stamped clock, stamped by any server `q`, still gives newer stamps of `p`. -/
theorem Ahead.again (short' : n + 1 < 2 ^ 64 - 1) (q : String) :
    Ahead servers (n + 1) held' (updateVersion version q) p := by
  have again := strictlyBelow_stamp_again h.counts short' p q
  refine ⟨h.counts.stamp short q, fun x hx d hd => ?_⟩
  rw [written] at hd
  split at hd
  · cases hd
    exact again
  · exact (h.newer x hx d hd).trans again

end Writes

end Copies

end NewestEntry
