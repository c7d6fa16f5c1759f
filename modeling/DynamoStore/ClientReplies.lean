import DynamoStore.HandlerEffects
import DynamoStore.ReadResults
import DynamoStore.Stamps
import DynamoStore.ClusterStores

/-!
# What clients are given to read

Servers hand entries around while they join and leave, and a read may meet any of them half
way. Whatever the order, an answered get gives entries that were put for its key, each with
the version that this put was stamped with, and none that the verdict puts before another;
or the placeholder of a missing key, and then nothing else.
-/

namespace ClientReplies

open RpcPrograms RpcInterleaving GossipNode StateMachine HandlerEffects Effects ReadResults
open ClusterStores

variable (allowed : String → Request → Prop)

/-- A client may have put the value, and the server that the put came to stamped it so. -/
def PutBy (key : String) (data : Data) : Prop :=
  ∃ n value context, allowed n (.clientPut key (value, context)) ∧
    data = (value, updateVersion context n)

/-- An entry that was put, or what a missing key reads as. -/
def Written (key : String) (data : Data) : Prop := data = (noValue, []) ∨ PutBy allowed key data

/-- What an answered get gives. -/
structure Readable (key : String) (getResData : List Data) : Prop where
  some_entry : getResData ≠ []
  nodup : getResData.Nodup
  latest : ∀ data ∈ getResData, ∀ data' ∈ getResData, ¬ Earlier data.2 data'.2
  written : getResData = [(noValue, [])] ∨ ∀ data ∈ getResData, PutBy allowed key data

/-- The placeholder is earlier than every entry that was put, so it remains alone or not at
all. -/
theorem readable_of_written {allowed : String → Request → Prop} {key : String}
    {results : List Data} (nonempty : results ≠ [])
    (written : ∀ data ∈ results, Written allowed key data) :
    Readable allowed key (getLatestData results) := by
  have kept : ∀ data ∈ getLatestData results, data ∈ results := fun data h =>
    (mem_getLatestData_iff.mp h).1
  refine ⟨getLatestData_ne_nil nonempty, nodup_getLatestData results, ?_, ?_⟩
  · exact fun data h data' h' => (mem_getLatestData_iff.mp h).2 data' (kept data' h')
  by_cases missing : (noValue, []) ∈ getLatestData results
  · refine Or.inl ?_
    have alone : ∀ data ∈ getLatestData results, data = (noValue, []) := by
      intro data h
      refine (written data (kept data h)).resolve_right ?_
      rintro ⟨n, value, context, _, rfl⟩
      exact (mem_getLatestData_iff.mp missing).2 _ (kept _ h)
        (nil_earlier (updateVersion_ne_nil context n))
    have same := List.eq_replicate_of_mem alone
    have once := nodup_getLatestData results
    rw [same, List.nodup_replicate] at once
    rw [same, Nat.le_antisymm once (List.length_pos_of_mem missing), List.replicate_one]
  · refine Or.inr fun data h => (written data (kept data h)).resolve_left ?_
    rintro rfl
    exact missing h

/-- However requests are interleaved, servers join and leave, and messages are lost: a get
that is answered gives the latest entries among at least `R_COUNT` reads, each of them put
by a client for the key, or just the placeholder. -/
theorem get_replies_readable {allowed : String → Request → Prop} {hash : String → UInt64}
    (own : ∀ n key data, allowed n (.peerPut key data) → Written allowed key data)
    {state : String → GossipNode} (stores : ∀ n, StoresOnly (Written allowed) (state n))
    {ok : String → Request → Action → GossipNode → Prop}
    {c : Config String GossipNode Action Request Reply Int64}
    (hreach : Reach (apply hash) (serve hash) allowed ok (.start state) c)
    {n key coordinator : String} {getResData : List Data}
    (answered : (n, .clientGet key, .clientGet getResData coordinator) ∈ c.finished) :
    Readable allowed key getResData := by
  have issued : ∀ n q, allowed n q → BringsOnly (Written allowed) n q := by
    intro n q hallowed
    cases q with
    | clientPut key data => exact Or.inr ⟨n, data.1, data.2, hallowed, rfl⟩
    | peerPut key data => exact own n key data hallowed
    | _ => trivial
  have missing : ∀ key, Written allowed key (noValue, []) := fun _ => Or.inl rfl
  have within := (kept_entries missing ok).reach issued hreach (configWithin_start stores)
  obtain ⟨_, results, rfl, enough, found⟩ := within.finished _ answered
  refine readable_of_written (fun h => ?_) fun data hdata => ?_
  · rw [h] at enough
    exact absurd enough (by decide)
  · obtain ⟨_, holds⟩ := holds_of_found hash (fun _ => StoresOnly (Written allowed)) n
      (found data hdata)
    exact good_of_holds missing holds

section TwoNodes

/-- A client puts a value through node A, and another one reads it through B. -/
def putThenGet : List (String × Request) :=
  [("A", .clientPut "k" ("v", [])), ("B", .clientGet "k")]

theorem get_replies_readable_sample :
    Readable (fun n q => (n, q) ∈ putThenGet) "k" [("v", [("A", 1)])] := by
  obtain ⟨⟨w, replies⟩, hsession, hreply⟩ :
      ∃ x ∈ session (apply twoNodes) (serve twoNodes) (fun _ _ _ _ => True) calmEnv 2 putThenGet
        ⟨cluster twoNodes ["A", "B"], 0⟩,
        ("B", .clientGet "k", .clientGet [("v", [("A", 1)])] "A") ∈ x.2 := by
    decide +kernel
  have hreach := reach_of_session (fun n q => (n, q) ∈ putThenGet) calmEnv_reliable 2 putThenGet
    (fun _ h => h) [] [] hsession
  refine get_replies_readable (fun n key data h => ?_) (fun n key data h => ?_) hreach
    (List.mem_append_left _ hreply)
  · simp [putThenGet] at h
  · cases h

end TwoNodes

end ClientReplies
