import DynamoStore.StampAgreement
import DynamoStore.ReadResults
import DynamoStore.VersionIdentity

/-!
# What the client reports as a value

A replica answers for a key that it does not have with the text "__NO_VALUE_" and an empty
clock. The filter of the serving node drops such an answer only next to an entry, and the
client takes a single answer as it is. So the text stands for the absence of the key up to
the client, who looks for an empty text instead.
-/

namespace GetResults

open RpcPrograms RpcInterleaving GossipNode StateMachine KeyValueStoreClient
open ClusterStores HandlerRuns QuorumRuns CoordinatorChoice ReadFilter ReadResults
open VersionIdentity

variable {hash : String → UInt64} {env : Env String Int64} {depth : Nat} {self key : String}
variable {w w' : Net}

section Serving

/-- A call of `peerGet` that returns has read the key at the peer, or nothing. -/
theorem peerGet_reads {peerServer : String} {r : Option Data}
    (h : exec hash env depth self (peerGet peerServer key) w = some (w', r)) :
    w'.state = w.state ∧ ∀ data, r = some data → data = reads w.state key peerServer := by
  have served : ∀ {w₁ w₂ : Net} {r : Reply}, serveOn hash env depth peerServer (.peerGet key) w₁ =
      some (w₂, r) → w₂ = w₁ ∧ r = .peerGet (reads w₁.state key peerServer) := by
    intro w₁ w₂ r hserve
    cases depth with
    | zero => cases hserve
    | succ depth =>
      rw [serveOn_succ, serve, servePeerGet, exec_bind, exec_read, Option.bind_some,
        readData_eq_reads] at hserve
      cases hserve
      exact ⟨rfl, rfl⟩
  rw [peerGet, exec_bind, exec_read, Option.bind_some] at h
  split at h
  · rw [exec_bind, exec_send] at h
    obtain ⟨⟨w₁, r₁⟩, hcall, h⟩ := Option.bind_eq_some_iff.mp h
    rcases deliver_cases hcall with ⟨rfl, rfl⟩ | ⟨reply, hserve, hr⟩
    · cases h
      exact ⟨rfl, fun data hdata => by cases hdata⟩
    · obtain ⟨rfl, rfl⟩ := served hserve
      rcases hr with rfl | rfl
      · cases h
        exact ⟨rfl, fun data hdata => (Option.some.inj hdata).symm⟩
      · cases h
        exact ⟨rfl, fun data hdata => by cases hdata⟩
  · cases h

theorem reads_congr {state state' : String → GossipNode} (same : stored state' = stored state) :
    reads state' key = reads state key := by
  funext m
  rw [reads, reads, same]

/-- What the loop of a get has counted and collected at its end: the answers of some of the
servers. -/
def Collected (state : String → GossipNode) (key : String) (servers : List String)
    (successCnt : Nat) (results : List Data) (x : Nat × List Data) : Prop :=
  ∃ answered : List String, answered.Sublist servers ∧ x.1 = successCnt + answered.length ∧
    x.2 = results ++ answered.map (reads state key)

namespace Collected

variable {state : String → GossipNode} {servers : List String} {m : String}
variable {successCnt : Nat} {results : List Data} {x : Nat × List Data}

theorem congr {state' : String → GossipNode} (same : stored state' = stored state)
    (h : Collected state' key servers successCnt results x) :
    Collected state key servers successCnt results x := by
  rwa [Collected, reads_congr same] at h

theorem stop (servers : List String) :
    Collected state key servers successCnt results (successCnt, results) :=
  ⟨[], List.nil_sublist _, rfl, (List.append_nil _).symm⟩

theorem skip (h : Collected state key servers successCnt results x) :
    Collected state key (m :: servers) successCnt results x := by
  obtain ⟨answered, hservers, hcnt, hresults⟩ := h
  exact ⟨answered, hservers.cons m, hcnt, hresults⟩

theorem answer (h : Collected state key servers (successCnt + 1)
    (results ++ [reads state key m]) x) :
    Collected state key (m :: servers) successCnt results x := by
  obtain ⟨answered, hservers, hcnt, hresults⟩ := h
  refine ⟨m :: answered, hservers.cons_cons m, ?_, ?_⟩
  · rw [hcnt, List.length_cons, Nat.add_assoc, Nat.add_comm 1]
  · rw [hresults, List.append_assoc, List.map_cons, List.singleton_append]

end Collected

/-- Whatever gets lost on the way, the loop counts and collects what replicas store. -/
theorem clientGetLoop_collects (replicaServers : List String) (successCnt tryCnt : Nat)
    (results : List Data) {x : Nat × List Data}
    (h : exec hash env depth self (clientGetLoop self key replicaServers successCnt tryCnt results)
      w = some (w', x)) :
    stored w'.state = stored w.state ∧
      Collected w.state key replicaServers successCnt results x := by
  induction replicaServers generalizing w successCnt tryCnt results with
  | nil =>
    cases h
    exact ⟨rfl, .stop []⟩
  | cons m replicaServers ih =>
    -- the loop after the answer of `m`, in a world with the same stores
    have next : ∀ w₁ : Net, stored w₁.state = stored w.state →
        exec hash env depth self (if tryCnt + 1 = replicaN then
            return (successCnt + 1, results ++ [reads w.state key m])
          else clientGetLoop self key replicaServers (successCnt + 1) (tryCnt + 1)
            (results ++ [reads w.state key m])) w₁ = some (w', x) →
        stored w'.state = stored w.state ∧
          Collected w.state key (m :: replicaServers) successCnt results x := by
      intro w₁ same h₁
      split at h₁
      · cases h₁
        exact ⟨same, .answer (.stop replicaServers)⟩
      · obtain ⟨same', collected⟩ := ih _ _ _ h₁
        exact ⟨same'.trans same, (collected.congr same).answer⟩
    rw [clientGetLoop] at h
    by_cases hself : m = self
    · subst hself
      rw [if_pos rfl, exec_bind, exec_read, Option.bind_some] at h
      simp only [readData_eq_reads] at h
      exact next w rfl h
    · have same : stored (look hash self m w).state = stored w.state := stored_look m
      rw [if_neg hself, exec_bind, exec_look, Option.bind_some] at h
      by_cases hrecent : Recent env w.tick (w.state self) m
      · rw [decide_eq_true hrecent, if_pos rfl, exec_bind] at h
        obtain ⟨⟨w₁, r⟩, hget, h⟩ := Option.bind_eq_some_iff.mp h
        obtain ⟨hstate, hread⟩ := peerGet_reads hget
        have same₁ : stored w₁.state = stored w.state := by rw [hstate, same]
        cases r with
        | some data =>
          have hdata : data = reads w.state key m := by rw [hread data rfl, reads_congr same]
          subst hdata
          exact next w₁ same₁ h
        | none =>
          obtain ⟨same', collected⟩ := ih _ _ _ h
          exact ⟨same'.trans same₁, (collected.congr same₁).skip⟩
      · rw [decide_eq_false hrecent, if_neg Bool.false_ne_true] at h
        obtain ⟨same', collected⟩ := ih _ _ _ h
        exact ⟨same'.trans same, (collected.congr same).skip⟩

/-- A get that is answered with data has the latest of what `R_COUNT` replicas or more have
answered. -/
theorem serveClientGet_collects {getResData : List Data} {coordinator : String}
    (h : serveOn hash env depth self (.clientGet key) w =
      some (w', .clientGet getResData coordinator)) :
    ∃ answered : List String, answered.Sublist (candidates hash (w.state self).ring key) ∧
      rCount ≤ answered.length ∧ getResData = getLatestData (answered.map (reads w.state key)) := by
  cases depth with
  | zero => cases h
  | succ depth =>
    rw [serveOn_succ, serve, serveClientGet, exec_bind, exec_read, Option.bind_some,
      exec_bind] at h
    obtain ⟨⟨w₁, x⟩, hloop, h⟩ := Option.bind_eq_some_iff.mp h
    obtain ⟨_, answered, hservers, hcnt, hresults⟩ := clientGetLoop_collects _ 0 0 [] hloop
    rw [exec_bind] at h
    obtain ⟨⟨w₂, candidate⟩, _, h⟩ := Option.bind_eq_some_iff.mp h
    rw [Nat.zero_add] at hcnt
    split at h
    · rename_i henough
      cases h
      exact ⟨answered, hservers, hcnt ▸ henough, by rw [hresults, List.nil_append]⟩
    · cases h

end Serving

section Client

variable {client client' : KeyValueStoreClient} {attempts : Nat} {selections : List Int}
variable {result : String}

/-- The value that a read ends with is one of those that it was answered with. -/
theorem reconcile_takes {conflictVersions : List Data} (nonempty : conflictVersions ≠ [])
    (h : runBeside hash env depth (reconcile key attempts selections conflictVersions) client w =
      some (client', w', some result)) : ∃ d ∈ conflictVersions, d.1 = result := by
  unfold reconcile at h
  split at h
  · exact absurd rfl nonempty
  · rename_i d
    cases h
    exact ⟨d, List.mem_singleton_self d, rfl⟩
  · rw [runBeside_bind] at h
    obtain ⟨⟨client₁, w₁, servers⟩, _, h⟩ := Option.bind_eq_some_iff.mp h
    split at h
    · cases h
    · rename_i d hselected
      rw [runBeside_bind] at h
      obtain ⟨⟨client₂, w₂, _⟩, _, h⟩ := Option.bind_eq_some_iff.mp h
      rw [runBeside_bind] at h
      obtain ⟨⟨client₃, w₃, done⟩, _, h⟩ := Option.bind_eq_some_iff.mp h
      obtain ⟨selected, _, hd⟩ := List.exists_of_findSome?_eq_some hselected
      split at hd
      · cases done with
        | none => cases h
        | some done =>
          cases h
          exact ⟨d, List.mem_of_getElem? hd, rfl⟩
      · cases hd

/-- A successful `Get` was answered by the assigned coordinator. -/
theorem get_answered (h : runBeside hash env depth
      (KeyValueStoreClient.get key attempts selections) client w =
        some (client', w', some (.success result))) :
    ∃ w₁ getResData coordinator, serveOn hash env depth client.assignedCoordinator
        (.clientGet key) w.next = some (w₁, .clientGet getResData coordinator) ∧
      ∃ client₂ w₂, runBeside hash env depth (reconcile key attempts selections getResData)
        client₂ w₂ = some (client', w', some result) := by
  rw [KeyValueStoreClient.get, runBeside_bind, runBeside_read, Option.bind_some] at h
  split at h
  · rw [runBeside_bind, runBeside_send] at h
    obtain ⟨⟨client₁, w₁, r⟩, hsend, h⟩ := Option.bind_eq_some_iff.mp h
    obtain ⟨⟨w₂, r₂⟩, hdeliver, heq⟩ := Option.map_eq_some_iff.mp hsend
    cases heq
    split at h
    · rename_i getResData coordinator hanswer
      cases hanswer
      rw [runBeside_bind] at h
      obtain ⟨⟨client₂, w₂, _⟩, _, h⟩ := Option.bind_eq_some_iff.mp h
      rw [runBeside_bind] at h
      obtain ⟨⟨client₃, w₃, chosen⟩, hreconcile, h⟩ := Option.bind_eq_some_iff.mp h
      cases chosen with
      | none => cases h
      | some chosen =>
        cases h
        exact ⟨_, getResData, coordinator, serveOn_of_deliver hdeliver, client₂, w₂, hreconcile⟩
    · cases h
  · cases h

end Client

/-- Some put of the run has written the value under the key. -/
def Written (issued : List (String × Request)) (key value : String) : Prop :=
  ∃ p context, (p, .clientPut key (value, context)) ∈ issued

theorem Written.of_stamped {issued : List (String × Request)} {d : Data}
    (h : Stamped issued key d) : Written issued key d.1 := by
  obtain ⟨p, context, hmem, _⟩ := h
  exact ⟨p, context, hmem⟩

/-- What a result may be: empty if no replica that was contacted has the key, or a value
that was written. -/
def Reports (issued : List (String × Request)) (state : String → GossipNode) (key : String)
    (contacted : List String) (result : String) : Prop :=
  (result = "" ∧ ∀ m ∈ contacted, stored state m key = none) ∨ Written issued key result

section Filter

variable {state : String → GossipNode} {answered : List String}

/-- Next to an answer with a clock only entries remain. -/
theorem stored_of_kept {m : String} {e d : Data} (hm : m ∈ answered)
    (he : stored state m key = some e) (clock : e.2 ≠ [])
    (hd : d ∈ getLatestData (answered.map (reads state key))) :
    ∃ m' ∈ answered, stored state m' key = some d := by
  obtain ⟨hmem, latest⟩ := mem_getLatestData_iff.mp hd
  obtain ⟨m', hm', rfl⟩ := List.mem_map.mp hmem
  refine ⟨m', hm', ?_⟩
  cases hstored : stored state m' key with
  | some d => rw [reads, hstored, Option.getD_some]
  | none =>
    -- the placeholder is earlier than the entry
    have heread : reads state key m = e := by rw [reads, he, Option.getD_some]
    have hnil : (reads state key m').2 = [] := by rw [reads, hstored, Option.getD_none]
    refine absurd (nil_earlier clock) ?_
    rw [← hnil, ← heread]
    exact latest _ (List.mem_map_of_mem hm)

/-- Without any entry the placeholder is all that remains. -/
theorem kept_of_no_entry (nonempty : answered ≠ [])
    (h : ∀ m ∈ answered, stored state m key = none) :
    getLatestData (answered.map (reads state key)) = [(noValue, [])] := by
  refine getLatestData_of_all_eq (by simpa using nonempty) fun e he => ?_
  obtain ⟨m, hm, rfl⟩ := List.mem_map.mp he
  rw [reads, h m hm, Option.getD_none]

end Filter

/-- In every state that puts have led to, a `Get` that succeeds reports what was written or
the absence of the key, exactly if one of the replicas whose answers are filtered has the
key, or someone has written the text of the placeholder under it. It does not matter which
replicas were contacted without an answer. -/
theorem get_reports_iff {state : String → GossipNode}
    (empty : ∀ n, (state n).stateMachine = .empty)
    {c : Config String GossipNode Action Request Reply Int64}
    (hreach : Reach (apply hash) (serve hash) ClientRequests (fun _ _ _ _ => True)
      (.start state) c) (hw : w.state = c.shared.state)
    {client client' : KeyValueStoreClient} {attempts : Nat} {selections : List Int}
    {result : String} (h : runBeside hash env depth
      (KeyValueStoreClient.get key attempts selections) client w =
        some (client', w', some (.success result))) :
    ∃ answered : List String,
      answered.Sublist (candidates hash (c.shared.state client.assignedCoordinator).ring key) ∧
      rCount ≤ answered.length ∧
      (∃ w₁ coordinator, serveOn hash env depth client.assignedCoordinator (.clientGet key) w.next =
        some (w₁, .clientGet (getLatestData (answered.map (reads c.shared.state key)))
          coordinator)) ∧
      ∀ contacted, answered ⊆ contacted →
        (Reports c.shared.issued c.shared.state key contacted result ↔
          (∃ m ∈ answered, ∃ e, stored c.shared.state m key = some e) ∨
            Written c.shared.issued key noValue) := by
  have start : contract.inv ⟨state, []⟩ := by
    intro m key e he
    simp [stored, empty m] at he
  have stamped := ((configOk_start start).reach verified hreach).1.inv
  obtain ⟨w₁, getResData, coordinator, hserve, client₂, w₂, hreconcile⟩ := get_answered h
  obtain ⟨answered, hservers, henough, hdata⟩ := serveClientGet_collects hserve
  rw [World.next_state, hw] at hservers hdata
  have hne : answered ≠ [] := by
    rintro rfl
    exact absurd henough (by decide)
  have nonempty : getResData ≠ [] := by
    rw [hdata]
    exact getLatestData_ne_nil (by simpa using hne)
  obtain ⟨d, hd, rfl⟩ := reconcile_takes nonempty hreconcile
  refine ⟨answered, hservers, henough, ⟨w₁, coordinator, hdata ▸ hserve⟩, fun contacted _ => ?_⟩
  by_cases hentry : ∃ m ∈ answered, ∃ e, stored c.shared.state m key = some e
  · refine iff_of_true (Or.inr ?_) (Or.inl hentry)
    obtain ⟨m, hm, e, he⟩ := hentry
    have clock : e.2 ≠ [] := by
      intro hnil
      obtain ⟨p, context, _, hclock⟩ := stamped m key e he
      exact updateVersion_ne_nil context p (hclock.symm.trans hnil)
    rw [hdata] at hd
    obtain ⟨m', _, hd⟩ := stored_of_kept hm he clock hd
    exact Written.of_stamped (stamped m' key d hd)
  · have hnone : ∀ m ∈ answered, stored c.shared.state m key = none := by
      intro m hm
      by_contra hsome
      exact hentry ⟨m, hm, Option.ne_none_iff_exists'.mp hsome⟩
    rw [hdata, kept_of_no_entry hne hnone, List.mem_singleton] at hd
    rw [or_iff_right hentry, hd, Reports, or_iff_right]
    exact fun hempty => absurd hempty.1 (by decide)

section Samples

/-- A client of a cluster of three nodes, assigned to node A. -/
def clientOfA : KeyValueStoreClient := init (some "A\nB\nC\n".toList) "A"

theorem get_reports_sample :
    ∃ c : Config String GossipNode Action Request Reply Int64,
      Reach (apply fourNodes) (serve fourNodes) ClientRequests (fun _ _ _ _ => True)
        (.start (cluster fourNodes ["A", "B", "C"])) c ∧
      Reports c.shared.issued c.shared.state "k" ["A", "B", "C"] "v" := by
  obtain ⟨⟨w, finished⟩, hsession, ⟨client', w', done⟩, hget, hdone, hcluster, hstored⟩ :
      ∃ x ∈ session (apply fourNodes) (serve fourNodes) (fun _ _ _ _ => True) calmEnv 2
        [("A", .clientPut "k" ("v", []))] ⟨cluster fourNodes ["A", "B", "C"], 0⟩,
        ∃ y ∈ runBeside fourNodes calmEnv 2 (KeyValueStoreClient.get "k" 1 []) clientOfA x.1,
          y.2.2 = some (.success "v") ∧
          (∀ m ∈ candidates fourNodes (x.1.state "A").ring "k", m ∈ ["A", "B", "C"]) ∧
          ∀ m ∈ candidates fourNodes (x.1.state "A").ring "k",
            stored x.1.state m "k" = some ("v", [("A", 1)]) := by
    decide +kernel
  subst hdone
  have hreach := reach_of_session ClientRequests calmEnv_reliable 2 _
    (by simp [ClientRequests]) [] [] hsession
  obtain ⟨answered, hservers, henough, _, hiff⟩ :=
    get_reports_iff (fun _ => rfl) hreach rfl hget
  refine ⟨_, hreach, (hiff ["A", "B", "C"] fun m hm => ?_).mpr (Or.inl ?_)⟩
  · exact hcluster m (hservers.subset hm)
  · obtain ⟨m, hm⟩ := List.exists_mem_of_length_pos (Nat.lt_of_lt_of_le (by decide) henough)
    exact ⟨m, hm, _, hstored m (hservers.subset hm)⟩

/-- Nobody has put anything, and the client reports the text of the placeholder. -/
theorem absent_key_is_reported :
    ∃ c : Config String GossipNode Action Request Reply Int64,
      Reach (apply fourNodes) (serve fourNodes) ClientRequests (fun _ _ _ _ => True)
        (.start (cluster fourNodes ["A", "B", "C"])) c ∧
      ∃ client' w', runBeside fourNodes calmEnv 2 (KeyValueStoreClient.get "k" 1 []) clientOfA
          ⟨c.shared.state, 0⟩ = some (client', w', some (.success "__NO_VALUE_")) ∧
        (∀ m, stored c.shared.state m "k" = none) ∧
        ∀ contacted,
          ¬ Reports c.shared.issued c.shared.state "k" contacted "__NO_VALUE_" := by
  obtain ⟨⟨client', w', done⟩, hget, hdone⟩ :
      ∃ y ∈ runBeside fourNodes calmEnv 2 (KeyValueStoreClient.get "k" 1 []) clientOfA
        ⟨cluster fourNodes ["A", "B", "C"], 0⟩, y.2.2 = some (.success "__NO_VALUE_") := by
    decide +kernel
  subst hdone
  refine ⟨_, .refl, client', w', hget, fun m => rfl, ?_⟩
  rintro contacted (⟨hempty, _⟩ | ⟨p, context, hmem⟩)
  · exact absurd hempty (by decide)
  · exact absurd hmem List.not_mem_nil

end Samples

end GetResults
