import DynamoStore.Lib.SharperContracts
import DynamoStore.AcknowledgedWrites
import DynamoStore.KeyIsolation
import DynamoStore.MissingStubs
import DynamoStore.ReadResults

/-!
# Reads beside writes

Gets and puts overlap. A get may ask the replicas while puts of the same key write them one by
one, so what it returns depends on when it came: a get that comes after a put was acknowledged
asks some node that was counted for it, if there are no more servers than two quorums touch. A
get that was open then may miss the put. The nodes that were counted are also why the put is not
lost with fewer servers than that.
-/

namespace ConcurrentReads

open RpcPrograms RpcInterleaving GossipNode StateMachine VectorClocks ConflictVerdict
open RingOwners ClusterStores HandlerContracts SharperContracts KeyIsolation MissingStubs
open AcknowledgedWrites (ClientTraffic CoordinatorAhead)
open CallRanks (outermost)
open Contract (Safe Stable)

/-- The node stores the entry or one that covers it. -/
def CoveredAt (state : String → GossipNode) (key : String) (d : Data) (n : String) : Prop :=
  ∃ e, stored state n key = some e ∧ Covers d e

/-- A reply takes an entry into account: it has one that covers it, or one that the verdict
puts after such an entry. -/
def Reflects (d : Data) (getResData : List Data) : Prop :=
  ∃ e, Covers d e ∧
    (e ∈ getResData ∨ ∃ e' ∈ getResData, checkConflictVersion e.2 e'.2 < 0)

section Tallies

/-- As many of the servers as were counted are good, and none of those that are left was
counted. -/
def Tally (servers left : List String) (good : String → Prop) (cnt : Nat) : Prop :=
  ∃ counted : List String, counted.Nodup ∧ counted.length = cnt ∧
    ∀ m ∈ counted, m ∈ servers ∧ m ∉ left ∧ good m

variable {servers left : List String} {good good' : String → Prop} {cnt cnt' : Nat} {m : String}

namespace Tally

theorem zero : Tally servers left good 0 := ⟨[], List.nodup_nil, rfl, by simp⟩

theorem mono (h : Tally servers left good cnt) (himp : ∀ m, good m → good' m) :
    Tally servers left good' cnt := by
  obtain ⟨counted, nodup, hlength, hcounted⟩ := h
  refine ⟨counted, nodup, hlength, fun m hm => ?_⟩
  obtain ⟨hserver, hleft, hgood⟩ := hcounted m hm
  exact ⟨hserver, hleft, himp m hgood⟩

theorem skip (h : Tally servers (m :: left) good cnt) : Tally servers left good cnt := by
  obtain ⟨counted, nodup, hlength, hcounted⟩ := h
  refine ⟨counted, nodup, hlength, fun m' hm' => ?_⟩
  obtain ⟨hserver, hleft, hgood⟩ := hcounted m' hm'
  exact ⟨hserver, fun h => hleft (List.mem_cons_of_mem m h), hgood⟩

theorem count (h : Tally servers (m :: left) good cnt) (hserver : m ∈ servers) (hleft : m ∉ left)
    (hgood : good m) : Tally servers left good (cnt + 1) := by
  obtain ⟨counted, nodup, hlength, hcounted⟩ := h
  have hnew : m ∉ counted := fun h => (hcounted m h).2.1 List.mem_cons_self
  refine ⟨m :: counted, List.nodup_cons.mpr ⟨hnew, nodup⟩, by rw [List.length_cons, hlength], ?_⟩
  refine List.forall_mem_cons.mpr ⟨⟨hserver, hleft, hgood⟩, fun m' hm' => ?_⟩
  obtain ⟨hserver', hleft', hgood'⟩ := hcounted m' hm'
  exact ⟨hserver', fun h => hleft' (List.mem_cons_of_mem m h), hgood'⟩

/-- Two tallies that are together larger than the cluster have a server in common. -/
theorem meet {left' : List String} (h : Tally servers left good cnt)
    (h' : Tally servers left' good' cnt') (hlarge : servers.length < cnt + cnt') :
    ∃ m, good m ∧ good' m := by
  obtain ⟨counted, nodup, hlength, hcounted⟩ := h
  obtain ⟨counted', nodup', hlength', hcounted'⟩ := h'
  by_contra hnone
  push Not at hnone
  have apart : counted.Disjoint counted' := fun m hm hm' =>
    hnone m (hcounted m hm).2.2 (hcounted' m hm').2.2
  have inside : ∀ m ∈ counted ++ counted', m ∈ servers := by
    rw [List.forall_mem_append]
    exact ⟨fun m hm => (hcounted m hm).1, fun m hm => (hcounted' m hm).1⟩
  have hle := ((nodup.append nodup' apart).subperm inside).length_le
  rw [List.length_append] at hle
  omega

/-- Fewer servers than were counted do not have all of them among them. -/
theorem outside (h : Tally servers left good cnt) {lost : List String}
    (few : lost.length < cnt) : ∃ m ∈ servers, m ∉ lost ∧ good m := by
  obtain ⟨counted, nodup, hlength, hcounted⟩ := h
  by_contra hnone
  push Not at hnone
  have inside : ∀ m ∈ counted, m ∈ lost := by
    intro m hm
    by_contra hlost
    exact hnone m (hcounted m hm).1 hlost (hcounted m hm).2.2
  have hle := (nodup.subperm inside).length_le
  omega

end Tally

end Tallies

variable (servers : List String)

/-- What nodes store is only covered; an acknowledged put is on `W_COUNT` of the servers. -/
def contract : Contract String GossipNode Request Reply where
  inv s := DistinctClocks s.state
  evolves s s' := ∀ key d m, CoveredAt s.state key d m → CoveredAt s'.state key d m
  pre := AcknowledgedWrites.contract.pre
  post n q r s := match q with
    | .clientPut key data => ∀ coordinator, r = .clientPut .ok coordinator →
        ∃ cnt, wCount ≤ cnt ∧
          Tally servers [] (CoveredAt s.state key (data.1, updateVersion data.2 n)) cnt
    | .peerPut key data => r = .peerPut false → CoveredAt s.state key data n
    | _ => True
  refl _ _ _ _ h := h
  trans h h' key d m covered := h' key d m (h key d m covered)
  pre_stable _ h := h
  post_stable {n q r s s'} hevo h := by
    cases q with
    | clientPut key data =>
      intro coordinator hr
      obtain ⟨cnt, enough, tally⟩ := h coordinator hr
      exact ⟨cnt, enough, tally.mono (hevo key _)⟩
    | peerPut key data => exact fun hr => hevo _ _ _ (h hr)
    | _ => trivial

variable {servers} {hash : String → UInt64}

theorem indifferent (n : String) : Indifferent hash (contract servers) n := by
  intro s a quiet hinv
  have same : stored (s.modify n (apply hash a)).state = stored s.state :=
    stored_of_quiet s n quiet
  refine ⟨fun m key e he => hinv m key e ?_, fun key d m h => ?_⟩
  · rw [← same]
    exact he
  · unfold CoveredAt
    rw [same]
    exact h

section Puts

variable {self key value : String} {version : Version} {s : Cluster}

/-- A covering write keeps the contract. -/
theorem put_keeps (hinv : DistinctClocks s.state) (hversion : Distinct version)
    (yields : ∀ e, stored s.state self key = some e → Covers e (value, version)) :
    DistinctClocks (s.modify self (apply hash (.put key value version))).state ∧
      (contract servers).evolves s (s.modify self (apply hash (.put key value version))) ∧
      CoveredAt (s.modify self (apply hash (.put key value version))).state key (value, version)
        self := by
  have hput := @stored_put hash s.state self key value version
  refine ⟨distinctClocks_put hinv hversion, fun key' d m ⟨e, he, hcovers⟩ => ?_,
    (value, version), (hput self key).trans (if_pos ⟨rfl, rfl⟩), Covers.refl _⟩
  by_cases hwritten : m = self ∧ key' = key
  · obtain ⟨rfl, rfl⟩ := hwritten
    exact ⟨(value, version), (hput m key').trans (if_pos ⟨rfl, rfl⟩), hcovers.trans (yields e he)⟩
  · exact ⟨e, (hput m key').trans ((if_neg hwritten).trans he), hcovers⟩

theorem own_put_keeps {data : Data} (hversion : Distinct version) (hne : version ≠ [])
    (hinv : DistinctClocks s.state)
    (ahead : CoordinatorAhead self (.clientPut key data) (.put key value version) (s.state self)) :
    DistinctClocks (s.modify self (apply hash (.put key value version))).state ∧
      (contract servers).evolves s (s.modify self (apply hash (.put key value version))) ∧
      CoveredAt (s.modify self (apply hash (.put key value version))).state key (value, version)
        self :=
  put_keeps hinv hversion fun _ he =>
    covers_of_judged (hinv self key) hversion hne ahead he

theorem tally_stable (left : List String) (d : Data) (cnt : Nat) :
    (contract servers).Stable fun s => Tally servers left (CoveredAt s.state key d) cnt :=
  fun hevo h => h.mono (hevo key d)

/-- Each success that the loop counts is another server that stores the version. -/
theorem clientPutLoop_tallies {data : Data} (hversion : Distinct version) (hne : version ≠ [])
    {replicaServers : List String} (nodup : replicaServers.Nodup)
    (inside : ∀ m ∈ replicaServers, m ∈ servers) (successCnt tryCnt : Nat) :
    Safe (contract servers) (apply hash) (CoordinatorAhead self (.clientPut key data)) self
      (fun s => Tally servers replicaServers (CoveredAt s.state key (value, version)) successCnt)
      (clientPutLoop self key value version replicaServers successCnt tryCnt)
      fun cnt s => Tally servers [] (CoveredAt s.state key (value, version)) cnt := by
  have finish : ∀ (left : List String) (cnt : Nat),
      Safe (contract servers) (apply hash) (CoordinatorAhead self (.clientPut key data)) self
        (fun s => Tally servers left (CoveredAt s.state key (value, version)) cnt)
        (.ret cnt : Handler Nat)
        fun cnt s => Tally servers [] (CoveredAt s.state key (value, version)) cnt := by
    refine fun left cnt => Safe.ret fun s h => ?_
    obtain ⟨counted, nodup, hlength, hcounted⟩ := h
    exact ⟨counted, nodup, hlength, fun m hm => ⟨(hcounted m hm).1, by simp, (hcounted m hm).2.2⟩⟩
  induction replicaServers generalizing successCnt tryCnt with
  | nil => exact finish [] successCnt
  | cons peerServer replicaServers ih =>
    obtain ⟨hpeer, nodup⟩ := List.nodup_cons.mp nodup
    obtain ⟨hserver, inside⟩ := List.forall_mem_cons.mp inside
    have ih := ih nodup inside
    rw [clientPutLoop]
    split
    · rename_i hself
      refine Safe.bind (Φ := fun _ s => Tally servers replicaServers
        (CoveredAt s.state key (value, version)) (successCnt + 1))
        (Safe.perform fun s hinv hP hok => ?_) fun _ => ?_
      · obtain ⟨hinv', hevo, hcovered⟩ := own_put_keeps hversion hne hinv hok
        have hP' := tally_stable _ _ _ hevo hP
        exact ⟨hinv', hevo, hP'.count hserver hpeer (hself ▸ hcovered)⟩
      · split
        · exact finish _ _
        · exact ih _ _
    · refine Safe.bind (recentHeartbeat_safe (indifferent self) (tally_stable _ _ _) peerServer)
        fun recent => ?_
      split
      · refine Safe.bind (Safe.keep (tally_stable _ _ _) (fun _ h => h)
          (peerPut_safe fun _ _ _ _ => ⟨hversion, hne⟩)) fun res => ?_
        by_cases hres : res = 0
        · rw [if_pos hres]
          have counted : ∀ s : Cluster,
              Tally servers (peerServer :: replicaServers) (CoveredAt s.state key (value, version))
                successCnt ∧ (res = 0 → (contract servers).post peerServer
                  (.peerPut key (value, version)) (.peerPut false) s) →
              Tally servers replicaServers (CoveredAt s.state key (value, version))
                (successCnt + 1) :=
            fun s h => h.1.count hserver hpeer (h.2 hres rfl)
          split
          · exact (finish _ _).strengthen counted
          · exact (ih _ _).strengthen counted
        · rw [if_neg hres]
          exact (ih _ _).strengthen fun s h => h.1.skip
      · exact (ih _ _).strengthen fun s h => h.skip

/-- The servers that the node has on its ring. -/
def RingAmong (servers : List String) (node : GossipNode) : Prop :=
  ∀ id, OwnsPosition node id → id ∈ servers

theorem RingAmong.replicas {node : GossipNode} (h : RingAmong servers node) (key : String) :
    ∀ m ∈ node.ring.getReplicasNodes hash key (2 * replicaN : Nat), m ∈ servers := by
  intro m hm
  rw [getReplicasNodes_eq] at hm
  exact h m (mem_owners.mp (List.mem_of_mem_take hm))

theorem serveClientPut_tallies {data : Data} (hdistinct : Distinct data.2) :
    Safe (contract servers) (apply hash) (CoordinatorAhead self (.clientPut key data)) self
      (fun s => RingAmong servers (s.state self)) (serveClientPut hash self key data)
      fun r s => (contract servers).post self (.clientPut key data) r s := by
  have hversion := distinct_updateVersion hdistinct self
  refine Safe.bind Safe.read fun node => ?_
  refine Safe.assume (∀ m ∈ node.ring.getReplicasNodes hash key (2 * replicaN : Nat), m ∈ servers)
    (fun s _ h => h.2 ▸ h.1.replicas key) fun inside => ?_
  refine Safe.bind ((assignedCoordinator_safe (indifferent self) (P := fun _ => True)
    (fun _ h => h) _).strengthen fun _ _ => trivial) fun coordinator => ?_
  split
  · exact Safe.ret fun s _ c hc => by simp at hc
  · refine Safe.bind ((clientPutLoop_tallies hversion (updateVersion_ne_nil _ _)
      (nodup_getReplicasNodes _) inside 0 0).strengthen fun s _ => Tally.zero) fun successCnt => ?_
    refine Safe.ret fun s tally c hc => ⟨successCnt, ?_, tally⟩
    by_contra hcnt
    simp [hcnt] at hc

end Puts

section Bodies

variable {n : String} {q : Request} {s : Cluster}

/-- The requests of clients, nodes and main loops, on rings that stay. -/
abbrev steady (hash : String → UInt64) (servers : List String) :
    Effects.Table String GossipNode Action Request Reply :=
  HandlerEffects.table hash (fun _ q => ¬ MovesMembers q) (fun _ => RingAmong servers) True

theorem kept_steady (ok : String → Request → Action → GossipNode → Prop) :
    Effects.Kept (steady hash servers) (apply hash) (serve hash) ok :=
  HandlerEffects.kept_table (fun _ _ _ _ _ _ => Or.inl trivial)
    (fun _ _ _ _ other hsends moves => other (movesMembers_of_sends hsends moves))
    fun _ _ _ node other does _ names id ⟨p, hp⟩ => by
      rw [(members_of_does hash node other does).1] at hp
      exact names id ⟨p, hp⟩

theorem steady_of_clientTraffic (traffic : ClientTraffic n q) : ¬ MovesMembers q := by
  cases q with
  | joinNetwork _ | leaveNetwork _ | adminCmd _ _ => exact False.elim traffic
  | _ => exact id

theorem body (hinv : (contract servers).inv s) (hpre : (contract servers).pre n q s)
    (other : ¬ MovesMembers q) (names : RingAmong servers (s.state n)) :
    (contract servers).wp (apply hash) (CoordinatorAhead n q) n (serve hash n q)
      ((contract servers).post n q) s := by
  cases q with
  | clientPut key data =>
    exact Contract.wp_mono _ (fun _ _ h => h.2.2) (serveClientPut_tallies hpre s hinv names)
  | peerPut key data =>
    refine Safe.body (servePeerPut_safe ?_ ?_) hinv hpre
    · intro s hinv hP hcheck
      obtain ⟨hdistinct, hevo, hcovered⟩ := put_keeps hinv hP.1
        fun e he => covers_of_check (hinv n key) hP.1 hP.2 hcheck he
      exact ⟨hdistinct, hevo, fun _ => hcovered⟩
    · intro s _ hr
      cases hr
  | clientGet _ | peerGet _ | gossip _ | mainLoopTurn =>
    refine Safe.body ?_ hinv hpre
    refine Safe.weaken (putsNothing_safe (indifferent n) (contract servers).pre_stable trivial ?_)
      fun _ _ _ => trivial
    exact fun s m q' quiet _ _ _ => AcknowledgedWrites.pre_of_putsNothing quiet m s
  | joinNetwork _ | leaveNetwork _ | adminCmd _ _ => exact False.elim hpre

theorem verified : Verified (inside (contract servers) (steady hash servers)) (apply hash)
    (serve hash) ClientTraffic CoordinatorAhead := by
  refine verified_inside (kept_steady _) (fun _ _ => steady_of_clientTraffic) ?_
    fun s n q => body
  intro s n q hinv traffic
  refine ⟨hinv, fun _ _ _ h => h, ?_⟩
  cases q <;> first | exact traffic | exact False.elim traffic

end Bodies

section Gets

variable (key : String) (d : Data) (counted : List String)

/-- What replies about the key say, where the counted nodes have the entry covered. -/
def Shows (n : String) : Request → Reply → Prop
  | .peerGet key', .peerGet data => key' = key → n ∈ counted → Covers d data
  | .clientGet key', .clientGet getResData _ => key' = key → Reflects d getResData
  | _, _ => True

/-- The counted nodes have the entry covered. -/
def AllCovered (s : Cluster) : Prop := ∀ m ∈ counted, CoveredAt s.state key d m

variable (servers) in
abbrev covered : Contract String GossipNode Request Reply :=
  since (contract servers) (AllCovered key d counted) (Shows key d counted)

variable {key d counted} {n self : String} {q : Request} {s : Cluster}
variable {ok : Action → GossipNode → Prop}

theorem allCovered_stable : (contract servers).Stable (AllCovered key d counted) :=
  fun hevo h m hm => hevo key d m (h m hm)

theorem indifferent_covered : Indifferent hash (covered servers key d counted) n := by
  intro s a quiet hinv
  obtain ⟨hinv', hevo⟩ := indifferent n s a quiet hinv.1
  exact ⟨⟨hinv', allCovered_stable hevo hinv.2⟩, hevo⟩

/-- A node that has the entry covered reads a covering one. -/
theorem covers_readData (h : CoveredAt s.state key d n) :
    Covers d ((s.state n).stateMachine.readData key) := by
  obtain ⟨e, he, hcovers⟩ := h
  rwa [readData, getValue_of_entry he, getVersion_of_entry he]

theorem peerGet_shows (peerServer : String) :
    Safe (covered servers key d counted) (apply hash) ok self (fun _ => True)
      (peerGet peerServer key)
      fun r _ => ∀ data, r = some data → peerServer ∈ counted → Covers d data := by
  refine Safe.bind Safe.read fun node => ?_
  split
  · refine Safe.bind (Safe.send fun _ _ _ => trivial) fun r => ?_
    split
    · rename_i data
      refine Safe.ret fun s hpost data' heq hcounted => ?_
      cases heq
      exact (hpost (.peerGet data) rfl).2 rfl hcounted
    · exact Safe.ret fun _ _ data hr => by cases hr
  · exact Safe.crash

/-- Each success that the loop counts is another server, whose entry is among the results. -/
theorem clientGetLoop_tallies {replicaServers : List String} (nodup : replicaServers.Nodup)
    (inside : ∀ m ∈ replicaServers, m ∈ servers) (successCnt tryCnt : Nat) (results : List Data)
    (tally : Tally servers replicaServers (fun m => m ∈ counted → ∃ e ∈ results, Covers d e)
      successCnt) :
    Safe (covered servers key d counted) (apply hash) ok self (fun _ => True)
      (clientGetLoop self key replicaServers successCnt tryCnt results)
      fun found _ => ∃ left, Tally servers left
        (fun m => m ∈ counted → ∃ e ∈ found.2, Covers d e) found.1 := by
  induction replicaServers generalizing successCnt tryCnt results with
  | nil => exact Safe.ret fun _ _ => ⟨[], tally⟩
  | cons peerServer replicaServers ih =>
    obtain ⟨hpeer, nodup⟩ := List.nodup_cons.mp nodup
    obtain ⟨hserver, inside⟩ := List.forall_mem_cons.mp inside
    have ih := ih nodup inside
    have counts : ∀ data : Data, (peerServer ∈ counted → Covers d data) →
        Tally servers replicaServers (fun m => m ∈ counted → ∃ e ∈ results ++ [data], Covers d e)
          (successCnt + 1) := by
      intro data hdata
      refine (tally.mono fun m hm hmem => ?_).count hserver hpeer fun hmem =>
        ⟨data, by simp, hdata hmem⟩
      obtain ⟨e, he, hcovers⟩ := hm hmem
      exact ⟨e, List.mem_append_left _ he, hcovers⟩
    rw [clientGetLoop]
    split
    · rename_i hself
      refine Safe.bind Safe.read fun node => ?_
      refine Safe.assume (peerServer ∈ counted → Covers d (node.stateMachine.readData key))
        (fun s hinv h hmem => ?_) fun hdata => ?_
      · rw [h.2, ← hself]
        exact covers_readData (hinv.2 peerServer hmem)
      · split
        · exact Safe.ret fun _ _ => ⟨_, counts _ hdata⟩
        · exact (ih _ _ _ (counts _ hdata)).strengthen fun _ _ => trivial
    · refine Safe.bind (recentHeartbeat_safe indifferent_covered (fun _ h => h) peerServer)
        fun recent => ?_
      split
      · refine Safe.bind (peerGet_shows peerServer) fun r => ?_
        split
        · rename_i data
          refine Safe.assume (peerServer ∈ counted → Covers d data)
            (fun s _ h => h data rfl) fun hdata => ?_
          split
          · exact Safe.ret fun _ _ => ⟨_, counts _ hdata⟩
          · exact (ih _ _ _ (counts _ hdata)).strengthen fun _ _ => trivial
        · exact (ih _ _ _ tally.skip).strengthen fun _ _ => trivial
      · exact ih _ _ _ tally.skip

/-- What the filter drops, it drops for a later entry. -/
theorem reflects_getLatestData {results : List Data} {e : Data} (he : e ∈ results)
    (hcovers : Covers d e) : Reflects d (getLatestData results) := by
  refine ⟨e, hcovers, ?_⟩
  by_cases hkept : e ∈ getLatestData results
  · exact Or.inl hkept
  · exact Or.inr (ReadResults.exists_kept he hkept)

variable (few : servers.length < wCount + rCount)
variable (hcounted : ∃ cnt, wCount ≤ cnt ∧ Tally servers [] (· ∈ counted) cnt)

include few hcounted

/-- The servers that answer a get and those that were counted for the put meet. -/
theorem serveClientGet_reflects :
    Safe (covered servers key d counted) (apply hash) ok self
      (fun s => RingAmong servers (s.state self)) (serveClientGet hash self key)
      fun r _ => ∀ getResData coordinator, r = .clientGet getResData coordinator →
        Reflects d getResData := by
  refine Safe.bind Safe.read fun node => ?_
  refine Safe.assume (∀ m ∈ node.ring.getReplicasNodes hash key (2 * replicaN : Nat), m ∈ servers)
    (fun s _ h => h.2 ▸ h.1.replicas key) fun inside => ?_
  refine Safe.bind ((clientGetLoop_tallies (nodup_getReplicasNodes _) inside 0 0 []
    Tally.zero).strengthen fun _ _ => trivial) fun found => ?_
  refine Safe.assume _ (fun _ _ h => h) fun tally => ?_
  refine Safe.bind ((assignedCoordinator_safe indifferent_covered (P := fun _ => True)
    (fun _ h => h) _).strengthen fun _ _ => trivial) fun coordinator => ?_
  split
  · rename_i hsuccess
    refine Safe.ret fun s _ getResData c hr => ?_
    cases hr
    obtain ⟨left, tally⟩ := tally
    obtain ⟨cnt, enough, tally'⟩ := hcounted
    obtain ⟨m, hmem, hfound⟩ := tally'.meet tally (by omega)
    obtain ⟨e, he, hcovers⟩ := hfound hmem
    exact reflects_getLatestData he hcovers
  · exact Safe.ret fun s _ getResData c hr => by cases hr

theorem body_covered (hinv : (covered servers key d counted).inv s)
    (hpre : (contract servers).pre n q s) (other : ¬ MovesMembers q)
    (names : RingAmong servers (s.state n)) :
    (covered servers key d counted).wp (apply hash) (CoordinatorAhead n q) n (serve hash n q)
      ((covered servers key d counted).post n q) s := by
  have unconcerned : (∀ r, Shows key d counted n q r) →
      (covered servers key d counted).wp (apply hash) (CoordinatorAhead n q) n (serve hash n q)
        ((covered servers key d counted).post n q) s :=
    fun shows => Contract.wp_mono _ (fun r _ h => ⟨h.1, shows r⟩)
      (wp_since allCovered_stable hinv.2 (body hinv.1 hpre other names))
  cases q with
  | clientGet key' =>
    by_cases hkey : key' = key
    · subst hkey
      refine Contract.wp_mono _ (fun r s h => ⟨trivial, ?_⟩)
        (serveClientGet_reflects few hcounted s hinv names)
      cases r with
      | clientGet getResData coordinator => exact fun _ => h.2.2 getResData coordinator rfl
      | _ => trivial
    · refine unconcerned fun r => ?_
      cases r with
      | clientGet getResData coordinator => exact fun h => absurd h hkey
      | _ => trivial
  | peerGet key' => exact ⟨trivial, fun hkey hmem => hkey ▸ covers_readData (hinv.2 n hmem)⟩
  | _ => exact unconcerned fun r => trivial

theorem verified_covered :
    Verified (inside (covered servers key d counted) (steady hash servers)) (apply hash)
      (serve hash) ClientTraffic CoordinatorAhead := by
  refine verified_inside (kept_steady _) (fun _ _ => steady_of_clientTraffic) ?_
    fun s n q => body_covered few hcounted
  intro s n q hinv traffic
  refine ⟨hinv, fun _ _ _ h => h, ?_⟩
  cases q <;> first | exact traffic | exact False.elim traffic

end Gets

section Runs

variable {state : String → GossipNode} {c : Config String GossipNode Action Request Reply Int64}

theorem configOk (empty : ∀ n, (state n).stateMachine = .empty)
    (names : ∀ n, RingAmong servers (state n))
    (before : Reach (apply hash) (serve hash) ClientTraffic CoordinatorAhead (.start state) c) :
    ConfigOk (inside (contract servers) (steady hash servers)) (apply hash) CoordinatorAhead c := by
  have start : (inside (contract servers) (steady hash servers)).inv ⟨state, []⟩ := by
    refine ⟨fun m key e he => ?_, names⟩
    simp [stored, empty m] at he
  exact ((configOk_start start).reach verified before).1

end Runs

/-- In every run of gets, puts, gossip and main loops whose coordinators only write over what
they cover: an acknowledged version survives the loss of any servers that are fewer than
`W_COUNT`, at any later time. -/
theorem acknowledged_survives_losses {servers : List String} {state : String → GossipNode}
    (empty : ∀ n, (state n).stateMachine = .empty) (names : ∀ n, RingAmong servers (state n))
    {hash : String → UInt64} {c c' : Config String GossipNode Action Request Reply Int64}
    (before : Reach (apply hash) (serve hash) ClientTraffic CoordinatorAhead (.start state) c)
    (after : Reach (apply hash) (serve hash) ClientTraffic CoordinatorAhead c c')
    {n key : String} {data : Data} {coordinator : String}
    (acknowledged : (n, .clientPut key data, .clientPut .ok coordinator) ∈ c.finished)
    {lost : List String} (few : lost.length < wCount) :
    ∃ m ∈ servers, m ∉ lost ∧
      CoveredAt c'.shared.state key (data.1, updateVersion data.2 n) m := by
  have hok := configOk empty names before
  obtain ⟨_, hevo⟩ := hok.reach verified after
  obtain ⟨cnt, enough, tally⟩ := (hok.finished _ acknowledged).1 coordinator rfl
  exact (tally.mono (hevo key _)).outside (few.trans_le enough)

/-- In every run of gets, puts, gossip and main loops on at most three servers whose coordinators
only write over what they cover: the gets of a key that come after a put of it was
acknowledged, however they overlap with other requests and whatever is lost, take the put into
account. The replies that do not are to gets that were open when it was acknowledged. -/
theorem reads_reflect_acknowledged {servers : List String}
    (few : servers.length < wCount + rCount) {state : String → GossipNode}
    (empty : ∀ n, (state n).stateMachine = .empty) (names : ∀ n, RingAmong servers (state n))
    {hash : String → UInt64} {c c' : Config String GossipNode Action Request Reply Int64}
    (before : Reach (apply hash) (serve hash) ClientTraffic CoordinatorAhead (.start state) c)
    (after : Reach (apply hash) (serve hash) ClientTraffic CoordinatorAhead c c')
    {n key : String} {data : Data} {coordinator : String}
    (acknowledged : (n, .clientPut key data, .clientPut .ok coordinator) ∈ c.finished) :
    ∃ new early late, c'.finished = new ++ c.finished ∧ new.Perm (early ++ late) ∧
      (early.map fun x => (x.1, x.2.1)).Subperm (c.threads.filterMap outermost) ∧
      ∀ m getResData coordinator',
        (m, .clientGet key, .clientGet getResData coordinator') ∈ late →
        Reflects (data.1, updateVersion data.2 n) getResData := by
  have hok := configOk empty names before
  obtain ⟨cnt, enough, counted, nodup, hlength, hcounted⟩ :=
    (hok.finished _ acknowledged).1 coordinator rfl
  have tally : ∃ cnt, wCount ≤ cnt ∧ Tally servers [] (· ∈ counted) cnt :=
    ⟨cnt, enough, counted, nodup, hlength, fun m hm => ⟨(hcounted m hm).1, by simp, hm⟩⟩
  obtain ⟨_, new, early, late, hfinished, hnew, hearly, hlate⟩ :=
    replies_since (sharpens_inside allCovered_stable) (verified_covered few tally) hok
      (fun m hm => (hcounted m hm).2.2) after
  refine ⟨new, early, late, hfinished, hnew, hearly, fun m getResData coordinator' hmem => ?_⟩
  exact (hlate _ hmem).1.2 rfl

section TwoNodes

theorem ringAmong_twoNodes (n : String) :
    RingAmong ["A", "B"] (cluster twoNodes ["A", "B"] n) := by
  rintro id ⟨p, hp⟩
  have hring : ∀ x ∈ (ringWith twoNodes ["A", "B"]).ring.entries, x.2 ∈ ["A", "B"] := by decide
  by_cases hn : n ∈ ["A", "B"]
  · rw [cluster, if_pos hn] at hp
    exact hring _ hp
  · rw [cluster, if_neg hn] at hp
    cases hp

/-- A put through A, which B survives. -/
theorem acknowledged_survives_losses_sample :
    ∃ c : Config String GossipNode Action Request Reply Int64,
      ("A", .clientPut "k" ("v", []), .clientPut .ok "A") ∈ c.finished ∧
        ∃ m ∈ ["A", "B"], m ∉ ["A"] ∧ CoveredAt c.shared.state "k" ("v", [("A", 1)]) m := by
  obtain ⟨⟨w, finished⟩, hsession, hack⟩ :
      ∃ x ∈ session (apply twoNodes) (serve twoNodes) CoordinatorAhead calmEnv 2
        [("A", .clientPut "k" ("v", []))] ⟨cluster twoNodes ["A", "B"], 0⟩,
        ("A", .clientPut "k" ("v", []), .clientPut .ok "A") ∈ x.2 := by
    decide +kernel
  have before := reach_of_session ClientTraffic calmEnv_reliable 2 _
    (by simp [ClientTraffic, Distinct]) [] [] hsession
  have hack' := List.mem_append_left [] hack
  exact ⟨_, hack', acknowledged_survives_losses (fun _ => rfl) ringAmong_twoNodes before .refl hack'
    (by decide)⟩

/-- A put through A, acknowledged, and then a get through B. -/
theorem reads_reflect_acknowledged_sample :
    ∃ (c c' : Config String GossipNode Action Request Reply Int64) (getResData : List Data),
      Reach (apply twoNodes) (serve twoNodes) ClientTraffic CoordinatorAhead c c' ∧
        ("A", .clientPut "k" ("v", []), .clientPut .ok "A") ∈ c.finished ∧
        ("B", .clientGet "k", .clientGet getResData "A") ∈ c'.finished ∧
        Reflects ("v", [("A", 1)]) getResData := by
  obtain ⟨⟨w, finished⟩, hput, hack, ⟨w', finished'⟩, hget, hreply⟩ :
      ∃ x ∈ session (apply twoNodes) (serve twoNodes) CoordinatorAhead calmEnv 2
        [("A", .clientPut "k" ("v", []))] ⟨cluster twoNodes ["A", "B"], 0⟩,
        ("A", .clientPut "k" ("v", []), .clientPut .ok "A") ∈ x.2 ∧
        ∃ y ∈ session (apply twoNodes) (serve twoNodes) CoordinatorAhead calmEnv 2
          [("B", .clientGet "k")] x.1,
          ("B", .clientGet "k", .clientGet [("v", [("A", 1)])] "A") ∈ y.2 := by
    decide +kernel
  have before := reach_of_session ClientTraffic calmEnv_reliable 2 _
    (by simp [ClientTraffic, Distinct]) [] [] hput
  have after := reach_of_session ClientTraffic calmEnv_reliable 2 _
    (by simp [ClientTraffic]) [("A", .clientPut "k" ("v", []))] (finished ++ []) hget
  have hack' := List.mem_append_left [] hack
  obtain ⟨new, early, late, hfinished, hnew, hearly, hlate⟩ :=
    reads_reflect_acknowledged (by decide) (fun _ => rfl) ringAmong_twoNodes before after hack'
  -- nothing was open
  obtain rfl : early = [] := by simpa using hearly
  obtain rfl : finished' = new := List.append_cancel_right hfinished
  have hreply' := List.mem_append_left (finished ++ []) hreply
  exact ⟨_, _, _, after, hack', hreply', hlate "B" _ "A" (hnew.subset hreply)⟩

end TwoNodes

end ConcurrentReads
