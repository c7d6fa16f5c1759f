import DynamoStore.HandlerRuns
import DynamoStore.Lib.TextStreams

/-!
# The client

A client caches the versions that it has read and written in a store of its own. A put
sends the cached version as its context, and after OK the client stamps that version
itself, with the coordinator that the response names.

The calls of a client go to nodes, but no node calls a client, so its programs run
beside the nodes. A loop of the client is given a number of rounds; a program that is
still in the loop after the last one ends with none.
-/

open RpcPrograms HandlerRuns TextStreams

structure KeyValueStoreClient where
  stubs : Map Unit
  assignedCoordinator : String
  stateMachine : StateMachine

namespace KeyValueStoreClient

open GossipNode StateMachine

/-- Everything a client does to its own state. -/
inductive Change where
  | newStub (addr : String)
  | assign (coordinator : String)
  | put (key value : String) (version : Version)

def change : Change → KeyValueStoreClient → KeyValueStoreClient
  | .newStub addr, client => { client with stubs := client.stubs.insert addr () }
  | .assign coordinator, client => { client with assignedCoordinator := coordinator }
  | .put key value version, client =>
    { client with stateMachine := client.stateMachine.put key value version }

abbrev Code := Prog String KeyValueStoreClient Change Request Reply Int64

open Prog

def updateChannelToCoordinator (coordinator : String) : Code Unit := do
  let client ← read
  if coordinator ∉ client.stubs then
    perform (.newStub coordinator)
    perform (.assign coordinator)
  else perform (.assign coordinator)

/-- `Put` with `retry` set, which does not read before it writes. A server that is not a
coordinator sends the client on to another one; the result is none while it is still
sent on after all the `attempts`. -/
def putRetry (key value : String) : Nat → Code (Option Bool)
  | 0 => return none
  | attempts + 1 => do
    let client ← read
    if client.assignedCoordinator ∈ client.stubs then
      match ← send client.assignedCoordinator
          (.clientPut key (value, client.stateMachine.getVersion key)) with
      | some (.clientPut .ok coordinator) => do
        let client ← read
        let memVersion := client.stateMachine.getVersion key
        perform (.put key value (updateVersion memVersion coordinator))
        return some true
      | some (.clientPut .failed _) => return some false
      | some (.clientPut .notCoordinator coordinator) => do
        updateChannelToCoordinator coordinator
        putRetry key value attempts
      | some (.clientPut .noVersion _) => return some true
      | _ => return some false
    else crash

/-- The lines of the config file, if it can be opened. -/
def getNodesConfig : Option (List Char) → List String
  | none => []
  | some text => (lines text).map String.ofList

/-- The constructor. `read_server_config` makes a stub for each line of the file. -/
def init (nodesConfig : Option (List Char)) (assignedPort : String) : KeyValueStoreClient where
  stubs := (getNodesConfig nodesConfig).foldl (fun stubs addr => stubs.insert addr ()) ∅
  assignedCoordinator := assignedPort
  stateMachine := .empty

/-- The table of servers by name. Nothing is ever put into it. -/
def serverConfig : Map String := ∅

/-- The server at a random position; the end of the table, if that is empty, has none. -/
def randomPickServer (drawn : Nat) : Code String :=
  match serverConfig.entries[drawn % serverConfig.entries.length]? with
  | some randomServer => return randomServer.2
  | none => crash

/-- The values that a read returned become one. Where there are several, the user is asked
until one of the `selections` is a position in the list, and the selected value is put. -/
def reconcile (key : String) (attempts : Nat) (selections : List Int)
    (conflictVersions : List Data) : Code (Option String) :=
  match conflictVersions with
  | [] => return some ""
  | [d] => do
    perform (.put key d.1 d.2)
    return some d.1
  | _ => do
    let servers ← iterate (mergeVersions conflictVersions).keys
    let version := reconcileVersion (fun _ => servers) conflictVersions
    match selections.findSome? fun selected =>
        if 0 ≤ selected then conflictVersions[selected.toNat]? else none with
    | none => return none
    | some d => do
      perform (.put key d.1 version)
      match ← putRetry key d.1 attempts with
      | none => return none
      | some _ => return some d.1

inductive GetReturn where
  | failed
  | success (result : String)
  deriving DecidableEq

def get (key : String) (attempts : Nat) (selections : List Int) : Code (Option GetReturn) := do
  let client ← read
  if client.assignedCoordinator ∈ client.stubs then
    match ← send client.assignedCoordinator (.clientGet key) with
    | some (.clientGet getResData coordinator) => do
      updateChannelToCoordinator coordinator
      match ← reconcile key attempts selections getResData with
      | none => return none
      | some result => return some (.success result)
    | _ => return some .failed
  else crash

/-- What a round of the loop in `Put` takes from the user and the random generator. -/
structure RoundInput where
  selections : List Int
  drawn : Nat

/-- The loop in `Put`, which reads until that succeeds. -/
def getUntilSuccess (key : String) (attempts : Nat) (inputs : Nat → RoundInput) :
    Nat → Code (Option Unit)
  | 0 => return none
  | rounds + 1 => do
    match ← get key attempts (inputs rounds).selections with
    | none => return none
    | some (.success _) => return some ()
    | some .failed => do
      let server ← randomPickServer (inputs rounds).drawn
      perform (.assign server)
      getUntilSuccess key attempts inputs rounds

def put (key value : String) (retry : Bool) (attempts : Nat) (inputs : Nat → RoundInput)
    (rounds : Nat) : Code (Option Bool) :=
  if retry = false then do
    match ← getUntilSuccess key attempts inputs (rounds + 1) with
    | none => return none
    | some _ => putRetry key value (attempts + 1)
  else putRetry key value (attempts + 1)

/-- Run a client's program beside the nodes. -/
def runBeside (hash : String → UInt64) (env : Env String Int64) (depth : Nat) {α : Type} :
    Code α → KeyValueStoreClient → Net → Option (KeyValueStoreClient × Net × α)
  | .ret a, client, w => some (client, w, a)
  | .get k, client, w => runBeside hash env depth (k client) client w
  | .act a k, client, w => runBeside hash env depth k (change a client) w
  | .now k, client, w => runBeside hash env depth (k (env.now w.tick)) client w.next
  | .order l k, client, w => runBeside hash env depth (k (env.order w.tick l)) client w.next
  | .call dst q k, client, w =>
    (deliver hash env depth dst q w).bind fun x => runBeside hash env depth (k x.2) client x.1
  | .crash, _, _ => none

section Runs

variable {hash : String → UInt64} {env : Env String Int64} {depth : Nat}
variable {client : KeyValueStoreClient} {key value coordinator : String} {w w' : Net}

theorem runBeside_bind {α β : Type} (p : Code α) (f : α → Code β)
    (client : KeyValueStoreClient) (w : Net) :
    runBeside hash env depth (p >>= f) client w = (runBeside hash env depth p client w).bind
      fun x => runBeside hash env depth (f x.2.2) x.1 x.2.1 := by
  rw [Prog.bind_eq]
  induction p generalizing client w with
  | ret a => rfl
  | get k ih => exact ih _ client w
  | act a k ih => exact ih _ w
  | now k ih => exact ih _ client _
  | order l k ih => exact ih _ client _
  | call dst q k ih =>
    simp only [Prog.bind, runBeside, Option.bind_assoc]
    congr 1
    funext x
    exact ih x.2 client x.1
  | crash => rfl

@[simp] theorem runBeside_read :
    runBeside hash env depth (read : Code KeyValueStoreClient) client w =
      some (client, w, client) := rfl

@[simp] theorem runBeside_send (dst : String) (q : Request) :
    runBeside hash env depth (send dst q : Code (Option Reply)) client w =
      (deliver hash env depth dst q w).map fun x => (client, x.1, x.2) := by
  simp only [send, runBeside]
  cases deliver hash env depth dst q w <;> rfl

/-- What a put that is answered with OK leaves in the client's own store. -/
theorem runBeside_putRetry_ok (attempts : Nat)
    (hstub : client.assignedCoordinator ∈ client.stubs)
    (answer : deliver hash env depth client.assignedCoordinator
      (.clientPut key (value, client.stateMachine.getVersion key)) w =
        some (w', some (.clientPut .ok coordinator))) :
    runBeside hash env depth (putRetry key value (attempts + 1)) client w =
      some (change (.put key value
          (updateVersion (client.stateMachine.getVersion key) coordinator)) client, w',
        some true) := by
  rw [putRetry]
  simp only [Prog.bind_eq, Prog.read, Prog.bind, runBeside, if_pos hstub, Prog.send, answer,
    Option.bind_some]
  rfl

theorem getVersion_put (s : StateMachine) (version : Version) :
    (s.put key value version).getVersion key = version := by
  rw [getVersion_eq, entry_put_self]
  rfl

end Runs

end KeyValueStoreClient
