import NoirNet.Consensus.Engine
import NoirNet.Lib.Channel
import NoirNet.Network.Gossip

/-!
# The network service

`noirnet_network::p2p`: the two channels a node sends its commands through, the
loop that serves them, and what a command becomes in the swarm.  The swarm is
`libp2p`: which event it has ready, how many peers are connected, and in which
order `gossipsub.topics()` lists the subscriptions come from outside.
-/

namespace NoirNet

open Lib

/-! ## Commands -/

inductive NetworkCommand where
  | dial (addr : String)
  | broadcastTx (data : Bytes)
  | broadcastBlock (data : Bytes)
  | broadcastVote (data : Bytes)
  | sendSyncRequest (peer : PeerId) (req : SyncRequest)
  | sendSyncResponse (channel : PeerId) (res : SyncResponse)
  | getStatus
  deriving DecidableEq

/-- The `match` of `PriorityNetworkSender::send`. -/
def NetworkCommand.isHigh : NetworkCommand → Bool
  | .broadcastVote _ | .sendSyncResponse _ _ | .getStatus | .dial _ => true
  | _ => false

/-! ## Subscriptions -/

def SUBSCRIBED : List String := ["noirnet-txs", "noirnet-blocks", "noirnet-votes"]

/-- The subscriptions in the order in which `topics()` lists them. -/
structure Topics where
  order : List String
  perm : order.Perm SUBSCRIBED

namespace Topics

theorem length_order (topics : Topics) : topics.order.length = 3 := topics.perm.length_eq

/-- `topics().nth(i).unwrap()`. -/
def nth (topics : Topics) (i : Fin 3) : String :=
  topics.order.get (i.cast topics.length_order.symm)

end Topics

/-! ## The service -/

/-- What the service asks of the swarm, or answers. -/
inductive SwarmCall where
  | dial (addr : String)
  | publish (topic : String) (data : Bytes)
  | sendRequest (peer : PeerId) (req : SyncRequest)
  | sendResponse (channel : PeerId) (res : SyncResponse)
  | status (peerCount : Nat) (isSynced : Bool)
  deriving DecidableEq

inductive SwarmEvent where
  | gossip (topic : String) (data : Bytes)
  | request (peer : PeerId) (req : SyncRequest)
  | response (peer : PeerId) (res : SyncResponse)
  /-- A connection, a new address, another behaviour. -/
  | other

/-- `handle_swarm_event`: what one of the five channels of the node carries on, a transaction
to the mempool, the rest to the consensus loop. -/
def handleSwarmEvent : SwarmEvent → Option Event
  | .gossip topic data =>
      (handleGossip topic data).map fun
        | .tx tx => .mempoolInsert tx
        | .block block => .block block
        | .vote vote => .vote vote
  | .request peer req => some (.syncRequest peer req)
  | .response peer res => some (.syncResponse peer res)
  | .other => none

structure NetworkService where
  topics : Topics
  high : Channel NetworkCommand 100
  low : Channel NetworkCommand 500

namespace NetworkService

def new (topics : Topics) : NetworkService where
  topics := topics
  high := .empty
  low := .empty

def handleCommand (topics : Topics) (peerCount : Nat) : NetworkCommand → SwarmCall
  | .dial addr => .dial addr
  | .broadcastTx data => .publish (topics.nth ⟨0, by decide⟩) data
  | .broadcastBlock data => .publish (topics.nth ⟨1, by decide⟩) data
  | .broadcastVote data => .publish (topics.nth ⟨2, by decide⟩) data
  | .sendSyncRequest peer req => .sendRequest peer req
  | .sendSyncResponse channel res => .sendResponse channel res
  | .getStatus => .status peerCount true

end NetworkService

/-! ## The loop -/

inductive ServiceInput where
  /-- A task of the node awaits `PriorityNetworkSender::send`. -/
  | send (cmd : NetworkCommand)
  /-- One turn of the loop, with what the swarm has ready. -/
  | turn (ready : Option SwarmEvent) (peerCount : Nat)

inductive ServiceOutput where
  /-- The `send` of the command has returned. -/
  | sent (cmd : NetworkCommand)
  | handled (cmd : NetworkCommand) (call : SwarmCall)
  | delivered (event : Event)

namespace NetworkService

/-- The future of a `send` to a full channel stays pending. -/
def send (service : NetworkService) (cmd : NetworkCommand) :
    NetworkService × List ServiceOutput :=
  if cmd.isHigh then
    match service.high.send cmd with
    | some high => ({ service with high }, [.sent cmd])
    | none => (service, [])
  else
    match service.low.send cmd with
    | some low => ({ service with low }, [.sent cmd])
    | none => (service, [])

/-- The biased `select!` of `run`. -/
def turn (service : NetworkService) (ready : Option SwarmEvent) (peerCount : Nat) :
    NetworkService × List ServiceOutput :=
  match service.high.recv with
  | some (cmd, high) =>
      ({ service with high }, [.handled cmd (handleCommand service.topics peerCount cmd)])
  | none =>
      match ready with
      | some event => (service, (handleSwarmEvent event).toList.map .delivered)
      | none =>
          match service.low.recv with
          | some (cmd, low) =>
              ({ service with low }, [.handled cmd (handleCommand service.topics peerCount cmd)])
          | none => (service, [])

end NetworkService

/-- `NetworkService::run`, and the tasks that send to it. -/
def serviceMachine : Machine NetworkService ServiceInput ServiceOutput where
  step
    | service, .send cmd => service.send cmd
    | service, .turn ready peerCount => service.turn ready peerCount

end NoirNet
