import NoirNet.Consensus.Network
import NoirNet.Consensus.SyncPair
import NoirNet.Network.Service

/-!
# Nodes behind their network services

Every node of the network publishes through its own service, and hears what a
service makes of a swarm event.  The gossip of the network is the messages that
nodes encode, whoever signed them; it may arrive late, again, or never.  A sync
response is one that some node has sent.
-/

namespace NoirNet

open Lib

/-- What the callers of the service hand to it: blocks and votes are encoded by the consensus
loop, a transaction is the bytes that came by RPC. -/
def NetworkCommand.Encoded : NetworkCommand → Prop
  | .broadcastBlock data => ∃ block : Block, data = block.serialize
  | .broadcastVote data => ∃ vote : Vote, data = vote.serialize
  | _ => True

variable {ι : Type}

def Published (topics : ι → Topics) (topic : String) (data : Bytes) : Prop :=
  ∃ i cmd, cmd.Encoded ∧
    ∃ peerCount, NetworkService.handleCommand (topics i) peerCount cmd = .publish topic data

namespace Network

variable [Bls]

def Offers (net : Network ι) (topics : ι → Topics) : SwarmEvent → Prop
  | .gossip topic data => Published topics topic data
  | .response _ res => ∃ i, res ∈ Action.responses (net.log i)
  | _ => True

/-- An event of the consensus loop: of its node alone, or handed on by the service.  Which
transactions reach the pool is left open. -/
def Carries (net : Network ι) (topics : ι → Topics) : Event → Prop
  | .timeout | .pruneHistory _ | .mempoolInsert _ => True
  | event => ∃ swarm, handleSwarmEvent swarm = some event ∧ net.Offers topics swarm

end Network

end NoirNet
