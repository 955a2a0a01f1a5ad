import NoirNet.Codec

/-!
# Gossip

What a node publishes and what `NetworkService::handle_swarm_event` makes of a
gossip message.  The decoder's byte limit is the size limit checked before, so
it never ends a read that has the bytes it asks for.
-/

namespace NoirNet

inductive GossipMessage where
  | tx (tx : Transaction)
  | block (block : Block)
  | vote (vote : Vote)
  deriving DecidableEq

def GossipMessage.serialize : GossipMessage → Bytes
  | .tx t => t.serialize
  | .block b => b.serialize
  | .vote v => v.serialize

/-- The gossip arm of `handle_swarm_event`: what is handed on, if anything. -/
def handleGossip (topic : String) (data : Bytes) : Option GossipMessage :=
  if data.length > MAX_P2P_MESSAGE_SIZE then none
  else if topic = "noirnet-txs" then (Lib.Wire.Reader.decode Transaction.read data).map .tx
  else if topic = "noirnet-blocks" then (Lib.Wire.Reader.decode Block.read data).map .block
  else if topic = "noirnet-votes" then (Lib.Wire.Reader.decode Vote.read data).map .vote
  else none

end NoirNet
