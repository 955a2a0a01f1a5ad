import NoirNet.Consensus.Sync
import NoirNet.Lib.Machine

/-!
# The Dandelion router

`noirnet_network::dandelion`.  The two floating-point parameters decide nothing but
random draws, so they enter as the outcomes of the draws: the sampled duration, and
whether `rng.gen::<f64>() < self.fluff_probability`.
-/

namespace NoirNet

open Lib

abbrev Instant := Nat

inductive DandelionPhase where
  | stem
  | fluff
  deriving DecidableEq

structure TxState where
  phase : DandelionPhase
  receivedFrom : PeerId
  createdAt : Instant
  stemDeadline : Instant
  deriving DecidableEq

structure DandelionRouter where
  phase : DandelionPhase
  stemSuccessor : Option PeerId
  txStates : Table TxId TxState

inductive RoutingDecision where
  | broadcast
  | forwardTo (peer : PeerId)
  | drop
  deriving DecidableEq

/-- What a call of `route_tx` draws and reads from the clock. -/
structure RouteDraws where
  /-- `self.sample_stem_duration()` -/
  stemDuration : Nat
  /-- `rng.gen::<f64>() < self.fluff_probability` -/
  flip : Bool
  createdAt : Instant
  /-- The reading the deadline is computed from. -/
  now : Instant
  deriving DecidableEq

namespace DandelionRouter

def new : DandelionRouter where
  phase := .stem
  stemSuccessor := none
  txStates := ∅

/-- `rotate_successor`; `idx` is drawn from `0..connected_peers.len()`. -/
def rotateSuccessor (router : DandelionRouter) (connectedPeers : List PeerId) (idx : Nat) :
    DandelionRouter :=
  if connectedPeers.isEmpty then { router with stemSuccessor := none }
  else { router with stemSuccessor := connectedPeers[idx]? }

def expired (now : Instant) (state : TxState) : Bool :=
  state.phase = .stem ∧ now > state.stemDeadline

/-- `flush_expired_stems`: the router, and the transactions that leave their stem. -/
def flushExpiredStems (router : DandelionRouter) (now : Instant) : DandelionRouter × List TxId :=
  ({ router with
      txStates := router.txStates.map fun _ state =>
        if expired now state then { state with phase := .fluff } else state },
    (router.txStates.toList.filter fun entry => expired now entry.2).map Prod.fst)

def routeTx (router : DandelionRouter) (txid : TxId) (receivedFrom : PeerId) (draws : RouteDraws) :
    DandelionRouter × RoutingDecision :=
  -- loop detection
  if router.txStates.contains txid then (router, .drop)
  else
    let fluff : TxState :=
      { phase := .fluff
        receivedFrom := receivedFrom
        createdAt := draws.createdAt
        stemDeadline := draws.now }
    let stem : TxState :=
      { phase := .stem
        receivedFrom := receivedFrom
        createdAt := draws.createdAt
        stemDeadline := draws.now + draws.stemDuration }
    if router.phase = .fluff then
      ({ router with txStates := router.txStates.insert txid fluff }, .broadcast)
    else if draws.flip then
      ({ router with txStates := router.txStates.insert txid fluff }, .broadcast)
    else
      match router.stemSuccessor with
      | some successor =>
          if successor ≠ receivedFrom then
            ({ router with txStates := router.txStates.insert txid stem }, .forwardTo successor)
          else (router, .broadcast)
      | none => (router, .broadcast)

end DandelionRouter

/-! ## Runs of a router -/

inductive RouterCall where
  | routeTx (txid : TxId) (receivedFrom : PeerId) (draws : RouteDraws)
  | rotateSuccessor (connectedPeers : List PeerId) (idx : Nat)
  | setPhase (phase : DandelionPhase)
  | flushExpiredStems (now : Instant)
  deriving DecidableEq

inductive RouterOutput where
  | decided (txid : TxId) (decision : RoutingDecision)
  | reported (txid : TxId)
  deriving DecidableEq

def dandelionMachine : Machine DandelionRouter RouterCall RouterOutput where
  step
    | router, .routeTx txid receivedFrom draws =>
        ((router.routeTx txid receivedFrom draws).1,
          [.decided txid (router.routeTx txid receivedFrom draws).2])
    | router, .rotateSuccessor connectedPeers idx => (router.rotateSuccessor connectedPeers idx, [])
    | router, .setPhase phase => ({ router with phase }, [])
    | router, .flushExpiredStems now =>
        ((router.flushExpiredStems now).1, (router.flushExpiredStems now).2.map .reported)

end NoirNet
