import Mathlib.Data.Finset.Insert
import NoirNet.Lib.Table
import NoirNet.Types

/-!
# The sync manager

`noirnet_consensus::sync`.
-/

namespace NoirNet

open Lib

/-- A `libp2p` peer identifier, its multihash. -/
abbrev PeerId := Bytes

structure SyncManager where
  isSyncing : Bool := false
  targetHeight : UInt64 := 0
  currentRequest : Option (PeerId × SyncRequest) := none
  bufferedBlocks : Table UInt64 Block := ∅
  activePeers : Finset PeerId := ∅

namespace SyncManager

def startSync (manager : SyncManager) (targetHeight : UInt64) (peer : PeerId)
    (startHeight : UInt64) : SyncManager × SyncRequest :=
  let request := { startHeight, limit := 50 }
  ({ manager with
      isSyncing := true
      targetHeight := max manager.targetHeight targetHeight
      currentRequest := some (peer, request) },
    request)

def checkSyncStatus (manager : SyncManager) (currentHeight : UInt64) : SyncManager × Bool :=
  if manager.isSyncing ∧ manager.targetHeight ≤ currentHeight then
    ({ manager with isSyncing := false, currentRequest := none, bufferedBlocks := ∅ }, false)
  else (manager, manager.isSyncing)

def handlePeerHeight (manager : SyncManager) (peer : PeerId) (peerHeight currentHeight : UInt64) :
    SyncManager × Option SyncRequest :=
  let manager := { manager with activePeers := insert peer manager.activePeers }
  if peerHeight > currentHeight + 5 ∧ ¬ manager.isSyncing then
    let (manager, request) := manager.startSync peerHeight peer (currentHeight + 1)
    (manager, some request)
  else (manager, none)

end SyncManager

end NoirNet
