import NoirNet.Proofs.Commit
import NoirNet.Proofs.DoubleSpend
import NoirNet.Proofs.Equivocation
import NoirNet.Proofs.Gossip
import NoirNet.Proofs.Rejection
import NoirNet.Proofs.SpendProof
import NoirNet.Proofs.StateRoot
import NoirNet.Consensus.Network
import NoirNet.Lib.Quorum
import NoirNet.Proofs.VoteOrigin
import NoirNet.Proofs.Agreement
import NoirNet.Identifiers
import NoirNet.Proofs.Replay
import NoirNet.Proofs.Selection
import NoirNet.Consensus.Outcome
import NoirNet.Proofs.Admission
import NoirNet.Consensus.Writes
import NoirNet.Proofs.Proposal
import NoirNet.Proofs.HashChain
import NoirNet.Proofs.LedgerRoots
import NoirNet.Proofs.VotedHash
import NoirNet.Lib.Replay
import NoirNet.Storage.Writes
import NoirNet.Proofs.Crash
import NoirNet.Lib.Overlay
import NoirNet.Consensus.Contracts
import NoirNet.Proofs.Sequential
import NoirNet.Proofs.Certificates
import NoirNet.MempoolCalls
import NoirNet.Proofs.Reservation
import NoirNet.Proofs.Interleaving
import NoirNet.Crypto.Keys
import NoirNet.Proofs.Signing
import NoirNet.Crypto.Stealth
import NoirNet.Wallet
import NoirNet.Proofs.Delivery
import NoirNet.Proofs.Scanning
import NoirNet.Consensus.VmCalls
import NoirNet.Proofs.Gas
import NoirNet.Proofs.Backing
import NoirNet.Proofs.Anchors
import NoirNet.Proofs.Prevotes
import NoirNet.Contracts.Token
import NoirNet.Proofs.Supply
import NoirNet.Proofs.Emission
import NoirNet.Consensus.Slashing
import NoirNet.Proofs.Slashing
import NoirNet.Proofs.Retention
import NoirNet.Proofs.TxIndex
import NoirNet.Proofs.RootBinding
import NoirNet.Proofs.Announcement
import NoirNet.Proofs.NextHeight
import NoirNet.Proofs.Quorums
import NoirNet.Lib.Greedy
import NoirNet.Proofs.BlockSelection
import NoirNet.Proofs.BuiltHeader
import NoirNet.Proofs.ProposalSize
import NoirNet.Lib.Lottery
import NoirNet.Proofs.RepeatedNullifier
import NoirNet.Proofs.Election
import NoirNet.Proofs.ElectionOrder
import NoirNet.Consensus.Leader
import NoirNet.Network.Dandelion
import NoirNet.Proofs.LeaderSelector
import NoirNet.Proofs.RoundState
import NoirNet.Proofs.Dandelion
import NoirNet.Crypto.Commitment
import NoirNet.Proofs.Commitments
import NoirNet.Proofs.AnchorWindow
import NoirNet.Proofs.Isolation
import NoirNet.Proofs.SyncServing
import NoirNet.Lib.Padding
import NoirNet.Proofs.TreeBinding
import NoirNet.Proofs.LeaderHeader
import NoirNet.Lib.Span
import NoirNet.Vm.Host
import NoirNet.Vm.Runtime
import NoirNet.Proofs.GasMetering
import NoirNet.Proofs.HostStorage
import NoirNet.Proofs.Rescan
import NoirNet.Crypto.Encryption
import NoirNet.Proofs.Memo
import NoirNet.KeyStore
import NoirNet.Proofs.KeyStore
import NoirNet.Crypto.Vrf
import NoirNet.Lib.Schnorr
import NoirNet.Proofs.VrfUniqueness
import NoirNet.Decode
import NoirNet.Lib.EncodedTable
import NoirNet.Proofs.BlockOrigin
import NoirNet.Proofs.Genesis
import NoirNet.Proofs.SledStore
import NoirNet.Address
import NoirNet.Consensus.SyncPair
import NoirNet.Lib.Channel
import NoirNet.Network.Service
import NoirNet.Network.Wiring
import NoirNet.Proofs.Addresses
import NoirNet.Proofs.Admissions
import NoirNet.Proofs.CatchUp
import NoirNet.Proofs.PoisonedPool
import NoirNet.Proofs.Priority
import NoirNet.Proofs.RoundCommits
import NoirNet.Proofs.SilentNetwork
import NoirNet.Proofs.Submission
import NoirNet.Proofs.WalletPayments
