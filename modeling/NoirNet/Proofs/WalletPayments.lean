import NoirNet.Concrete
import NoirNet.Proofs.Admissions
import NoirNet.Proofs.PoisonedPool
import NoirNet.WalletBuilder
import NoirNet.Zk.Rational

/-!
# What becomes of the wallet's transactions

The builder spends a note it makes up: the nullifier is the digest of a fixed
text, and the proof is one of the product of 1 and the input value being 2.

* `Mocked.verified_iff`: when such a proof passes phase 1;
* `cli_payment_never_mined`: what the command line sends;
* `wallet_admitted_once`, `wallet_applied_once`: the fixed nullifiers.
-/

namespace NoirNet

open Lib

/-! ## The proof -/

section

variable [Nova] [NovaProver]

structure Mocked (tx : Transaction) (mockInputValue : UInt64) : Prop where
  spends : tx.spends.length = 1
  proof : ∃ draws, TxBuilder.mockProof draws mockInputValue = some tx.aggregateSpendProof

/-- A mocked transaction passes phase 1 if its format is right and its input is 2. -/
theorem Mocked.verified_iff (hprover : NovaProver.Faithful) {tx : Transaction}
    {mockInputValue : UInt64} (h : Mocked tx mockInputValue) :
    verifyTransaction tx = .ok () ↔ tx.validateFormat = .ok () ∧ mockInputValue = 2 := by
  obtain ⟨draws, hproof⟩ := h.proof
  obtain ⟨hbytes, hverify⟩ := hprover.proves draws.proverDraws
    (spendStep mockInputValue 1 2) [] tx.aggregateSpendProof hproof
  have hsatisfied : SatisfiesSteps #v[0] [spendStep mockInputValue 1 2] ↔
      mockInputValue = 2 := by
    rw [satisfiesSteps_iff, List.forall_mem_singleton]
    show NovaProver.ofU64 1 * NovaProver.ofU64 mockInputValue = NovaProver.ofU64 2 ↔ _
    rw [hprover.ofU64_one, one_mul]
    exact hprover.ofU64_injective.eq_iff
  have hspends : tx.spends ≠ [] := by
    rw [← List.length_pos_iff, h.spends]
    exact Nat.one_pos
  have hproven : tx.Proven ↔ mockInputValue = 2 := by
    rw [← hsatisfied, Transaction.Proven, h.spends]
    constructor
    · intro hverified
      exact ((hverify 1).mp (hverified hspends).2).2
    · intro hsteps _
      exact ⟨hbytes, (hverify 1).mpr ⟨rfl, hsteps⟩⟩
  rw [verifyTransaction_ok_iff, hproven, and_comm]

end

/-! ## The three builders -/

inductive WalletKind where
  | transfer
  | contractDeploy
  | contractCall
  deriving DecidableEq

def WalletKind.nullifierText : WalletKind → String
  | .transfer => "dummy_nf"
  | .contractDeploy => "deploy_nf"
  | .contractCall => "call_nf"

section

variable [Blake3] [Ed25519] [X25519] [ChaCha20Poly1305] [Nova] [NovaProver]

/-- The builder can return this transaction, for some key, arguments and draws, with this input
value. -/
def BuiltWith : WalletKind → UInt64 → Transaction → Prop
  | .transfer, mockInputValue, tx => ∃ draws sk recipient amount fee,
      TxBuilder.buildTransfer draws sk recipient amount fee mockInputValue = some tx
  | .contractDeploy, mockInputValue, tx => ∃ draws sk bytecode fee gasLimit,
      TxBuilder.buildContractDeploy draws sk bytecode fee gasLimit mockInputValue = some tx
  | .contractCall, mockInputValue, tx => ∃ draws sk contractId method args fee gasLimit,
      TxBuilder.buildContractCall draws sk contractId method args fee gasLimit mockInputValue =
        some tx

theorem BuiltWith.mocked {kind : WalletKind} {mockInputValue : UInt64} {tx : Transaction}
    (h : BuiltWith kind mockInputValue tx) :
    Mocked tx mockInputValue ∧ tx.nullifiers = [blake3Of kind.nullifierText.toUTF8.toList] := by
  cases kind with
  | transfer =>
      obtain ⟨draws, sk, recipient, amount, fee, hbuild⟩ := h
      obtain ⟨proof, hproof, htx⟩ := Option.bind_eq_some_iff.mp hbuild
      cases htx
      exact ⟨⟨rfl, draws, hproof⟩, rfl⟩
  | contractDeploy =>
      obtain ⟨draws, sk, bytecode, fee, gasLimit, hbuild⟩ := h
      obtain ⟨proof, hproof, htx⟩ := Option.bind_eq_some_iff.mp hbuild
      cases htx
      exact ⟨⟨rfl, draws, hproof⟩, rfl⟩
  | contractCall =>
      obtain ⟨draws, sk, contractId, method, args, fee, gasLimit, hbuild⟩ := h
      obtain ⟨proof, hproof, htx⟩ := Option.bind_eq_some_iff.mp hbuild
      cases htx
      exact ⟨⟨rfl, draws, hproof⟩, rfl⟩

theorem Cli.builtWith_of_send {draws : BuilderDraws} {toHex keyHex text : String}
    {amount fee : UInt64} {tx : Transaction}
    (hsend : Cli.send draws toHex amount fee keyHex = some (tx, text)) :
    BuiltWith .transfer (amount + fee) tx := by
  obtain ⟨sk, -, hrest⟩ := Option.bind_eq_some_iff.mp hsend
  obtain ⟨pkD, -, hrest⟩ := Option.bind_eq_some_iff.mp hrest
  obtain ⟨built, hbuild, hpair⟩ := Option.bind_eq_some_iff.mp hrest
  cases hpair
  exact ⟨draws, _, _, amount, fee, hbuild⟩

/-! ## Fixed nullifiers -/

def SameKind (a b : Transaction) : Prop :=
  ∃ kind, (∃ v, BuiltWith kind v a) ∧ ∃ v, BuiltWith kind v b

theorem SameKind.not_apart {a b : Transaction} (h : SameKind a b) : ¬ Apart a b := by
  obtain ⟨kind, ⟨_, ha⟩, _, hb⟩ := h
  intro hapart
  apply hapart (blake3Of kind.nullifierText.toUTF8.toList)
  · rw [ha.mocked.2]
    exact List.mem_singleton_self _
  · rw [hb.mocked.2]
    exact List.mem_singleton_self _

/-- In any run of operations on a store, of all that wallets build, at most one transfer, one
deployment and one call are ever applied. -/
theorem wallet_applied_once (store : StateStore) (ops : List StoreOp) :
    ((storeMachine.outputs store ops).flatMap Block.transactions).Pairwise
      fun a b => ¬ SameKind a b := by
  obtain ⟨⟨hnodup, -⟩, -⟩ := fresh_run store ops
  have hsplit : appliedNullifiers store ops =
      ((storeMachine.outputs store ops).flatMap Block.transactions).flatMap
        Transaction.nullifiers := List.flatMap_assoc.symm
  rw [hsplit, List.nodup_flatMap] at hnodup
  refine hnodup.2.imp ?_
  intro a b hdisjoint hsame
  exact hsame.not_apart fun n ha hb => hdisjoint ha hb

variable [Bls]

/-- A payment from the command line, whose input is the sum of the amount and the fee, is in no
block that a node writes, unless this sum wraps around to 2; and once it is in the pool of a
node it stays there. -/
theorem cli_payment_never_mined (hprover : NovaProver.Faithful) {draws : BuilderDraws}
    {toHex keyHex text : String}
    {amount fee : UInt64} {tx : Transaction}
    (hsend : Cli.send draws toHex amount fee keyHex = some (tx, text)) (hsum : amount + fee ≠ 2)
    (start : LoopState) (inputs : List Input) :
    (∀ block outcome, .executed block outcome ∈ engineMachine.outputs start inputs →
        tx ∈ block.transactions → ¬ outcome.written) ∧
      (start.engine.mempool.txs[tx.txId]? = some tx →
        engineMachine.Admissible
          (fun state input => OnlyId tx (Action.outcomes (state.step input).2)) start inputs →
        (engineMachine.final start inputs).engine.mempool.txs[tx.txId]? = some tx) := by
  have hbad : verifyTransaction tx ≠ .ok () := by
    rw [ne_eq, (Cli.builtWith_of_send hsend).mocked.1.verified_iff hprover]
    exact fun h => hsum h.2
  constructor
  · intro block outcome hexecuted htx hwritten
    obtain ⟨⟨state, input⟩, -, houtput⟩ := engineMachine.mem_outputs.mp hexecuted
    have houtcome : (block, outcome) ∈ Action.outcomes (state.step input).2 :=
      List.mem_filterMap.mpr ⟨_, houtput, rfl⟩
    obtain ⟨now, store, pool, hresult⟩ := outcome_evolves (state.evolves_step input) houtcome
    dsimp only at hresult
    rw [hresult] at hwritten
    obtain ⟨hpass, -⟩ := (outcome_written_iff input.env.vm pool).mp hwritten
    exact hbad (hpass.verified tx htx)
  · intro hpooled hadmissible
    exact engineMachine.invariant (fun state => state.engine.mempool.txs[tx.txId]? = some tx)
      (fun state input honly h => kept_evolves (state.evolves_step input) hbad honly h) hpooled
      hadmissible

end

/-! ## A payment of ten coins -/

section

attribute [local instance] Bls.plain Blake3.sum Ed25519.plain X25519.plain
  ChaCha20Poly1305.plain RationalNova.nova RationalNova.prover

def drawn : BuilderDraws where
  outRcm := fill 32 1
  outRho := fill 32 2
  outEsk := fill 32 3
  outRcv := fill 32 4
  spendRcv := fill 32 5
  spendSeed := fill 32 6
  proverDraws := []
  now := 1700000100

def tenCoins : Option (Transaction × String) :=
  Cli.send drawn (Hex.encode (List.replicate 32 9)) 10 10000 (Hex.encode (List.replicate 32 7))

def tenCoinsBuilt : Option Transaction :=
  TxBuilder.buildTransfer drawn { sk := fill 32 7 }
    { diversifier := Vector.replicate 11 0, pkD := fill 32 9 } 10 10000 10010

theorem tenCoins_eq : tenCoins = tenCoinsBuilt.map fun tx => (tx, Hex.encode tx.serialize) := by
  have hkey : Hex.decodeArray 32 (Hex.encode (List.replicate 32 7)) = some (fill 32 7) :=
    Hex.decodeArray_eq_some_iff.mpr (Hex.decode_encode _)
  have hto : Hex.decodeArray 32 (Hex.encode (List.replicate 32 9)) = some (fill 32 9) :=
    Hex.decodeArray_eq_some_iff.mpr (Hex.decode_encode _)
  unfold tenCoins Cli.send
  rw [hkey, hto]
  rfl

def paying (tx : Transaction) : Block :=
  { Block.blank 1 (fill 32 10) [tx] with blsAggregateSig := [0] }

def paymentCommit (tx : Transaction) : List Input :=
  [Event.input (.block (paying tx)),
    Event.input (.vote (Vote.plain 1 0 (paying tx).header.hash .prevote)),
    Event.input (.vote (Vote.plain 1 0 (paying tx).header.hash .precommit))]

def pooling (pool : PrivateMempool) : LoopState :=
  (({ ConsensusEngine.plain [1, 2] 2 with mempool := pool } : ConsensusEngine).enter
    Env.blank 0 0).1

theorem tenCoins_inserted {tx : Transaction} (htx : tx ∈ tenCoinsBuilt) :
    ({} : PrivateMempool).insert (StateStore.withValidators [1, 2]) tx =
      .ok (({} : PrivateMempool).inserted tx) := by
  have hchecks : ∀ tx ∈ tenCoinsBuilt, tx.validateFormat = .ok () ∧ MIN_FEE ≤ tx.fee ∧
      ∀ n ∈ tx.nullifiers, ¬ (StateStore.withValidators [1, 2]).containsNullifier n ∧
        ¬ ({} : PrivateMempool).pendingNullifiers.contains n := by
    decide +kernel
  obtain ⟨hformat, hfee, hfresh⟩ := hchecks tx htx
  exact PrivateMempool.insert_ok_iff.mpr ⟨by decide +kernel, rfl, hformat, hfee, hfresh, rfl⟩

theorem ten_coins_stay :
    ∃ tx text pool, tenCoins = some (tx, text) ∧
      ({} : PrivateMempool).insert (StateStore.withValidators [1, 2]) tx = .ok pool ∧
      Action.outcomes (engineMachine.outputs (pooling pool) (paymentCommit tx)) =
        [(paying tx, .rejected (.invalidProof tx))] ∧
      (∀ block outcome,
        .executed block outcome ∈ engineMachine.outputs (pooling pool) (paymentCommit tx) →
          tx ∈ block.transactions → ¬ outcome.written) ∧
      (engineMachine.final (pooling pool) (paymentCommit tx)).engine.mempool.txs[tx.txId]? =
        some tx := by
  have hbuilt : tenCoinsBuilt.isSome := by decide +kernel
  obtain ⟨tx, htx⟩ := Option.isSome_iff_exists.mp hbuilt
  have hsend : tenCoins = some (tx, Hex.encode tx.serialize) := by
    rw [tenCoins_eq, htx]
    rfl
  have houtcomes : ∀ tx ∈ tenCoinsBuilt, Action.outcomes (engineMachine.outputs
      (pooling (({} : PrivateMempool).inserted tx)) (paymentCommit tx)) =
        [(paying tx, .rejected (.invalidProof tx))] := by
    decide +kernel
  have honly : ∀ tx ∈ tenCoinsBuilt, engineMachine.Admissible
      (fun state input => OnlyId tx (Action.outcomes (state.step input).2))
      (pooling (({} : PrivateMempool).inserted tx)) (paymentCommit tx) := by
    decide +kernel
  obtain ⟨hunwritten, hstays⟩ := cli_payment_never_mined RationalNova.prover_faithful hsend
    (by decide) (pooling (({} : PrivateMempool).inserted tx)) (paymentCommit tx)
  have hpooled : (({} : PrivateMempool).inserted tx).txs[tx.txId]? = some tx := by
    rw [PrivateMempool.get_inserted, if_pos rfl]
  exact ⟨tx, _, _, hsend, tenCoins_inserted htx, houtcomes tx htx, hunwritten,
    hstays hpooled (honly tx htx)⟩

end

end NoirNet
