import NoirNet.Codec
import NoirNet.Lib.FixedWire

/-!
# Reading stored and submitted records

`bincode::deserialize`, which the database and the RPC server call, for the
records of `noirnet_types`.  Each reader is exact for the writer of the same
record: what it accepts is the encoding of a value whose lengths fit a `u64`,
whatever stands behind it.
-/

namespace NoirNet

open Lib.Wire

/-! ## Readers -/

def SpendDescription.deserialize : Reader SpendDescription := do
  let anchor ← Reader.array 32
  let nullifier ← Reader.array 32
  let rk ← Reader.array 32
  let cv ← Reader.array 32
  let spendAuthSig ← Reader.array 64
  return { anchor, nullifier, rk, cv, spendAuthSig }

def OutputDescription.deserialize : Reader OutputDescription := do
  let noteCommitment ← Reader.array 32
  let ephemeralKey ← Reader.array 32
  let encCiphertext ← Reader.fixedVec Reader.byte
  let outCiphertext ← Reader.fixedVec Reader.byte
  let cv ← Reader.array 32
  return { noteCommitment, ephemeralKey, encCiphertext, outCiphertext, cv }

def EncryptedMemo.deserialize : Reader EncryptedMemo := do
  let bytes ← Reader.fixedVec Reader.byte
  return { bytes }

def ContractCall.deserialize : Reader ContractCall := do
  let contractId ← Reader.array 32
  let method ← Reader.fixedString
  let args ← Reader.fixedVec Reader.byte
  let gasLimit ← Reader.fixedU64
  let callerCommitment ← Reader.array 32
  return { contractId, method, args, gasLimit, callerCommitment }

def Transaction.deserialize : Reader Transaction := do
  let version ← Reader.byte
  let chainId ← Reader.fixedU32
  let spends ← Reader.fixedVec SpendDescription.deserialize
  let outputs ← Reader.fixedVec OutputDescription.deserialize
  let fee ← Reader.fixedU64
  let gasLimit ← Reader.fixedU64
  let memo ← Reader.option EncryptedMemo.deserialize
  let contractCall ← Reader.option ContractCall.deserialize
  let deployContract ← Reader.option (Reader.fixedVec Reader.byte)
  let bindingSig ← Reader.array 64
  let timestamp ← Reader.fixedU64
  let aggregateSpendProof ← Reader.fixedVec Reader.byte
  return { version, chainId, spends, outputs, fee, gasLimit, memo, contractCall, deployContract,
           bindingSig, timestamp, aggregateSpendProof }

def BlockHeader.deserialize : Reader BlockHeader := do
  let height ← Reader.fixedU64
  let parentHash ← Reader.array 32
  let stateRoot ← Reader.array 32
  let txRoot ← Reader.array 32
  let nullifierRoot ← Reader.array 32
  let timestamp ← Reader.fixedU64
  let epoch ← Reader.fixedU64
  let vrfOutput ← Reader.array 32
  let proposer ← Reader.array 32
  let chainId ← Reader.fixedU32
  let gasUsed ← Reader.fixedU64
  let gasLimit ← Reader.fixedU64
  return { height, parentHash, stateRoot, txRoot, nullifierRoot, timestamp, epoch, vrfOutput,
           proposer, chainId, gasUsed, gasLimit }

def Block.deserialize : Reader Block := do
  let header ← BlockHeader.deserialize
  let transactions ← Reader.fixedVec Transaction.deserialize
  let aggregateProof ← Reader.fixedVec Reader.byte
  let blsAggregateSig ← Reader.fixedVec Reader.byte
  let validatorBitfield ← Reader.fixedU64
  return { header, transactions, aggregateProof, blsAggregateSig, validatorBitfield }

/-! ## The records of the validator tree -/

def ValidatorStatus.serialize : ValidatorStatus → Bytes
  | .active => putU32 0
  | .waiting => putU32 1
  | .jailed jailedUntilEpoch => putU32 2 ++ putU64 jailedUntilEpoch
  | .tombstoned => putU32 3

def ValidatorStatus.deserialize : Reader ValidatorStatus := do
  let variant ← Reader.fixedU32
  if variant = 0 then return .active
  else if variant = 1 then return .waiting
  else if variant = 2 then
    let jailedUntilEpoch ← Reader.fixedU64
    return .jailed jailedUntilEpoch
  else if variant = 3 then return .tombstoned
  else failure

def ValidatorRegistration.serialize (registration : ValidatorRegistration) : Bytes :=
  registration.blsPubkey.toList ++ (registration.networkPubkey.toList ++
    (putU128 registration.stake ++ (putU16 registration.commissionBps ++
    (putU64 registration.epoch ++ registration.signature.toList))))

def ValidatorRegistration.deserialize : Reader ValidatorRegistration := do
  let blsPubkey ← Reader.array 48
  let networkPubkey ← Reader.array 32
  let stake ← Reader.fixedU128
  let commissionBps ← Reader.fixedU16
  let epoch ← Reader.fixedU64
  let signature ← Reader.array 64
  return { blsPubkey, networkPubkey, stake, commissionBps, epoch, signature }

def ValidatorState.serialize (state : ValidatorState) : Bytes :=
  state.registration.serialize ++ (state.status.serialize ++ (putU128 state.ownStake ++
    (putU128 state.delegatedStake ++ (putU32 state.consecutiveMisses ++
    (putU64 state.lastSignedHeight ++ (putU128 state.pendingRewards ++
    putU128 state.totalSlashed))))))

def ValidatorState.deserialize : Reader ValidatorState := do
  let registration ← ValidatorRegistration.deserialize
  let status ← ValidatorStatus.deserialize
  let ownStake ← Reader.fixedU128
  let delegatedStake ← Reader.fixedU128
  let consecutiveMisses ← Reader.fixedU32
  let lastSignedHeight ← Reader.fixedU64
  let pendingRewards ← Reader.fixedU128
  let totalSlashed ← Reader.fixedU128
  return { registration, status, ownStake, delegatedStake, consecutiveMisses, lastSignedHeight,
           pendingRewards, totalSlashed }

/-! ## Lengths that fit -/

structure OutputDescription.Fits (out : OutputDescription) : Prop where
  encCiphertext : out.encCiphertext.length < lengthBound
  outCiphertext : out.outCiphertext.length < lengthBound

def EncryptedMemo.Fits (memo : EncryptedMemo) : Prop := memo.bytes.length < lengthBound

structure ContractCall.Fits (call : ContractCall) : Prop where
  method : call.method.toUTF8.toList.length < lengthBound
  args : call.args.length < lengthBound

structure Transaction.Fits (tx : Transaction) : Prop where
  spends : FitsVec (fun _ => True) tx.spends
  outputs : FitsVec OutputDescription.Fits tx.outputs
  memo : FitsOption EncryptedMemo.Fits tx.memo
  contractCall : FitsOption ContractCall.Fits tx.contractCall
  deployContract : FitsOption (·.length < lengthBound) tx.deployContract
  aggregateSpendProof : tx.aggregateSpendProof.length < lengthBound

structure Block.Fits (block : Block) : Prop where
  transactions : FitsVec Transaction.Fits block.transactions
  aggregateProof : block.aggregateProof.length < lengthBound
  blsAggregateSig : block.blsAggregateSig.length < lengthBound

/-! ## The readers are exact -/

theorem SpendDescription.exact :
    Exact (fun _ => True) serialize SpendDescription.deserialize := by
  intro s a t
  constructor
  · intro h
    simp only [deserialize, exact_array.bind_iff, Reader.pure_eq_some] at h
    obtain ⟨_, _, ⟨-, rfl⟩, _, _, ⟨-, rfl⟩, _, _, ⟨-, rfl⟩, _, _, ⟨-, rfl⟩, _, _, ⟨-, rfl⟩, h⟩ := h
    obtain ⟨rfl, rfl⟩ := Prod.mk.inj h
    exact ⟨trivial, by simp only [serialize, List.append_assoc]⟩
  · rintro ⟨-, rfl⟩
    simp only [deserialize, serialize, List.append_assoc]
    rw [exact_array.run trivial, exact_array.run trivial, exact_array.run trivial,
      exact_array.run trivial, exact_array.run trivial]
    rfl

theorem OutputDescription.exact : Exact Fits serialize OutputDescription.deserialize := by
  intro s a t
  constructor
  · intro h
    simp only [deserialize, exact_array.bind_iff, exact_bytes.bind_iff,
      Reader.pure_eq_some] at h
    obtain ⟨_, _, ⟨-, rfl⟩, _, _, ⟨-, rfl⟩, _, _, ⟨henc, rfl⟩, _, _, ⟨hout, rfl⟩,
      _, _, ⟨-, rfl⟩, h⟩ := h
    obtain ⟨rfl, rfl⟩ := Prod.mk.inj h
    exact ⟨⟨henc, hout⟩, by simp only [serialize, List.append_assoc]⟩
  · rintro ⟨hfits, rfl⟩
    simp only [deserialize, serialize, List.append_assoc]
    rw [exact_array.run trivial, exact_array.run trivial, exact_bytes.run hfits.encCiphertext,
      exact_bytes.run hfits.outCiphertext, exact_array.run trivial]
    rfl

theorem EncryptedMemo.exact : Exact Fits serialize EncryptedMemo.deserialize := by
  intro s a t
  constructor
  · intro h
    simp only [deserialize, exact_bytes.bind_iff, Reader.pure_eq_some] at h
    obtain ⟨_, _, ⟨hbytes, rfl⟩, h⟩ := h
    obtain ⟨rfl, rfl⟩ := Prod.mk.inj h
    exact ⟨hbytes, rfl⟩
  · rintro ⟨hfits, rfl⟩
    rw [deserialize, serialize, exact_bytes.run hfits]
    rfl

theorem ContractCall.exact : Exact Fits serialize ContractCall.deserialize := by
  intro s a t
  constructor
  · intro h
    simp only [deserialize, exact_array.bind_iff, exact_bytes.bind_iff, exact_string.bind_iff,
      exact_u64.bind_iff, Reader.pure_eq_some] at h
    obtain ⟨_, _, ⟨-, rfl⟩, _, _, ⟨hmethod, rfl⟩, _, _, ⟨hargs, rfl⟩, _, _, ⟨-, rfl⟩,
      _, _, ⟨-, rfl⟩, h⟩ := h
    obtain ⟨rfl, rfl⟩ := Prod.mk.inj h
    exact ⟨⟨hmethod, hargs⟩, by simp only [serialize, List.append_assoc]⟩
  · rintro ⟨hfits, rfl⟩
    simp only [deserialize, serialize, List.append_assoc]
    rw [exact_array.run trivial, exact_string.run hfits.method, exact_bytes.run hfits.args,
      exact_u64.run trivial, exact_array.run trivial]
    rfl

theorem Transaction.exact : Exact Fits serialize Transaction.deserialize := by
  intro s a t
  constructor
  · intro h
    simp only [deserialize, exact_byte.bind_iff, exact_u32.bind_iff, exact_u64.bind_iff,
      exact_array.bind_iff, exact_bytes.bind_iff, (exact_vec SpendDescription.exact).bind_iff,
      (exact_vec OutputDescription.exact).bind_iff, (exact_option EncryptedMemo.exact).bind_iff,
      (exact_option ContractCall.exact).bind_iff, (exact_option exact_bytes).bind_iff,
      Reader.pure_eq_some] at h
    obtain ⟨_, _, ⟨-, rfl⟩, _, _, ⟨-, rfl⟩, _, _, ⟨hspends, rfl⟩, _, _, ⟨houtputs, rfl⟩,
      _, _, ⟨-, rfl⟩, _, _, ⟨-, rfl⟩, _, _, ⟨hmemo, rfl⟩, _, _, ⟨hcall, rfl⟩,
      _, _, ⟨hdeploy, rfl⟩, _, _, ⟨-, rfl⟩, _, _, ⟨-, rfl⟩, _, _, ⟨hproof, rfl⟩, h⟩ := h
    obtain ⟨rfl, rfl⟩ := Prod.mk.inj h
    exact ⟨⟨hspends, houtputs, hmemo, hcall, hdeploy, hproof⟩,
      by simp only [serialize, List.append_assoc]⟩
  · rintro ⟨hfits, rfl⟩
    simp only [deserialize, serialize, List.append_assoc]
    rw [exact_byte.run trivial, exact_u32.run trivial,
      (exact_vec SpendDescription.exact).run hfits.spends,
      (exact_vec OutputDescription.exact).run hfits.outputs, exact_u64.run trivial,
      exact_u64.run trivial, (exact_option EncryptedMemo.exact).run hfits.memo,
      (exact_option ContractCall.exact).run hfits.contractCall,
      (exact_option exact_bytes).run hfits.deployContract, exact_array.run trivial,
      exact_u64.run trivial, exact_bytes.run hfits.aggregateSpendProof]
    rfl

theorem BlockHeader.exact : Exact (fun _ => True) serialize BlockHeader.deserialize := by
  intro s a t
  constructor
  · intro h
    simp only [deserialize, exact_u32.bind_iff, exact_u64.bind_iff, exact_array.bind_iff,
      Reader.pure_eq_some] at h
    obtain ⟨_, _, ⟨-, rfl⟩, _, _, ⟨-, rfl⟩, _, _, ⟨-, rfl⟩, _, _, ⟨-, rfl⟩, _, _, ⟨-, rfl⟩,
      _, _, ⟨-, rfl⟩, _, _, ⟨-, rfl⟩, _, _, ⟨-, rfl⟩, _, _, ⟨-, rfl⟩, _, _, ⟨-, rfl⟩,
      _, _, ⟨-, rfl⟩, _, _, ⟨-, rfl⟩, h⟩ := h
    obtain ⟨rfl, rfl⟩ := Prod.mk.inj h
    exact ⟨trivial, by simp only [serialize, List.append_assoc]⟩
  · rintro ⟨-, rfl⟩
    simp only [deserialize, serialize, List.append_assoc]
    rw [exact_u64.run trivial, exact_array.run trivial, exact_array.run trivial,
      exact_array.run trivial, exact_array.run trivial, exact_u64.run trivial,
      exact_u64.run trivial, exact_array.run trivial, exact_array.run trivial,
      exact_u32.run trivial, exact_u64.run trivial, exact_u64.run trivial]
    rfl

theorem Block.exact : Exact Fits serialize Block.deserialize := by
  intro s a t
  constructor
  · intro h
    simp only [deserialize, BlockHeader.exact.bind_iff, (exact_vec Transaction.exact).bind_iff,
      exact_bytes.bind_iff, exact_u64.bind_iff, Reader.pure_eq_some] at h
    obtain ⟨_, _, ⟨-, rfl⟩, _, _, ⟨htxs, rfl⟩, _, _, ⟨hproof, rfl⟩, _, _, ⟨hsig, rfl⟩,
      _, _, ⟨-, rfl⟩, h⟩ := h
    obtain ⟨rfl, rfl⟩ := Prod.mk.inj h
    exact ⟨⟨htxs, hproof, hsig⟩, by simp only [serialize, List.append_assoc]⟩
  · rintro ⟨hfits, rfl⟩
    simp only [deserialize, serialize, List.append_assoc]
    rw [BlockHeader.exact.run trivial, (exact_vec Transaction.exact).run hfits.transactions,
      exact_bytes.run hfits.aggregateProof, exact_bytes.run hfits.blsAggregateSig,
      exact_u64.run trivial]
    rfl

theorem ValidatorStatus.exact :
    Exact (fun _ => True) serialize ValidatorStatus.deserialize := by
  intro s a t
  constructor
  · intro h
    rw [deserialize, exact_u32.bind_iff] at h
    obtain ⟨variant, u, ⟨-, rfl⟩, h⟩ := h
    refine ⟨trivial, ?_⟩
    by_cases h0 : variant = 0
    · subst h0
      obtain ⟨rfl, rfl⟩ := Prod.mk.inj (Reader.pure_eq_some.mp h)
      rfl
    by_cases h1 : variant = 1
    · subst h1
      obtain ⟨rfl, rfl⟩ := Prod.mk.inj (Reader.pure_eq_some.mp h)
      rfl
    by_cases h2 : variant = 2
    · subst h2
      rw [if_neg h0, if_neg h1, if_pos rfl, exact_u64.bind_iff] at h
      obtain ⟨_, _, ⟨-, rfl⟩, h⟩ := h
      obtain ⟨rfl, rfl⟩ := Prod.mk.inj (Reader.pure_eq_some.mp h)
      simp only [serialize, List.append_assoc]
    by_cases h3 : variant = 3
    · subst h3
      obtain ⟨rfl, rfl⟩ := Prod.mk.inj (Reader.pure_eq_some.mp h)
      rfl
    · rw [if_neg h0, if_neg h1, if_neg h2, if_neg h3] at h
      exact absurd h Reader.not_failure
  · rintro ⟨-, rfl⟩
    cases a with
    | active => rw [deserialize, serialize, exact_u32.run trivial]; rfl
    | waiting => rw [deserialize, serialize, exact_u32.run trivial]; rfl
    | jailed jailedUntilEpoch =>
        rw [deserialize, serialize, List.append_assoc, exact_u32.run trivial, if_neg (by decide),
          if_neg (by decide), if_pos rfl, exact_u64.run trivial]
        rfl
    | tombstoned => rw [deserialize, serialize, exact_u32.run trivial]; rfl

theorem ValidatorRegistration.exact :
    Exact (fun _ => True) serialize ValidatorRegistration.deserialize := by
  intro s a t
  constructor
  · intro h
    simp only [deserialize, exact_array.bind_iff, exact_u128.bind_iff, exact_u16.bind_iff,
      exact_u64.bind_iff, Reader.pure_eq_some] at h
    obtain ⟨_, _, ⟨-, rfl⟩, _, _, ⟨-, rfl⟩, _, _, ⟨-, rfl⟩, _, _, ⟨-, rfl⟩, _, _, ⟨-, rfl⟩,
      _, _, ⟨-, rfl⟩, h⟩ := h
    obtain ⟨rfl, rfl⟩ := Prod.mk.inj h
    exact ⟨trivial, by simp only [serialize, List.append_assoc]⟩
  · rintro ⟨-, rfl⟩
    simp only [deserialize, serialize, List.append_assoc]
    rw [exact_array.run trivial, exact_array.run trivial, exact_u128.run trivial,
      exact_u16.run trivial, exact_u64.run trivial, exact_array.run trivial]
    rfl

theorem ValidatorState.exact : Exact (fun _ => True) serialize ValidatorState.deserialize := by
  intro s a t
  constructor
  · intro h
    simp only [deserialize, ValidatorRegistration.exact.bind_iff, ValidatorStatus.exact.bind_iff,
      exact_u128.bind_iff, exact_u32.bind_iff, exact_u64.bind_iff, Reader.pure_eq_some] at h
    obtain ⟨_, _, ⟨-, rfl⟩, _, _, ⟨-, rfl⟩, _, _, ⟨-, rfl⟩, _, _, ⟨-, rfl⟩, _, _, ⟨-, rfl⟩,
      _, _, ⟨-, rfl⟩, _, _, ⟨-, rfl⟩, _, _, ⟨-, rfl⟩, h⟩ := h
    obtain ⟨rfl, rfl⟩ := Prod.mk.inj h
    exact ⟨trivial, by simp only [serialize, List.append_assoc]⟩
  · rintro ⟨-, rfl⟩
    simp only [deserialize, serialize, List.append_assoc]
    rw [ValidatorRegistration.exact.run trivial, ValidatorStatus.exact.run trivial,
      exact_u128.run trivial, exact_u128.run trivial, exact_u32.run trivial,
      exact_u64.run trivial, exact_u128.run trivial, exact_u128.run trivial]
    rfl

/-! ## Short records fit -/

theorem fitsVec_of_length {α : Type} {fits : α → Prop} {put : α → List UInt8}
    (hpos : ∀ a, 1 ≤ (put a).length) (hfits : ∀ a, (put a).length < lengthBound → fits a)
    {as : List α} (h : (putVec put as).length < lengthBound) : FitsVec fits as := by
  have hlen : (as.flatMap put).length < lengthBound := by
    rw [putVec, List.length_append] at h
    omega
  refine ⟨lt_of_le_of_lt (length_le_flatMap hpos as) hlen, ?_⟩
  intro a ha
  have hsub : (put a).Sublist (as.flatMap put) := by
    rw [List.flatMap_def]
    exact List.sublist_flatten_of_mem (List.mem_map_of_mem ha)
  exact hfits a (lt_of_le_of_lt hsub.length_le hlen)

theorem fitsOption_of_length {α : Type} {fits : α → Prop} {put : α → List UInt8}
    (hfits : ∀ a, (put a).length < lengthBound → fits a) {a : Option α}
    (h : (putOption put a).length < lengthBound) : FitsOption fits a := by
  rintro b rfl
  apply hfits
  rw [putOption, List.length_cons] at h
  omega

theorem putBytes_length (bs : Bytes) : (putBytes bs).length = 8 + bs.length := by
  simp [putBytes, putVec]

theorem OutputDescription.fits_of_length {out : OutputDescription}
    (h : out.serialize.length < lengthBound) : out.Fits := by
  simp only [serialize, List.length_append, putBytes_length] at h
  exact ⟨by omega, by omega⟩

theorem EncryptedMemo.fits_of_length {memo : EncryptedMemo}
    (h : memo.serialize.length < lengthBound) : memo.Fits := by
  rw [serialize, putBytes_length] at h
  exact lt_of_le_of_lt (Nat.le_add_left _ _) h

theorem ContractCall.fits_of_length {call : ContractCall}
    (h : call.serialize.length < lengthBound) : call.Fits := by
  simp only [serialize, putString, List.length_append, putBytes_length] at h
  exact ⟨by omega, by omega⟩

theorem Transaction.fits_of_length {tx : Transaction} (h : tx.serialize.length < lengthBound) :
    tx.Fits := by
  simp only [serialize, List.length_append] at h
  have hspends : (putVec SpendDescription.serialize tx.spends).length < lengthBound := by omega
  have houtputs : (putVec OutputDescription.serialize tx.outputs).length < lengthBound := by omega
  have hmemo : (putOption EncryptedMemo.serialize tx.memo).length < lengthBound := by omega
  have hcall : (putOption ContractCall.serialize tx.contractCall).length < lengthBound := by omega
  have hdeploy : (putOption putBytes tx.deployContract).length < lengthBound := by omega
  have hproof : (putBytes tx.aggregateSpendProof).length < lengthBound := by omega
  rw [putBytes_length] at hproof
  refine ⟨fitsVec_of_length ?_ (fun _ _ => trivial) hspends,
    fitsVec_of_length ?_ (fun _ => OutputDescription.fits_of_length) houtputs,
    fitsOption_of_length (fun _ => EncryptedMemo.fits_of_length) hmemo,
    fitsOption_of_length (fun _ => ContractCall.fits_of_length) hcall,
    fitsOption_of_length ?_ hdeploy, by omega⟩
  · intro spend
    simp [SpendDescription.serialize]
  · intro out
    simp only [OutputDescription.serialize, List.length_append, Vector.length_toList]
    omega
  · intro bytecode hbytecode
    rw [putBytes_length] at hbytecode
    omega

theorem Block.fits_of_length {block : Block} (h : block.serialize.length < lengthBound) :
    block.Fits := by
  simp only [serialize, List.length_append, putBytes_length] at h
  have htxs : (putVec Transaction.serialize block.transactions).length < lengthBound := by omega
  refine ⟨fitsVec_of_length ?_ (fun _ => Transaction.fits_of_length) htxs, by omega, by omega⟩
  intro tx
  simp only [Transaction.serialize, List.length_append, List.length_singleton]
  omega

end NoirNet
