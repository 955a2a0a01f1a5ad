import Mathlib.Data.List.GetD
import NoirNet.Concrete
import NoirNet.Network.Gossip

/-!
# The gossip decoder never undoes the encoder

The two sides use different integer encodings.  A decoder that returns the
message it was sent has to leave the encoder's positions at the first integer,
and never gets back to them: behind the encoder it stops in front of the end,
and ahead of it the lengths it would have to read exceed the message limit.
-/

namespace NoirNet

open Lib.Wire Reader

/-! ## What a read returns, field by field -/

theorem Transaction.read_eq_some {tx : Transaction} {s out : Bytes} (h : read s = some (tx, out)) :
    ∃ t₁ t₂ t₃ t₄ t₅ t₆ t₇ t₈ t₉ t₁₀ t₁₁,
      byte s = some (tx.version, t₁) ∧ u32 t₁ = some (tx.chainId, t₂) ∧
      vec SpendDescription.read t₂ = some (tx.spends, t₃) ∧
      vec OutputDescription.read t₃ = some (tx.outputs, t₄) ∧ u64 t₄ = some (tx.fee, t₅) ∧
      u64 t₅ = some (tx.gasLimit, t₆) ∧ option EncryptedMemo.read t₆ = some (tx.memo, t₇) ∧
      option ContractCall.read t₇ = some (tx.contractCall, t₈) ∧
      option (vec byte) t₈ = some (tx.deployContract, t₉) ∧
      array 64 t₉ = some (tx.bindingSig, t₁₀) ∧ u64 t₁₀ = some (tx.timestamp, t₁₁) ∧
      vec byte t₁₁ = some (tx.aggregateSpendProof, out) := by
  simp only [read, bind_eq_some, pure_eq_some] at h
  obtain ⟨_, t₁, h₁, _, t₂, h₂, _, t₃, h₃, _, t₄, h₄, _, t₅, h₅, _, t₆, h₆, _, t₇, h₇, _, t₈, h₈,
    _, t₉, h₉, _, t₁₀, h₁₀, _, t₁₁, h₁₁, _, t₁₂, h₁₂, h⟩ := h
  obtain ⟨rfl, rfl⟩ := Prod.mk.inj h
  exact ⟨t₁, t₂, t₃, t₄, t₅, t₆, t₇, t₈, t₉, t₁₀, t₁₁, h₁, h₂, h₃, h₄, h₅, h₆, h₇, h₈, h₉, h₁₀,
    h₁₁, h₁₂⟩

theorem BlockHeader.read_eq_some {header : BlockHeader} {s out : Bytes}
    (h : read s = some (header, out)) :
    ∃ t₁ t₂ t₃ t₄ t₅ t₆ t₇ t₈ t₉ t₁₀ t₁₁,
      u64 s = some (header.height, t₁) ∧ array 32 t₁ = some (header.parentHash, t₂) ∧
      array 32 t₂ = some (header.stateRoot, t₃) ∧ array 32 t₃ = some (header.txRoot, t₄) ∧
      array 32 t₄ = some (header.nullifierRoot, t₅) ∧ u64 t₅ = some (header.timestamp, t₆) ∧
      u64 t₆ = some (header.epoch, t₇) ∧ array 32 t₇ = some (header.vrfOutput, t₈) ∧
      array 32 t₈ = some (header.proposer, t₉) ∧ u32 t₉ = some (header.chainId, t₁₀) ∧
      u64 t₁₀ = some (header.gasUsed, t₁₁) ∧ u64 t₁₁ = some (header.gasLimit, out) := by
  simp only [read, bind_eq_some, pure_eq_some] at h
  obtain ⟨_, t₁, h₁, _, t₂, h₂, _, t₃, h₃, _, t₄, h₄, _, t₅, h₅, _, t₆, h₆, _, t₇, h₇, _, t₈, h₈,
    _, t₉, h₉, _, t₁₀, h₁₀, _, t₁₁, h₁₁, _, t₁₂, h₁₂, h⟩ := h
  obtain ⟨rfl, rfl⟩ := Prod.mk.inj h
  exact ⟨t₁, t₂, t₃, t₄, t₅, t₆, t₇, t₈, t₉, t₁₀, t₁₁, h₁, h₂, h₃, h₄, h₅, h₆, h₇, h₈, h₉, h₁₀,
    h₁₁, h₁₂⟩

theorem Block.read_eq_some {block : Block} {s out : Bytes} (h : read s = some (block, out)) :
    ∃ t₁ t₂ t₃ t₄, BlockHeader.read s = some (block.header, t₁) ∧
      vec Transaction.read t₁ = some (block.transactions, t₂) ∧
      vec byte t₂ = some (block.aggregateProof, t₃) ∧
      vec byte t₃ = some (block.blsAggregateSig, t₄) ∧
      u64 t₄ = some (block.validatorBitfield, out) := by
  simp only [read, bind_eq_some, pure_eq_some] at h
  obtain ⟨_, t₁, h₁, _, t₂, h₂, _, t₃, h₃, _, t₄, h₄, _, t₅, h₅, h⟩ := h
  obtain ⟨rfl, rfl⟩ := Prod.mk.inj h
  exact ⟨t₁, t₂, t₃, t₄, h₁, h₂, h₃, h₄, h₅⟩

/-! ## Votes -/

theorem Vote.decode_serialize (vote : Vote) : decode Vote.read vote.serialize = none := by
  have hlen : vote.serialize.length = 176 := by
    cases hvoteType : vote.voteType <;>
      simp [serialize, VoteType.serialize, hvoteType]
  cases hread : decode Vote.read vote.serialize with
  | none => rfl
  | some vote' =>
      have h := decode_eq_some.mp hread
      simp only [read, VoteType.read, bind_eq_some, pure_eq_some] at h
      obtain ⟨_, t₁, h₁, _, t₂, h₂, _, t₃, h₃, _, t₄, ⟨variant, t₄', h₄, hvariant⟩, _, t₅, h₅, _,
        t₆, h₆, h⟩ := h
      have ht₄ : t₄ = t₄' := by
        split at hvariant
        · exact (Prod.mk.inj (pure_eq_some.mp hvariant)).2
        · split at hvariant
          · exact (Prod.mk.inj (pure_eq_some.mp hvariant)).2
          · exact absurd hvariant not_failure
      subst ht₄
      obtain ⟨-, rfl⟩ := Prod.mk.inj h
      obtain ⟨a, ha⟩ := varint_length (u64_eq_some h₁)
      obtain ⟨b, hb⟩ := varint_length (u32_eq_some h₂)
      obtain ⟨c, hc⟩ := varint_length (u32_eq_some h₄)
      have hhash := congrArg List.length (array_eq_some.mp h₃)
      have hid := congrArg List.length (array_eq_some.mp h₅)
      have hsig := congrArg List.length (array_eq_some.mp h₆)
      simp at hhash hid hsig
      omega

/-! ## Transactions -/

theorem Transaction.behind_body {tx : Transaction} {s out : Bytes}
    {t₃ t₄ t₅ t₆ t₇ t₈ t₉ t₁₀ t₁₁ : Bytes}
    (hs : Behind (putVec SpendDescription.serialize tx.spends ++
      (putVec OutputDescription.serialize tx.outputs ++ (putU64 tx.fee ++ (putU64 tx.gasLimit ++
      (putOption EncryptedMemo.serialize tx.memo ++
      (putOption ContractCall.serialize tx.contractCall ++
      (putOption putBytes tx.deployContract ++ (tx.bindingSig.toList ++
      (putU64 tx.timestamp ++ (putBytes tx.aggregateSpendProof ++ [])))))))))) s)
    (h₃ : vec SpendDescription.read s = some (tx.spends, t₃))
    (h₄ : vec OutputDescription.read t₃ = some (tx.outputs, t₄))
    (h₅ : u64 t₄ = some (tx.fee, t₅)) (h₆ : u64 t₅ = some (tx.gasLimit, t₆))
    (h₇ : option EncryptedMemo.read t₆ = some (tx.memo, t₇))
    (h₈ : option ContractCall.read t₇ = some (tx.contractCall, t₈))
    (h₉ : option (vec byte) t₈ = some (tx.deployContract, t₉))
    (h₁₀ : array 64 t₉ = some (tx.bindingSig, t₁₀)) (h₁₁ : u64 t₁₀ = some (tx.timestamp, t₁₁))
    (h₁₂ : vec byte t₁₁ = some (tx.aggregateSpendProof, out)) : out ≠ [] := by
  have hs₃ := (lags_vec _ _ _).behind hs h₃
  have hs₄ := (lags_vec _ _ _).behind hs₃ h₄
  have hs₅ := (lags_u64 _).behind hs₄ h₅
  have hs₆ := (lags_u64 _).behind hs₅ h₆
  have hs₇ := (lags_option _ _ _).behind hs₆ h₇
  have hs₈ := (lags_option _ _ _).behind hs₇ h₈
  have hs₉ := (lags_option _ _ _).behind hs₈ h₉
  have hs₁₀ := (lags_array _).behind hs₉ h₁₀
  have hs₁₁ := (lags_u64 _).behind hs₁₀ h₁₁
  exact ((lags_vec _ _ _).behind hs₁₁ h₁₂).ne_nil

theorem digit_eq_zero_of_length {n i : Nat} (hn : n ≤ MAX_P2P_MESSAGE_SIZE) (hi : 3 ≤ i) :
    digit n i = 0 := by
  apply digit_eq_zero (w := 3) _ hi
  rw [show MAX_P2P_MESSAGE_SIZE = 10485760 from rfl] at hn
  omega

theorem length_le_putVec {α : Type} {put : α → Bytes} (hput : ∀ a, 1 ≤ (put a).length)
    (as : List α) : as.length ≤ (putVec put as).length := by
  have hbody : as.length ≤ (as.flatMap put).length := by
    induction as with
    | nil => exact le_rfl
    | cons a as ih =>
        have ha := hput a
        rw [List.length_cons, List.flatMap_cons, List.length_append]
        omega
  rw [putVec, List.length_append]
  omega

/-- The first integer of a transaction, read by `DefaultOptions`: the decoder is
behind the encoder after it. -/
theorem Transaction.chainId_narrow {chainId : UInt32} {n : Nat} {Y s out : Bytes}
    (hn : n ≤ MAX_P2P_MESSAGE_SIZE) (hread : u32 (putU32 chainId ++ (leBytes 8 n ++ Y)) =
      some (chainId, s)) (hlen : varint s = some (n, out)) :
    Behind (leBytes 8 n ++ Y) s := by
  have hahead : Ahead 0 (leBytes 4 chainId.toNat ++ (leBytes 8 n ++ Y)) := nofun
  have hzero (i : Nat) (hi : 3 ≤ i) : digit n i = 0 := digit_eq_zero_of_length hn hi
  have hn8 : n < 256 ^ 8 := by
    rw [show MAX_P2P_MESSAGE_SIZE = 10485760 from rfl] at hn
    omega
  rcases hahead.varint (.inl rfl) chainId.toNat_lt (u32_eq_some hread) with
    ⟨-, hv, hbytes⟩ | ⟨rfl, hone, -⟩ | ⟨-, rfl, hone, -, hfour⟩
  · exact behind_of_narrow (w := 2) hv hbytes
  · -- one byte ahead of a length: all eight bytes of the length are nonzero
    exfalso
    rcases hone.varint (.inr rfl) hn8 hlen with ⟨h, -⟩ | ⟨-, -, hdigits⟩ | ⟨h, -⟩
    · omega
    · exact hdigits 3 (by omega) (hzero 3 le_rfl)
    · omega
  · -- five bytes into a length whose first byte is nonzero: the tag there is zero
    exfalso
    have hfirst : digit n 0 ≠ 0 := by
      rw [← getD_int n Y (by omega : 0 < 8)]
      exact hone 0 (by omega)
    have htag : (leBytes 8 n ++ Y).drop 5 = 0 :: (leBytes 8 n ++ Y).drop 6 := by
      have hsplit : (leBytes 8 n ++ Y).drop 5 =
          (leBytes 8 n ++ Y).getD 5 0 :: (leBytes 8 n ++ Y).drop 6 := by
        rw [List.getD_eq_getElem _ _ (by simp; omega)]
        exact List.drop_eq_getElem_cons (by simp; omega)
      rw [hsplit, getD_int n Y (by omega), hzero 5 (by omega)]
    rw [Nat.zero_add, htag] at hlen
    obtain ⟨rfl, -⟩ := varint_of_zero hlen
    exact hfirst (digit_eq_zero (w := 0) (by omega) le_rfl)

theorem Transaction.decode_serialize_ne (tx : Transaction)
    (hsize : tx.serialize.length ≤ MAX_P2P_MESSAGE_SIZE) :
    decode Transaction.read tx.serialize ≠ some tx := by
  intro hread
  obtain ⟨t₁, t₂, t₃, t₄, t₅, t₆, t₇, t₈, t₉, t₁₀, t₁₁, h₁, h₂, h₃, h₄, h₅, h₆, h₇, h₈, h₉, h₁₀,
    h₁₁, h₁₂⟩ := read_eq_some (decode_eq_some.mp hread)
  obtain ⟨u, hlength⟩ := vec_length h₃
  have hspends : tx.spends.length ≤ MAX_P2P_MESSAGE_SIZE := by
    have hput (spend : SpendDescription) : 1 ≤ spend.serialize.length := by
      simp [SpendDescription.serialize]
    have hvec := length_le_putVec hput tx.spends
    simp only [serialize, List.length_append] at hsize
    omega
  have hchain : u32 (putU32 tx.chainId ++ (leBytes 8 tx.spends.length ++
      (tx.spends.flatMap SpendDescription.serialize ++
      (putVec OutputDescription.serialize tx.outputs ++ (putU64 tx.fee ++ (putU64 tx.gasLimit ++
      (putOption EncryptedMemo.serialize tx.memo ++
      (putOption ContractCall.serialize tx.contractCall ++
      (putOption putBytes tx.deployContract ++ (tx.bindingSig.toList ++
      (putU64 tx.timestamp ++ putBytes tx.aggregateSpendProof))))))))))) =
        some (tx.chainId, t₂) := by
    have hbytes := (List.cons.inj (byte_eq_some.mp h₁)).2
    rw [← h₂, ← hbytes]
    simp only [putVec, List.append_assoc]
    rfl
  have hbehind := chainId_narrow hspends hchain hlength
  rw [← List.append_assoc, ← putVec, ← List.append_nil (putBytes tx.aggregateSpendProof)] at hbehind
  exact behind_body hbehind h₃ h₄ h₅ h₆ h₇ h₈ h₉ h₁₀ h₁₁ h₁₂ rfl

/-! ## Blocks -/

def Block.tail (block : Block) : Bytes :=
  block.header.parentHash.toList ++ (block.header.stateRoot.toList ++
    (block.header.txRoot.toList ++ (block.header.nullifierRoot.toList ++
    (putU64 block.header.timestamp ++ (putU64 block.header.epoch ++
    (block.header.vrfOutput.toList ++ (block.header.proposer.toList ++
    (putU32 block.header.chainId ++ (putU64 block.header.gasUsed ++
    (putU64 block.header.gasLimit ++ (putVec Transaction.serialize block.transactions ++
    (putBytes block.aggregateProof ++ (putBytes block.blsAggregateSig ++
    putU64 block.validatorBitfield)))))))))))))

theorem Block.serialize_eq (block : Block) :
    block.serialize = putU64 block.header.height ++ block.tail := by
  simp only [serialize, BlockHeader.serialize, tail, List.append_assoc]

section Ahead

variable {n : Nat} {R : Bytes}

/-- Six bytes ahead of a list length the length exceeds the message limit. -/
theorem not_ahead_of_length (hn : n ≤ MAX_P2P_MESSAGE_SIZE) : ¬ Ahead 6 (leBytes 8 n ++ R) := by
  intro h
  have hfive := h 5 (by omega)
  rw [getD_int n R (by omega)] at hfive
  exact hfive (digit_eq_zero_of_length hn (by omega))

theorem wide_of_digit {v : UInt64} {i : Nat} {s out : Bytes} (hi : 2 ≤ i)
    (hdigit : digit v.toNat i ≠ 0) (hread : u64 s = some (v, out)) :
    ∃ w tag, (w = 4 ∨ w = 8) ∧ tag ≠ 0 ∧ i < w ∧ s = tag :: (leBytes w v.toNat ++ out) := by
  rcases varint_cases (u64_eq_some hread) with ⟨hv, -⟩ | ⟨w, tag, hw, htag, hv, hs⟩
  · exact absurd (digit_eq_zero (w := 1) (by omega) (by omega)) hdigit
  · have hiw : i < w := by
      by_contra hge
      exact hdigit (digit_eq_zero hv (by omega))
    exact ⟨w, tag, by omega, htag, hiw, hs⟩

section

variable {gasUsed gasLimit : UInt64} {t out : Bytes} {tag : UInt8}
  (hn : n ≤ MAX_P2P_MESSAGE_SIZE) (hlow : ∀ i < 4, digit gasUsed.toNat i ≠ 0)
  (hlimit : u64 t = some (gasLimit, out))

include hn hlow hlimit

/-- The gas used is read four bytes wide: the gas limit is read at offset 5 of itself. -/
theorem not_gas_of_four (htag : tag ≠ 0)
    (hs : putU64 gasLimit ++ (leBytes 8 n ++ R) = tag :: (leBytes 4 gasUsed.toNat ++ t)) :
    False := by
  have hahead : Ahead 5 (putU64 gasLimit ++ (leBytes 8 n ++ R)) := by
    intro j hj
    rw [hs]
    cases j with
    | zero => exact htag
    | succ j =>
        rw [List.getD_cons_succ, getD_int _ _ (by omega)]
        exact hlow j (by omega)
  have ht : t = (putU64 gasLimit ++ (leBytes 8 n ++ R)).drop 5 := by
    rw [hs, List.drop_succ_cons, List.drop_left' (length_leBytes 4 _)]
  rw [ht] at hlimit
  exact not_ahead_of_length hn (hahead.u64 (by omega) hlimit).2

/-- The gas used is read eight bytes wide: the gas limit is read at offset 1 of the length
behind it. -/
theorem not_gas_of_eight
    (hs : putU64 gasLimit ++ (leBytes 8 n ++ R) = tag :: (leBytes 8 gasUsed.toNat ++ t)) :
    False := by
  have hgas (i : Nat) (hi : i < 4) : digit gasLimit.toNat (i + 1) ≠ 0 := by
    have hat : (putU64 gasLimit ++ (leBytes 8 n ++ R)).getD (i + 1) 0 = digit gasUsed.toNat i := by
      rw [hs, List.getD_cons_succ, getD_int _ _ (by omega)]
    rw [putU64, getD_int _ _ (by omega)] at hat
    rw [hat]
    exact hlow i hi
  have ht : t = (leBytes 8 n ++ R).drop 1 := by
    have hdrop := congrArg (List.drop 9) hs
    rw [List.drop_succ_cons, List.drop_left' (length_leBytes 8 _)] at hdrop
    rw [← hdrop]
    exact (drop_int 8 gasLimit.toNat 1 (leBytes 8 n ++ R)).symm
  obtain ⟨w, tag', hw, -, hiw, hs'⟩ :=
    wide_of_digit (i := 4) (by omega) (hgas 3 (by omega)) hlimit
  have hw8 : w = 8 := by omega
  subst hw8
  have hfive : (leBytes 8 n ++ R).getD 5 0 = digit gasLimit.toNat 3 := by
    have hdrop : ((leBytes 8 n ++ R).drop 1).getD 4 0 = (leBytes 8 n ++ R).getD 5 0 := by
      simp [List.getD_eq_getElem?_getD]
    rw [← hdrop, ← ht, hs', List.getD_cons_succ, getD_int _ _ (by omega)]
  rw [getD_int n R (by omega), digit_eq_zero_of_length hn (by omega)] at hfive
  exact hgas 2 (by omega) hfive.symm

/-- After a chain id read eight bytes wide the decoder stands at the gas limit,
looking for the gas used. -/
theorem not_gas_after_wide
    (hused : u64 (putU64 gasLimit ++ (leBytes 8 n ++ R)) = some (gasUsed, t)) :
    False := by
  obtain ⟨w, tag, hw, htag, -, hs⟩ := wide_of_digit (i := 3) (by omega) (hlow 3 (by omega)) hused
  rcases hw with rfl | rfl
  · exact not_gas_of_four hn hlow hlimit htag hs
  · exact not_gas_of_eight hn hlow hlimit hs

end

end Ahead

/-- Behind the encoder after the height, the decoder stops in front of the end. -/
theorem Block.behind_tail {block : Block} {s out : Bytes}
    {t₂ t₃ t₄ t₅ t₆ t₇ t₈ t₉ t₁₀ t₁₁ u₁ u₂ u₃ u₄ : Bytes} (hs : Behind block.tail s)
    (h₂ : array 32 s = some (block.header.parentHash, t₂))
    (h₃ : array 32 t₂ = some (block.header.stateRoot, t₃))
    (h₄ : array 32 t₃ = some (block.header.txRoot, t₄))
    (h₅ : array 32 t₄ = some (block.header.nullifierRoot, t₅))
    (h₆ : u64 t₅ = some (block.header.timestamp, t₆))
    (h₇ : u64 t₆ = some (block.header.epoch, t₇))
    (h₈ : array 32 t₇ = some (block.header.vrfOutput, t₈))
    (h₉ : array 32 t₈ = some (block.header.proposer, t₉))
    (h₁₀ : u32 t₉ = some (block.header.chainId, t₁₀))
    (h₁₁ : u64 t₁₀ = some (block.header.gasUsed, t₁₁))
    (h₁₂ : u64 t₁₁ = some (block.header.gasLimit, u₁))
    (h₁₃ : vec Transaction.read u₁ = some (block.transactions, u₂))
    (h₁₄ : vec byte u₂ = some (block.aggregateProof, u₃))
    (h₁₅ : vec byte u₃ = some (block.blsAggregateSig, u₄))
    (h₁₆ : u64 u₄ = some (block.validatorBitfield, out)) : out ≠ [] := by
  rw [tail, ← List.append_nil (putU64 block.validatorBitfield)] at hs
  have hs₂ := (lags_array _).behind hs h₂
  have hs₃ := (lags_array _).behind hs₂ h₃
  have hs₄ := (lags_array _).behind hs₃ h₄
  have hs₅ := (lags_array _).behind hs₄ h₅
  have hs₆ := (lags_u64 _).behind hs₅ h₆
  have hs₇ := (lags_u64 _).behind hs₆ h₇
  have hs₈ := (lags_array _).behind hs₇ h₈
  have hs₉ := (lags_array _).behind hs₈ h₉
  have hs₁₀ := (lags_u32 _).behind hs₉ h₁₀
  have hs₁₁ := (lags_u64 _).behind hs₁₀ h₁₁
  have hs₁₂ := (lags_u64 _).behind hs₁₁ h₁₂
  have hs₁₃ := (lags_vec _ _ _).behind hs₁₂ h₁₃
  have hs₁₄ := (lags_vec _ _ _).behind hs₁₃ h₁₄
  have hs₁₅ := (lags_vec _ _ _).behind hs₁₄ h₁₅
  exact ((lags_u64 _).behind hs₁₅ h₁₆).ne_nil

/-- One byte ahead of the encoder after the height, the decoder gets further and
further ahead, up to the length of the transaction list. -/
theorem Block.not_ahead_tail {block : Block} {t₂ t₃ t₄ t₅ t₆ t₇ t₈ t₉ t₁₀ t₁₁ u₁ : Bytes}
    (hlength : block.transactions.length ≤ MAX_P2P_MESSAGE_SIZE) (hahead : Ahead 1 block.tail)
    (h₂ : array 32 (block.tail.drop 1) = some (block.header.parentHash, t₂))
    (h₃ : array 32 t₂ = some (block.header.stateRoot, t₃))
    (h₄ : array 32 t₃ = some (block.header.txRoot, t₄))
    (h₅ : array 32 t₄ = some (block.header.nullifierRoot, t₅))
    (h₆ : u64 t₅ = some (block.header.timestamp, t₆))
    (h₇ : u64 t₆ = some (block.header.epoch, t₇))
    (h₈ : array 32 t₇ = some (block.header.vrfOutput, t₈))
    (h₉ : array 32 t₈ = some (block.header.proposer, t₉))
    (h₁₀ : u32 t₉ = some (block.header.chainId, t₁₀))
    (h₁₁ : u64 t₁₀ = some (block.header.gasUsed, t₁₁))
    (h₁₂ : u64 t₁₁ = some (block.header.gasLimit, u₁)) : False := by
  unfold tail at hahead h₂
  obtain ⟨rfl, a₂⟩ := hahead.array (by omega) h₂
  obtain ⟨rfl, a₃⟩ := a₂.array (by omega) h₃
  obtain ⟨rfl, a₄⟩ := a₃.array (by omega) h₄
  obtain ⟨rfl, a₅⟩ := a₄.array (by omega) h₅
  obtain ⟨rfl, a₆⟩ := a₅.u64 (by omega) h₆
  obtain ⟨rfl, a₇⟩ := a₆.u64 (by omega) h₇
  obtain ⟨rfl, a₈⟩ := a₇.array (by omega) h₈
  obtain ⟨rfl, a₉⟩ := a₈.array (by omega) h₉
  rcases a₉.varint (.inl rfl) block.header.chainId.toNat_lt (u32_eq_some h₁₀) with
    ⟨h, -⟩ | ⟨rfl, a₁₀, -⟩ | ⟨-, rfl, a₁₀, -⟩
  · omega
  · obtain ⟨rfl, a₁₁⟩ := a₁₀.u64 (by omega) h₁₁
    obtain ⟨-, a₁₂⟩ := a₁₁.u64 (by omega) h₁₂
    rw [putVec, List.append_assoc] at a₁₂
    exact not_ahead_of_length hlength a₁₂
  · have hused : ∀ i < 4, digit block.header.gasUsed.toNat i ≠ 0 := by
      intro i hi
      have hbyte := a₁₀ i (by omega)
      rwa [putU64, getD_int _ _ (by omega)] at hbyte
    rw [putU64, drop_int 8 _ 0, List.drop_zero, putVec, List.append_assoc] at h₁₁
    exact not_gas_after_wide hlength hused h₁₂ h₁₁

theorem Transaction.one_le_length_serialize (tx : Transaction) : 1 ≤ tx.serialize.length := by
  rw [serialize, List.length_append, List.length_singleton]
  omega

theorem Block.decode_serialize_ne (block : Block)
    (hsize : block.serialize.length ≤ MAX_P2P_MESSAGE_SIZE) :
    decode Block.read block.serialize ≠ some block := by
  intro hread
  obtain ⟨u₁, u₂, u₃, u₄, hheader, h₁₃, h₁₄, h₁₅, h₁₆⟩ :=
    read_eq_some (decode_eq_some.mp hread)
  obtain ⟨t₁, t₂, t₃, t₄, t₅, t₆, t₇, t₈, t₉, t₁₀, t₁₁, h₁, h₂, h₃, h₄, h₅, h₆, h₇, h₈, h₉, h₁₀,
    h₁₁, h₁₂⟩ := BlockHeader.read_eq_some hheader
  have hlength : block.transactions.length ≤ MAX_P2P_MESSAGE_SIZE := by
    have hvec := length_le_putVec Transaction.one_le_length_serialize block.transactions
    simp only [serialize, List.length_append] at hsize
    omega
  rw [serialize_eq] at h₁
  have hahead : Ahead 0 (putU64 block.header.height ++ block.tail) := nofun
  rcases hahead.varint (.inr rfl) block.header.height.toNat_lt (u64_eq_some h₁) with
    ⟨-, hv, hbytes⟩ | ⟨rfl, hone, -⟩ | ⟨h, -⟩
  · exact behind_tail (behind_of_narrow hv hbytes) h₂ h₃ h₄ h₅ h₆ h₇ h₈ h₉ h₁₀ h₁₁ h₁₂ h₁₃ h₁₄
      h₁₅ h₁₆ rfl
  · exact not_ahead_tail hlength hone h₂ h₃ h₄ h₅ h₆ h₇ h₈ h₉ h₁₀ h₁₁ h₁₂
  · omega

/-! ## The handler -/

/-- No message survives the round trip, on whatever topic it is published. -/
theorem handleGossip_serialize_ne (topic : String) (m : GossipMessage) :
    handleGossip topic m.serialize ≠ some m := by
  unfold handleGossip
  by_cases hsize : m.serialize.length > MAX_P2P_MESSAGE_SIZE
  · rw [if_pos hsize]
    simp
  rw [if_neg hsize]
  rw [Nat.not_lt] at hsize
  split
  · intro h
    obtain ⟨tx, hread, rfl⟩ := Option.map_eq_some_iff.mp h
    exact tx.decode_serialize_ne hsize hread
  split
  · intro h
    obtain ⟨block, hread, rfl⟩ := Option.map_eq_some_iff.mp h
    exact block.decode_serialize_ne hsize hread
  split
  · intro h
    obtain ⟨vote, hread, rfl⟩ := Option.map_eq_some_iff.mp h
    rw [GossipMessage.serialize, vote.decode_serialize] at hread
    simp at hread
  · simp

def firstVote : Vote where
  height := 1
  round := 0
  blockHash := fill 32 5
  voteType := .prevote
  validatorId := fill 32 1
  signature := fill 96 0

theorem gossip_loses_messages :
    let tx := Transaction.blank [SpendDescription.blank (fill 32 7)] [] []
    let block := Block.blank 1 (fill 32 1) [tx]
    handleGossip "noirnet-txs" (GossipMessage.tx tx).serialize = none ∧
      handleGossip "noirnet-blocks" (GossipMessage.block block).serialize = none ∧
      handleGossip "noirnet-votes" (GossipMessage.vote firstVote).serialize = none := by
  decide +kernel

end NoirNet
