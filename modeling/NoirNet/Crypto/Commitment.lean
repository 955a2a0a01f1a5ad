import NoirNet.Crypto.Stealth

/-!
# Value balance and note commitments

`noirnet_crypto::commitment`.  A `u64` sum wraps around, as the release profile
compiles it.
-/

namespace NoirNet

open Lib.Wire

/-- `check_value_balance`; the value commitments are not looked at. -/
def checkValueBalance (_spendCvs _outputCvs : List Bytes32) (fee : UInt64)
    (spendValues outputValues : List UInt64) : Bool :=
  let totalIn := spendValues.foldl (· + ·) 0
  let totalOut := outputValues.foldl (· + ·) 0
  totalIn == totalOut + fee

/-- `note_commitment`, which hashes `pk_d` where `Note::commitment` hashes `rcm`. -/
def noteCommitment [Blake3] (value : UInt64) (pkD rho rcm : Bytes32)
    (diversifier : Vector UInt8 11) : Hash32 :=
  Blake3.hash ("NoirNet_note_cm_v1".toUTF8.toList ++ putU64 value ++ pkD.toList ++ rho.toList ++
    rcm.toList ++ diversifier.toList)

end NoirNet
