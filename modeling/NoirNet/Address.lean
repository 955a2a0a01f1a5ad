import NoirNet.Crypto.Stealth
import NoirNet.Lib.Base58
import NoirNet.WalletBuilder

/-!
# Addresses as text, and the key generator

The text form of a payment address (`noirnet_types::address`), and the
`generate-keys` command of `noirnet-cli`.
-/

namespace NoirNet

open Lib

section

variable [Blake3]

def bs58EncodeCheck (data : Bytes) : String :=
  Base58.encode (data ++ (blake3Of data).toList.take 4)

/-- `PaymentAddress::to_base58_string`, behind the prefix `NR`. -/
def PaymentAddress.toBase58String (addr : PaymentAddress) : String :=
  bs58EncodeCheck ([0x21, 0x89] ++ (addr.diversifier.toList ++ addr.pkD.toList))

def SpendingKey.address (key : SpendingKey) (diversifierIndex : UInt64) : PaymentAddress :=
  (IncomingViewKey.fromFvk key.toFvk).paymentAddress diversifierIndex

structure GeneratedKeys where
  seed : String
  spendingKey : String
  ak : String
  nk : String
  ovk : String
  paymentAddress : String
  deriving DecidableEq

def GeneratedKeys.ofSeed (seedBytes : Bytes32) : GeneratedKeys :=
  let sk := SpendingKey.fromSeed seedBytes.toList
  let fvk := sk.toFvk
  let ivk := IncomingViewKey.fromFvk fvk
  let addr := ivk.paymentAddress 0
  { seed := Hex.encode seedBytes.toList
    spendingKey := Hex.encode sk.sk.toList
    ak := Hex.encode fvk.ak.toList
    nk := Hex.encode fvk.nk.toList
    ovk := Hex.encode fvk.ovk.toList
    paymentAddress := addr.toBase58String }

/-- `cmd_generate_keys`: from the given seed, or from the one that is drawn. -/
def Cli.generateKeys (drawn : Bytes32) (seed : Option String) : Option GeneratedKeys := do
  let seedBytes ← match seed with
    | some hexSeed => Hex.decodeArray 32 hexSeed
    | none => some drawn
  return GeneratedKeys.ofSeed seedBytes

end

end NoirNet
