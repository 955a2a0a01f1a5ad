import NoirNet.Address
import NoirNet.Concrete
import NoirNet.Identifiers
import NoirNet.Zk.Rational

/-!
# The addresses of a wallet

An address is derived from a seed by five digests, and is shown in base 58.  The
text is never the 64 hexadecimal digits that the `send` command asks for.

* `wallet_addresses_distinct`: the text determines the seed and the index;
* `generated_wallet_restored`: what is printed about a wallet, and which of it
  can be given back to the commands.
-/

namespace NoirNet

open Lib Lib.Wire

/-! ## The text -/

section

variable [Blake3]

theorem bs58EncodeCheck_inj {data data' : Bytes} (hlength : data.length = data'.length)
    (h : bs58EncodeCheck data = bs58EncodeCheck data') : data = data' :=
  (List.append_inj (Base58.encode_injective h) hlength).1

theorem PaymentAddress.toBase58String_injective : Function.Injective toBase58String := by
  intro addr addr' h
  have hdata := bs58EncodeCheck_inj (by simp) h
  obtain ⟨hdiversifier, hpkD⟩ := List.append_inj (List.append_cancel_left hdata) (by simp)
  cases addr
  cases addr'
  simp_all [Vector.toList_inj]

/-- The payload is 49 bytes long and starts with `0x21`. -/
theorem PaymentAddress.length_toBase58String (addr : PaymentAddress) :
    addr.toBase58String.length = 67 := by
  let rest : Bytes := 0x89 :: (addr.diversifier.toList ++ addr.pkD.toList) ++
    (blake3Of ([0x21, 0x89] ++ (addr.diversifier.toList ++ addr.pkD.toList))).toList.take 4
  have htext : addr.toBase58String = Base58.encode (0x21 :: rest) := by
    rw [toBase58String, bs58EncodeCheck]
    rfl
  have hlength : (rest.map UInt8.toNat).length = 48 := by simp [rest]
  have hfirst : UInt8.toNat 0x21 = 33 := rfl
  have hvalue : Base58.value 256 ((0x21 :: rest).map UInt8.toNat) =
      Base58.value 256 (rest.map UInt8.toNat) + 256 ^ 48 * 33 := by
    rw [List.map_cons, Base58.value_cons, hlength, hfirst]
  have hlt := Base58.value_lt (by decide) (Base58.bytes_lt rest)
  rw [hlength] at hlt
  rw [htext, Base58.length_encode]
  refine Base58.length_rebase (by decide) (Base58.zeros_cons_of_ne (by decide) _) ?_ ?_
  · rw [hvalue]
    exact Nat.le_trans (by norm_num : 58 ^ 66 ≤ 256 ^ 48 * 33) (Nat.le_add_left _ _)
  · rw [hvalue]
    exact Nat.lt_of_lt_of_le (Nat.add_lt_add_right hlt _)
      (by norm_num : 256 ^ 48 + 256 ^ 48 * 33 ≤ 58 ^ 67)

end

/-! ## From the seed to the address -/

def seedInput (seed : Bytes) : Bytes := "NoirNet_sk_v1".toUTF8.toList ++ seed

def prfInput (sk : Bytes32) (tag : Bytes) : Bytes :=
  "NoirNet_prf_v1".toUTF8.toList ++ sk.toList ++ tag

def ivkInput (fvk : FullViewingKey) : Bytes :=
  "NoirNet_ivk_v1".toUTF8.toList ++ fvk.ak.toList ++ fvk.nk.toList

def pkdInput (ivk : IncomingViewKey) (diversifier : Vector UInt8 11) : Bytes :=
  "NoirNet_pkd_v1".toUTF8.toList ++ ivk.ivk.toList ++ diversifier.toList

theorem prfInput_inj {sk sk' : Bytes32} {tag : Bytes} (h : prfInput sk tag = prfInput sk' tag) :
    sk = sk' := by
  simp only [prfInput, List.append_assoc, List.append_cancel_left_eq] at h
  exact (array_append_eq_iff.mp h).1

theorem ivkInput_inj {fvk fvk' : FullViewingKey} (h : ivkInput fvk = ivkInput fvk') :
    fvk.ak = fvk'.ak := by
  simp only [ivkInput, List.append_assoc, List.append_cancel_left_eq] at h
  exact (array_append_eq_iff.mp h).1

theorem pkdInput_inj {ivk ivk' : IncomingViewKey} {diversifier diversifier' : Vector UInt8 11}
    (h : pkdInput ivk diversifier = pkdInput ivk' diversifier') : ivk.ivk = ivk'.ivk := by
  simp only [pkdInput, List.append_assoc, List.append_cancel_left_eq] at h
  exact (array_append_eq_iff.mp h).1

section

variable [Blake3]

def addressInputs (seed : Bytes) (index : UInt64) : List Bytes :=
  let key := SpendingKey.fromSeed seed
  [seedInput seed, prfInput key.sk "ak".toUTF8.toList, ivkInput key.toFvk,
    pkdInput (IncomingViewKey.fromFvk key.toFvk) (key.address index).diversifier]

variable {seed seed' : Bytes} {index index' : UInt64}

theorem index_eq_of_diversifier_eq {key key' : SpendingKey}
    (h : (key.address index).diversifier = (key'.address index').diversifier) :
    index = index' := by
  refine putU64_injective (List.ext_getElem (by simp) fun i hi hi' => ?_)
  have hi11 : i < 11 := by
    rw [length_putU64] at hi
    omega
  have hbyte := congrArg (fun diversifier : Vector UInt8 11 => diversifier[i]) h
  simp only [SpendingKey.address, IncomingViewKey.paymentAddress, Vector.getElem_ofFn,
    List.getD_eq_getElem?_getD, List.getElem?_eq_getElem hi, List.getElem?_eq_getElem hi',
    Option.getD_some] at hbyte
  exact hbyte

/-- Each digest gives back what it was made from, from the address down to the seed. -/
theorem eq_of_address_eq
    (hfree : Blake3.CollisionFree
      {data | data ∈ addressInputs seed index ++ addressInputs seed' index'})
    (h : (SpendingKey.fromSeed seed).address index =
      (SpendingKey.fromSeed seed').address index') : seed = seed' ∧ index = index' := by
  let key := SpendingKey.fromSeed seed
  let key' := SpendingKey.fromSeed seed'
  have hindex := index_eq_of_diversifier_eq (congrArg PaymentAddress.diversifier h)
  have hpkd : pkdInput (IncomingViewKey.fromFvk key.toFvk) (key.address index).diversifier =
      pkdInput (IncomingViewKey.fromFvk key'.toFvk) (key'.address index').diversifier :=
    hfree (by simp [addressInputs, key]) (by simp [addressInputs, key'])
      (congrArg PaymentAddress.pkD h)
  have hivk : ivkInput key.toFvk = ivkInput key'.toFvk :=
    hfree (by simp [addressInputs, key]) (by simp [addressInputs, key']) (pkdInput_inj hpkd)
  have hprf : prfInput key.sk "ak".toUTF8.toList = prfInput key'.sk "ak".toUTF8.toList :=
    hfree (by simp [addressInputs, key]) (by simp [addressInputs, key']) (ivkInput_inj hivk)
  have hseed : seedInput seed = seedInput seed' :=
    hfree (by simp [addressInputs]) (by simp [addressInputs]) (prfInput_inj hprf)
  exact ⟨List.append_cancel_left hseed, hindex⟩

/-- Two wallets, or two indices of one, never show the same address. -/
theorem wallet_addresses_distinct (seed seed' : Bytes) (index index' : UInt64)
    (hfree : Blake3.CollisionFree
      {data | data ∈ addressInputs seed index ++ addressInputs seed' index'}) :
    ((SpendingKey.fromSeed seed).address index).toBase58String =
        ((SpendingKey.fromSeed seed').address index').toBase58String ↔
      seed = seed' ∧ index = index' := by
  constructor
  · intro h
    exact eq_of_address_eq hfree (PaymentAddress.toBase58String_injective h)
  · rintro ⟨rfl, rfl⟩
    rfl

end

section

attribute [local instance] Blake3.sum

theorem two_wallets_distinct :
    ((SpendingKey.fromSeed [1]).address 0).toBase58String =
        ((SpendingKey.fromSeed [2]).address 0).toBase58String ↔
      ([1] : Bytes) = [2] ∧ (0 : UInt64) = 0 :=
  wallet_addresses_distinct [1] [2] 0 0 (Blake3.collisionFree_of_nodup (by decide +kernel))

end

/-! ## Restoring a wallet -/

section

variable [Blake3] [Ed25519] [X25519] [ChaCha20Poly1305] [Nova] [NovaProver]

theorem send_address (draws : BuilderDraws) (addr : PaymentAddress) (amount fee : UInt64)
    (keyHex : String) : Cli.send draws addr.toBase58String amount fee keyHex = none := by
  have hto : Hex.decodeArray 32 addr.toBase58String = none := by
    rw [Option.eq_none_iff_forall_ne_some]
    intro pkD h
    have hlength := Hex.length_of_decodeArray h
    rw [addr.length_toBase58String] at hlength
    cases hlength
  rw [Cli.send, hto]
  cases Hex.decodeArray 32 keyHex <;> rfl

theorem send_key (draws : BuilderDraws) (key : SpendingKey) (pkD : Bytes32)
    (amount fee : UInt64) :
    Cli.send draws (Hex.encode pkD.toList) amount fee (Hex.encode key.sk.toList) =
      (TxBuilder.buildTransfer draws key { diversifier := Vector.replicate 11 0, pkD } amount fee
        (amount + fee)).map fun tx => (tx, Hex.encode tx.serialize) := by
  rw [Cli.send, Hex.decodeArray_encode, Hex.decodeArray_encode, Option.map_eq_bind]
  rfl

omit [Ed25519] [X25519] [ChaCha20Poly1305] [Nova] [NovaProver] in
theorem generateKeys_eq_some {drawn : Bytes32} {seed : Option String} {keys : GeneratedKeys}
    (h : Cli.generateKeys drawn seed = some keys) :
    ∃ seedBytes, keys = GeneratedKeys.ofSeed seedBytes := by
  cases seed with
  | none => exact ⟨drawn, (Option.some.inj h).symm⟩
  | some hexSeed =>
      obtain ⟨seedBytes, -, hkeys⟩ := Option.bind_eq_some_iff.mp h
      exact ⟨seedBytes, (Option.some.inj hkeys).symm⟩

omit [Ed25519] [X25519] [ChaCha20Poly1305] [Nova] [NovaProver] in
theorem generateKeys_encode (drawn seedBytes : Bytes32) :
    Cli.generateKeys drawn (some (Hex.encode seedBytes.toList)) =
      some (GeneratedKeys.ofSeed seedBytes) := by
  rw [Cli.generateKeys, Hex.decodeArray_encode]
  rfl

/-- The printed seed gives the same wallet again, whatever is drawn; the printed key pays from
the wallet of the printed address; and this address is refused as the recipient of a payment. -/
theorem generated_wallet_restored {drawn : Bytes32} {seed : Option String}
    {keys : GeneratedKeys} (h : Cli.generateKeys drawn seed = some keys) :
    (∀ drawn', Cli.generateKeys drawn' (some keys.seed) = some keys) ∧
      (∃ key : SpendingKey, keys.paymentAddress = (key.address 0).toBase58String ∧
        ∀ draws (pkD : Bytes32) amount fee,
          Cli.send draws (Hex.encode pkD.toList) amount fee keys.spendingKey =
            (TxBuilder.buildTransfer draws key { diversifier := Vector.replicate 11 0, pkD } amount
              fee (amount + fee)).map fun tx => (tx, Hex.encode tx.serialize)) ∧
      ∀ draws amount fee keyHex,
        Cli.send draws keys.paymentAddress amount fee keyHex = none := by
  obtain ⟨seedBytes, rfl⟩ := generateKeys_eq_some h
  refine ⟨?_, ⟨SpendingKey.fromSeed seedBytes.toList, rfl, ?_⟩, ?_⟩
  · intro drawn'
    exact generateKeys_encode drawn' seedBytes
  · intro draws pkD amount fee
    exact send_key draws _ pkD amount fee
  · intro draws amount fee keyHex
    exact send_address draws _ amount fee keyHex

end

section

attribute [local instance] Blake3.sum Ed25519.plain X25519.plain ChaCha20Poly1305.plain
  RationalNova.nova RationalNova.prover

theorem seven_seed_restored :
    let keys := GeneratedKeys.ofSeed (fill 32 7)
    Cli.generateKeys (fill 32 7) none = some keys ∧
      ((∀ drawn', Cli.generateKeys drawn' (some keys.seed) = some keys) ∧
        (∃ key : SpendingKey, keys.paymentAddress = (key.address 0).toBase58String ∧
          ∀ draws (pkD : Bytes32) amount fee,
            Cli.send draws (Hex.encode pkD.toList) amount fee keys.spendingKey =
              (TxBuilder.buildTransfer draws key { diversifier := Vector.replicate 11 0, pkD }
                amount fee (amount + fee)).map fun tx => (tx, Hex.encode tx.serialize)) ∧
        ∀ draws amount fee keyHex,
          Cli.send draws keys.paymentAddress amount fee keyHex = none) := by
  have h : Cli.generateKeys (fill 32 7) none = some (GeneratedKeys.ofSeed (fill 32 7)) := rfl
  exact ⟨h, generated_wallet_restored h⟩

end

end NoirNet
