import NoirNet.Crypto.Stealth

/-!
# The wallet's scanner

`noirnet_wallet::sync`.
-/

namespace NoirNet

structure WalletNote where
  note : Note
  commitment : Hash32
  leafIndex : UInt64
  nullifier : Hash32
  isSpent : Bool
  deriving DecidableEq

structure WalletSync where
  ivk : IncomingViewKey
  notes : List WalletNote := []
  lastScannedHeight : UInt64 := 0
  deriving DecidableEq

namespace WalletSync

def fakeFullCipher (output : CompactOutput) : Bytes :=
  output.encCiphertextPrefix.toList ++ List.replicate (580 - 52) 0

variable [Blake3] [X25519] [ChaCha20Poly1305]

def scanOutput (ivk : IncomingViewKey) (output : CompactOutput) : Option WalletNote :=
  (tryDecryptOutput (fakeFullCipher output) output.ephemeralKey output.noteCommitment ivk).map
    fun note =>
      { note := note
        commitment := output.noteCommitment
        leafIndex := output.leafIndex
        nullifier := Blake3.hash output.noteCommitment.toList
        isSpent := false }

def scanBlock (wallet : WalletSync) (block : CompactBlock) : WalletSync :=
  let newNotes := block.compactOutputs.filterMap (scanOutput wallet.ivk)
  let notes := (wallet.notes ++ newNotes).map fun note =>
    if note.nullifier ∈ block.nullifiers then { note with isSpent := true } else note
  { wallet with notes := notes, lastScannedHeight := block.height }

omit [Blake3] [X25519] [ChaCha20Poly1305] in
/-- `WalletSync::balance`; the sum wraps around. -/
def balance (wallet : WalletSync) : UInt64 :=
  ((wallet.notes.filter fun note => !note.isSpent).map (·.note.value)).foldl (· + ·) 0

/-! ## Any trial decryption -/

abbrev TrialDecrypt := Bytes → Bytes32 → Hash32 → IncomingViewKey → Option Note

omit [X25519] [ChaCha20Poly1305] in
/-- `scanOutput` over any trial decryption. -/
def scanOutputWith (decrypt : TrialDecrypt) (ivk : IncomingViewKey) (output : CompactOutput) :
    Option WalletNote :=
  (decrypt (fakeFullCipher output) output.ephemeralKey output.noteCommitment ivk).map
    fun note =>
      { note := note
        commitment := output.noteCommitment
        leafIndex := output.leafIndex
        nullifier := Blake3.hash output.noteCommitment.toList
        isSpent := false }

omit [Blake3] [X25519] [ChaCha20Poly1305] in
def marked (block : CompactBlock) (note : WalletNote) : WalletNote :=
  if note.nullifier ∈ block.nullifiers then { note with isSpent := true } else note

omit [X25519] [ChaCha20Poly1305] in
def scanBlockWith (decrypt : TrialDecrypt) (wallet : WalletSync) (block : CompactBlock) :
    WalletSync :=
  let newNotes := block.compactOutputs.filterMap (scanOutputWith decrypt wallet.ivk)
  { wallet with
    notes := (wallet.notes ++ newNotes).map (marked block), lastScannedHeight := block.height }

theorem scanBlock_eq_scanBlockWith (wallet : WalletSync) (block : CompactBlock) :
    wallet.scanBlock block = wallet.scanBlockWith tryDecryptOutput block := rfl

end WalletSync

end NoirNet
