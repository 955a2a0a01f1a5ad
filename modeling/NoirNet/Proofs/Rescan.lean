import NoirNet.Proofs.Scanning

/-!
# Scanning a block again

`scan_block` appends what it finds to the notes it holds, whether or not they
are there already; the height it last scanned is recorded and never read.  So a
second scan of a block adds the notes of the block once more.

* `notes_rescan`, `balance_rescan`: what one more scan adds;
* `notes_iterate`: what any number of scans leave;
* `rescanned_iff`: when the second scan changes nothing.
-/

namespace NoirNet.WalletSync

section

variable [Blake3] {decrypt : TrialDecrypt} (wallet : WalletSync) (block : CompactBlock)

structure Rescanned (decrypt : TrialDecrypt) : Prop where
  notes : ((wallet.scanBlockWith decrypt block).scanBlockWith decrypt block).notes =
    (wallet.scanBlockWith decrypt block).notes
  balance : ((wallet.scanBlockWith decrypt block).scanBlockWith decrypt block).balance =
    (wallet.scanBlockWith decrypt block).balance

def found (decrypt : TrialDecrypt) (ivk : IncomingViewKey) : List WalletNote :=
  (block.compactOutputs.filterMap (scanOutputWith decrypt ivk)).map (marked block)

omit [Blake3] in
def unspent (notes : List WalletNote) : UInt64 :=
  ((notes.filter fun note => !note.isSpent).map (·.note.value)).foldl (· + ·) 0

/-! ## What one more scan adds -/

theorem notes_scanBlockWith :
    (wallet.scanBlockWith decrypt block).notes =
      wallet.notes.map (marked block) ++ found block decrypt wallet.ivk := by
  rw [found, ← List.map_append]
  rfl

omit [Blake3] in
theorem marked_marked (note : WalletNote) :
    marked block (marked block note) = marked block note := by
  by_cases hspent : note.nullifier ∈ block.nullifiers
  · simp [marked, hspent]
  · simp [marked, hspent]

/-- What the first scan has marked the second leaves alone. -/
theorem notes_rescan :
    ((wallet.scanBlockWith decrypt block).scanBlockWith decrypt block).notes =
      (wallet.scanBlockWith decrypt block).notes ++ found block decrypt wallet.ivk := by
  have hmarked : (wallet.scanBlockWith decrypt block).notes.map (marked block) =
      (wallet.scanBlockWith decrypt block).notes := by
    rw [notes_scanBlockWith, found, ← List.map_append, List.map_map]
    apply List.map_congr_left
    intro note _
    exact marked_marked block note
  rw [notes_scanBlockWith, hmarked]
  rfl

omit [Blake3] in
theorem unspent_append (notes notes' : List WalletNote) :
    unspent (notes ++ notes') = unspent notes + unspent notes' := by
  have hfoldl (values : List UInt64) (a : UInt64) :
      values.foldl (· + ·) a = a + values.foldl (· + ·) 0 := by
    induction values generalizing a with
    | nil => rw [List.foldl_nil, List.foldl_nil, UInt64.add_zero]
    | cons value values ih =>
        rw [List.foldl_cons, List.foldl_cons, ih (a + value), ih (0 + value), UInt64.zero_add,
          UInt64.add_assoc]
  rw [unspent, List.filter_append, List.map_append, List.foldl_append, hfoldl]
  rfl

/-- Each scan after the first counts the unspent notes of the block once more. -/
theorem balance_rescan :
    ((wallet.scanBlockWith decrypt block).scanBlockWith decrypt block).balance =
      (wallet.scanBlockWith decrypt block).balance +
        unspent (found block decrypt wallet.ivk) := by
  calc
    _ = unspent ((wallet.scanBlockWith decrypt block).notes ++
        found block decrypt wallet.ivk) := congrArg unspent (notes_rescan wallet block)
    _ = _ := unspent_append _ _

/-! ## Any number of scans -/

theorem ivk_iterate (n : Nat) :
    ((scanBlockWith decrypt · block)^[n] wallet).ivk = wallet.ivk := by
  induction n with
  | zero => rfl
  | succ n ih =>
      rw [Function.iterate_succ_apply']
      exact ih

theorem notes_iterate (n : Nat) :
    ((scanBlockWith decrypt · block)^[n + 1] wallet).notes =
      (wallet.scanBlockWith decrypt block).notes ++
        (List.replicate n (found block decrypt wallet.ivk)).flatten := by
  induction n with
  | zero => simp
  | succ n ih =>
      rw [Function.iterate_succ_apply', Function.iterate_succ_apply', notes_rescan,
        ← Function.iterate_succ_apply' (scanBlockWith decrypt · block), ih, ivk_iterate,
        List.append_assoc, List.replicate_succ', List.flatten_append]
      simp

/-! ## When the second scan changes nothing -/

/-- A second scan of a block changes nothing exactly when the wallet decrypts none of
its outputs. -/
theorem rescanned_iff :
    wallet.Rescanned block decrypt ↔
      ∀ output ∈ block.compactOutputs, decrypt (fakeFullCipher output) output.ephemeralKey
        output.noteCommitment wallet.ivk = none := by
  have hfound : found block decrypt wallet.ivk = [] ↔
      ∀ output ∈ block.compactOutputs, decrypt (fakeFullCipher output) output.ephemeralKey
        output.noteCommitment wallet.ivk = none := by
    simp only [found, List.map_eq_nil_iff, List.filterMap_eq_nil_iff, scanOutputWith,
      Option.map_eq_none_iff]
  rw [← hfound]
  constructor
  · intro h
    have hnotes := h.notes
    rw [notes_rescan] at hnotes
    exact List.append_right_eq_self.mp hnotes
  · intro hnil
    refine ⟨?_, ?_⟩
    · rw [notes_rescan, hnil, List.append_nil]
    · rw [balance_rescan, hnil]
      exact UInt64.add_zero _

end

theorem rescanned_tryDecryptOutput [Blake3] [X25519] [ChaCha20Poly1305]
    (hauthentic : ChaCha20Poly1305.Authentic) (wallet : WalletSync) {block : CompactBlock}
    (hunsealed : ∀ output ∈ block.compactOutputs, Unsealed wallet.ivk output) :
    wallet.Rescanned block tryDecryptOutput := by
  apply (rescanned_iff wallet block).mpr
  intro output houtput
  exact Option.map_eq_none_iff.mp (scanOutput_eq_none hauthentic (hunsealed output houtput))

/-! ## A note of value five -/

section

attribute [local instance] Blake3.sum

def decryptFive : TrialDecrypt := fun _ _ _ _ =>
  some
    { value := 5, rcm := fill 32 0, rho := fill 32 0, pkD := fill 32 0
      diversifier := fill 11 0 }

def oneOutput : CompactBlock where
  height := 1
  hash := fill 32 1
  compactOutputs :=
    [{ ephemeralKey := fill 32 0, encCiphertextPrefix := fill 52 0, noteCommitment := fill 32 0
       leafIndex := 0 }]
  nullifiers := []

theorem rescan_counts_twice :
    ¬ ∀ (decrypt : TrialDecrypt) (wallet : WalletSync) (block : CompactBlock),
      wallet.Rescanned block decrypt := by
  intro h
  have hbalance := (h decryptFive { ivk := ⟨fill 32 0⟩ } oneOutput).balance
  exact absurd hbalance (by decide +kernel)

end

end NoirNet.WalletSync
