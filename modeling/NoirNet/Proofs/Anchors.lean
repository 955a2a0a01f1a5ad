import NoirNet.Proofs.Backing
import NoirNet.Proofs.SpendProof

/-!
# Anchors of accepted spends

Every accepted block enters the root of the tree behind it into the anchor table,
with the height up to which it is valid.  The check that reads the table is
called nowhere, so a spend names a live anchor only if its sender says so.

* `lastHeight`: the history behind the table;
* `History`: the table is that of the accepted blocks and their roots;
* `live_anchors_iff`: the run.
-/

namespace NoirNet

open Lib StateStore

/-- The height of the last of the blocks with this root right after it. -/
def lastHeight (anchor : StateRoot) : List (Block × StateRoot) → Option UInt64
  | [] => none
  | (block, root) :: entries =>
      (lastHeight anchor entries).or (if root = anchor then some block.header.height else none)

theorem lastHeight_append (anchor : StateRoot) (entries : List (Block × StateRoot)) (block : Block)
    (root : StateRoot) :
    lastHeight anchor (entries ++ [(block, root)]) =
      if root = anchor then some block.header.height else lastHeight anchor entries := by
  induction entries with
  | nil => rfl
  | cons entry entries ih =>
      rw [List.cons_append, lastHeight, ih, lastHeight]
      by_cases hroot : root = anchor
      · simp [hroot]
      · simp [hroot]

def History (entries : List (Block × StateRoot)) (store : StateStore) : Prop :=
  ∀ anchor : StateRoot, store.db.anchors[anchor]? =
    (lastHeight anchor entries).map (· + ANCHOR_EXPIRY_BLOCKS)

theorem history_empty : History [] StateStore.empty := by
  intro anchor
  show (∅ : Table StateRoot UInt64)[anchor]? = _
  simp [lastHeight]

/-- The anchor is the root right after one of the blocks, and the last of those is at
most `ANCHOR_EXPIRY_BLOCKS` below the height. -/
def RecentRoot (entries : List (Block × StateRoot)) (height : UInt64) (anchor : StateRoot) :
    Prop :=
  ∃ last, lastHeight anchor entries = some last ∧ height ≤ last + ANCHOR_EXPIRY_BLOCKS

theorem History.isValidAnchor_iff {entries : List (Block × StateRoot)} {store : StateStore}
    (h : History entries store) {anchor : StateRoot} {height : UInt64} :
    store.isValidAnchor anchor height ↔ RecentRoot entries height anchor := by
  rw [isValidAnchor, h anchor, RecentRoot]
  cases lastHeight anchor entries with
  | none => simp
  | some last => simp

section

variable [Blake3]

theorem History.applyBlock {entries : List (Block × StateRoot)} {store : StateStore}
    (h : History entries store) {block : Block} (haccept : store.Accepts block)
    (changes : Table Bytes Bytes) (contracts : List (Hash32 × Bytes)) :
    History (entries ++ [(block, bodyRoot store block)])
      (store.applyBlock block changes contracts).1 := by
  obtain ⟨root, hok⟩ := applyBlock_ok_iff_accepts.mpr haccept
  obtain ⟨_, _, _, _, _, hbody⟩ :=
    sameExceptBody_applyEffects block.header.height store block.effects
  have hanchors : (store.applyBlock block changes contracts).1.db.anchors =
      store.db.anchors.insert (bodyRoot store block)
        (block.header.height + ANCHOR_EXPIRY_BLOCKS) := by
    rw [bodyRoot, applyBlock_fst_of_ok hok, hbody]
    rfl
  intro anchor
  rw [hanchors, Table.get_insert, lastHeight_append, h anchor]
  by_cases hroot : bodyRoot store block = anchor
  · rw [if_pos hroot, if_pos hroot]
    rfl
  · rw [if_neg hroot, if_neg hroot]

theorem History.land [Nova] {entries : List (Block × StateRoot)} {store : StateStore}
    (h : History entries store) (vm : WasmRuntime) {block : Block}
    (haccept : store.Accepts block) :
    History (entries ++ [(block, bodyRoot store block)]) (applyExecuted vm store block).1 :=
  h.applyBlock haccept _ _

variable [Nova]

theorem History.step {s : (StateStore × PrivateMempool) × List (Block × StateRoot)}
    (h : History s.2 s.1.1) (e : Execution) :
    History (entryMachine.recorded.step s e).1.2 (entryMachine.recorded.step s e).1.1.1 := by
  show History (s.2 ++ (entryMachine.step s.1 e).2) (executorMachine.step s.1 e).1.1
  by_cases hlands : Lands s.1 e
  · rw [entryMachine_step_snd_of_lands hlands, step_fst_of_lands hlands]
    exact h.land e.vm hlands.accepts
  · obtain ⟨_, _, _, _, _, hsame⟩ := step_fst_of_not_lands hlands
    rw [entryMachine_step_snd_of_not_lands hlands, List.append_nil, hsame]
    exact h

/-! ## Whole runs -/

def LiveAnchors (s : StateStore × PrivateMempool) (e : Execution) : Prop :=
  Lands s e → ∀ tx ∈ e.block.transactions, ∀ spend ∈ tx.spends,
    s.1.isValidAnchor spend.anchor e.block.header.height

def RecentAnchors (s : (StateStore × PrivateMempool) × List (Block × StateRoot))
    (e : Execution) : Prop :=
  Lands s.1 e → ∀ tx ∈ e.block.transactions, ∀ spend ∈ tx.spends,
    RecentRoot s.2 e.block.header.height spend.anchor

omit [Blake3] in
theorem liveAnchors_iff {s : (StateStore × PrivateMempool) × List (Block × StateRoot)}
    (h : History s.2 s.1.1) (e : Execution) : LiveAnchors s.1 e ↔ RecentAnchors s e := by
  apply imp_congr_right
  intro _
  simp only [h.isValidAnchor_iff]

/-- In a run of blocks from anywhere every spend of every accepted block names an
anchor that is valid right before it, exactly when all these spends name roots
that the tree had right after accepted blocks, the last of them recent. -/
theorem live_anchors_iff (mempool : PrivateMempool) (es : List Execution) :
    executorMachine.Admissible LiveAnchors (StateStore.empty, mempool) es ↔
      entryMachine.recorded.Admissible RecentAnchors ((StateStore.empty, mempool), []) es := by
  have hentry : executorMachine.Admissible LiveAnchors (StateStore.empty, mempool) es ↔
      entryMachine.Admissible LiveAnchors (StateStore.empty, mempool) es := by
    apply Machine.admissible_congr
    intro s e
    rfl
  rw [hentry, ← Machine.admissible_recorded entryMachine]
  apply Machine.admissible_iff_of_invariant _ (fun s => History s.2 s.1.1)
    (fun _ e h => h.step e) _ history_empty
  intro s e h
  exact liveAnchors_iff h e

end

/-! ## A transfer in the first block -/

section

attribute [local instance] Blake3.sum BinaryNova.nova

def unanchored : Execution where
  vm := Env.blank.vm
  isValidator := false
  now := 0
  block :=
    { Block.blank 0 (fill 32 0) [BinaryNova.transfer] with
      header := { BlockHeader.blank 0 (fill 32 0) with
        stateRoot := bodyRoot StateStore.empty
          (Block.blank 0 (fill 32 0) [BinaryNova.transfer]) } }

theorem unanchored_applied :
    (executorMachine.step (StateStore.empty, {}) unanchored).2 =
        [(unanchored.block, .applied unanchored.block.header.stateRoot)] ∧
      ¬ ∀ (mempool : PrivateMempool) (es : List Execution),
        executorMachine.Admissible LiveAnchors (StateStore.empty, mempool) es := by
  have hlands : Lands (StateStore.empty, {}) unanchored :=
    ⟨⟨nofun, by decide, by decide +kernel⟩, by decide +kernel⟩
  constructor
  · exact outcome_of_lands hlands (bodyRoot_congr StateStore.empty rfl rfl)
  · intro h
    have hlive := (h {} [unanchored]).1 hlands BinaryNova.transfer (List.mem_singleton_self _)
      (SpendDescription.blank (fill 32 1)) (List.mem_singleton_self _)
    exact absurd hlive (by decide +kernel)

end

end NoirNet
