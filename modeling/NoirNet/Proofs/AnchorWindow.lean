import NoirNet.Proofs.Anchors
import NoirNet.Proofs.Retention

/-!
# The window of valid anchors

Applied blocks have increasing heights, so the expiry that the table keeps for a
root is that of the last block with the root, and the largest.

* `lastHeight_spec`: the last block with a root is the highest;
* `Anchored`: the table and the chain height behind the applied blocks;
* `anchor_window_iff`: the run.
-/

namespace NoirNet

open Lib StateStore

def Ascending (entries : List (Block × StateRoot)) : Prop :=
  entries.Pairwise fun a b => a.1.header.height < b.1.header.height

theorem lastHeight_eq_none_iff {anchor : StateRoot} {entries : List (Block × StateRoot)} :
    lastHeight anchor entries = none ↔ ∀ entry ∈ entries, entry.2 ≠ anchor := by
  induction entries with
  | nil => simp [lastHeight]
  | cons entry entries ih => simp [lastHeight, ih, and_comm]

/-- The last block with a root is the highest with the root. -/
theorem lastHeight_spec {anchor : StateRoot} {entries : List (Block × StateRoot)}
    (hascending : Ascending entries) {last : UInt64} :
    lastHeight anchor entries = some last →
      (∃ entry ∈ entries, entry.2 = anchor ∧ entry.1.header.height = last) ∧
        ∀ entry ∈ entries, entry.2 = anchor → entry.1.header.height ≤ last := by
  induction entries with
  | nil => simp [lastHeight]
  | cons entry entries ih =>
      obtain ⟨hhead, htail⟩ := List.pairwise_cons.mp hascending
      intro hlast
      rw [lastHeight] at hlast
      cases hrest : lastHeight anchor entries with
      | some last' =>
          rw [hrest, Option.some_or, Option.some.injEq] at hlast
          subst hlast
          obtain ⟨⟨top, htop, hroot, hheight⟩, hmax⟩ := ih htail hrest
          refine ⟨⟨top, List.mem_cons_of_mem _ htop, hroot, hheight⟩, ?_⟩
          intro entry' hentry' hroot'
          rcases List.mem_cons.mp hentry' with rfl | hentry'
          · rw [← hheight]
            exact UInt64.le_of_lt (hhead top htop)
          · exact hmax entry' hentry' hroot'
      | none =>
          rw [hrest, Option.none_or] at hlast
          have hothers := lastHeight_eq_none_iff.mp hrest
          by_cases hroot : entry.2 = anchor
          · rw [if_pos hroot, Option.some.injEq] at hlast
            refine ⟨⟨entry, List.mem_cons_self, hroot, hlast⟩, ?_⟩
            intro entry' hentry' hroot'
            rcases List.mem_cons.mp hentry' with rfl | hentry'
            · exact UInt64.le_of_eq hlast
            · exact absurd hroot' (hothers entry' hentry')
          · rw [if_neg hroot] at hlast
            cases hlast

structure Anchored (entries : List (Block × StateRoot)) (store : StateStore) : Prop where
  history : History entries store
  chainHeight : store.db.chainHeight = entries.getLast?.map (·.1.header.height)
  ascending : Ascending entries

theorem anchored_empty : Anchored [] StateStore.empty :=
  ⟨history_empty, rfl, .nil⟩

theorem Anchored.lt_expectedHeight {entries : List (Block × StateRoot)} {store : StateStore}
    (h : Anchored entries store)
    (hbelow : ∀ entry ∈ entries, entry.1.header.height.toNat < 2 ^ 64 - 100)
    {entry : Block × StateRoot} (hentry : entry ∈ entries) :
    entry.1.header.height < store.expectedHeight := by
  obtain ⟨init, last, hsplit⟩ := (List.eq_nil_or_concat' entries).resolve_left
    (List.ne_nil_of_mem hentry)
  subst hsplit
  have hchain := h.chainHeight
  rw [List.getLast?_concat, Option.map_some] at hchain
  have hlast := hbelow last (by simp)
  have hexpected : store.expectedHeight.toNat = last.1.header.height.toNat + 1 := by
    simp only [expectedHeight, hasBlocks, getChainHeight, hchain, Option.isSome_some, if_true,
      Option.getD_some]
    rw [UInt64.toNat_add, UInt64.toNat_one, Nat.mod_eq_of_lt (by omega)]
  have hle : entry.1.header.height.toNat ≤ last.1.header.height.toNat := by
    rcases List.mem_append.mp hentry with hinit | htail
    · exact Nat.le_of_lt ((List.pairwise_append.mp h.ascending).2.2 entry hinit last (by simp))
    · rw [List.mem_singleton.mp htail]
  rw [UInt64.lt_iff_toNat_lt]
  omega

theorem Anchored.congr {entries : List (Block × StateRoot)} {store store' : StateStore}
    (h : Anchored entries store) (hanchors : store'.db.anchors = store.db.anchors)
    (hheight : store'.db.chainHeight = store.db.chainHeight) : Anchored entries store' where
  history := by
    intro anchor
    rw [hanchors, h.history anchor]
  chainHeight := by rw [hheight, h.chainHeight]
  ascending := h.ascending

/-! ## Runs -/

section

variable [Blake3]

/-- The store under its operations, emitting each applied block with the root that
`apply_block` returns. -/
def rootMachine : Machine StateStore StoreOp (Block × StateRoot) where
  step
    | store, .applyBlock block changes contracts =>
        match store.applyBlock block changes contracts with
        | (store, .ok root) => (store, [(block, root)])
        | (store, .error _) => (store, [])
    | store, .pruneHistory keepLast => ((store.pruneHistory keepLast).1, [])
    | store, .reopen => (StateStore.openDb store.db, [])

def appliedRoots (ops : List StoreOp) : List (Block × StateRoot) :=
  rootMachine.outputs StateStore.empty ops

theorem rootMachine_step_applyBlock_fst (store : StateStore) (block : Block)
    (changes : Table Bytes Bytes) (contracts : List (Hash32 × Bytes)) :
    (rootMachine.step store (.applyBlock block changes contracts)).1 =
      (store.applyBlock block changes contracts).1 := by
  simp only [rootMachine]
  split <;> simp_all

theorem rootMachine_final (store : StateStore) (ops : List StoreOp) :
    rootMachine.final store ops = storeMachine.final store ops := by
  apply Machine.final_congr
  intro store op
  cases op with
  | applyBlock block changes contracts =>
      rw [rootMachine_step_applyBlock_fst, step_applyBlock_fst]
  | pruneHistory keepLast => rfl
  | reopen => rfl

theorem rootMachine_step_of_accepts {store : StateStore} {block : Block}
    (haccept : store.Accepts block) (changes : Table Bytes Bytes)
    (contracts : List (Hash32 × Bytes)) :
    (rootMachine.step store (.applyBlock block changes contracts)).2 =
      [(block, bodyRoot store block)] := by
  obtain ⟨-, h⟩ | ⟨hreject, -⟩ := applyBlock_cases store block changes contracts
  · simp only [rootMachine, h]
    rfl
  · exact absurd haccept hreject

theorem rootMachine_step_of_not_accepts {store : StateStore} {block : Block}
    (hreject : ¬ store.Accepts block) (changes : Table Bytes Bytes)
    (contracts : List (Hash32 × Bytes)) :
    (rootMachine.step store (.applyBlock block changes contracts)).2 = [] := by
  obtain ⟨haccept, -⟩ | ⟨-, e, he⟩ := applyBlock_cases store block changes contracts
  · exact absurd haccept hreject
  · simp only [rootMachine]
    split <;> simp_all

theorem Anchored.applyBlock {entries : List (Block × StateRoot)} {store : StateStore}
    (h : Anchored entries store)
    (hbelow : ∀ entry ∈ entries, entry.1.header.height.toNat < 2 ^ 64 - 100) {block : Block}
    (haccept : store.Accepts block) (changes : Table Bytes Bytes)
    (contracts : List (Hash32 × Bytes)) :
    Anchored (entries ++ [(block, bodyRoot store block)])
      (store.applyBlock block changes contracts).1 where
  history := h.history.applyBlock haccept changes contracts
  chainHeight := by rw [chainHeight_applyBlock haccept, List.getLast?_concat, Option.map_some]
  ascending := by
    refine List.pairwise_append.mpr ⟨h.ascending, List.pairwise_singleton _ _, ?_⟩
    intro entry hentry new hnew
    rw [List.mem_singleton.mp hnew]
    have hlt := h.lt_expectedHeight hbelow hentry
    rwa [← haccept.1] at hlt

/-- As long as no applied block is too high, every operation keeps the table in step. -/
theorem Anchored.step {entries : List (Block × StateRoot)} {store : StateStore}
    (h : Anchored entries store)
    (hbelow : ∀ entry ∈ entries, entry.1.header.height.toNat < 2 ^ 64 - 100) (op : StoreOp) :
    Anchored (entries ++ (rootMachine.step store op).2) (rootMachine.step store op).1 := by
  cases op with
  | applyBlock block changes contracts =>
      rw [rootMachine_step_applyBlock_fst]
      by_cases haccept : store.Accepts block
      · rw [rootMachine_step_of_accepts haccept]
        exact h.applyBlock hbelow haccept changes contracts
      · rw [rootMachine_step_of_not_accepts haccept, List.append_nil]
        obtain ⟨_, _, _, _, _, hsame⟩ :=
          @sameExceptBody_applyBlock _ store block changes contracts haccept
        rw [hsame]
        exact h.congr rfl rfl
  | pruneHistory keepLast =>
      obtain ⟨_, _, _, hpruned⟩ := pruneHistory_fst store keepLast
      show Anchored (entries ++ []) (store.pruneHistory keepLast).1
      rw [List.append_nil, hpruned]
      exact h.congr rfl rfl
  | reopen =>
      show Anchored (entries ++ []) (openDb store.db)
      rw [List.append_nil]
      exact h.congr rfl rfl

theorem anchored_run (ops : List StoreOp)
    (hbelow : ∀ entry ∈ appliedRoots ops, entry.1.header.height.toNat < 2 ^ 64 - 100) :
    Anchored (appliedRoots ops) (storeMachine.final StateStore.empty ops) := by
  rw [← rootMachine_final]
  induction ops using List.reverseRecOn with
  | nil => exact anchored_empty
  | append_singleton ops op ih =>
      have hentries : appliedRoots (ops ++ [op]) = appliedRoots ops ++
          (rootMachine.step (rootMachine.final StateStore.empty ops) op).2 := by
        simp [appliedRoots, Machine.outputs_append]
      rw [hentries] at hbelow ⊢
      rw [Machine.final_append]
      have hbelow' : ∀ entry ∈ appliedRoots ops, entry.1.header.height.toNat < 2 ^ 64 - 100 :=
        fun entry hentry => hbelow entry (List.mem_append_left _ hentry)
      exact (ih hbelow').step hbelow' op

/-- In every run whose applied blocks are at heights below `2 ^ 64 - 100`, an anchor is
valid exactly up to `ANCHOR_EXPIRY_BLOCKS` above an applied block that returned it. -/
theorem anchor_window_iff (ops : List StoreOp)
    (hbelow : ∀ entry ∈ appliedRoots ops, entry.1.header.height.toNat < 2 ^ 64 - 100)
    (anchor : StateRoot) (height : UInt64) :
    (storeMachine.final StateStore.empty ops).isValidAnchor anchor height = true ↔
      ∃ entry ∈ appliedRoots ops, entry.2 = anchor ∧
        height.toNat ≤ entry.1.header.height.toNat + ANCHOR_EXPIRY_BLOCKS.toNat := by
  have hanchored := anchored_run ops hbelow
  have hexpiry {entry : Block × StateRoot} (hentry : entry ∈ appliedRoots ops) :
      (entry.1.header.height + ANCHOR_EXPIRY_BLOCKS).toNat =
        entry.1.header.height.toNat + ANCHOR_EXPIRY_BLOCKS.toNat := by
    have hexpires : ANCHOR_EXPIRY_BLOCKS.toNat = 100 := rfl
    have hlt := hbelow entry hentry
    rw [UInt64.toNat_add, Nat.mod_eq_of_lt (by omega)]
  rw [hanchored.history.isValidAnchor_iff, RecentRoot]
  constructor
  · rintro ⟨last, hlast, hheight⟩
    obtain ⟨⟨entry, hentry, hroot, rfl⟩, -⟩ :=
      lastHeight_spec hanchored.ascending hlast
    refine ⟨entry, hentry, hroot, ?_⟩
    rw [← hexpiry hentry]
    exact hheight
  · rintro ⟨entry, hentry, hroot, hheight⟩
    obtain ⟨last, hlast⟩ := Option.ne_none_iff_exists'.mp fun hnone =>
      lastHeight_eq_none_iff.mp hnone entry hentry hroot
    obtain ⟨⟨top, htop, -, rfl⟩, hmax⟩ :=
      lastHeight_spec hanchored.ascending hlast
    refine ⟨_, hlast, ?_⟩
    have hle := UInt64.le_iff_toNat_le.mp (hmax entry hentry hroot)
    rw [UInt64.le_iff_toNat_le, hexpiry htop]
    omega

end

/-! ## Two blocks with one root -/

section

attribute [local instance] Blake3.sum

def twoBlocks : List StoreOp :=
  [.applyBlock (Block.blank 0 (fill 32 0) []) ∅ [], .pruneHistory 0,
    .applyBlock (Block.blank 0 (fill 32 1) []) ∅ [],
    .applyBlock (Block.blank 1 (fill 32 0) []) ∅ []]

theorem empty_root_window :
    (∀ entry ∈ appliedRoots twoBlocks, entry.1.header.height.toNat < 2 ^ 64 - 100) ∧
      ((storeMachine.final StateStore.empty twoBlocks).isValidAnchor emptyRoot 101 = true ↔
        ∃ entry ∈ appliedRoots twoBlocks, entry.2 = emptyRoot ∧
          (101 : UInt64).toNat ≤ entry.1.header.height.toNat + ANCHOR_EXPIRY_BLOCKS.toNat) := by
  have hbelow : ∀ entry ∈ appliedRoots twoBlocks, entry.1.header.height.toNat < 2 ^ 64 - 100 := by
    decide +kernel
  exact ⟨hbelow, anchor_window_iff twoBlocks hbelow emptyRoot 101⟩

end

end NoirNet
