import NoirNet.Concrete
import NoirNet.Storage.Archive

/-!
# What the block store retains

Blocks are applied at the heights 0, 1, 2, and so on, and a call of
`prune_history` clears the heights below its bound.  The `u64` height starts
over at 0 behind the last one, so only then can there be a block below a bound.

* `Retains`: the invariant, with the blocks applied so far and the largest bound;
* `archived`: the run.
-/

namespace NoirNet

open Lib StateStore

/-! ## Runs -/

def StoreOp.submitted : StoreOp → Option Block
  | .applyBlock block _ _ => some block
  | _ => none

def submittedHeaders (ops : List StoreOp) : Set Bytes :=
  {bytes | ∃ op ∈ ops, ∃ block, op.submitted = some block ∧ bytes = block.header.serialize}

/-- The bound of a call of `prune_history`, 0 for the others. -/
def StoreOp.bound (store : StateStore) : StoreOp → Nat
  | .pruneHistory keepLast => (store.pruneBound keepLast).toNat
  | .applyBlock _ _ _ => 0
  | .reopen => 0

section

variable [Blake3]

def prunedBelow (ops : List StoreOp) : Nat :=
  (storeMachine.visits StateStore.empty ops).foldl (fun floor v => max floor (v.2.bound v.1)) 0

theorem prunedBelow_concat (ops : List StoreOp) (op : StoreOp) :
    prunedBelow (ops ++ [op]) =
      max (prunedBelow ops) (op.bound (storeMachine.final StateStore.empty ops)) := by
  rw [prunedBelow, Machine.visits_append, List.foldl_append]
  rfl

omit [Blake3] in
def lastAt (applied : List Block) (height : UInt64) : Option Block :=
  applied.reverse.find? fun block => block.header.height = height

omit [Blake3] in
theorem lastAt_concat (applied : List Block) (block : Block) (height : UInt64) :
    lastAt (applied ++ [block]) height =
      if block.header.height = height then some block else lastAt applied height := by
  rw [lastAt, List.reverse_append, List.reverse_singleton, List.singleton_append,
    List.find?_cons]
  by_cases h : block.header.height = height
  · simp [h]
  · simp [h, lastAt]

/-! ## One operation -/

theorem step_applyBlock_of_accepts {store : StateStore} {block : Block}
    (haccept : store.Accepts block) (changes : Table Bytes Bytes)
    (contracts : List (Hash32 × Bytes)) :
    storeMachine.step store (.applyBlock block changes contracts) =
      ((store.applyBlock block changes contracts).1, [block]) := by
  obtain ⟨-, h⟩ | ⟨hreject, -⟩ := applyBlock_cases store block changes contracts
  · simp only [storeMachine, h]
  · exact absurd haccept hreject

theorem step_applyBlock_of_not_accepts {store : StateStore} {block : Block}
    (hreject : ¬ store.Accepts block) (changes : Table Bytes Bytes)
    (contracts : List (Hash32 × Bytes)) :
    (storeMachine.step store (.applyBlock block changes contracts)).2 = [] ∧
      SameExceptBody store (storeMachine.step store (.applyBlock block changes contracts)).1 := by
  rw [← ledgerMachine_step store ⟨block, changes, contracts⟩]
  exact step_of_not_accepts hreject

theorem Indexed.step {inputs : Set Bytes} (hfree : Blake3.CollisionFree inputs)
    {store : StateStore} (h : Indexed inputs store) {op : StoreOp}
    (hop : ∀ block, op.submitted = some block → block.header.serialize ∈ inputs) :
    Indexed inputs (storeMachine.step store op).1 := by
  cases op with
  | applyBlock block changes contracts =>
      by_cases haccept : store.Accepts block
      · rw [step_applyBlock_of_accepts haccept]
        exact indexed_applyBlock hfree h (hop block rfl) haccept changes contracts
      · exact (step_applyBlock_of_not_accepts haccept changes contracts).2.indexed h
  | pruneHistory keepLast => exact (cleared_pruneHistory h keepLast).indexed
  | reopen => exact h

/-! ## Whole runs -/

structure Retains (applied : List Block) (floor : Nat) (store : StateStore) : Prop where
  heights : ∀ i (hi : i < applied.length), applied[i].header.height = .ofNat i
  chainHeight : store.db.chainHeight = applied.getLast?.map (·.header.height)
  above : ∀ height : UInt64, floor ≤ height.toNat →
    store.getBlockByHeight height = lastAt applied height
  below : applied.length ≤ UInt64.size → ∀ height : UInt64, height.toNat < floor →
    store.getBlockByHeight height = none
  floor_lt : applied.length ≤ UInt64.size → floor = 0 ∨ floor < applied.length

omit [Blake3] in
theorem Retains.chainHeight_eq {applied : List Block} {floor : Nat} {store : StateStore}
    (h : Retains applied floor store) :
    store.db.chainHeight =
      if applied = [] then none else some (.ofNat (applied.length - 1)) := by
  rw [h.chainHeight]
  by_cases hnil : applied = []
  · simp [hnil]
  · have hpos : applied.length - 1 < applied.length :=
      Nat.sub_lt (List.length_pos_iff.mpr hnil) Nat.one_pos
    rw [if_neg hnil, List.getLast?_eq_getElem?, List.getElem?_eq_getElem hpos, Option.map_some,
      h.heights _ hpos]

omit [Blake3] in
theorem Retains.expectedHeight_eq {applied : List Block} {floor : Nat} {store : StateStore}
    (h : Retains applied floor store) : store.expectedHeight = .ofNat applied.length := by
  have hchain := h.chainHeight_eq
  by_cases hnil : applied = []
  · subst hnil
    rw [if_pos rfl] at hchain
    simp [expectedHeight, hasBlocks, hchain]
  · rw [if_neg hnil] at hchain
    have hlen : applied.length - 1 + 1 = applied.length :=
      Nat.sub_add_cancel (List.length_pos_iff.mpr hnil)
    rw [expectedHeight, hasBlocks, getChainHeight, hchain]
    show UInt64.ofNat (applied.length - 1) + 1 = _
    rw [← hlen, UInt64.ofNat_add, hlen]
    rfl

omit [Blake3] in
theorem retains_empty : Retains [] 0 StateStore.empty where
  heights _ hi := absurd hi (Nat.not_lt_zero _)
  chainHeight := rfl
  above _ _ := rfl
  below _ _ hlt := absurd hlt (Nat.not_lt_zero _)
  floor_lt _ := .inl rfl

section

variable {inputs : Set Bytes} (hfree : Blake3.CollisionFree inputs) {applied : List Block}
  {floor : Nat} {store : StateStore} (hindexed : Indexed inputs store)
  (h : Retains applied floor store)

include hfree hindexed h in
theorem Retains.apply {block : Block} (hblock : block.header.serialize ∈ inputs)
    (haccept : store.Accepts block) (changes : Table Bytes Bytes)
    (contracts : List (Hash32 × Bytes)) :
    Retains (applied ++ [block]) floor (store.applyBlock block changes contracts).1 := by
  have hheight : block.header.height = .ofNat applied.length := by
    rw [haccept.1, h.expectedHeight_eq]
  have hget := getBlockByHeight_of_accepts hfree hindexed hblock haccept changes contracts
  constructor
  · intro i hi
    by_cases hlt : i < applied.length
    · rw [List.getElem_append_left hlt]
      exact h.heights i hlt
    · have hlast : i = applied.length := by
        rw [List.length_append, List.length_singleton] at hi
        omega
      subst hlast
      rw [List.getElem_concat_length rfl]
      exact hheight
  · rw [chainHeight_applyBlock haccept]
    simp
  · intro height hle
    rw [hget, lastAt_concat, h.above height hle]
  · intro hlen height hlt
    rw [List.length_append, List.length_singleton] at hlen
    have htoNat : block.header.height.toNat = applied.length := by
      rw [hheight]
      exact UInt64.toNat_ofNat_of_lt' hlen
    have hfloor := h.floor_lt (Nat.le_of_succ_le hlen)
    have hne : block.header.height ≠ height := by
      rintro rfl
      omega
    rw [hget, if_neg hne]
    exact h.below (Nat.le_of_succ_le hlen) height hlt
  · intro hlen
    rw [List.length_append, List.length_singleton] at hlen ⊢
    have hfloor := h.floor_lt (Nat.le_of_succ_le hlen)
    omega

omit [Blake3] in
include h in
theorem Retains.congr {store' : StateStore} (hsame : SameExceptBody store store') :
    Retains applied floor store' where
  heights := h.heights
  chainHeight := by
    obtain ⟨_, _, _, _, _, rfl⟩ := hsame
    exact h.chainHeight
  above height hle := by rw [hsame.getBlockByHeight, h.above height hle]
  below hlen height hlt := by rw [hsame.getBlockByHeight, h.below hlen height hlt]
  floor_lt := h.floor_lt

omit [Blake3] in
include h in
/-- Pruning stops short of the last block. -/
theorem Retains.pruneBound_lt (hlen : applied.length ≤ UInt64.size) (keepLast : UInt64) :
    (store.pruneBound keepLast).toNat = 0 ∨ (store.pruneBound keepLast).toNat < applied.length := by
  rw [pruneBound, getChainHeight, h.chainHeight_eq]
  by_cases hnil : applied = []
  · rw [if_pos hnil]
    left
    rfl
  have hpos := List.length_pos_iff.mpr hnil
  have hlast : (UInt64.ofNat (applied.length - 1)).toNat = applied.length - 1 :=
    UInt64.toNat_ofNat_of_lt' (by omega)
  rw [if_neg hnil, Option.getD_some]
  by_cases hkeep : UInt64.ofNat (applied.length - 1) ≤ keepLast
  · rw [if_pos hkeep]
    left
    rfl
  · have hle := UInt64.le_of_lt (UInt64.not_le.mp hkeep)
    rw [if_neg hkeep, UInt64.toNat_sub_of_le _ _ hle, hlast]
    right
    omega

include hindexed h in
theorem Retains.prune (keepLast : UInt64) :
    Retains applied (max floor (store.pruneBound keepLast).toNat)
      (store.pruneHistory keepLast).1 where
  heights := h.heights
  chainHeight := by
    obtain ⟨_, _, _, hpruned⟩ := pruneHistory_fst store keepLast
    rw [hpruned]
    exact h.chainHeight
  above height hle := by
    have hkept : ¬ height < store.pruneBound keepLast := by
      rw [UInt64.lt_iff_toNat_lt]
      omega
    rw [getBlockByHeight_pruneHistory hindexed, if_neg hkept]
    exact h.above height (le_trans (le_max_left _ _) hle)
  below hlen height hlt := by
    rw [getBlockByHeight_pruneHistory hindexed]
    by_cases hbelow : height < store.pruneBound keepLast
    · rw [if_pos hbelow]
    · rw [if_neg hbelow]
      rw [UInt64.lt_iff_toNat_lt] at hbelow
      exact h.below hlen height (by omega)
  floor_lt hlen := by
    have hfloor := h.floor_lt hlen
    have hbound := h.pruneBound_lt hlen keepLast
    omega

end

theorem retains_run {inputs : Set Bytes} (hfree : Blake3.CollisionFree inputs)
    {ops : List StoreOp} (hops : submittedHeaders ops ⊆ inputs) :
    Indexed inputs (storeMachine.final StateStore.empty ops) ∧
      Retains (storeMachine.outputs StateStore.empty ops) (prunedBelow ops)
        (storeMachine.final StateStore.empty ops) := by
  induction ops using List.reverseRecOn with
  | nil => exact ⟨indexed_empty inputs, retains_empty⟩
  | append_singleton ops op ih =>
      have hfront : submittedHeaders ops ⊆ inputs := by
        rintro bytes ⟨op', hop', hbytes⟩
        exact hops ⟨op', List.mem_append_left _ hop', hbytes⟩
      have hlast : ∀ block, op.submitted = some block → block.header.serialize ∈ inputs :=
        fun block hblock => hops ⟨op, by simp, block, hblock, rfl⟩
      obtain ⟨hindexed, hretains⟩ := ih hfront
      rw [Machine.final_append, Machine.outputs_append, prunedBelow_concat]
      generalize storeMachine.final StateStore.empty ops = store at hindexed hretains ⊢
      refine ⟨hindexed.step hfree hlast, ?_⟩
      rw [Machine.outputs_cons, Machine.outputs_nil, List.append_nil]
      show Retains _ _ (storeMachine.step store op).1
      cases op with
      | applyBlock block changes contracts =>
          rw [StoreOp.bound, Nat.max_zero]
          by_cases haccept : store.Accepts block
          · rw [step_applyBlock_of_accepts haccept]
            exact hretains.apply hfree hindexed (hlast block rfl) haccept changes contracts
          · obtain ⟨hnone, hsame⟩ := step_applyBlock_of_not_accepts haccept changes contracts
            rw [hnone, List.append_nil]
            exact hretains.congr hsame
      | pruneHistory keepLast =>
          rw [show (storeMachine.step store (.pruneHistory keepLast)).2 = [] from rfl,
            List.append_nil]
          exact hretains.prune hindexed keepLast
      | reopen =>
          rw [show (storeMachine.step store .reopen).2 = [] from rfl, List.append_nil,
            StoreOp.bound, Nat.max_zero]
          exact ⟨hretains.heights, hretains.chainHeight, hretains.above, hretains.below,
            hretains.floor_lt⟩

/-- A call of `prune_history` returns how many blocks it removes, and leaves everything
but the block store and its indices alone. -/
structure PrunesBlocks (store : StateStore) (keepLast : UInt64) : Prop where
  count : (store.pruneHistory keepLast).2.toNat + (store.pruneHistory keepLast).1.db.blocks.size =
    store.db.blocks.size
  nullifiers : (store.pruneHistory keepLast).1.db.nullifiers = store.db.nullifiers
  commitments : (store.pruneHistory keepLast).1.db.commitments = store.db.commitments
  tree : (store.pruneHistory keepLast).1.tree = store.tree
  anchors : (store.pruneHistory keepLast).1.db.anchors = store.db.anchors
  contracts : (store.pruneHistory keepLast).1.db.contracts = store.db.contracts
  contractState : (store.pruneHistory keepLast).1.db.contractState = store.db.contractState
  chainHeight : (store.pruneHistory keepLast).1.db.chainHeight = store.db.chainHeight

theorem Indexed.prunesBlocks {inputs : Set Bytes} {store : StateStore} (h : Indexed inputs store)
    (keepLast : UInt64) : PrunesBlocks store keepLast := by
  have hsize := (cleared_pruneHistory h keepLast).size
  obtain ⟨_, _, _, hpruned⟩ := pruneHistory_fst store keepLast
  constructor
  · omega
  all_goals rw [hpruned]

/-- What a run from an empty store leaves behind. -/
structure Archived (ops : List StoreOp) : Prop where
  /-- The applied blocks have the heights 0, 1, 2, and so on. -/
  heights : ∀ i (hi : i < (storeMachine.outputs StateStore.empty ops).length),
    (storeMachine.outputs StateStore.empty ops)[i].header.height = .ofNat i
  /-- The chain height is that of the last one. -/
  chainHeight : (storeMachine.final StateStore.empty ops).db.chainHeight =
    (storeMachine.outputs StateStore.empty ops).getLast?.map (·.header.height)
  /-- From the largest bound on every height has the block that was applied there. -/
  retained : ∀ height : UInt64, (storeMachine.final StateStore.empty ops).hasBlocks →
    prunedBelow ops ≤ height.toNat →
    height ≤ (storeMachine.final StateStore.empty ops).getChainHeight →
    ∃ block, lastAt (storeMachine.outputs StateStore.empty ops) height = some block ∧
      (storeMachine.final StateStore.empty ops).getBlockByHeight height = some block
  /-- Below it there is none, as long as no height has been used twice. -/
  pruned : (storeMachine.outputs StateStore.empty ops).length ≤ 2 ^ 64 →
    ∀ height : UInt64, height.toNat < prunedBelow ops →
      (storeMachine.final StateStore.empty ops).getBlockByHeight height = none
  calls : ∀ store keepLast, (store, .pruneHistory keepLast) ∈
    storeMachine.visits StateStore.empty ops → PrunesBlocks store keepLast

omit [Blake3] in
theorem Retains.lastAt_isSome {applied : List Block} {floor : Nat} {store : StateStore}
    (h : Retains applied floor store) (hblocks : store.hasBlocks) {height : UInt64}
    (hle : height ≤ store.getChainHeight) : (lastAt applied height).isSome := by
  have hchain := h.chainHeight_eq
  by_cases hnil : applied = []
  · rw [hasBlocks, hchain, if_pos hnil] at hblocks
    cases hblocks
  · rw [if_neg hnil] at hchain
    have hpos := List.length_pos_iff.mpr hnil
    rw [getChainHeight, hchain, Option.getD_some, UInt64.le_iff_toNat_le,
      UInt64.toNat_ofNat'] at hle
    -- as far behind the last block as the height is below the chain height
    let i := applied.length - 1 - ((applied.length - 1) % 2 ^ 64 - height.toNat)
    have hmod := Nat.mod_le (applied.length - 1) (2 ^ 64)
    have hi : i < applied.length := by omega
    have hheight : applied[i].header.height = height := by
      rw [h.heights i hi]
      apply UInt64.toNat_inj.mp
      rw [UInt64.toNat_ofNat']
      have hdiv := Nat.div_add_mod (applied.length - 1) (2 ^ 64)
      have hsum : i = height.toNat + 2 ^ 64 * ((applied.length - 1) / 2 ^ 64) := by omega
      rw [hsum, Nat.add_mul_mod_self_left, Nat.mod_eq_of_lt height.toNat_lt]
    rw [lastAt, List.find?_isSome]
    exact ⟨applied[i], List.mem_reverse.mpr (List.getElem_mem hi), by simpa using hheight⟩

/-- In every run from an empty store the blocks are applied at the heights 0, 1, 2, and so
on, the store has those from the largest prune bound on and, up to the end of the heights,
no others, and every prune call removes what it says and nothing else. -/
theorem archived (ops : List StoreOp) (hfree : Blake3.CollisionFree (submittedHeaders ops)) :
    Archived ops := by
  obtain ⟨-, hretains⟩ := retains_run hfree (subset_refl _)
  constructor
  · exact hretains.heights
  · exact hretains.chainHeight
  · intro height hblocks hfloor hle
    obtain ⟨block, hblock⟩ := Option.isSome_iff_exists.mp (hretains.lastAt_isSome hblocks hle)
    exact ⟨block, hblock, by rw [hretains.above height hfloor, hblock]⟩
  · exact hretains.below
  · intro store keepLast hvisit
    obtain ⟨front, back, hsplit, hstore⟩ := storeMachine.mem_visits hvisit
    have hfront : submittedHeaders front ⊆ submittedHeaders ops := by
      rintro bytes ⟨op, hop, hbytes⟩
      rw [hsplit]
      exact ⟨op, List.mem_append_left _ hop, hbytes⟩
    have hindexed := (retains_run hfree hfront).1
    rw [← hstore] at hindexed
    exact hindexed.prunesBlocks keepLast

end

/-! ## A height that is used twice -/

section

attribute [local instance] Blake3.front

def applyBlank (height : UInt64) : StoreOp := .applyBlock (Block.blank height (fill 32 0) []) ∅ []

def prunedOnce : List StoreOp := [applyBlank 0, applyBlank 1, .pruneHistory 0]

def blanks (n : Nat) : List StoreOp := (List.range n).map fun i => applyBlank (2 + .ofNat i)

def wrapping (n : Nat) : List StoreOp := prunedOnce ++ blanks n ++ [applyBlank 0]

theorem accepts_blank {store : StateStore} {height : UInt64} (h : store.expectedHeight = height) :
    store.Accepts (Block.blank height (fill 32 0) []) :=
  ⟨h.symm, List.nodup_nil, nofun⟩

theorem expectedHeight_blanks (n : Nat) :
    (storeMachine.final (storeMachine.final StateStore.empty prunedOnce)
        (blanks n)).expectedHeight =
      2 + .ofNat n := by
  induction n with
  | zero => decide +kernel
  | succ n ih =>
      rw [blanks, List.range_succ, List.map_append, ← blanks, Machine.final_append]
      generalize storeMachine.final (storeMachine.final StateStore.empty prunedOnce) (blanks n) =
        store at ih ⊢
      have hchain := chainHeight_applyBlock (accepts_blank ih) ∅ []
      rw [List.map_singleton, Machine.final_cons, Machine.final_nil, applyBlank,
        step_applyBlock_of_accepts (accepts_blank ih), expectedHeight, hasBlocks, getChainHeight,
        hchain]
      show 2 + UInt64.ofNat n + 1 = _
      rw [UInt64.ofNat_add, UInt64.add_assoc]
      rfl

theorem prunedBelow_le_append (ops ops' : List StoreOp) :
    prunedBelow ops ≤ prunedBelow (ops ++ ops') := by
  induction ops' using List.reverseRecOn with
  | nil => rw [List.append_nil]
  | append_singleton ops' op ih =>
      rw [← List.append_assoc, prunedBelow_concat]
      exact ih.trans (le_max_left _ _)

theorem getD_front (data : Bytes) {i : Nat} (hi : i < 32) :
    (Blake3.hash data).toList.getD i 0 = data.getD i 0 := by
  show (Vector.ofFn fun j : Fin 32 => data.getD j 0).toList.getD i 0 = _
  rw [List.getD_eq_getElem?_getD, Vector.getElem?_toList, Vector.getElem?_ofFn, dif_pos hi]
  rfl

/-- The front of a blank header is its height. -/
theorem height_eq_of_blank_hash {height height' : UInt64}
    (h : Blake3.hash (BlockHeader.blank height (fill 32 0)).serialize =
      Blake3.hash (BlockHeader.blank height' (fill 32 0)).serialize) : height = height' := by
  apply Wire.putU64_injective
  apply List.ext_getElem
  · rw [Wire.length_putU64, Wire.length_putU64]
  · intro i hi hi'
    have hdigest := congrArg (fun digest : Bytes32 => digest.toList.getD i 0) h
    have hlt : i < 32 := by
      rw [Wire.length_putU64] at hi
      omega
    simp only [getD_front _ hlt] at hdigest
    have hheight (height : UInt64) : (BlockHeader.blank height (fill 32 0)).height = height := rfl
    rwa [BlockHeader.serialize, BlockHeader.serialize, hheight, hheight,
      List.getD_append _ _ _ _ hi,
      List.getD_append _ _ _ _ hi', List.getD_eq_getElem _ _ hi,
      List.getD_eq_getElem _ _ hi'] at hdigest

theorem wrapping_headers {n : Nat} {bytes : Bytes} (h : bytes ∈ submittedHeaders (wrapping n)) :
    ∃ height, bytes = (BlockHeader.blank height (fill 32 0)).serialize := by
  obtain ⟨op, hop, block, hblock, rfl⟩ := h
  have hblank : (∃ keepLast, op = .pruneHistory keepLast) ∨ ∃ height, op = applyBlank height := by
    rw [wrapping, prunedOnce, blanks] at hop
    simp only [List.mem_append, List.mem_cons, List.mem_map, List.not_mem_nil, or_false] at hop
    obtain ((rfl | rfl | rfl) | ⟨i, -, rfl⟩) | rfl := hop
    · exact .inr ⟨_, rfl⟩
    · exact .inr ⟨_, rfl⟩
    · exact .inl ⟨_, rfl⟩
    · exact .inr ⟨_, rfl⟩
    · exact .inr ⟨_, rfl⟩
  obtain ⟨keepLast, rfl⟩ | ⟨height, rfl⟩ := hblank
  · cases hblock
  · cases hblock
    exact ⟨height, rfl⟩

theorem collisionFree_wrapping (n : Nat) :
    Blake3.CollisionFree (submittedHeaders (wrapping n)) := by
  intro a ha b hb heq
  obtain ⟨height, rfl⟩ := wrapping_headers ha
  obtain ⟨height', rfl⟩ := wrapping_headers hb
  rw [height_eq_of_blank_hash heq]

theorem found_wrapping {n : Nat} (hlast : 2 + UInt64.ofNat n = 0) :
    ((storeMachine.final StateStore.empty (wrapping n)).getBlockByHeight 0).isSome := by
  have haccept := accepts_blank ((expectedHeight_blanks n).trans hlast)
  have hfound := getBlockByHeight_applyBlock_self haccept ∅ []
  rw [wrapping, Machine.final_append, Machine.final_append, Machine.final_cons, Machine.final_nil,
    applyBlank, step_applyBlock_of_accepts haccept]
  rw [Option.isSome_iff_exists]
  exact ⟨_, hfound⟩

theorem prunedBelow_wrapping (n : Nat) : 0 < prunedBelow (wrapping n) := by
  have hfirst : prunedBelow prunedOnce = 1 := by decide +kernel
  have hle := prunedBelow_le_append prunedOnce (blanks n ++ [applyBlank 0])
  rw [hfirst] at hle
  rwa [wrapping, List.append_assoc]

theorem last_height {n : Nat} (hn : n = 2 ^ 64 - 2) : 2 + UInt64.ofNat n = 0 := by
  apply UInt64.toNat_inj.mp
  rw [UInt64.toNat_add, UInt64.toNat_ofNat', hn]
  decide

theorem pruned_height_reused :
    Blake3.CollisionFree (submittedHeaders (wrapping (2 ^ 64 - 2))) ∧
      ¬ ∀ height : UInt64, height.toNat < prunedBelow (wrapping (2 ^ 64 - 2)) →
        (storeMachine.final StateStore.empty (wrapping (2 ^ 64 - 2))).getBlockByHeight height =
          none := by
  refine ⟨collisionFree_wrapping _, fun hnone => ?_⟩
  have hfound := found_wrapping (last_height rfl)
  rw [hnone 0 (prunedBelow_wrapping _)] at hfound
  cases hfound

theorem pruned_once_archived : Archived prunedOnce := by
  have hfree : Blake3.CollisionFree {bytes | bytes ∈
      [(Block.blank 0 (fill 32 0) []).header.serialize,
        (Block.blank 1 (fill 32 0) []).header.serialize]} :=
    Blake3.collisionFree_of_nodup (by decide +kernel)
  apply archived
  apply hfree.mono
  rintro bytes ⟨op, hop, block, hblock, rfl⟩
  simp only [prunedOnce, List.mem_cons, List.not_mem_nil, or_false] at hop
  obtain rfl | rfl | rfl := hop <;> cases hblock <;> simp

end

end NoirNet
