import NoirNet.Consensus.Concrete

/-!
# Serving a sync request

The request names a first height and a limit, and both go into `u64` additions.

* `collectBlocks_spec`: the loop, up to the first height without a block;
* `Served`, `Served.unique`: the answer a request asks for;
* `answer_served_iff`: when the handler gives it;
* `sync_request_exact_iff`: and adds without overflow.
-/

namespace NoirNet

open Lib

def checkedAdd (a b : UInt64) : Option UInt64 :=
  if a.toNat + b.toNat < 2 ^ 64 then some (a + b) else none

theorem checkedAdd_isSome_iff {a b : UInt64} :
    (checkedAdd a b).isSome ↔ a.toNat + b.toNat < 2 ^ 64 := by
  rw [checkedAdd, Option.isSome_ite]

/-! ## What a request asks for -/

def StateStore.blockAt (store : StateStore) (height : Nat) : Option Block :=
  if height < 2 ^ 64 then store.getBlockByHeight (.ofNat height) else none

theorem StateStore.blockAt_toNat (store : StateStore) (height : UInt64) :
    store.blockAt height.toNat = store.getBlockByHeight height := by
  rw [blockAt, if_pos height.toNat_lt, UInt64.ofNat_toNat]

/-- The stored blocks from the first height on, in order, up to the first that is
missing, the limit or the chain height. -/
structure Served (store : StateStore) (req : SyncRequest) (blocks : List Block) : Prop where
  inOrder : ∀ i < blocks.length,
    store.blockAt (req.startHeight.toNat + i) = blocks[i]? ∧
      req.startHeight.toNat + i ≤ store.getChainHeight.toNat
  limited : blocks.length ≤ req.limit.toNat
  stops : blocks.length = req.limit.toNat ∨
    store.getChainHeight.toNat < req.startHeight.toNat + blocks.length ∨
    store.blockAt (req.startHeight.toNat + blocks.length) = none

theorem Served.length_le {store : StateStore} {req : SyncRequest} {blocks blocks' : List Block}
    (h : Served store req blocks) (h' : Served store req blocks') :
    blocks'.length ≤ blocks.length := by
  by_contra hlt
  obtain ⟨hblock, hheight⟩ := h'.inOrder blocks.length (by omega)
  have hlimit := h'.limited
  rcases h.stops with hstop | hstop | hstop
  · omega
  · omega
  · rw [hstop, List.getElem?_eq_getElem (by omega)] at hblock
    cases hblock

/-- There is one answer to a request. -/
theorem Served.unique {store : StateStore} {req : SyncRequest} {blocks blocks' : List Block}
    (h : Served store req blocks) (h' : Served store req blocks') : blocks = blocks' := by
  have hlength : blocks.length = blocks'.length := by
    have hle := h.length_le h'
    have hge := h'.length_le h
    omega
  apply List.ext_getElem?
  intro i
  by_cases hi : i < blocks.length
  · rw [← (h.inOrder i hi).1, ← (h'.inOrder i (hlength ▸ hi)).1]
  · rw [List.getElem?_eq_none (by omega), List.getElem?_eq_none (by omega)]

theorem served_nil_iff {store : StateStore} {req : SyncRequest} :
    Served store req [] ↔ req.limit.toNat = 0 ∨
      store.getChainHeight.toNat < req.startHeight.toNat ∨
      store.getBlockByHeight req.startHeight = none := by
  rw [← store.blockAt_toNat]
  constructor
  · intro h
    have hstops := h.stops
    rw [List.length_nil, Nat.add_zero] at hstops
    exact hstops.imp_left Eq.symm
  · intro h
    refine ⟨fun i hi => absurd hi (Nat.not_lt_zero i), Nat.zero_le _, ?_⟩
    rw [List.length_nil, Nat.add_zero]
    exact h.imp_left Eq.symm

/-! ## The handler -/

theorem toNat_min (a b : UInt64) : (min a b).toNat = min a.toNat b.toNat := by
  show (if a ≤ b then a else b).toNat = _
  by_cases hle : a ≤ b
  · rw [if_pos hle, Nat.min_eq_left (UInt64.le_iff_toNat_le.mp hle)]
  · have hge : b.toNat ≤ a.toNat := by
      rw [UInt64.le_iff_toNat_le] at hle
      omega
    rw [if_neg hle, Nat.min_eq_right hge]

namespace LoopState

/-- The loop takes the blocks in order and ends at its bound or where there is none. -/
theorem collectBlocks_spec (store : StateStore) {n : Nat} {h : UInt64}
    (hbound : h.toNat + n ≤ 2 ^ 64) :
    let blocks := collectBlocks store n h
    blocks.length ≤ n ∧ (∀ i < blocks.length, store.blockAt (h.toNat + i) = blocks[i]?) ∧
      (blocks.length = n ∨ store.blockAt (h.toNat + blocks.length) = none) := by
  induction n generalizing h with
  | zero => simp [collectBlocks]
  | succ n ih =>
      cases hblock : store.getBlockByHeight h with
      | none => simp [collectBlocks, hblock, store.blockAt_toNat]
      | some block =>
          have hblocks : collectBlocks store (n + 1) h =
              block :: collectBlocks store n (h + 1) := by
            simp [collectBlocks, hblock]
          rw [hblocks]
          by_cases hlast : n = 0
          · subst hlast
            refine ⟨by simp [collectBlocks], ?_, .inl (by simp [collectBlocks])⟩
            intro i hi
            simp only [collectBlocks, List.length_singleton, Nat.lt_one_iff] at hi
            rw [hi, Nat.add_zero, store.blockAt_toNat, hblock]
            rfl
          · have hnext : (h + 1).toNat = h.toNat + 1 := by
              rw [UInt64.toNat_add, UInt64.toNat_one, Nat.mod_eq_of_lt (by omega)]
            obtain ⟨hlength, horder, hstops⟩ := ih (h := h + 1) (by omega)
            rw [hnext] at horder hstops
            refine ⟨Nat.succ_le_succ hlength, ?_, ?_⟩
            · intro i hi
              cases i with
              | zero => rw [Nat.add_zero, store.blockAt_toNat, hblock]; rfl
              | succ i =>
                  have hi' := horder i (Nat.lt_of_succ_lt_succ hi)
                  rw [List.getElem?_cons_succ, ← hi']
                  congr 1
                  omega
            · rw [List.length_cons, Nat.succ_inj, Nat.add_comm _ 1, ← Nat.add_assoc]
              exact hstops

variable [Bls]

def syncBound (state : LoopState) (req : SyncRequest) : Option UInt64 := do
  let upper ← checkedAdd req.startHeight req.limit.toUInt64
  let tip ← checkedAdd state.engine.stateStore.getChainHeight 1
  return min upper tip

def answer (state : LoopState) (req : SyncRequest) : List Block :=
  let store := state.engine.stateStore
  let maxH := min (req.startHeight + req.limit.toUInt64) (store.getChainHeight + 1)
  collectBlocks store (maxH.toNat - req.startHeight.toNat) req.startHeight

theorem onSyncRequest_eq (state : LoopState) (peer : PeerId) (req : SyncRequest) :
    state.onSyncRequest peer req = [.sendSyncResponse peer { blocks := state.answer req }] := rfl

def Fits (state : LoopState) (req : SyncRequest) : Prop :=
  req.startHeight.toNat + req.limit.toNat < 2 ^ 64 ∧
    state.engine.stateStore.getChainHeight.toNat + 1 < 2 ^ 64

variable {state : LoopState} {req : SyncRequest}

theorem syncBound_isSome_iff : (state.syncBound req).isSome ↔ state.Fits req := by
  have hlimit : req.limit.toUInt64.toNat = req.limit.toNat := UInt32.toNat_toUInt64 _
  rw [Fits, ← hlimit, ← checkedAdd_isSome_iff, ← UInt64.toNat_one, ← checkedAdd_isSome_iff,
    syncBound]
  cases checkedAdd req.startHeight req.limit.toUInt64 <;>
    cases checkedAdd state.engine.stateStore.getChainHeight 1 <;> simp

theorem answer_eq (hfits : state.Fits req) :
    state.answer req = collectBlocks state.engine.stateStore
      (min (req.startHeight.toNat + req.limit.toNat)
        (state.engine.stateStore.getChainHeight.toNat + 1) - req.startHeight.toNat)
      req.startHeight := by
  obtain ⟨hupper, htip⟩ := hfits
  have hlimit : (req.startHeight + req.limit.toUInt64).toNat =
      req.startHeight.toNat + req.limit.toNat := by
    rw [UInt64.toNat_add, UInt32.toNat_toUInt64, Nat.mod_eq_of_lt hupper]
  have hheight : (state.engine.stateStore.getChainHeight + 1).toNat =
      state.engine.stateStore.getChainHeight.toNat + 1 := by
    rw [UInt64.toNat_add, UInt64.toNat_one, Nat.mod_eq_of_lt htip]
  rw [answer, ← hlimit, ← hheight]
  congr 2
  exact toNat_min _ _

theorem served_answer (hfits : state.Fits req) :
    Served state.engine.stateStore req (state.answer req) := by
  rw [answer_eq hfits]
  obtain ⟨hupper, htip⟩ := hfits
  obtain ⟨hlength, horder, hstops⟩ := collectBlocks_spec state.engine.stateStore
    (n := min (req.startHeight.toNat + req.limit.toNat)
      (state.engine.stateStore.getChainHeight.toNat + 1) - req.startHeight.toNat)
    (h := req.startHeight) (by omega)
  constructor
  · intro i hi
    exact ⟨horder i hi, by omega⟩
  · omega
  · rcases hstops with hstop | hstop
    · by_cases hlimit : req.startHeight.toNat + req.limit.toNat ≤
          state.engine.stateStore.getChainHeight.toNat + 1
      · exact .inl (by omega)
      · exact .inr (.inl (by omega))
    · exact .inr (.inr hstop)

theorem answer_of_not_fits (hfits : ¬ state.Fits req) : state.answer req = [] := by
  have hempty : (min (req.startHeight + req.limit.toUInt64)
      (state.engine.stateStore.getChainHeight + 1)).toNat - req.startHeight.toNat = 0 := by
    have hstart := req.startHeight.toNat_lt
    have hheight := state.engine.stateStore.getChainHeight.toNat_lt
    have hlimit := req.limit.toNat_lt
    rw [toNat_min, UInt64.toNat_add, UInt32.toNat_toUInt64, UInt64.toNat_add, UInt64.toNat_one]
    unfold Fits at hfits
    omega
  rw [answer, hempty]
  rfl

theorem answer_served_iff :
    Served state.engine.stateStore req (state.answer req) ↔
      state.Fits req ∨ req.limit.toNat = 0 ∨
        state.engine.stateStore.getChainHeight.toNat < req.startHeight.toNat ∨
        state.engine.stateStore.getBlockByHeight req.startHeight = none := by
  by_cases hfits : state.Fits req
  · exact ⟨fun _ => .inl hfits, fun _ => served_answer hfits⟩
  · rw [answer_of_not_fits hfits, served_nil_iff, or_iff_right hfits]

/-- The handler adds without overflow, and answers with what is asked for, exactly
when both sums are below `2 ^ 64`.  With wrapping additions the answer is also
right where it has to be empty. -/
theorem sync_request_exact_iff (state : LoopState) (peer : PeerId) (req : SyncRequest) :
    (((state.syncBound req).isSome ∧
        ∃ blocks, state.onSyncRequest peer req = [.sendSyncResponse peer { blocks }] ∧
          Served state.engine.stateStore req blocks) ↔ state.Fits req) ∧
      ((∃ blocks, state.onSyncRequest peer req = [.sendSyncResponse peer { blocks }] ∧
          Served state.engine.stateStore req blocks) ↔
        state.Fits req ∨ req.limit.toNat = 0 ∨
          state.engine.stateStore.getChainHeight.toNat < req.startHeight.toNat ∨
          state.engine.stateStore.getBlockByHeight req.startHeight = none) := by
  have hanswer : (∃ blocks, state.onSyncRequest peer req = [.sendSyncResponse peer { blocks }] ∧
      Served state.engine.stateStore req blocks) ↔
        Served state.engine.stateStore req (state.answer req) := by
    constructor
    · rintro ⟨blocks, hsent, hserved⟩
      rw [onSyncRequest_eq] at hsent
      have hblocks : state.answer req = blocks := by simpa using hsent
      rwa [hblocks]
    · intro hserved
      exact ⟨_, onSyncRequest_eq state peer req, hserved⟩
  rw [hanswer, answer_served_iff, syncBound_isSome_iff]
  exact ⟨⟨And.left, fun hfits => ⟨hfits, .inl hfits⟩⟩, Iff.rfl⟩

end LoopState

/-! ## A request at the end of the heights -/

section

attribute [local instance] Blake3.sum Bls.plain Nova.rejecting

def emptyNode : LoopState :=
  (ConsensusEngine.new StateStore.empty {} none).enterState 0

theorem sync_request_overflows :
    ¬ ∀ (state : LoopState) (peer : PeerId) (req : SyncRequest),
      state.engine.stateStore.Reachable →
        (state.syncBound req).isSome ∧
          ∃ blocks, state.onSyncRequest peer req = [.sendSyncResponse peer { blocks }] ∧
            Served state.engine.stateStore req blocks := by
  intro h
  have hexact := h emptyNode [] { startHeight := 0xffffffffffffffff, limit := 1 } ⟨[], rfl⟩
  exact absurd (LoopState.syncBound_isSome_iff.mp hexact.1).1 (by decide)

end

end NoirNet
