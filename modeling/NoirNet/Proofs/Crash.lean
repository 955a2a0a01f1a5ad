import NoirNet.Consensus.Concrete
import NoirNet.Proofs.StateRoot
import NoirNet.Storage.Writes

/-!
# A crash inside `apply_block`

The database keeps no journal, so what a process that stops inside `apply_block`
leaves behind is a part of the block.  Started over, the block is applied in
full as long as that part has none of the inserts a second run trips over: a
nullifier, which it takes for a double spend, the frontier and the size of the
tree, behind which it appends the outputs once more, and the chain height.
-/

namespace NoirNet

open Lib StateStore

section

variable [Blake3]

/-- The store that is opened behind a part of the inserts. -/
def crashed (store : StateStore) (done : List Write) : StateStore :=
  StateStore.openDb (sled.replay store.db done)

/-- The reopened store is what the block leaves, or what the block makes it. -/
def Recovers (store : StateStore) (block : Block) (changes : Table Bytes Bytes)
    (contracts : List (Hash32 × Bytes)) (done : List Write) : Prop :=
  let finished := (store.applyBlock block changes contracts).1
  let reopened := crashed store done
  reopened = finished ∨
    (∃ root, (reopened.applyBlock block changes contracts).2 = .ok root) ∧
      (reopened.applyBlock block changes contracts).1 = finished

/-- An insert that a second run trips over. -/
def Write.marks : Write → Bool
  | .nullifier _ _ => true
  | .frontier _ => true
  | .size _ => true
  | .chainHeight _ => true
  | _ => false

/-! ## The parity of the tree -/

def parity (tree : NoteCommitmentTree) : Option Bool :=
  tree.frontier.val.head?.map Option.isSome

theorem parity_foldl_appended (commitments : List Hash32) {tree tree' : NoteCommitmentTree}
    (h : parity tree' = (parity tree).map not) :
    parity (commitments.foldl NoteCommitmentTree.appended tree') =
      (parity (commitments.foldl NoteCommitmentTree.appended tree)).map not := by
  induction commitments generalizing tree tree' with
  | nil => exact h
  | cons commitment commitments ih =>
      apply ih
      have hpush (tree : NoteCommitmentTree) :
          parity (tree.appended commitment) = (parity tree).map not :=
        PerfectTree.isSome_head_push hashPair commitment tree.frontier.val
      rw [hpush, hpush, h]

omit [Blake3] in
theorem parity_ne (tree : NoteCommitmentTree) : parity tree ≠ (parity tree).map not := by
  obtain ⟨⟨slots, hlen⟩, size⟩ := tree
  cases slots with
  | nil => simp [NOTE_COMMITMENT_TREE_DEPTH] at hlen
  | cons slot slots => cases slot <;> simp [parity]

theorem size_foldl_appended (commitments : List Hash32) (tree : NoteCommitmentTree) :
    (commitments.foldl NoteCommitmentTree.appended tree).size = tree.size + commitments.length := by
  induction commitments generalizing tree with
  | nil => rfl
  | cons commitment commitments ih =>
      rw [List.foldl_cons, ih, List.length_cons]
      show tree.size + 1 + commitments.length = _
      omega

/-- Behind the same outputs only the same tree has grown to the same tree. -/
theorem Reopened.same_of_foldl_eq {tree tree' : NoteCommitmentTree} {done : List Write}
    (hreopened : Reopened tree done tree') {commitments : List Hash32}
    (h : commitments.foldl NoteCommitmentTree.appended tree' =
      commitments.foldl NoteCommitmentTree.appended tree) :
    ∀ w ∈ done, ¬ w.touchesTree := by
  cases hreopened with
  | same hsame => exact hsame
  | grown hgrown =>
      exfalso
      have hsize := congrArg NoteCommitmentTree.size h
      rw [size_foldl_appended, size_foldl_appended] at hsize
      omega
  | torn commitment =>
      exfalso
      have hflipped :
          parity { frontier := (tree.appended commitment).frontier, size := tree.size } =
          (parity tree).map not :=
        PerfectTree.isSome_head_push hashPair commitment tree.frontier.val
      have hparity := parity_foldl_appended commitments hflipped
      rw [h] at hparity
      exact parity_ne _ hparity

/-! ## The three places to stop -/

section

variable {store : StateStore} {block : Block} (hreach : store.Reachable)
  (haccept : store.Accepts block) {changes : Table Bytes Bytes} {order : List (Bytes × Bytes)}
  (horder : order.Perm changes.toList) (contracts : List (Hash32 × Bytes))

def beforeHead (store : StateStore) (block : Block) (order : List (Bytes × Bytes))
    (contracts : List (Hash32 × Bytes)) : List Write :=
  bodyWrites block.header.height store.tree block.effects ++
    recordWrites (block.commitments.foldl NoteCommitmentTree.appended store.tree).root block order
      contracts

theorem applyBlockWrites_eq :
    applyBlockWrites store.tree block order contracts =
      beforeHead store block order contracts ++ headWrites block := by
  rw [applyBlockWrites, beforeHead, List.append_assoc]

theorem beforeHead_not_touchesHead {w : Write} (hw : w ∈ beforeHead store block order contracts) :
    ¬ w.touchesHead := by
  obtain hbody | hrecord := List.mem_append.mp hw
  · exact (mem_bodyWrites hbody).1
  · exact (mem_recordWrites hrecord).2.1

include hreach in
theorem openDb_applyBlock :
    StateStore.openDb (store.applyBlock block changes contracts).1.db =
      (store.applyBlock block changes contracts).1 := by
  obtain ⟨ops, rfl⟩ := hreach
  have hreach' : ((storeMachine.final StateStore.empty ops).applyBlock block changes
      contracts).1.Reachable := by
    refine ⟨ops ++ [.applyBlock block changes contracts], ?_⟩
    rw [storeMachine.final_append]
    exact step_applyBlock_fst _ block changes contracts
  exact StateStore.ext rfl hreach'.holds.openDb_eq

include hreach haccept horder in
theorem recovers_complete :
    Recovers store block changes contracts (applyBlockWrites store.tree block order contracts) := by
  left
  rw [← openDb_applyBlock hreach contracts, crashed, applyBlock_eq_replay haccept horder]

omit [Blake3] in
theorem heightHash_write_of_get {db : Db} {height : UInt64} {hash : BlockHash}
    (h : db.heightHash[height]? = some hash) : db.write (.heightHash height hash) = db := by
  apply Db.ext <;> first
    | rfl
    | exact Table.insert_of_get h

omit [Blake3] in
theorem expectedHeight_ne_of_chainHeight {store : StateStore} {height : UInt64}
    (h : store.db.chainHeight = some height) : height ≠ store.expectedHeight := by
  have hexpected : store.expectedHeight = height + 1 := by
    simp [expectedHeight, hasBlocks, getChainHeight, h]
  rw [hexpected]
  grind

include hreach haccept horder in
theorem recovers_headless_iff :
    Recovers store block changes contracts
        (beforeHead store block order contracts ++ [.chainHeight block.header.height]) ↔
      store.db.heightHash[block.header.height]? = some block.blockHash := by
  let before := sled.replay store.db (beforeHead store block order contracts)
  have hdb : (crashed store
      (beforeHead store block order contracts ++ [.chainHeight block.header.height])).db =
        before.write (.chainHeight block.header.height) :=
    Assignments.replay_append _ _ _ _
  have hfinished : (store.applyBlock block changes contracts).1.db =
      (before.write (.chainHeight block.header.height)).write
        (.heightHash block.header.height block.blockHash) := by
    rw [applyBlock_eq_replay haccept horder, applyBlockWrites_eq, Assignments.replay_append]
    rfl
  have hindex : (before.write (.chainHeight block.header.height)).heightHash =
      store.db.heightHash :=
    (head_replay (fun w hw => beforeHead_not_touchesHead contracts hw) store.db).2
  constructor
  · rintro (hsame | ⟨hok, -⟩)
    · have hfound := heightHash_applyBlock haccept changes contracts block.header.height
      rw [if_pos rfl, ← hsame, hdb, hindex] at hfound
      exact hfound
    · exfalso
      obtain ⟨hheight, -⟩ := applyBlock_ok_iff_accepts.mp hok
      exact expectedHeight_ne_of_chainHeight (by rw [hdb]; rfl) hheight
  · intro hold
    left
    have hpresent := heightHash_write_of_get (hindex ▸ hold)
    rw [← openDb_applyBlock hreach contracts, hfinished, hpresent, ← hdb]
    rfl

/-! ## In front of the chain height -/

include hreach in
theorem tree_crashed {done : List Write} (hmarks : ∀ w ∈ done, ¬ w.marks) :
    (crashed store done).tree = store.tree := by
  have hframe : ∀ w ∈ done, ¬ w.touchesTree := by
    intro w hw htouches
    apply hmarks w hw
    cases w <;> first
      | rfl
      | cases htouches
  exact (openDb_replay hframe store.db).trans hreach.holds.openDb_eq

section

variable {done : List Write} (hdone : done <+: beforeHead store block order contracts)

include hdone

theorem chainHeight_crashed : (crashed store done).db.chainHeight = store.db.chainHeight :=
  (head_replay (fun _ hw => beforeHead_not_touchesHead contracts (hdone.subset hw)) store.db).1

include hreach in
theorem reopened_crashed : Reopened store.tree done (crashed store done).tree := by
  apply openDb_of_prefix (fun _ hw => (mem_recordWrites hw).1) _ hdone
  exact hreach.holds.openDb_eq

theorem mem_nullifiers_of_mem {n : Hash32} {height : UInt64} (h : .nullifier n height ∈ done) :
    n ∈ block.nullifiers := by
  rw [← Block.nullifiers_effects]
  obtain hbody | hrecord := List.mem_append.mp (hdone.subset h)
  · exact (mem_bodyWrites hbody).2 n height rfl
  · exact absurd rfl ((mem_recordWrites hrecord).2.2 n height)

include haccept

theorem accepts_crashed_iff :
    (crashed store done).Accepts block ↔ ∀ n height, .nullifier n height ∉ done := by
  have hexpected : (crashed store done).expectedHeight = store.expectedHeight := by
    unfold expectedHeight hasBlocks getChainHeight
    rw [chainHeight_crashed contracts hdone]
  have hspent (n : Hash32) : (crashed store done).containsNullifier n ↔
      (∃ height, .nullifier n height ∈ done) ∨ store.containsNullifier n :=
    isSome_nullifiers_replay store.db done n
  constructor
  · intro h n height hn
    exact h.2.2 n (mem_nullifiers_of_mem contracts hdone hn) ((hspent n).mpr (.inl ⟨height, hn⟩))
  · intro h
    refine ⟨by rw [hexpected, haccept.1], haccept.2.1, ?_⟩
    intro n hn hcontains
    obtain ⟨height, hwritten⟩ | hold := (hspent n).mp hcontains
    · exact h n height hwritten
    · exact haccept.2.2 n hn hold

include hreach horder

theorem recovers_partial_iff :
    Recovers store block changes contracts done ↔ ∀ w ∈ done, ¬ w.marks := by
  have hfinished := applyBlock_eq_replay haccept horder contracts
  constructor
  · rintro (hsame | ⟨hok, hsame⟩)
    · exfalso
      -- the block has moved the chain on, the inserts so far have not
      have hheight := chainHeight_applyBlock haccept changes contracts
      rw [← hsame, chainHeight_crashed contracts hdone] at hheight
      exact expectedHeight_ne_of_chainHeight hheight haccept.1
    · have hagain : (crashed store done).Accepts block := applyBlock_ok_iff_accepts.mp hok
      have hspends := (accepts_crashed_iff haccept contracts hdone).mp hagain
      have htree : block.commitments.foldl NoteCommitmentTree.appended (crashed store done).tree =
          block.commitments.foldl NoteCommitmentTree.appended store.tree := by
        rw [applyBlock_eq_replay hagain horder, hfinished] at hsame
        exact congrArg StateStore.tree hsame
      have htrees := (reopened_crashed hreach contracts hdone).same_of_foldl_eq htree
      intro w hw hmarks
      cases w with
      | nullifier n height => exact hspends n height hw
      | frontier => exact htrees _ hw rfl
      | size => exact htrees _ hw rfl
      | chainHeight => exact beforeHead_not_touchesHead contracts (hdone.subset hw) rfl
      | _ => cases hmarks
  · intro hmarks
    right
    have hagain : (crashed store done).Accepts block :=
      (accepts_crashed_iff haccept contracts hdone).mpr fun n height hn => hmarks _ hn rfl
    have hprefix : done <+: applyBlockWrites store.tree block order contracts := by
      rw [applyBlockWrites_eq]
      exact hdone.trans (List.prefix_append _ _)
    refine ⟨applyBlock_ok_iff_accepts.mpr hagain, ?_⟩
    rw [applyBlock_eq_replay hagain horder, hfinished, tree_crashed hreach hmarks]
    congr 1
    exact sled.replay_of_prefix hprefix store.db

end

end

/-- A process that stops somewhere in the inserts of an accepted block leaves a
store that is, or with the block becomes, what the whole block leaves, exactly
when all inserts were made, when the missing one finds its entry already there,
or when none of those made is one a second run trips over. -/
theorem crash_recovers_iff {store : StateStore} (hreach : store.Reachable) {block : Block}
    (haccept : store.Accepts block) {changes : Table Bytes Bytes} {order : List (Bytes × Bytes)}
    (horder : order.Perm changes.toList) (contracts : List (Hash32 × Bytes))
    {done rest : List Write}
    (hsplit : done ++ rest = applyBlockWrites store.tree block order contracts) :
    Recovers store block changes contracts done ↔
      rest = [] ∨
        rest = [.heightHash block.header.height block.blockHash] ∧
          store.db.heightHash[block.header.height]? = some block.blockHash ∨
        ∀ w ∈ done, ¬ w.marks := by
  have hheads : applyBlockWrites store.tree block order contracts =
      beforeHead store block order contracts ++ [.chainHeight block.header.height] ++
        [.heightHash block.header.height block.blockHash] := by
    rw [applyBlockWrites_eq, List.append_assoc]
    rfl
  have hlength := congrArg List.length hsplit
  rw [hheads] at hsplit hlength
  simp only [List.length_append, List.length_singleton] at hlength
  have hdone : done <+: beforeHead store block order contracts ++
      [.chainHeight block.header.height] ++
        [.heightHash block.header.height block.blockHash] := ⟨rest, hsplit⟩
  rw [List.prefix_concat_iff, List.prefix_concat_iff] at hdone
  obtain rfl | rfl | hdone := hdone
  · have hrest : rest = [] := List.append_right_eq_self.mp hsplit
    rw [← hheads]
    simp [hrest, recovers_complete hreach haccept horder contracts]
  · have hrest : rest = [.heightHash block.header.height block.blockHash] :=
      List.append_cancel_left hsplit
    rw [recovers_headless_iff hreach haccept horder contracts, hrest]
    simp [Write.marks]
  · rw [recovers_partial_iff hreach haccept horder contracts hdone]
    have hshort := hdone.length_le
    have hne : rest ≠ [] := by
      rintro rfl
      simp at hlength
      omega
    have hne' : rest ≠ [.heightHash block.header.height block.blockHash] := by
      rintro rfl
      simp at hlength
      omega
    simp [hne, hne']

end

/-! ## A spend, and then a crash -/

section

attribute [local instance] Blake3.sum

def spendBlock : Block :=
  Block.blank 0 (fill 32 0) [Transaction.blank [SpendDescription.blank (fill 32 7)] [] []]

def spendBlockWrites : List Write := applyBlockWrites StateStore.empty.tree spendBlock [] []

theorem reachable_empty : StateStore.empty.Reachable := ⟨[], rfl⟩

theorem spent_before_crash :
    StateStore.empty.Accepts spendBlock ∧
      [.nullifier (fill 32 7) 0] <+: spendBlockWrites ∧
      ¬ Recovers StateStore.empty spendBlock ∅ [] [.nullifier (fill 32 7) 0] := by
  have haccept : StateStore.empty.Accepts spendBlock := by decide +kernel
  have hdone : [.nullifier (fill 32 7) 0] <+:
      beforeHead StateStore.empty spendBlock [] [] := ⟨_, rfl⟩
  have horder : ([] : List (Bytes × Bytes)).Perm (∅ : Table Bytes Bytes).toList := .refl _
  refine ⟨haccept, ⟨_, rfl⟩, ?_⟩
  intro hrecovers
  exact (recovers_partial_iff reachable_empty haccept horder [] hdone).mp hrecovers _
    (List.mem_singleton_self _) rfl

theorem spend_recovers_iff :
    Recovers StateStore.empty spendBlock ∅ [] (spendBlockWrites.take 1) ↔
      spendBlockWrites.drop 1 = [] ∨
        spendBlockWrites.drop 1 = [.heightHash spendBlock.header.height spendBlock.blockHash] ∧
          StateStore.empty.db.heightHash[spendBlock.header.height]? = some spendBlock.blockHash ∨
        ∀ w ∈ spendBlockWrites.take 1, ¬ w.marks := by
  have horder : ([] : List (Bytes × Bytes)).Perm (∅ : Table Bytes Bytes).toList := .refl _
  exact crash_recovers_iff reachable_empty (by decide +kernel) horder []
    (List.take_append_drop 1 spendBlockWrites)

end

end NoirNet
