import NoirNet.Lib.Replay
import NoirNet.Storage.Frame

/-!
# The inserts of `apply_block`

`apply_block` makes one `sled` insert after another and keeps no journal.  Each
insert assigns to one key of one tree, so the list of them determines what a
process that stops in between leaves behind.

* `applyBlock_eq_replay`: all inserts together are `apply_block`;
* `openDb_of_prefix`: what `StateStore::open` makes of the tree behind some of
  them.
-/

namespace NoirNet

open Lib

inductive Write where
  | nullifier (nullifier : Hash32) (height : UInt64)
  | commitment (leafIndex : Nat) (commitment : Hash32)
  | frontier (frontier : TreeFrontier)
  | size (size : Nat)
  | anchor (root : StateRoot) (expiry : UInt64)
  | contract (contractId : Hash32) (bytecode : Bytes)
  | contractState (key value : Bytes)
  | block (hash : BlockHash) (block : Block)
  | tx (txId : TxId) (tx : Transaction)
  | chainHeight (height : UInt64)
  | heightHash (height : UInt64) (hash : BlockHash)

inductive Location where
  | nullifier (nullifier : Hash32)
  | commitment (leafIndex : Nat)
  | frontier
  | size
  | anchor (root : StateRoot)
  | contract (contractId : Hash32)
  | contractState (key : Bytes)
  | block (hash : BlockHash)
  | tx (txId : TxId)
  | chainHeight
  | heightHash (height : UInt64)

def Write.location : Write → Location
  | .nullifier n _ => .nullifier n
  | .commitment i _ => .commitment i
  | .frontier _ => .frontier
  | .size _ => .size
  | .anchor root _ => .anchor root
  | .contract id _ => .contract id
  | .contractState key _ => .contractState key
  | .block hash _ => .block hash
  | .tx id _ => .tx id
  | .chainHeight _ => .chainHeight
  | .heightHash h _ => .heightHash h

def Db.write (db : Db) : Write → Db
  | .nullifier nullifier height => { db with nullifiers := db.nullifiers.insert nullifier height }
  | .commitment leafIndex commitment =>
      { db with commitments := db.commitments.insert leafIndex commitment }
  | .frontier frontier => { db with treeFrontier := some frontier }
  | .size size => { db with treeSize := some size }
  | .anchor root expiry => { db with anchors := db.anchors.insert root expiry }
  | .contract contractId bytecode =>
      { db with contracts := db.contracts.insert contractId bytecode }
  | .contractState key value => { db with contractState := db.contractState.insert key value }
  | .block hash block => { db with blocks := db.blocks.insert hash block }
  | .tx txId tx => { db with txs := db.txs.insert txId tx }
  | .chainHeight height => { db with chainHeight := some height }
  | .heightHash height hash => { db with heightHash := db.heightHash.insert height hash }

def sled : Assignments Db Write Location where
  write := Db.write
  location := Write.location
  cover db w w' h := by
    cases w <;> cases w' <;> cases h <;> simp only [Db.write, Table.insert_insert]
  commute db w w' h := by
    cases w <;> cases w' <;> first
      | rfl
      | simp only [Write.location, ne_eq, Location.nullifier.injEq, Location.commitment.injEq,
          Location.anchor.injEq, Location.contract.injEq, Location.contractState.injEq,
          Location.block.injEq, Location.tx.injEq, Location.heightHash.injEq,
          not_true_eq_false] at h
        try simp only [Db.write, Table.insert_comm h]

/-! ## In program order -/

section

variable [Blake3]

/-- The inserts for the body of a block, given the tree in front of it. -/
def bodyWrites (height : UInt64) : NoteCommitmentTree → List Effect → List Write
  | _, [] => []
  | tree, .spend nullifier :: effects =>
      .nullifier nullifier height :: bodyWrites height tree effects
  | tree, .output commitment :: effects =>
      let tree' := tree.appended commitment
      .commitment tree.size commitment :: .frontier tree'.frontier :: .size tree'.size ::
        .commitment tree.size commitment :: bodyWrites height tree' effects

/-- The inserts behind the loops, in front of the chain height.  The map of
contract state changes is read in some order. -/
def recordWrites (root : StateRoot) (block : Block) (changes : List (Bytes × Bytes))
    (contracts : List (Hash32 × Bytes)) : List Write :=
  .anchor root (block.header.height + ANCHOR_EXPIRY_BLOCKS) ::
    (contracts.map (fun c => .contract c.1 c.2) ++ changes.map (fun c => .contractState c.1 c.2) ++
      .block block.blockHash block :: block.transactions.map fun tx => .tx tx.txId tx)

def headWrites (block : Block) : List Write :=
  [.chainHeight block.header.height, .heightHash block.header.height block.blockHash]

/-- All inserts of `apply_block` for a block that it accepts. -/
def applyBlockWrites (tree : NoteCommitmentTree) (block : Block) (changes : List (Bytes × Bytes))
    (contracts : List (Hash32 × Bytes)) : List Write :=
  bodyWrites block.header.height tree block.effects ++
    (recordWrites (block.commitments.foldl NoteCommitmentTree.appended tree).root block changes
      contracts ++ headWrites block)

namespace StateStore

theorem db_applyEffects {height : UInt64} {store : StateStore} {effects : List Effect}
    (hok : (store.applyEffects height effects).2 = .ok ()) :
    (store.applyEffects height effects).1.db =
      sled.replay store.db (bodyWrites height store.tree effects) := by
  revert hok
  apply applyEffects_completed
    (P := fun effects store after =>
      after.db = sled.replay store.db (bodyWrites height store.tree effects))
  · intro store
    rfl
  · intro effects store after nullifier hlater
    exact hlater
  · intro effects store after commitment hlater
    exact hlater

theorem db_finishBlock (store : StateStore) (block : Block) (changes : Table Bytes Bytes)
    (contracts : List (Hash32 × Bytes)) :
    (store.finishBlock block changes contracts).1.db =
      sled.replay store.db
        (recordWrites store.stateRoot block changes.toList contracts ++ headWrites block) := by
  have hcontracts (db : Db) : sled.replay db (contracts.map fun c => .contract c.1 c.2) =
      { db with contracts := contracts.foldl (fun t c => t.insert c.1 c.2) db.contracts } :=
    sled.replay_map Db.contracts (fun db t => { db with contracts := t }) _ _ (fun _ _ => rfl)
      (fun _ => rfl) (fun _ _ => rfl) (fun _ _ _ => rfl) contracts db
  have hchanges (db : Db) : sled.replay db (changes.toList.map fun c => .contractState c.1 c.2) =
      { db with contractState :=
          changes.toList.foldl (fun t c => t.insert c.1 c.2) db.contractState } :=
    sled.replay_map Db.contractState (fun db t => { db with contractState := t }) _ _
      (fun _ _ => rfl) (fun _ => rfl) (fun _ _ => rfl) (fun _ _ _ => rfl) changes.toList db
  have htxs (db : Db) : sled.replay db (block.transactions.map fun tx => .tx tx.txId tx) =
      { db with txs := block.transactions.foldl (fun t tx => t.insert tx.txId tx) db.txs } :=
    sled.replay_map Db.txs (fun db t => { db with txs := t }) _ _ (fun _ _ => rfl)
      (fun _ => rfl) (fun _ _ => rfl) (fun _ _ _ => rfl) block.transactions db
  have hfold : changes.foldl (fun state key value => state.insert key value)
      store.db.contractState =
        changes.toList.foldl (fun t c => t.insert c.1 c.2) store.db.contractState :=
    Std.ExtTreeMap.foldl_eq_foldl_toList
  simp only [recordWrites, headWrites, Assignments.replay_append, Assignments.replay_cons,
    Assignments.replay_nil, hcontracts, hchanges, htxs, finishBlock, hfold]
  rfl

theorem replay_recordWrites (root : StateRoot) (block : Block) {changes : Table Bytes Bytes}
    {order : List (Bytes × Bytes)} (horder : order.Perm changes.toList)
    (contracts : List (Hash32 × Bytes)) (db : Db) :
    sled.replay db (recordWrites root block order contracts) =
      sled.replay db (recordWrites root block changes.toList contracts) := by
  have hkeys : (changes.toList.map fun c => Location.contractState c.1).Nodup := by
    have hdistinct : changes.toList.Pairwise fun a b => ¬ compare a.1 b.1 = .eq :=
      Std.ExtTreeMap.distinct_keys_toList
    rw [List.nodup_iff_pairwise_ne, List.pairwise_map]
    apply hdistinct.imp
    intro a b hne hlocation
    have hkey : a.1 = b.1 := Location.contractState.inj hlocation
    apply hne
    simp [hkey]
  have hchanges (db : Db) : sled.replay db (order.map fun c => .contractState c.1 c.2) =
      sled.replay db (changes.toList.map fun c => .contractState c.1 c.2) := by
    apply sled.replay_perm (horder.map _)
    rw [List.map_map]
    exact (horder.map fun c => Location.contractState c.1).nodup_iff.mpr hkeys
  simp only [recordWrites, Assignments.replay_cons, Assignments.replay_append, hchanges]

/-- Together the inserts are what `apply_block` does to the database, in
whatever order it reads the map of changes. -/
theorem applyBlock_eq_replay {store : StateStore} {block : Block} (haccept : store.Accepts block)
    {changes : Table Bytes Bytes} {order : List (Bytes × Bytes)}
    (horder : order.Perm changes.toList) (contracts : List (Hash32 × Bytes)) :
    (store.applyBlock block changes contracts).1 =
      { db := sled.replay store.db (applyBlockWrites store.tree block order contracts)
        tree := block.commitments.foldl NoteCommitmentTree.appended store.tree } := by
  have hbody : (store.applyEffects block.header.height block.effects).2 = .ok () := by
    rw [applyEffects_ok_iff, Block.nullifiers_effects]
    exact haccept.2
  have htree := applyEffects_tree hbody
  rw [Block.commitments_effects] at htree
  obtain ⟨-, h⟩ | ⟨hreject, -⟩ := applyBlock_cases store block changes contracts
  · rw [h]
    apply StateStore.ext
    · show (finishBlock _ block changes contracts).1.db = _
      rw [db_finishBlock, stateRoot, htree, db_applyEffects hbody, applyBlockWrites,
        Assignments.replay_append, Assignments.replay_append, Assignments.replay_append,
        replay_recordWrites _ block horder]
    · exact htree
  · exact absurd haccept hreject

end StateStore

/-! ## The tree behind a part of the inserts -/

def Write.touchesTree : Write → Bool
  | .frontier _ => true
  | .size _ => true
  | _ => false

omit [Blake3] in
theorem openDb_write {w : Write} (h : ¬ w.touchesTree) (db : Db) :
    NoteCommitmentTree.openDb (db.write w) = NoteCommitmentTree.openDb db := by
  cases w <;> first
    | rfl
    | exact absurd rfl h

omit [Blake3] in
theorem openDb_replay {ws : List Write} (h : ∀ w ∈ ws, ¬ w.touchesTree) (db : Db) :
    NoteCommitmentTree.openDb (sled.replay db ws) = NoteCommitmentTree.openDb db :=
  sled.replay_frame NoteCommitmentTree.openDb (fun w hw => openDb_write (h w hw)) db

/-- What opening the database finds of a tree: the tree itself, one that has
grown, or one whose frontier is an append ahead of its size. -/
inductive Reopened (tree : NoteCommitmentTree) (done : List Write) : NoteCommitmentTree → Prop
  | same (h : ∀ w ∈ done, ¬ w.touchesTree) : Reopened tree done tree
  | grown {tree' : NoteCommitmentTree} (h : tree.size < tree'.size) : Reopened tree done tree'
  | torn (commitment : Hash32) :
      Reopened tree done { frontier := (tree.appended commitment).frontier, size := tree.size }

theorem Reopened.cons {tree tree' : NoteCommitmentTree} {done : List Write} {w : Write}
    (hw : ¬ w.touchesTree) (h : Reopened tree done tree') : Reopened tree (w :: done) tree' := by
  cases h with
  | same h => exact .same (List.forall_mem_cons.mpr ⟨hw, h⟩)
  | grown h => exact .grown h
  | torn commitment => exact .torn commitment

theorem Reopened.size_le {tree tree' : NoteCommitmentTree} {done : List Write}
    (h : Reopened tree done tree') : tree.size ≤ tree'.size := by
  cases h with
  | same => exact le_rfl
  | grown h => exact h.le
  | torn => exact le_rfl

theorem openDb_of_prefix {height : UInt64} {tail : List Write}
    (htail : ∀ w ∈ tail, ¬ w.touchesTree) {effects : List Effect} {tree : NoteCommitmentTree}
    {db : Db} (hopen : NoteCommitmentTree.openDb db = tree) {done : List Write}
    (hdone : done <+: bodyWrites height tree effects ++ tail) :
    Reopened tree done (NoteCommitmentTree.openDb (sled.replay db done)) := by
  induction effects generalizing tree db done with
  | nil =>
      have hsame : ∀ w ∈ done, ¬ w.touchesTree := fun w hw => htail w (hdone.subset hw)
      rw [openDb_replay hsame, hopen]
      exact .same hsame
  | cons e effects ih =>
      cases e with
      | spend nullifier =>
          obtain rfl | ⟨more, rfl, hmore⟩ := List.prefix_cons_iff.mp hdone
          · exact hopen ▸ .same (by simp)
          · have hwrite :
                NoteCommitmentTree.openDb (db.write (.nullifier nullifier height)) = tree :=
              hopen
            exact (ih hwrite hmore).cons nofun
      | output commitment =>
          -- behind none, one, two, three or all four inserts of the output
          obtain rfl | ⟨a, rfl, ha⟩ := List.prefix_cons_iff.mp hdone
          · exact hopen ▸ .same (by simp)
          obtain rfl | ⟨b, rfl, hb⟩ := List.prefix_cons_iff.mp ha
          · exact hopen ▸ .same (by simp [Write.touchesTree])
          obtain rfl | ⟨c, rfl, hc⟩ := List.prefix_cons_iff.mp hb
          · have hsize : (NoteCommitmentTree.openDb db).size = tree.size := by rw [hopen]
            have htorn : NoteCommitmentTree.openDb (sled.replay db
                [.commitment tree.size commitment,
                  .frontier (tree.appended commitment).frontier]) =
                { frontier := (tree.appended commitment).frontier, size := tree.size } :=
              NoteCommitmentTree.ext rfl hsize
            exact htorn ▸ .torn commitment
          obtain rfl | ⟨d, rfl, hd⟩ := List.prefix_cons_iff.mp hc
          · exact .grown (Nat.lt_succ_self tree.size)
          · have hopen' : NoteCommitmentTree.openDb (sled.replay db
                [.commitment tree.size commitment, .frontier (tree.appended commitment).frontier,
                  .size (tree.appended commitment).size, .commitment tree.size commitment]) =
                tree.appended commitment := rfl
            exact .grown (Nat.lt_of_succ_le (ih hopen' hd).size_le)

/-! ## What else the inserts touch -/

def Write.touchesHead : Write → Bool
  | .chainHeight _ => true
  | .heightHash _ _ => true
  | _ => false

omit [Blake3] in
theorem head_replay {ws : List Write} (h : ∀ w ∈ ws, ¬ w.touchesHead) (db : Db) :
    (sled.replay db ws).chainHeight = db.chainHeight ∧
      (sled.replay db ws).heightHash = db.heightHash := by
  have hwrite : ∀ w ∈ ws, ∀ db : Db,
      ((db.write w).chainHeight, (db.write w).heightHash) = (db.chainHeight, db.heightHash) := by
    intro w hw db
    cases w <;> first
      | rfl
      | exact absurd rfl (h _ hw)
  have hframe := sled.replay_frame (fun db => (db.chainHeight, db.heightHash)) hwrite db
  exact ⟨congrArg Prod.fst hframe, congrArg Prod.snd hframe⟩

omit [Blake3] in
theorem isSome_nullifiers_write (db : Db) (w : Write) (n : Hash32) :
    (db.write w).nullifiers[n]?.isSome ↔
      (∃ height, w = .nullifier n height) ∨ db.nullifiers[n]?.isSome := by
  cases w with
  | nullifier n' height =>
      show (db.nullifiers.insert n' height)[n]?.isSome ↔ _
      rw [Table.get_insert]
      by_cases h : n' = n
      · simp [h]
      · simp [h]
  | _ => simp [Db.write]

omit [Blake3] in
theorem isSome_nullifiers_replay (db : Db) (ws : List Write) (n : Hash32) :
    (sled.replay db ws).nullifiers[n]?.isSome ↔
      (∃ height, .nullifier n height ∈ ws) ∨ db.nullifiers[n]?.isSome := by
  induction ws generalizing db with
  | nil => simp
  | cons w ws ih =>
      rw [Assignments.replay_cons, ih]
      show _ ∨ (db.write w).nullifiers[n]?.isSome ↔ _
      rw [isSome_nullifiers_write, ← or_assoc, ← exists_or]
      simp only [List.mem_cons, eq_comm (a := w), or_comm]

theorem mem_bodyWrites {height : UInt64} {tree : NoteCommitmentTree} {effects : List Effect}
    {w : Write} (h : w ∈ bodyWrites height tree effects) :
    ¬ w.touchesHead ∧ ∀ n height', w = .nullifier n height' → n ∈ Effect.nullifiers effects := by
  induction effects generalizing tree with
  | nil => simp [bodyWrites] at h
  | cons e effects ih =>
      cases e with
      | spend nullifier =>
          rw [bodyWrites, List.mem_cons] at h
          obtain rfl | h := h
          · exact ⟨nofun, fun n _ hn => (Write.nullifier.inj hn).1 ▸ List.mem_cons_self⟩
          · obtain ⟨hhead, hspend⟩ := ih h
            exact ⟨hhead, fun n height' hn => List.mem_cons_of_mem _ (hspend n height' hn)⟩
      | output commitment =>
          simp only [bodyWrites, List.mem_cons] at h
          obtain rfl | rfl | rfl | rfl | h := h
          · exact ⟨nofun, nofun⟩
          · exact ⟨nofun, nofun⟩
          · exact ⟨nofun, nofun⟩
          · exact ⟨nofun, nofun⟩
          · exact ih h

theorem mem_recordWrites {root : StateRoot} {block : Block} {changes : List (Bytes × Bytes)}
    {contracts : List (Hash32 × Bytes)} {w : Write}
    (h : w ∈ recordWrites root block changes contracts) :
    ¬ w.touchesTree ∧ ¬ w.touchesHead ∧ ∀ n height, w ≠ .nullifier n height := by
  simp only [recordWrites, List.mem_cons, List.mem_append, List.mem_map] at h
  obtain rfl | (⟨c, -, rfl⟩ | ⟨c, -, rfl⟩) | rfl | ⟨tx, -, rfl⟩ := h
  all_goals exact ⟨nofun, nofun, nofun⟩

end

end NoirNet
