import NoirNet.Consensus.VmCalls
import NoirNet.Contracts.Token
import NoirNet.Proofs.Delivery
import NoirNet.Proofs.Sequential

/-!
# The supply of the token

Every execution of a block starts from the entries that were committed before
the block, and the later ones are laid over the earlier.

* `balanceSum_eq`: the balances are those of the treasury and the recipient;
* `treasury_settle`, `recipient_settle`: the balances behind a block;
* `balanced_settle_iff`: when one block keeps the supply;
* `supply_conserved_iff`: the run.
-/

namespace NoirNet

open Lib Lib.Wire

namespace Token

/-! ## Balances among the entries -/

def balanceIn (entries : Table Bytes Bytes) (account : Bytes32) : UInt64 :=
  getBalance { existingState := entries } account

def balanceSum (entries : Table Bytes Bytes) : Nat :=
  entries.sumBy fun key value => if balancePrefix.isPrefixOf key then leValue value else 0

/-- The only balances are those of the treasury and the recipient, of eight bytes each. -/
def Tidy (entries : Table Bytes Bytes) : Prop :=
  ∀ key value : Bytes, entries[key]? = some value → balancePrefix <+: key →
    (key = balanceKey treasury ∨ key = balanceKey recipient) ∧ ∃ v, value = putU64 v

theorem balanceKey_ne : balanceKey treasury ≠ balanceKey recipient := by
  intro h
  have haccounts : treasury.toList = recipient.toList := List.append_cancel_left h
  exact absurd haccounts (by decide)

theorem prefix_balanceKey (account : Bytes32) : balancePrefix <+: balanceKey account :=
  List.prefix_append _ _

theorem balanceIn_eq (entries : Table Bytes Bytes) (account : Bytes32) :
    balanceIn entries account = (entries[balanceKey account]?).elim 0 fun value =>
      UInt64.ofNat (leValue (slice 8 value 0).toList) := by
  rw [balanceIn, getBalance, HostState.storageGet, Std.ExtTreeMap.getElem?_empty]
  cases entries[balanceKey account]? <;> rfl

theorem readU64_putU64 (v : UInt64) :
    UInt64.ofNat (leValue (slice 8 (putU64 v) 0).toList) = v := by
  have hslice : (slice 8 (putU64 v) 0).toList = putU64 v := by
    have h := toList_slice_append [] [] (length_putU64 v)
    simpa using h
  rw [hslice, ofNat_leValue_putU64]

theorem balanceIn_of_get {entries : Table Bytes Bytes} {account : Bytes32} {v : UInt64}
    (h : entries[balanceKey account]? = some (putU64 v)) : balanceIn entries account = v := by
  rw [balanceIn_eq, h]
  exact readU64_putU64 v

theorem balanceSum_eq {entries : Table Bytes Bytes} (h : Tidy entries) :
    balanceSum entries =
      (balanceIn entries treasury).toNat + (balanceIn entries recipient).toNat := by
  have hone (account : Bytes32) :
      (entries[balanceKey account]?).elim 0 (fun value =>
        if balancePrefix.isPrefixOf (balanceKey account) then leValue value else 0) =
      (balanceIn entries account).toNat := by
    cases hget : entries[balanceKey account]? with
    | none =>
        rw [balanceIn_eq, hget]
        rfl
    | some value =>
        obtain ⟨-, v, rfl⟩ := h _ value hget (prefix_balanceKey account)
        rw [balanceIn_of_get hget, Option.elim_some,
          if_pos (List.isPrefixOf_iff_prefix.mpr (prefix_balanceKey account)), leValue_putU64]
  have hrest : Table.sumBy (fun key value =>
      if balancePrefix.isPrefixOf key then leValue value else 0)
      ((entries.erase (balanceKey treasury)).erase (balanceKey recipient)) = 0 := by
    apply Table.sumBy_eq_zero
    intro key value hget
    rw [Table.get_erase, Table.get_erase] at hget
    by_cases hrecipient : balanceKey recipient = key
    · simp [hrecipient] at hget
    · by_cases htreasury : balanceKey treasury = key
      · simp [htreasury] at hget
      · rw [if_neg hrecipient, if_neg htreasury] at hget
        apply if_neg
        intro hprefix
        obtain ⟨rfl | rfl, -⟩ := h key value hget (List.isPrefixOf_iff_prefix.mp hprefix)
        · exact htreasury rfl
        · exact hrecipient rfl
  rw [balanceSum, Table.sumBy_eq_add_erase _ entries (balanceKey treasury),
    Table.sumBy_eq_add_erase _ (entries.erase _) (balanceKey recipient), hrest, hone,
    Table.get_erase, if_neg balanceKey_ne, hone, Nat.add_zero]

/-! ## What an export writes -/

def diff (entries : Table Bytes Bytes) (f : Export) : Table Bytes Bytes :=
  (f.run { existingState := entries }).stateDiff

def moves (entries : Table Bytes Bytes) : Export → Bool
  | .init => true
  | .transfer => amount ≤ balanceIn entries treasury

def treasuryAfter (entries : Table Bytes Bytes) : Export → UInt64
  | .init => totalSupply
  | .transfer => balanceIn entries treasury - amount

variable (entries : Table Bytes Bytes)

theorem diff_of_not_moves {f : Export} (h : moves entries f = false) : diff entries f = ∅ := by
  cases f with
  | init => cases h
  | transfer =>
      have hlow : balanceIn entries treasury < amount := by
        simpa [moves, UInt64.not_le] using h
      show (Token.transfer _).stateDiff = _
      rw [Token.transfer]
      exact congrArg HostState.stateDiff (if_pos hlow)

theorem get_diff_transfer (h : moves entries .transfer) (key : Bytes) :
    (diff entries .transfer)[key]? =
      if balanceKey recipient = key then some (putU64 (balanceIn entries recipient + amount))
      else if balanceKey treasury = key then some (putU64 (balanceIn entries treasury - amount))
      else none := by
  have hhigh : ¬ balanceIn entries treasury < amount := by
    simpa [moves, UInt64.not_lt] using h
  have hdiff : diff entries .transfer =
      ((∅ : Table Bytes Bytes).insert (balanceKey treasury)
        (putU64 (balanceIn entries treasury - amount))).insert (balanceKey recipient)
          (putU64 (balanceIn entries recipient + amount)) := by
    show (Token.transfer _).stateDiff = _
    rw [Token.transfer]
    exact congrArg HostState.stateDiff (if_neg hhigh)
  rw [hdiff, Table.get_insert, Table.get_insert, Std.ExtTreeMap.getElem?_empty]

theorem get_diff_init (key : Bytes) :
    (diff entries .init)[key]? =
      if "NAME".toUTF8.toList = key then some "NoirNet Token".toUTF8.toList
      else if "SYMBOL".toUTF8.toList = key then some "NOIR".toUTF8.toList
      else if "DECIMALS".toUTF8.toList = key then some [8]
      else if totalSupplyKey = key then some (putU64 totalSupply)
      else if balanceKey treasury = key then some (putU64 totalSupply)
      else none := by
  have hdiff : diff entries .init =
      (((((∅ : Table Bytes Bytes).insert (balanceKey treasury) (putU64 totalSupply)).insert
        totalSupplyKey (putU64 totalSupply)).insert
        "DECIMALS".toUTF8.toList [8]).insert
        "SYMBOL".toUTF8.toList "NOIR".toUTF8.toList).insert
        "NAME".toUTF8.toList "NoirNet Token".toUTF8.toList := rfl
  rw [hdiff, Table.get_insert, Table.get_insert, Table.get_insert, Table.get_insert,
    Table.get_insert, Std.ExtTreeMap.getElem?_empty]

theorem get_diff_init_balance {key : Bytes} (h : balancePrefix <+: key) :
    (diff entries .init)[key]? =
      if balanceKey treasury = key then some (putU64 totalSupply) else none := by
  have hother (key' : Bytes)
      (hkey : key' ∈ ["DECIMALS".toUTF8.toList, "SYMBOL".toUTF8.toList, "NAME".toUTF8.toList]) :
      key' ≠ key :=
    ne_of_prefixed (metadataKeys_apart key' hkey).2 h
  rw [get_diff_init, if_neg (hother _ (by simp)), if_neg (hother _ (by simp)),
    if_neg (hother _ (by simp)), if_neg (ne_of_prefixed isPrefixOf_totalSupplyKey h)]

theorem get_diff_init_totalSupply :
    (diff entries .init)[totalSupplyKey]? = some (putU64 totalSupply) := by
  rw [get_diff_init, if_neg (metadataKeys_apart _ (by simp)).1,
    if_neg (metadataKeys_apart _ (by simp)).1, if_neg (metadataKeys_apart _ (by simp)).1,
    if_pos rfl]

theorem get_diff_transfer_totalSupply : (diff entries .transfer)[totalSupplyKey]? = none := by
  cases h : moves entries .transfer with
  | false =>
      rw [diff_of_not_moves entries h]
      exact Std.ExtTreeMap.getElem?_empty
  | true =>
      rw [get_diff_transfer entries h,
        if_neg (ne_of_prefixed isPrefixOf_totalSupplyKey (prefix_balanceKey recipient)).symm,
        if_neg (ne_of_prefixed isPrefixOf_totalSupplyKey (prefix_balanceKey treasury)).symm]

theorem tidy_diff (f : Export) : Tidy (diff entries f) := by
  intro key value hget hprefix
  cases f with
  | init =>
      rw [get_diff_init_balance entries hprefix] at hget
      split at hget
      · exact ⟨.inl (Eq.symm ‹_›), _, (Option.some.inj hget).symm⟩
      · cases hget
  | transfer =>
      cases hmoves : moves entries .transfer with
      | false =>
          rw [diff_of_not_moves entries hmoves, Std.ExtTreeMap.getElem?_empty] at hget
          cases hget
      | true =>
          rw [get_diff_transfer entries hmoves] at hget
          split at hget
          · exact ⟨.inr (Eq.symm ‹_›), _, (Option.some.inj hget).symm⟩
          · split at hget
            · exact ⟨.inl (Eq.symm ‹_›), _, (Option.some.inj hget).symm⟩
            · cases hget

/-! ## The executions of a block -/

def settle (base : Table Bytes Bytes) (fs : List Export) : Table Bytes Bytes :=
  fs.foldl (fun t f => Table.overlay t (diff entries f)) base

theorem settle_concat (base : Table Bytes Bytes) (fs : List Export) (f : Export) :
    settle entries base (fs ++ [f]) = Table.overlay (settle entries base fs) (diff entries f) := by
  rw [settle, List.foldl_append]
  rfl

theorem tidy_settle {base : Table Bytes Bytes} (h : Tidy base) (fs : List Export) :
    Tidy (settle entries base fs) := by
  induction fs using List.reverseRecOn with
  | nil => exact h
  | append_singleton fs f ih =>
      rw [settle_concat]
      intro key value hget hprefix
      rw [Table.get_overlay, Option.or_eq_some_iff] at hget
      obtain hnew | ⟨-, hold⟩ := hget
      · exact tidy_diff entries f key value hnew hprefix
      · exact ih key value hold hprefix

theorem balanceIn_overlay_of_none {base changes : Table Bytes Bytes} {account : Bytes32}
    (h : changes[balanceKey account]? = none) :
    balanceIn (Table.overlay base changes) account = balanceIn base account := by
  rw [balanceIn_eq, balanceIn_eq, Table.get_overlay, h, Option.none_or]

theorem balanceIn_overlay_of_some {base changes : Table Bytes Bytes} {account : Bytes32}
    {v : UInt64} (h : changes[balanceKey account]? = some (putU64 v)) :
    balanceIn (Table.overlay base changes) account = v := by
  apply balanceIn_of_get
  rw [Table.get_overlay, h, Option.some_or]

theorem balanceIn_settle_concat_of_not_moves {fs : List Export} {f : Export}
    (hmoves : moves entries f = false) (account : Bytes32) :
    balanceIn (settle entries entries (fs ++ [f])) account =
      balanceIn (settle entries entries fs) account := by
  rw [settle_concat, diff_of_not_moves entries hmoves]
  exact balanceIn_overlay_of_none Std.ExtTreeMap.getElem?_empty

theorem treasury_settle (fs : List Export) :
    balanceIn (settle entries entries fs) treasury =
      ((fs.filter (moves entries)).getLast?).elim (balanceIn entries treasury)
        (treasuryAfter entries) := by
  induction fs using List.reverseRecOn with
  | nil => rfl
  | append_singleton fs f ih =>
      rw [List.filter_append]
      cases hmoves : moves entries f with
      | false =>
          rw [balanceIn_settle_concat_of_not_moves entries hmoves, ih]
          simp [hmoves]
      | true =>
          have hlast : (fs.filter (moves entries) ++ [f].filter (moves entries)).getLast? =
              some f := by
            simp [hmoves]
          rw [settle_concat, hlast, Option.elim_some]
          apply balanceIn_overlay_of_some
          cases f with
          | init =>
              rw [get_diff_init_balance entries (prefix_balanceKey treasury), if_pos rfl,
                treasuryAfter]
          | transfer =>
              rw [get_diff_transfer entries hmoves, if_neg balanceKey_ne.symm, if_pos rfl,
                treasuryAfter]

theorem recipient_settle (fs : List Export) :
    balanceIn (settle entries entries fs) recipient =
      if .transfer ∈ fs.filter (moves entries) then balanceIn entries recipient + amount
      else balanceIn entries recipient := by
  induction fs using List.reverseRecOn with
  | nil => rfl
  | append_singleton fs f ih =>
      rw [List.filter_append]
      cases hmoves : moves entries f with
      | false =>
          rw [balanceIn_settle_concat_of_not_moves entries hmoves, ih]
          simp [hmoves]
      | true =>
          rw [settle_concat]
          cases f with
          | init =>
              have hnone : (diff entries .init)[balanceKey recipient]? = none := by
                rw [get_diff_init_balance entries (prefix_balanceKey recipient),
                  if_neg balanceKey_ne]
              rw [balanceIn_overlay_of_none hnone, ih]
              simp [moves]
          | transfer =>
              have hmem : Export.transfer ∈ fs.filter (moves entries) ++
                  [Export.transfer].filter (moves entries) := by
                simp [hmoves]
              rw [if_pos hmem]
              apply balanceIn_overlay_of_some
              rw [get_diff_transfer entries hmoves, if_pos rfl]

theorem totalSupply_settle (fs : List Export) :
    (settle entries entries fs)[totalSupplyKey]? =
      if .init ∈ fs then some (putU64 totalSupply) else entries[totalSupplyKey]? := by
  induction fs using List.reverseRecOn with
  | nil => rfl
  | append_singleton fs f ih =>
      rw [settle_concat, Table.get_overlay, ih]
      cases f with
      | init => simp [get_diff_init_totalSupply]
      | transfer => simp [get_diff_transfer_totalSupply]

theorem toNat_credit {v : UInt64} (h : v ≤ totalSupply) :
    (v + amount).toNat = v.toNat + amount.toNat := by
  have hle : v.toNat ≤ 1000000000 := UInt64.le_iff_toNat_le.mp h
  have hamount : amount.toNat = 1000 := rfl
  rw [UInt64.toNat_add]
  omega

theorem toNat_debit {v : UInt64} (h : amount ≤ v) :
    (v - amount).toNat + amount.toNat = v.toNat := by
  have hle : amount.toNat ≤ v.toNat := UInt64.le_iff_toNat_le.mp h
  rw [UInt64.toNat_sub_of_le _ _ h]
  omega

theorem recipient_settle_eq_zero_iff (fs : List Export)
    (h : balanceIn entries recipient ≤ totalSupply) :
    (balanceIn (settle entries entries fs) recipient).toNat = 0 ↔
      balanceIn entries recipient = 0 ∧ .transfer ∉ fs.filter (moves entries) := by
  have hamount : amount.toNat = 1000 := rfl
  have hzero : balanceIn entries recipient = 0 ↔ (balanceIn entries recipient).toNat = 0 :=
    UInt64.toNat_inj.symm
  rw [recipient_settle, hzero]
  by_cases htransfer : Export.transfer ∈ fs.filter (moves entries)
  · rw [if_pos htransfer, toNat_credit h]
    simp [htransfer, hamount]
  · rw [if_neg htransfer]
    simp [htransfer]

def Balanced (entries : Table Bytes Bytes) : Prop :=
  (balanceIn entries treasury).toNat + (balanceIn entries recipient).toNat = totalSupply.toNat

theorem Balanced.recipient_le {entries : Table Bytes Bytes} (h : Balanced entries) :
    balanceIn entries recipient ≤ totalSupply := by
  rw [UInt64.le_iff_toNat_le, ← h]
  exact Nat.le_add_left _ _

theorem Balanced.settle_transfer {entries : Table Bytes Bytes} (h : Balanced entries)
    {fs : List Export} (hlast : (fs.filter (moves entries)).getLast? = some .transfer) :
    Balanced (settle entries entries fs) := by
  have hmem := List.mem_of_getLast? hlast
  have hmoves : moves entries .transfer := (List.mem_filter.mp hmem).2
  have hfunded : amount ≤ balanceIn entries treasury := by simpa [moves] using hmoves
  have hdebit := toNat_debit hfunded
  rw [Balanced, treasury_settle, recipient_settle, hlast, if_pos hmem, Option.elim_some,
    treasuryAfter, toNat_credit h.recipient_le, ← h]
  omega

/-- Behind executions from balanced entries, or behind the first ones, the entries are
balanced unless a last initialization meets a recipient that has something. -/
theorem balanced_settle_iff {fs : List Export}
    (h : Balanced entries ∨
      balanceIn entries recipient = 0 ∧ .init ∈ fs ∧ .transfer ∉ fs) :
    Balanced (settle entries entries fs) ↔
      ((fs.filter (moves entries)).getLast? = some .init →
        balanceIn entries recipient = 0 ∧ .transfer ∉ fs.filter (moves entries)) := by
  cases hlast : (fs.filter (moves entries)).getLast? with
  | none =>
      have hnil : fs.filter (moves entries) = [] := List.getLast?_eq_none_iff.mp hlast
      obtain hbalanced | ⟨-, hinit, -⟩ := h
      · have hsame : Balanced (settle entries entries fs) := by
          rw [Balanced, treasury_settle, recipient_settle, hnil]
          exact hbalanced
        simp [hsame]
      · have hmem : Export.init ∈ fs.filter (moves entries) := List.mem_filter.mpr ⟨hinit, rfl⟩
        rw [hnil] at hmem
        cases hmem
  | some f =>
      cases f with
      | init =>
          have hlow : balanceIn entries recipient ≤ totalSupply := by
            obtain hbalanced | ⟨hzero, -, -⟩ := h
            · exact hbalanced.recipient_le
            · rw [hzero]
              exact UInt64.zero_le
          rw [← recipient_settle_eq_zero_iff entries fs hlow, Balanced, treasury_settle, hlast,
            Option.elim_some, treasuryAfter]
          simp
      | transfer =>
          obtain hbalanced | ⟨-, -, hnone⟩ := h
          · simp [hbalanced.settle_transfer hlast]
          · exact absurd (List.mem_of_mem_filter (List.mem_of_getLast? hlast)) hnone

/-! ## The token in a block -/

variable [Blake3]

def completed (vm : WasmRuntime) (store : StateStore) (action : ContractAction) : Option Export :=
  (action.result vm store).bind fun _ =>
    (action.request store).bind fun request => exported request.method

def completions (vm : WasmRuntime) (store : StateStore) (block : Block) : List Export :=
  (block.transactions.flatMap Transaction.actions).filterMap (completed vm store)

omit [Blake3] in
def OnlyToken (bytecode : Bytes) (block : Block) : Prop :=
  ∀ tx ∈ block.transactions, ∀ code, tx.deployContract = some code → code = bytecode

instance (bytecode : Bytes) (block : Block) : Decidable (OnlyToken bytecode block) :=
  inferInstanceAs (Decidable (∀ tx ∈ block.transactions, ∀ code ∈ tx.deployContract,
    code = bytecode))

def entriesOf (bytecode : Bytes) (store : StateStore) : Table Bytes Bytes :=
  store.getContractStateAll (blake3Of bytecode)

def Alone (bytecode : Bytes) (store : StateStore) : Prop :=
  ∀ c code, store.getContractCode c = some code → c = blake3Of bytecode ∧ code = bytecode

variable {bytecode : Bytes} {vm : WasmRuntime} {store : StateStore} {block : Block}

omit [Blake3] in
theorem deploy_of_mem_actions (hblock : OnlyToken bytecode block) {tx : Transaction} {code : Bytes}
    (h : .deploy tx code ∈ block.transactions.flatMap Transaction.actions) : code = bytecode := by
  obtain ⟨tx', htx', hmem⟩ := List.mem_flatMap.mp h
  apply hblock tx' htx' code
  rw [Transaction.actions] at hmem
  cases hdeploy : tx'.deployContract with
  | none => simp [hdeploy] at hmem
  | some code' =>
      rw [hdeploy] at hmem
      dsimp only at hmem
      split at hmem
      · cases hmem
      · have hsame : tx = tx' ∧ code = code' := by simpa using hmem
        rw [hsame.2]

theorem request_of_mem_actions (halone : Alone bytecode store) (hblock : OnlyToken bytecode block)
    {action : ContractAction} (haction : action ∈ block.transactions.flatMap Transaction.actions)
    {request : VmCall} (h : action.request store = some request) :
    action.contractId = blake3Of bytecode ∧ request.code = bytecode ∧
      request.ctx.existingState = entriesOf bytecode store := by
  cases action with
  | deploy tx code =>
      cases deploy_of_mem_actions hblock haction
      cases h
      exact ⟨rfl, rfl, rfl⟩
  | call c =>
      obtain ⟨code, hcode, rfl⟩ := Option.map_eq_some_iff.mp h
      obtain ⟨hid, rfl⟩ := halone _ _ hcode
      refine ⟨hid, rfl, ?_⟩
      rw [entriesOf, ← hid]

/-- A completed action has written what its export writes. -/
theorem completed_of_result (hruns : Runs vm bytecode) (halone : Alone bytecode store)
    (hblock : OnlyToken bytecode block) {action : ContractAction}
    (haction : action ∈ block.transactions.flatMap Transaction.actions) {r : ExecutionResult}
    (h : action.result vm store = some r) :
    ∃ f, completed vm store action = some f ∧
      r.stateChanges = diff (entriesOf bytecode store) f := by
  obtain ⟨request, hrequest, hrun⟩ := Option.bind_eq_some_iff.mp h
  obtain ⟨-, hcode, hstate⟩ := request_of_mem_actions halone hblock haction hrequest
  rw [VmCall.run, hcode] at hrun
  obtain ⟨f, hf, hchanges⟩ := hruns _ _ _ _ hrun
  refine ⟨f, ?_, ?_⟩
  · rw [completed, h, Option.bind_some, hrequest, Option.bind_some, hf]
  · rw [hchanges, hstate]
    rfl

theorem foldl_results (hruns : Runs vm bytecode) (halone : Alone bytecode store)
    (hblock : OnlyToken bytecode block) {actions : List ContractAction}
    (hactions : ∀ action ∈ actions, action ∈ block.transactions.flatMap Transaction.actions)
    (base : Table Bytes Bytes) :
    (actions.filterMap (ContractAction.result vm store)).foldl
        (fun entries r => Table.overlay entries r.stateChanges) base =
      settle (entriesOf bytecode store) base (actions.filterMap (completed vm store)) := by
  induction actions generalizing base with
  | nil => rfl
  | cons action actions ih =>
      have hrest := fun a ha => hactions a (List.mem_cons_of_mem action ha)
      cases hresult : action.result vm store with
      | none =>
          have hnone : completed vm store action = none := by rw [completed, hresult]; rfl
          rw [List.filterMap_cons_none hresult, List.filterMap_cons_none hnone]
          exact ih hrest base
      | some r =>
          obtain ⟨f, hf, hchanges⟩ := completed_of_result hruns halone hblock
            (hactions action List.mem_cons_self) hresult
          rw [List.filterMap_cons_some hresult, List.filterMap_cons_some hf, List.foldl_cons,
            ih hrest, hchanges]
          rfl

theorem entriesOf_applyExecuted (hruns : Runs vm bytecode) (halone : Alone bytecode store)
    (hblock : OnlyToken bytecode block) (haccept : store.Accepts block) :
    entriesOf bytecode (applyExecuted vm store block).1 =
      settle (entriesOf bytecode store) (entriesOf bytecode store)
        (completions vm store block) := by
  have hsame := StateStore.sameContracts_applyExecuted vm haccept
  have hbase (k : Bytes) : (({} : ContractEffects).contractStateChanges[
      (blake3Of bytecode).toList ++ k]?).or
        store.db.contractState[(blake3Of bytecode).toList ++ k]? =
          (entriesOf bytecode store)[k]? := by
    rw [entriesOf, get_getContractStateAll]
    exact congrArg (Option.or · _) Std.ExtTreeMap.getElem?_empty
  apply Std.ExtTreeMap.ext_getElem?
  intro k
  rw [entriesOf, get_getContractStateAll, hsame.contractState, StateStore.commitEffects,
    Table.get_overlay, blockEffects, ContractEffects.foldl_executeTransaction,
    ContractEffects.get_foldl_perform vm store store.db.contractState _ hbase,
    foldl_results hruns halone hblock (fun _ h => h)]
  · rfl
  · intro action haction hrequest
    obtain ⟨request, hrequest⟩ := Option.isSome_iff_exists.mp hrequest
    exact (request_of_mem_actions halone hblock haction hrequest).1

/-! ## The code in a block -/

theorem newContracts_blockEffects :
    (blockEffects vm store block).newContracts =
      (block.transactions.flatMap Transaction.actions).flatMap fun action =>
        (action.result vm store).elim [] fun _ => action.deployed := by
  rw [blockEffects, ContractEffects.foldl_executeTransaction,
    ContractEffects.newContracts_foldl_perform]
  exact List.nil_append _

theorem mem_newContracts_iff {entry : Hash32 × Bytes} :
    entry ∈ (blockEffects vm store block).newContracts ↔
      ∃ tx code r, .deploy tx code ∈ block.transactions.flatMap Transaction.actions ∧
        (ContractAction.deploy tx code).result vm store = some r ∧
        entry = (blake3Of code, code) := by
  rw [newContracts_blockEffects, List.mem_flatMap]
  constructor
  · intro h
    obtain ⟨action, haction, hmem⟩ := h
    cases hresult : action.result vm store with
    | none => simp [hresult] at hmem
    | some r =>
        rw [hresult, Option.elim_some] at hmem
        cases action with
        | deploy tx code => exact ⟨tx, code, r, haction, hresult, List.mem_singleton.mp hmem⟩
        | call c => cases hmem
  · intro h
    obtain ⟨tx, code, r, haction, hresult, rfl⟩ := h
    refine ⟨_, haction, ?_⟩
    rw [hresult]
    exact List.mem_singleton_self _

def Deploys (vm : WasmRuntime) (store : StateStore) (block : Block) : Prop :=
  (blockEffects vm store block).newContracts ≠ []

instance : Decidable (Deploys vm store block) := inferInstanceAs (Decidable (_ ≠ _))

theorem newContracts_eq (hblock : OnlyToken bytecode block) :
    ∀ entry ∈ (blockEffects vm store block).newContracts,
      entry = (blake3Of bytecode, bytecode) := by
  intro entry hentry
  obtain ⟨tx, code, r, haction, -, hcode⟩ := mem_newContracts_iff.mp hentry
  cases deploy_of_mem_actions hblock haction
  exact hcode

theorem getContractCode_applyExecuted (hblock : OnlyToken bytecode block)
    (haccept : store.Accepts block) (c : Hash32) :
    (applyExecuted vm store block).1.getContractCode c =
      if Deploys vm store block ∧ c = blake3Of bytecode then some bytecode
      else store.getContractCode c := by
  have hnew : ∀ entry ∈ (blockEffects vm store block).newContracts,
      entry = (blake3Of bytecode, bytecode) := newContracts_eq hblock
  have hsame := StateStore.sameContracts_applyExecuted vm haccept
  have hfold : (blockEffects vm store block).newContracts.foldl (fun t c => t.insert c.1 c.2)
      store.db.contracts = (blockEffects vm store block).newContracts.foldl
        (fun t c => t.insert c.1 bytecode) store.db.contracts := by
    apply List.foldl_ext
    intro t entry hentry
    rw [hnew entry hentry]
  rw [StateStore.getContractCode, hsame.contracts, StateStore.commitEffects, hfold,
    Table.get_foldl_insert_const]
  have hmem : c ∈ (blockEffects vm store block).newContracts.map Prod.fst ↔
      (blockEffects vm store block).newContracts ≠ [] ∧ c = blake3Of bytecode := by
    constructor
    · intro h
      obtain ⟨entry, hentry, rfl⟩ := List.mem_map.mp h
      refine ⟨List.ne_nil_of_mem hentry, ?_⟩
      rw [hnew entry hentry]
    · rintro ⟨hne, rfl⟩
      obtain ⟨entry, hentry⟩ := List.exists_mem_of_ne_nil _ hne
      have hvalue := hnew entry hentry
      rw [hvalue] at hentry
      exact List.mem_map.mpr ⟨_, hentry, rfl⟩
  by_cases h : Deploys vm store block ∧ c = blake3Of bytecode
  · rw [if_pos (hmem.mpr h), if_pos h]
  · rw [if_neg (mt hmem.mp h), if_neg h]
    rfl

theorem init_of_deploys (h : Deploys vm store block) : .init ∈ completions vm store block := by
  obtain ⟨entry, hentry⟩ := List.exists_mem_of_ne_nil _ h
  obtain ⟨tx, code, r, haction, hresult, -⟩ := mem_newContracts_iff.mp hentry
  apply List.mem_filterMap.mpr
  refine ⟨.deploy tx code, haction, ?_⟩
  rw [completed, hresult]
  rfl

/-- As long as there is no code, only deployments complete. -/
theorem deploys_of_completion (hnone : ∀ c, store.getContractCode c = none) {f : Export}
    (h : f ∈ completions vm store block) : f = .init ∧ Deploys vm store block := by
  obtain ⟨action, haction, hcompleted⟩ := List.mem_filterMap.mp h
  obtain ⟨r, hresult, hexport⟩ := Option.bind_eq_some_iff.mp hcompleted
  cases action with
  | deploy tx code =>
      refine ⟨(Option.some.inj hexport).symm, ?_⟩
      exact List.ne_nil_of_mem (mem_newContracts_iff.mpr ⟨tx, code, r, haction, hresult, rfl⟩)
  | call c =>
      rw [ContractAction.result, ContractAction.request, hnone] at hresult
      cases hresult

/-! ## Conservation -/

/-- Once the contract has code, its balances add up to what it says is the supply. -/
def Conserved (contractId : Hash32) (store : StateStore) : Prop :=
  (store.getContractCode contractId).isSome →
    ∃ total, store.getContractState contractId totalSupplyKey = some total ∧
      balanceSum (store.getContractStateAll contractId) = leValue total

/-- A store on which only the token has been run, with its supply conserved. -/
structure Kept (bytecode : Bytes) (store : StateStore) : Prop where
  alone : Alone bytecode store
  tidy : Tidy (entriesOf bytecode store)
  undeployed : store.getContractCode (blake3Of bytecode) = none →
    balanceIn (entriesOf bytecode store) recipient = 0
  deployed : store.getContractCode (blake3Of bytecode) ≠ none →
    (entriesOf bytecode store)[totalSupplyKey]? = some (putU64 totalSupply) ∧
      Balanced (entriesOf bytecode store)

def effective (bytecode : Bytes) (vm : WasmRuntime) (store : StateStore) (block : Block) :
    List Export :=
  (completions vm store block).filter (moves (entriesOf bytecode store))

/-- If the last execution that writes is an initialization, the recipient has nothing
before the block and gets nothing in it. -/
def NoLateInit (bytecode : Bytes) (vm : WasmRuntime) (store : StateStore) (block : Block) : Prop :=
  (effective bytecode vm store block).getLast? = some .init →
    balanceIn (entriesOf bytecode store) recipient = 0 ∧
      .transfer ∉ effective bytecode vm store block

theorem conserved_iff {store : StateStore} (htidy : Tidy (entriesOf bytecode store))
    (htotal : (entriesOf bytecode store)[totalSupplyKey]? = some (putU64 totalSupply))
    (hcode : store.getContractCode (blake3Of bytecode) ≠ none) :
    Conserved (blake3Of bytecode) store ↔ Balanced (entriesOf bytecode store) := by
  have hget : store.getContractState (blake3Of bytecode) totalSupplyKey =
      some (putU64 totalSupply) := by
    rw [entriesOf, get_getContractStateAll] at htotal
    exact htotal
  rw [Balanced, ← balanceSum_eq htidy, ← leValue_putU64 totalSupply]
  constructor
  · intro h
    obtain ⟨total, htotal', hsum⟩ := h (Option.isSome_iff_ne_none.mpr hcode)
    cases hget.symm.trans htotal'
    exact hsum
  · intro h _
    exact ⟨_, hget, h⟩

section

variable (hruns : Runs vm bytecode) (hkept : Kept bytecode store)
  (hblock : OnlyToken bytecode block) (haccept : store.Accepts block)

include hruns hkept hblock haccept

theorem tidy_land : Tidy (entriesOf bytecode (applyExecuted vm store block).1) := by
  rw [entriesOf_applyExecuted hruns hkept.alone hblock haccept]
  exact tidy_settle _ hkept.tidy _

omit hruns in
theorem alone_land : Alone bytecode (applyExecuted vm store block).1 := by
  intro c code hcode
  rw [getContractCode_applyExecuted hblock haccept] at hcode
  split at hcode
  · rename_i h
    exact ⟨h.2, (Option.some.inj hcode).symm⟩
  · exact hkept.alone c code hcode

omit hruns hblock haccept in
theorem no_code (h : store.getContractCode (blake3Of bytecode) = none) (c : Hash32) :
    store.getContractCode c = none := by
  rw [Option.eq_none_iff_forall_ne_some]
  intro code hcode
  rw [(hkept.alone c code hcode).1, h] at hcode
  cases hcode

/-- If there is code behind the block, the supply is known, and the balances add up
exactly when there is no late initialization. -/
theorem land_of_code
    (hcode : (applyExecuted vm store block).1.getContractCode (blake3Of bytecode) ≠ none) :
    (entriesOf bytecode (applyExecuted vm store block).1)[totalSupplyKey]? =
        some (putU64 totalSupply) ∧
      (Balanced (entriesOf bytecode (applyExecuted vm store block).1) ↔
        NoLateInit bytecode vm store block) := by
  rw [getContractCode_applyExecuted hblock haccept] at hcode
  rw [entriesOf_applyExecuted hruns hkept.alone hblock haccept, totalSupply_settle]
  by_cases hold : store.getContractCode (blake3Of bytecode) = none
  · -- the first deployment
    have hdeploys : Deploys vm store block := by
      by_contra hnot
      rw [if_neg (fun h => hnot h.1)] at hcode
      exact hcode hold
    have hinit := init_of_deploys hdeploys
    have htransfer : Export.transfer ∉ completions vm store block := by
      intro h
      cases (deploys_of_completion (no_code hkept hold) h).1
    rw [if_pos hinit]
    exact ⟨rfl, balanced_settle_iff _ (.inr ⟨hkept.undeployed hold, hinit, htransfer⟩)⟩
  · obtain ⟨htotal, hsum⟩ := hkept.deployed hold
    refine ⟨?_, balanced_settle_iff _ (.inl hsum)⟩
    rw [htotal, ite_self]

omit hruns in
theorem completions_of_no_code
    (hcode : (applyExecuted vm store block).1.getContractCode (blake3Of bytecode) = none) :
    completions vm store block = [] := by
  rw [getContractCode_applyExecuted hblock haccept] at hcode
  have hnot : ¬ Deploys vm store block := by
    intro h
    rw [if_pos ⟨h, rfl⟩] at hcode
    cases hcode
  rw [if_neg (fun h => hnot h.1)] at hcode
  rw [List.eq_nil_iff_forall_not_mem]
  intro f hf
  exact hnot (deploys_of_completion (no_code hkept hcode) hf).2

theorem conserved_land_iff :
    Conserved (blake3Of bytecode) (applyExecuted vm store block).1 ↔
      NoLateInit bytecode vm store block := by
  by_cases hcode : (applyExecuted vm store block).1.getContractCode (blake3Of bytecode) = none
  · have hnil := completions_of_no_code hkept hblock haccept hcode
    constructor
    · intro _ hlast
      rw [effective, hnil] at hlast
      cases hlast
    · intro _ hsome
      rw [hcode] at hsome
      cases hsome
  · obtain ⟨htotal, hsum⟩ := land_of_code hruns hkept hblock haccept hcode
    rw [conserved_iff (tidy_land hruns hkept hblock haccept) htotal hcode, hsum]

theorem Kept.land (hlate : NoLateInit bytecode vm store block) :
    Kept bytecode (applyExecuted vm store block).1 where
  alone := alone_land hkept hblock haccept
  tidy := tidy_land hruns hkept hblock haccept
  undeployed := by
    intro hcode
    have hnil := completions_of_no_code hkept hblock haccept hcode
    rw [getContractCode_applyExecuted hblock haccept] at hcode
    split at hcode
    · cases hcode
    · rw [entriesOf_applyExecuted hruns hkept.alone hblock haccept, hnil]
      exact hkept.undeployed hcode
  deployed := by
    intro hcode
    obtain ⟨htotal, hsum⟩ := land_of_code hruns hkept hblock haccept hcode
    exact ⟨htotal, hsum.mpr hlate⟩

end

/-! ## Whole runs -/

theorem Kept.congr {store store' : StateStore} (h : Kept bytecode store)
    (hsame : StateStore.SameExceptBody store store') : Kept bytecode store' := by
  obtain ⟨_, _, _, _, _, rfl⟩ := hsame
  exact ⟨h.alone, h.tidy, h.undeployed, h.deployed⟩

theorem Kept.conserved {store : StateStore} (h : Kept bytecode store) :
    Conserved (blake3Of bytecode) store := by
  by_cases hcode : store.getContractCode (blake3Of bytecode) = none
  · intro hsome
    rw [hcode] at hsome
    cases hsome
  · obtain ⟨htotal, hsum⟩ := h.deployed hcode
    exact (conserved_iff h.tidy htotal hcode).mpr hsum

theorem kept_empty : Kept bytecode StateStore.empty := by
  have hentries (key : Bytes) : (entriesOf bytecode StateStore.empty)[key]? = none := by
    rw [entriesOf, get_getContractStateAll]
    exact Std.ExtTreeMap.getElem?_empty
  have hcode (c : Hash32) : StateStore.empty.getContractCode c = none :=
    Std.ExtTreeMap.getElem?_empty
  constructor
  · intro c code h
    rw [hcode] at h
    cases h
  · intro key value h
    rw [hentries] at h
    cases h
  · intro _
    rw [balanceIn_eq, hentries]
    rfl
  · intro h
    exact absurd (hcode _) h

variable [Nova]

def KeepsSupply (bytecode : Bytes) (s : StateStore × PrivateMempool) (e : Execution) : Prop :=
  Lands s e → NoLateInit bytecode e.vm s.1 e.block

/-- The runtime runs the token, and the block deploys nothing else. -/
def TokenOnly (bytecode : Bytes) (_ : StateStore × PrivateMempool) (e : Execution) : Prop :=
  Runs e.vm bytecode ∧ OnlyToken bytecode e.block

theorem Kept.step {s : StateStore × PrivateMempool} {e : Execution} (h : Kept bytecode s.1)
    (htoken : TokenOnly bytecode s e) (hkeeps : KeepsSupply bytecode s e) :
    Kept bytecode (executorMachine.step s e).1.1 := by
  by_cases hlands : Lands s e
  · rw [step_fst_of_lands hlands]
    exact h.land htoken.1 htoken.2 hlands.accepts (hkeeps hlands)
  · exact h.congr (step_fst_of_not_lands hlands)

theorem conserved_step_iff {s : StateStore × PrivateMempool} {e : Execution}
    (h : Kept bytecode s.1) (htoken : TokenOnly bytecode s e) :
    Conserved (blake3Of bytecode) (executorMachine.step s e).1.1 ↔ KeepsSupply bytecode s e := by
  by_cases hlands : Lands s e
  · rw [step_fst_of_lands hlands, conserved_land_iff htoken.1 h htoken.2 hlands.accepts]
    constructor
    · intro hlate _
      exact hlate
    · intro hkeeps
      exact hkeeps hlands
  · have hconserved := (h.congr (step_fst_of_not_lands hlands)).conserved
    constructor
    · intro _ hland
      exact absurd hland hlands
    · intro _
      exact hconserved

/-- In every run of blocks on an empty store that deploy nothing but the token, its
balances add up to the supply in every store reached, exactly when no block that
lands has a late initialization. -/
theorem supply_conserved_iff (bytecode : Bytes) (mempool : PrivateMempool) (es : List Execution)
    (hruns : ∀ e ∈ es, Runs e.vm bytecode) (hblocks : ∀ e ∈ es, OnlyToken bytecode e.block) :
    (∀ js, js <+: es → Conserved (blake3Of bytecode)
        (executorMachine.final (StateStore.empty, mempool) js).1) ↔
      executorMachine.Admissible (KeepsSupply bytecode) (StateStore.empty, mempool) es := by
  apply executorMachine.forall_prefix_iff (fun s => Kept bytecode s.1)
    (fun s => Conserved (blake3Of bytecode) s.1) (fun _ _ htoken h hkeeps => h.step htoken hkeeps)
    (fun _ _ htoken h => conserved_step_iff h htoken) kept_empty kept_empty.conserved
  exact executorMachine.admissible_of_forall (fun e he _ => ⟨hruns e he, hblocks e he⟩) _

end Token

/-! ## A second deployment -/

section

attribute [local instance] Blake3.sum Nova.rejecting

open Token

def tokenRuntime : WasmRuntime := fun code method _ ctx =>
  if code = [1] then
    (exported method).map fun f =>
      { stateChanges := (f.run { existingState := ctx.existingState }).stateDiff }
  else none

theorem runs_tokenRuntime : Runs tokenRuntime [1] := by
  intro method args ctx r h
  obtain ⟨f, hf, rfl⟩ := Option.map_eq_some_iff.mp h
  exact ⟨f, hf, rfl⟩

def tokenTransfer : Transaction :=
  { Transaction.blank [] [] [] with
    contractCall := some
      { contractId := blake3Of [1]
        method := "transfer"
        args := []
        gasLimit := 0
        callerCommitment := fill 32 0 } }

def redeployed : List Execution :=
  [[deployment1], [tokenTransfer], [deployment1]].mapIdx fun height txs =>
    executionOf tokenRuntime false 0 (contractBlock height.toUInt64 txs)

theorem runs_redeployed : ∀ e ∈ redeployed, Runs e.vm [1] := by
  intro e he
  obtain ⟨height, hheight, rfl⟩ := List.mem_mapIdx.mp he
  exact runs_tokenRuntime

theorem onlyToken_redeployed : ∀ e ∈ redeployed, OnlyToken [1] e.block := by
  decide +kernel

theorem supply_inflated :
    let final := (executorMachine.final (StateStore.empty, {}) redeployed).1
    (final.getContractState (blake3Of [1]) totalSupplyKey = some (putU64 totalSupply) ∧
        balanceSum (final.getContractStateAll (blake3Of [1])) = totalSupply.toNat + 1000) ∧
      ¬ ∀ (bytecode : Bytes) (mempool : PrivateMempool) (es : List Execution),
        (∀ e ∈ es, Runs e.vm bytecode) → (∀ e ∈ es, OnlyToken bytecode e.block) →
        ∀ js, js <+: es → Conserved (blake3Of bytecode)
          (executorMachine.final (StateStore.empty, mempool) js).1 := by
  intro final
  have hfinal : (final.getContractCode (blake3Of [1])).isSome ∧
      final.getContractState (blake3Of [1]) totalSupplyKey = some (putU64 totalSupply) ∧
      balanceSum (final.getContractStateAll (blake3Of [1])) = totalSupply.toNat + 1000 := by
    decide +kernel
  obtain ⟨hcode, htotal, hsum⟩ := hfinal
  refine ⟨⟨htotal, hsum⟩, ?_⟩
  intro h
  obtain ⟨total, htotal', hsum'⟩ := h [1] {} redeployed runs_redeployed onlyToken_redeployed
    redeployed (List.prefix_refl _) hcode
  cases htotal.symm.trans htotal'
  rw [hsum, leValue_putU64] at hsum'
  omega

theorem transfer_conserves :
    balanceIn (entriesOf [1] (executorMachine.final (StateStore.empty, {}) (redeployed.take 2)).1)
        recipient = amount ∧
      ∀ js, js <+: redeployed.take 2 →
        Conserved (blake3Of [1]) (executorMachine.final (StateStore.empty, {}) js).1 := by
  have hlate (s : StateStore × PrivateMempool) (e : Execution)
      (h : (effective [1] e.vm s.1 e.block).getLast? ≠ some .init ∨
        balanceIn (entriesOf [1] s.1) recipient = 0 ∧
          .transfer ∉ effective [1] e.vm s.1 e.block) : KeepsSupply [1] s e := by
    intro _ hlast
    exact h.resolve_left (not_not.mpr hlast)
  refine ⟨by decide +kernel, ?_⟩
  apply (supply_conserved_iff [1] {} (redeployed.take 2)
    (fun e he => runs_redeployed e (List.mem_of_mem_take he))
    (fun e he => onlyToken_redeployed e (List.mem_of_mem_take he))).mpr
  exact ⟨hlate _ _ (by decide +kernel), hlate _ _ (by decide +kernel), trivial⟩

end

end NoirNet
