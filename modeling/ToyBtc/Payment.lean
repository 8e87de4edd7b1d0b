import ToyBtc.Coinbase
import ToyBtc.Covering
import ToyBtc.Wallet

/-!
# Whether a payment balances

The wallet adds the fee to the amount and the amounts of the outputs it takes
without a check, in words. Where no such sum overflows, it takes the shortest
beginning of its unmarked outputs that covers the amount and the fee, and pays
back the rest. To an amount and a fee of zero it adds an output nonetheless.

## Implementation notes

A debug build unwinds where a release build wraps, so both overflow modes are
modelled. The order in which the wallet lists its outputs is an argument.
-/

namespace ToyBtc

open Covering Growth

def OverflowMode.add : OverflowMode → UInt64 → UInt64 → Option UInt64
  | .checked, v, w => if v.toNat + w.toNat < 2 ^ 64 then some (v + w) else none
  | .wrapping, v, w => some (v + w)

theorem OverflowMode.add_of_lt (mode : OverflowMode) {v w : UInt64}
    (h : v.toNat + w.toNat < 2 ^ 64) : mode.add v w = some (v + w) := by
  cases mode with
  | checked => exact if_pos h
  | wrapping => rfl

/-- What a debug build adds, every build adds. -/
theorem OverflowMode.add_of_checked (mode : OverflowMode) {v w sum : UInt64}
    (h : OverflowMode.checked.add v w = some sum) : mode.add v w = some sum := by
  rw [OverflowMode.add] at h
  split at h
  · next hlt =>
      rw [OverflowMode.add_of_lt mode hlt]
      exact h
  · cases h

namespace Core

/-! ### What there is to take -/

/-- The unmarked outputs of one key. -/
def unmarkedOf (entry : Σ _ : PublicKey, List (Bool × TxOutput)) : List (PublicKey × TxOutput) :=
  (entry.2.filter fun v => !v.1).map fun v => (entry.1, v.2)

/-- All unmarked outputs, in the order in which they are listed. -/
def unmarked (entries : List (Σ _ : PublicKey, List (Bool × TxOutput))) :
    List (PublicKey × TxOutput) :=
  entries.flatMap unmarkedOf

def amountOf (p : PublicKey × TxOutput) : Nat := p.2.amount.toNat

/-- What is taken of a list of outputs with the sum so far. -/
def taken (totalAmount inputSum : UInt64) (l : List (PublicKey × TxOutput)) :
    List (PublicKey × TxOutput) :=
  cover amountOf (totalAmount.toNat - inputSum.toNat) l

theorem taken_isPrefix (totalAmount inputSum : UInt64) (l : List (PublicKey × TxOutput)) :
    taken totalAmount inputSum l <+: l :=
  cover_isPrefix _ _

theorem taken_of_le {totalAmount inputSum : UInt64} (h : totalAmount ≤ inputSum)
    (l : List (PublicKey × TxOutput)) : taken totalAmount inputSum l = [] := by
  rw [taken, Nat.sub_eq_zero_of_le (UInt64.le_iff_toNat_le.mp h), cover_zero]

theorem taken_append {totalAmount inputSum inputSum' : UInt64}
    (l l' : List (PublicKey × TxOutput))
    (h : inputSum'.toNat = inputSum.toNat + total amountOf (taken totalAmount inputSum l)) :
    taken totalAmount inputSum (l ++ l') =
      taken totalAmount inputSum l ++ taken totalAmount inputSum' l' := by
  rw [taken, cover_append, Nat.sub_sub, taken, taken, h]
  rfl

theorem total_taken_le_append (totalAmount inputSum : UInt64)
    (l l' : List (PublicKey × TxOutput)) :
    total amountOf (taken totalAmount inputSum l) ≤
      total amountOf (taken totalAmount inputSum (l ++ l')) := by
  rw [taken, taken, cover_append, total_append]
  exact Nat.le_add_right _ _

/-- What a debug build returns for the outputs it has taken: it unwinds where their sum
does not fit. -/
def fitted (inputs : List TxInput) (sum : Nat) : Except WalletAbort (List TxInput × UInt64) :=
  if sum < 2 ^ 64 then .ok (inputs, UInt64.ofNat sum) else .error .panic

theorem fitted_toNat (inputs : List TxInput) (sum : UInt64) :
    fitted inputs sum.toNat = .ok (inputs, sum) := by
  rw [fitted, if_pos sum.toNat_lt, UInt64.ofNat_toNat]

variable [Crates] [Signer]

/-! ### The wallet in both builds -/

/-- The input that spends an output. -/
def signInput (privkey : Signer.PrivateKey) (utxo : TxOutput) : TxInput :=
  ⟨utxo.hash, Signature.signOutput utxo.hash privkey⟩

/-- The loop over the outputs of one key, in both overflow modes. -/
def selectUtxosIn (mode : OverflowMode) (privkey : Signer.PrivateKey) (totalAmount : UInt64) :
    List (Bool × TxOutput) → List TxInput → UInt64 → Except WalletAbort (List TxInput × UInt64)
  | [], inputs, inputSum => .ok (inputs, inputSum)
  | (marked, utxo) :: rest, inputs, inputSum =>
      -- skip marked UTXOs
      if marked then selectUtxosIn mode privkey totalAmount rest inputs inputSum
      else
        let inputs := inputs ++ [signInput privkey utxo]
        match mode.add inputSum utxo.amount with
        | none => .error .panic
        | some inputSum =>
            if totalAmount ≤ inputSum then .ok (inputs, inputSum)
            else selectUtxosIn mode privkey totalAmount rest inputs inputSum

/-- The loop over all keys, in both overflow modes. -/
def selectInputsIn (mode : OverflowMode) (store : UtxoStore) (totalAmount : UInt64) :
    List (Σ _ : PublicKey, List (Bool × TxOutput)) → List TxInput → UInt64 →
      Except WalletAbort (List TxInput × UInt64)
  | [], inputs, inputSum => .ok (inputs, inputSum)
  | ⟨pubkey, utxos⟩ :: rest, inputs, inputSum =>
      match myPrivkey store pubkey with
      | .error cause => .error (.bail ("get sender's private key: " ++ cause))
      | .ok privkey =>
          match selectUtxosIn mode privkey totalAmount utxos inputs inputSum with
          | .error e => .error e
          | .ok (inputs, inputSum) =>
              if totalAmount ≤ inputSum then .ok (inputs, inputSum)
              else selectInputsIn mode store totalAmount rest inputs inputSum

/-- Creates new transaction, in both overflow modes. -/
def createTransactionIn (mode : OverflowMode) (store : UtxoStore)
    (entries : List (Σ _ : PublicKey, List (Bool × TxOutput)))
    (calculateFee : UInt64 → UInt64) (paymentId changeId : Uuid) (recipientPubkey : PublicKey)
    (amount : UInt64) : Except WalletAbort Tx :=
  match mode.add amount (calculateFee amount) with
  | none => .error .panic
  | some totalAmount =>
      match selectInputsIn mode store totalAmount entries [] 0 with
      | .error e => .error e
      | .ok (inputs, inputSum) =>
          if inputSum < totalAmount then .error (.bail "Insufficient funds")
          else
            let payment : TxOutput := ⟨amount, paymentId, recipientPubkey⟩
            if totalAmount < inputSum then
              match store.myKeys with
              | [] => .error .panic
              | first :: _ =>
                  .ok ⟨inputs, [payment, ⟨inputSum - totalAmount, changeId, first.publicKey⟩]⟩
            else .ok ⟨inputs, [payment]⟩

/-! ### The release build is the one that wraps -/

theorem selectUtxosIn_wrapping (privkey : Signer.PrivateKey) (totalAmount : UInt64)
    (utxos : List (Bool × TxOutput)) (inputs : List TxInput) (inputSum : UInt64) :
    selectUtxosIn .wrapping privkey totalAmount utxos inputs inputSum =
      .ok (selectUtxos privkey totalAmount utxos inputs inputSum) := by
  induction utxos generalizing inputs inputSum with
  | nil => rfl
  | cons v rest ih =>
      obtain ⟨marked, utxo⟩ := v
      rw [selectUtxosIn, selectUtxos]
      split
      · exact ih inputs inputSum
      · dsimp only [OverflowMode.add, signInput]
        split
        · rfl
        · exact ih _ _

theorem selectInputsIn_wrapping (store : UtxoStore) (totalAmount : UInt64)
    (entries : List (Σ _ : PublicKey, List (Bool × TxOutput))) (inputs : List TxInput)
    (inputSum : UInt64) :
    selectInputsIn .wrapping store totalAmount entries inputs inputSum =
      selectInputs store totalAmount entries inputs inputSum := by
  induction entries generalizing inputs inputSum with
  | nil => rfl
  | cons entry rest ih =>
      obtain ⟨pubkey, utxos⟩ := entry
      rw [selectInputsIn, selectInputs]
      cases myPrivkey store pubkey with
      | error cause => rfl
      | ok privkey =>
          dsimp only
          rw [selectUtxosIn_wrapping]
          dsimp only
          split
          · rfl
          · exact ih _ _

theorem createTransactionIn_wrapping (store : UtxoStore)
    (entries : List (Σ _ : PublicKey, List (Bool × TxOutput))) (calculateFee : UInt64 → UInt64)
    (paymentId changeId : Uuid) (recipientPubkey : PublicKey) (amount : UInt64) :
    createTransactionIn .wrapping store entries calculateFee paymentId changeId recipientPubkey
        amount =
      createTransaction store entries calculateFee paymentId changeId recipientPubkey amount := by
  have hselect := selectInputsIn_wrapping store (amount + calculateFee amount) entries [] 0
  cases hresult : selectInputs store (amount + calculateFee amount) entries [] 0 with
  | error e =>
      rw [hresult] at hselect
      simp only [createTransactionIn, createTransaction, OverflowMode.add, hselect, hresult]
  | ok selected =>
      rw [hresult] at hselect
      cases hkeys : store.myKeys <;>
        simp only [createTransactionIn, createTransaction, OverflowMode.add, hselect, hresult,
          hkeys]

/-! ### Without an overflow the builds agree -/

theorem selectUtxosIn_of_checked (mode : OverflowMode) {privkey : Signer.PrivateKey}
    {totalAmount : UInt64} {utxos : List (Bool × TxOutput)} {inputs : List TxInput}
    {inputSum : UInt64}
    (h : selectUtxosIn .checked privkey totalAmount utxos inputs inputSum ≠ .error .panic) :
    selectUtxosIn mode privkey totalAmount utxos inputs inputSum =
      selectUtxosIn .checked privkey totalAmount utxos inputs inputSum := by
  induction utxos generalizing inputs inputSum with
  | nil => rfl
  | cons v rest ih =>
      obtain ⟨marked, utxo⟩ := v
      cases marked with
      | true => exact ih h
      | false =>
          cases hadd : OverflowMode.checked.add inputSum utxo.amount with
          | none => simp [selectUtxosIn, hadd] at h
          | some sum =>
              have hmode := OverflowMode.add_of_checked mode hadd
              simp only [selectUtxosIn, hadd, hmode, Bool.false_eq_true, if_false] at h ⊢
              split
              · rfl
              · next hmore =>
                  rw [if_neg hmore] at h
                  exact ih h

theorem selectInputsIn_of_checked (mode : OverflowMode) {store : UtxoStore} {totalAmount : UInt64}
    {entries : List (Σ _ : PublicKey, List (Bool × TxOutput))} {inputs : List TxInput}
    {inputSum : UInt64}
    (h : selectInputsIn .checked store totalAmount entries inputs inputSum ≠ .error .panic) :
    selectInputsIn mode store totalAmount entries inputs inputSum =
      selectInputsIn .checked store totalAmount entries inputs inputSum := by
  induction entries generalizing inputs inputSum with
  | nil => rfl
  | cons entry rest ih =>
      obtain ⟨pubkey, utxos⟩ := entry
      rw [selectInputsIn] at h
      rw [selectInputsIn, selectInputsIn]
      cases hkey : myPrivkey store pubkey with
      | error cause => rfl
      | ok privkey =>
          simp only [hkey] at h
          have hinner : selectUtxosIn .checked privkey totalAmount utxos inputs inputSum ≠
              .error .panic := by
            intro heq
            simp [heq] at h
          dsimp only
          rw [selectUtxosIn_of_checked mode hinner]
          cases hselect : selectUtxosIn .checked privkey totalAmount utxos inputs inputSum with
          | error e => rfl
          | ok selected =>
              simp only [hselect] at h ⊢
              split
              · rfl
              · next hmore =>
                  rw [if_neg hmore] at h
                  exact ih h

/-- Where the debug build does not unwind, every build does the same. -/
theorem createTransactionIn_of_checked (mode : OverflowMode) {store : UtxoStore}
    {entries : List (Σ _ : PublicKey, List (Bool × TxOutput))} {calculateFee : UInt64 → UInt64}
    {paymentId changeId : Uuid} {recipientPubkey : PublicKey} {amount : UInt64}
    (h : createTransactionIn .checked store entries calculateFee paymentId changeId recipientPubkey
      amount ≠ .error .panic) :
    createTransactionIn mode store entries calculateFee paymentId changeId recipientPubkey
        amount =
      createTransactionIn .checked store entries calculateFee paymentId changeId recipientPubkey
        amount := by
  cases hadd : OverflowMode.checked.add amount (calculateFee amount) with
  | none => simp [createTransactionIn, hadd] at h
  | some totalAmount =>
      have hmode := OverflowMode.add_of_checked mode hadd
      have hselect : selectInputsIn .checked store totalAmount entries [] 0 ≠ .error .panic := by
        intro heq
        simp [createTransactionIn, hadd, heq] at h
      simp only [createTransactionIn, hadd, hmode, selectInputsIn_of_checked mode hselect]

/-! ### What the loops take -/

/-- The input spends the output and is signed with the wallet's key for it. -/
def SignedBy (store : UtxoStore) (p : PublicKey × TxOutput) (i : TxInput) : Prop :=
  ∃ privkey, myPrivkey store p.1 = .ok privkey ∧ i = signInput privkey p.2

theorem selectUtxosIn_checked {privkey : Signer.PrivateKey} {totalAmount : UInt64}
    (pubkey : PublicKey) (utxos : List (Bool × TxOutput)) (inputs : List TxInput)
    {inputSum : UInt64} (hsum : inputSum < totalAmount) :
    selectUtxosIn .checked privkey totalAmount utxos inputs inputSum =
      fitted (inputs ++ (taken totalAmount inputSum (unmarkedOf ⟨pubkey, utxos⟩)).map fun p =>
          signInput privkey p.2)
        (inputSum.toNat +
          total amountOf (taken totalAmount inputSum (unmarkedOf ⟨pubkey, utxos⟩))) := by
  induction utxos generalizing inputs inputSum with
  | nil =>
      rw [selectUtxosIn, ← fitted_toNat]
      simp [unmarkedOf, taken, cover]
  | cons v rest ih =>
      obtain ⟨marked, utxo⟩ := v
      have hgoal : 0 < totalAmount.toNat - inputSum.toNat :=
        Nat.sub_pos_of_lt (UInt64.lt_iff_toNat_lt.mp hsum)
      cases marked with
      | true => exact ih inputs hsum
      | false =>
          have hunmarked : unmarkedOf ⟨pubkey, (false, utxo) :: rest⟩ =
              (pubkey, utxo) :: unmarkedOf ⟨pubkey, rest⟩ := rfl
          have hamount : amountOf (pubkey, utxo) = utxo.amount.toNat := rfl
          simp only [hunmarked, taken, cover_cons _ _ hgoal, selectUtxosIn, total_cons, hamount,
            List.map_cons, Bool.false_eq_true, if_false]
          by_cases hfit : inputSum.toNat + utxo.amount.toNat < 2 ^ 64
          · have hadd := WordSum.toNat_add_of_lt hfit
            rw [OverflowMode.add_of_lt .checked hfit]
            dsimp only
            split
            · next hreached =>
                have hgoal' : totalAmount.toNat - inputSum.toNat - utxo.amount.toNat = 0 := by
                  rw [UInt64.le_iff_toNat_le] at hreached
                  omega
                rw [hgoal', cover_zero, total_nil, Nat.add_zero, ← hadd]
                exact (fitted_toNat _ _).symm
            · next hmore =>
                rw [ih _ (UInt64.not_le.mp hmore), taken, hadd, Nat.sub_sub, Nat.add_assoc,
                  List.append_assoc, List.singleton_append]
          · rw [OverflowMode.add, if_neg hfit, fitted, if_neg (by omega)]

/-- Every entry has a private key in the wallet. -/
def HasKeys (store : UtxoStore) (entries : List (Σ _ : PublicKey, List (Bool × TxOutput))) : Prop :=
  ∀ entry ∈ entries, ∃ privkey, myPrivkey store entry.1 = .ok privkey

theorem exists_signedBy {store : UtxoStore}
    {entries : List (Σ _ : PublicKey, List (Bool × TxOutput))} (hkeys : HasKeys store entries)
    {picked : List (PublicKey × TxOutput)} (hpicked : picked ⊆ unmarked entries) :
    ∃ added, List.Forall₂ (SignedBy store) picked added := by
  induction picked with
  | nil => exact ⟨[], .nil⟩
  | cons p rest ih =>
      obtain ⟨hp, hrest⟩ := List.cons_subset.mp hpicked
      obtain ⟨entry, hentry, hmem⟩ := List.mem_flatMap.mp hp
      obtain ⟨v, -, rfl⟩ := List.mem_map.mp hmem
      obtain ⟨privkey, hkey⟩ := hkeys entry hentry
      obtain ⟨added, hadded⟩ := ih hrest
      exact ⟨signInput privkey v.2 :: added, .cons ⟨privkey, hkey, rfl⟩ hadded⟩

theorem forall₂_signInput {store : UtxoStore} {pubkey : PublicKey} {privkey : Signer.PrivateKey}
    (hkey : myPrivkey store pubkey = .ok privkey) {utxos : List (Bool × TxOutput)}
    {picked : List (PublicKey × TxOutput)} (hpicked : picked ⊆ unmarkedOf ⟨pubkey, utxos⟩) :
    List.Forall₂ (SignedBy store) picked (picked.map fun p => signInput privkey p.2) := by
  rw [List.forall₂_map_right_iff, List.forall₂_same]
  intro p hp
  obtain ⟨v, -, rfl⟩ := List.mem_map.mp (hpicked hp)
  exact ⟨privkey, hkey, rfl⟩

theorem selectInputsIn_checked {store : UtxoStore} {totalAmount : UInt64}
    {entries : List (Σ _ : PublicKey, List (Bool × TxOutput))} (hkeys : HasKeys store entries)
    (inputs : List TxInput) {inputSum : UInt64} (hsum : inputSum < totalAmount) :
    ∃ added, List.Forall₂ (SignedBy store) (taken totalAmount inputSum (unmarked entries)) added ∧
      selectInputsIn .checked store totalAmount entries inputs inputSum =
        fitted (inputs ++ added)
          (inputSum.toNat + total amountOf (taken totalAmount inputSum (unmarked entries))) := by
  induction entries generalizing inputs inputSum with
  | nil =>
      refine ⟨[], .nil, ?_⟩
      rw [selectInputsIn, ← fitted_toNat]
      simp [unmarked, taken, cover]
  | cons entry rest ih =>
      obtain ⟨pubkey, utxos⟩ := entry
      obtain ⟨privkey, hkey⟩ := hkeys ⟨pubkey, utxos⟩ List.mem_cons_self
      have hsplit : unmarked (⟨pubkey, utxos⟩ :: rest) =
          unmarkedOf ⟨pubkey, utxos⟩ ++ unmarked rest := List.flatMap_cons
      rw [selectInputsIn, hkey]
      dsimp only
      rw [selectUtxosIn_checked pubkey utxos inputs hsum, hsplit]
      by_cases hfit : inputSum.toNat +
          total amountOf (taken totalAmount inputSum (unmarkedOf ⟨pubkey, utxos⟩)) < 2 ^ 64
      · obtain ⟨sum, hsum'⟩ : ∃ sum : UInt64, sum.toNat = inputSum.toNat +
            total amountOf (taken totalAmount inputSum (unmarkedOf ⟨pubkey, utxos⟩)) :=
          ⟨_, UInt64.toNat_ofNat_of_lt' hfit⟩
        have hsigned := forall₂_signInput hkey
          (taken_isPrefix totalAmount inputSum (unmarkedOf ⟨pubkey, utxos⟩)).subset
        rw [taken_append _ (unmarked rest) hsum', total_append, ← Nat.add_assoc, ← hsum',
          fitted_toNat]
        dsimp only
        split
        · next hreached =>
            rw [taken_of_le hreached, List.append_nil, total_nil, Nat.add_zero]
            exact ⟨_, hsigned, (fitted_toNat _ sum).symm⟩
        · next hmore =>
            obtain ⟨added, hadded, heq⟩ := ih (fun entry hentry =>
              hkeys entry (List.mem_cons_of_mem _ hentry)) _ (UInt64.not_le.mp hmore)
            refine ⟨_, List.rel_append hsigned hadded, ?_⟩
            rw [heq, List.append_assoc]
      · obtain ⟨added, hadded⟩ := exists_signedBy hkeys
          (taken_isPrefix totalAmount inputSum (unmarked (⟨pubkey, utxos⟩ :: rest))).subset
        rw [hsplit] at hadded
        refine ⟨added, hadded, ?_⟩
        have hle := total_taken_le_append totalAmount inputSum (unmarkedOf ⟨pubkey, utxos⟩)
          (unmarked rest)
        rw [fitted, fitted, if_neg hfit, if_neg (by omega)]

/-- With nothing to pay, the first unmarked output of the first key is taken, if it has one. -/
def unneeded (entries : List (Σ _ : PublicKey, List (Bool × TxOutput))) :
    List (PublicKey × TxOutput) :=
  (entries.head?.toList.flatMap unmarkedOf).take 1

theorem selectUtxosIn_zero (privkey : Signer.PrivateKey) (pubkey : PublicKey)
    (utxos : List (Bool × TxOutput)) :
    ∃ sum : UInt64, sum.toNat = total amountOf ((unmarkedOf ⟨pubkey, utxos⟩).take 1) ∧
      selectUtxosIn .checked privkey 0 utxos [] 0 =
        .ok (((unmarkedOf ⟨pubkey, utxos⟩).take 1).map fun p => signInput privkey p.2, sum) := by
  induction utxos with
  | nil => exact ⟨0, rfl, rfl⟩
  | cons v rest ih =>
      obtain ⟨marked, utxo⟩ := v
      cases marked with
      | true => exact ih
      | false =>
          have hunmarked : unmarkedOf ⟨pubkey, (false, utxo) :: rest⟩ =
              (pubkey, utxo) :: unmarkedOf ⟨pubkey, rest⟩ := rfl
          have hfit : (0 : UInt64).toNat + utxo.amount.toNat < 2 ^ 64 := by
            simpa using utxo.amount.toNat_lt
          refine ⟨utxo.amount, ?_, ?_⟩
          · simp [hunmarked, amountOf]
          · simp [selectUtxosIn, OverflowMode.add_of_lt .checked hfit, hunmarked]

theorem selectInputsIn_zero {store : UtxoStore}
    {entries : List (Σ _ : PublicKey, List (Bool × TxOutput))} (hkeys : HasKeys store entries) :
    ∃ added, List.Forall₂ (SignedBy store) (unneeded entries) added ∧
      selectInputsIn .checked store 0 entries [] 0 =
        fitted added (total amountOf (unneeded entries)) := by
  cases entries with
  | nil => exact ⟨[], .nil, (fitted_toNat [] 0).symm⟩
  | cons entry rest =>
      obtain ⟨pubkey, utxos⟩ := entry
      obtain ⟨privkey, hkey⟩ := hkeys ⟨pubkey, utxos⟩ List.mem_cons_self
      obtain ⟨sum, hsum, hselect⟩ := selectUtxosIn_zero privkey pubkey utxos
      have hunneeded : unneeded (⟨pubkey, utxos⟩ :: rest) =
          (unmarkedOf ⟨pubkey, utxos⟩).take 1 := by
        simp [unneeded]
      rw [selectInputsIn, hkey, hunneeded, ← hsum]
      dsimp only
      rw [hselect]
      refine ⟨_, forall₂_signInput hkey (List.take_subset 1 _), ?_⟩
      rw [fitted_toNat]
      exact if_pos UInt64.zero_le

/-- What is taken for the amount and the fee. -/
def selection (entries : List (Σ _ : PublicKey, List (Bool × TxOutput))) (totalAmount : UInt64) :
    List (PublicKey × TxOutput) :=
  if totalAmount = 0 then unneeded entries else taken totalAmount 0 (unmarked entries)

theorem selectInputsIn_selection {store : UtxoStore}
    {entries : List (Σ _ : PublicKey, List (Bool × TxOutput))} (hkeys : HasKeys store entries)
    (totalAmount : UInt64) :
    ∃ added, List.Forall₂ (SignedBy store) (selection entries totalAmount) added ∧
      selectInputsIn .checked store totalAmount entries [] 0 =
        fitted added (total amountOf (selection entries totalAmount)) := by
  rw [selection]
  split
  · next hzero =>
      rw [hzero]
      exact selectInputsIn_zero hkeys
  · next hpos =>
      obtain ⟨added, hadded, heq⟩ :=
        selectInputsIn_checked hkeys [] (UInt64.pos_iff_ne_zero.mpr hpos)
      refine ⟨added, hadded, ?_⟩
      simpa using heq

/-! ### What is created -/

/-- The payment leaves exactly what was taken less the amount and the fee, and that goes back
to the first key. -/
structure BalancedBy (store : UtxoStore)
    (entries : List (Σ _ : PublicKey, List (Bool × TxOutput))) (fee : UInt64)
    (paymentId changeId : Uuid) (recipientPubkey : PublicKey) (amount : UInt64)
    (picked : List (PublicKey × TxOutput)) (change : Nat) (tx : Tx) : Prop where
  listed : picked.Sublist (unmarked entries)
  distinct : tx.spends.Nodup
  signed : List.Forall₂ (SignedBy store) picked tx.inputs
  exact : total amountOf picked = amount.toNat + fee.toNat + change
  needed : ∀ others last, picked = others ++ [last] →
    total amountOf others < amount.toNat + fee.toNat
  noChange : change = 0 → tx.outputs = [⟨amount, paymentId, recipientPubkey⟩]
  change : 0 < change → ∃ first others sats, store.myKeys = first :: others ∧
    sats.toNat = change ∧
    tx.outputs = [⟨amount, paymentId, recipientPubkey⟩, ⟨sats, changeId, first.publicKey⟩]

/-- No sum overflows, so that no build unwinds or wraps; a transaction balances, and there is
none exactly where the unmarked outputs are too little. -/
structure Balances (mode : OverflowMode) (store : UtxoStore)
    (entries : List (Σ _ : PublicKey, List (Bool × TxOutput))) (calculateFee : UInt64 → UInt64)
    (paymentId changeId : Uuid) (recipientPubkey : PublicKey) (amount : UInt64) : Prop where
  noOverflow : createTransactionIn .checked store entries calculateFee paymentId changeId
    recipientPubkey amount ≠ .error .panic
  created : ∀ tx, createTransactionIn mode store entries calculateFee paymentId changeId
      recipientPubkey amount = .ok tx →
    ∃ picked change, BalancedBy store entries (calculateFee amount) paymentId changeId
      recipientPubkey amount picked change tx
  fails : ∀ e, createTransactionIn mode store entries calculateFee paymentId changeId
    recipientPubkey amount = .error e → e = .bail "Insufficient funds"
  refused : createTransactionIn mode store entries calculateFee paymentId changeId
      recipientPubkey amount = .error (.bail "Insufficient funds") ↔
    total amountOf (unmarked entries) < amount.toNat + (calculateFee amount).toNat

/-- The amount and the fee fit a word, and so does the sum of the outputs with each one that
is taken. Where there is enough to take, no output is taken that is listed before, under
another key. With nothing to pay, the first key has nothing to take. -/
structure Fits (entries : List (Σ _ : PublicKey, List (Bool × TxOutput))) (amount fee : UInt64) :
    Prop where
  goal : amount.toNat + fee.toNat < 2 ^ 64
  sums : ∀ before p after, unmarked entries = before ++ p :: after →
    total amountOf before < amount.toNat + fee.toNat →
      total amountOf before + amountOf p < 2 ^ 64
  distinct : amount.toNat + fee.toNat ≤ total amountOf (unmarked entries) →
    ∀ before p after, unmarked entries = before ++ p :: after →
      total amountOf before < amount.toNat + fee.toNat →
        p.2.hash ∉ before.map fun q => q.2.hash
  nothing : amount.toNat + fee.toNat = 0 → ∀ entry ∈ entries.head?, unmarkedOf entry = []

section Created

variable {store : UtxoStore} {entries : List (Σ _ : PublicKey, List (Bool × TxOutput))}
  {calculateFee : UInt64 → UInt64} {amount totalAmount inputSum : UInt64} {inputs : List TxInput}

theorem createTransactionIn_cases (paymentId changeId : Uuid) (recipientPubkey : PublicKey)
    (hadd : OverflowMode.checked.add amount (calculateFee amount) = some totalAmount)
    (hselect : selectInputsIn .checked store totalAmount entries [] 0 = .ok (inputs, inputSum))
    (hfirst : store.myKeys ≠ [] ∨ inputSum = 0) :
    (inputSum < totalAmount ∧ createTransactionIn .checked store entries calculateFee paymentId
        changeId recipientPubkey amount = .error (.bail "Insufficient funds")) ∨
      totalAmount ≤ inputSum ∧ ∃ tx, createTransactionIn .checked store entries calculateFee
          paymentId changeId recipientPubkey amount = .ok tx ∧ tx.inputs = inputs ∧
        (inputSum = totalAmount → tx.outputs = [⟨amount, paymentId, recipientPubkey⟩]) ∧
        (totalAmount < inputSum → ∃ first others, store.myKeys = first :: others ∧
          tx.outputs = [⟨amount, paymentId, recipientPubkey⟩,
            ⟨inputSum - totalAmount, changeId, first.publicKey⟩]) := by
  simp only [createTransactionIn, hadd, hselect]
  split
  · next hless => exact Or.inl ⟨hless, rfl⟩
  · next henough =>
      refine Or.inr ⟨UInt64.not_lt.mp henough, ?_⟩
      split
      · next hmore =>
          have hne : inputSum ≠ totalAmount := fun heq => UInt64.lt_irrefl _ (heq ▸ hmore)
          cases hkeys : store.myKeys with
          | nil =>
              obtain rfl := hfirst.resolve_left (not_not.mpr hkeys)
              exact absurd hmore UInt64.not_lt_zero
          | cons first others =>
              exact ⟨_, rfl, rfl, fun heq => absurd heq hne, fun _ => ⟨first, others, rfl, rfl⟩⟩
      · next hexact =>
          exact ⟨_, rfl, rfl, fun _ => rfl, fun hlt => absurd hlt hexact⟩

end Created

/-! ### When a payment balances -/

omit [Crates] in
/-- A wallet has the keys of the outputs it knows. -/
theorem hasKeys_of_toFinmap {store : UtxoStore}
    {entries : AList fun _ : PublicKey => List (Bool × TxOutput)}
    (hentries : entries.toFinmap = store.utxos) : HasKeys store entries.entries := by
  intro entry hentry
  have hmem : entry.1 ∈ store.utxos := by
    rw [← hentries, Finmap.mem_toFinmap]
    exact List.mem_keys_of_mem hentry
  obtain ⟨key, hkey, hpublic⟩ := List.mem_map.mp (store.owned _ hmem)
  cases hfind : store.myKeys.find? fun key => key.publicKey = entry.1 with
  | none =>
      have hnot := List.find?_eq_none.mp hfind key hkey
      simp [hpublic] at hnot
  | some found => exact ⟨found.privateKey, by rw [myPrivkey, hfind]⟩

omit [Crates] in
theorem HasKeys.myKeys_ne_nil {store : UtxoStore}
    {entries : List (Σ _ : PublicKey, List (Bool × TxOutput))} (hkeys : HasKeys store entries)
    {p : PublicKey × TxOutput} (hp : p ∈ unmarked entries) : store.myKeys ≠ [] := by
  intro hnil
  obtain ⟨entry, hentry, -⟩ := List.mem_flatMap.mp hp
  obtain ⟨privkey, hkey⟩ := hkeys entry hentry
  obtain ⟨key, hmem, -⟩ := myPrivkey_ok hkey
  rw [hnil] at hmem
  cases hmem

/-- What a transaction spends that is signed for some outputs. -/
theorem spends_of_signed {store : UtxoStore} {picked : List (PublicKey × TxOutput)} {tx : Tx}
    (h : List.Forall₂ (SignedBy store) picked tx.inputs) :
    tx.spends = picked.map fun p => p.2.hash := by
  rw [Tx.spends]
  generalize tx.inputs = inputs at h
  induction h with
  | nil => rfl
  | cons hsigned _ ih =>
      obtain ⟨privkey, -, rfl⟩ := hsigned
      rw [List.map_cons, List.map_cons, ih]
      rfl

section Selection

variable {entries : List (Σ _ : PublicKey, List (Bool × TxOutput))}
  {amount fee totalAmount : UInt64}

omit [Crates] [Signer]

theorem selection_of_ne_zero (h : totalAmount ≠ 0) :
    selection entries totalAmount = cover amountOf totalAmount.toNat (unmarked entries) := by
  rw [selection, if_neg h, taken]
  rfl

theorem selection_sublist (entries : List (Σ _ : PublicKey, List (Bool × TxOutput)))
    (totalAmount : UInt64) :
    (selection entries totalAmount).Sublist (unmarked entries) := by
  rw [selection]
  split
  · cases entries with
    | nil => exact List.nil_sublist _
    | cons entry rest =>
        have hunneeded : unneeded (entry :: rest) = (unmarkedOf entry).take 1 := by
          simp [unneeded]
        rw [hunneeded, unmarked, List.flatMap_cons]
        exact (List.take_sublist 1 _).trans (List.sublist_append_left _ _)
  · exact (taken_isPrefix _ _ _).sublist

/-- With nothing to pay, the selection is empty exactly where the first key has nothing to
take. -/
theorem selection_zero_eq_nil_iff :
    selection entries 0 = [] ↔ ∀ entry ∈ entries.head?, unmarkedOf entry = [] := by
  rw [selection, if_pos rfl, unneeded]
  cases entries with
  | nil => simp
  | cons entry rest => simp

/-- A selection that fits a word reaches the goal where the unmarked outputs do. -/
theorem total_selection_lt_iff (entries : List (Σ _ : PublicKey, List (Bool × TxOutput)))
    (totalAmount : UInt64) :
    total amountOf (selection entries totalAmount) < totalAmount.toNat ↔
      total amountOf (unmarked entries) < totalAmount.toNat := by
  by_cases hzero : totalAmount = 0
  · rw [hzero]
    exact iff_of_false (Nat.not_lt_zero _) (Nat.not_lt_zero _)
  · rw [selection_of_ne_zero hzero, total_cover_lt_iff]

variable [Crates]

/-- Outputs that are taken in turn hash apart where each does from those before it. -/
theorem nodup_selection_iff (h : totalAmount ≠ 0) :
    ((selection entries totalAmount).map fun p => p.2.hash).Nodup ↔
      ∀ before p after, unmarked entries = before ++ p :: after →
        total amountOf before < totalAmount.toNat → p.2.hash ∉ before.map fun q => q.2.hash := by
  rw [selection_of_ne_zero h, nodup_map_iff_forall_split]
  exact forall_split_cover_iff

/-- Where the sums fit, so does what is selected, and all of it is needed. -/
theorem Fits.selection (fits : Fits entries amount fee)
    (htotal : totalAmount.toNat = amount.toNat + fee.toNat) :
    total amountOf (selection entries totalAmount) < 2 ^ 64 ∧
      ∀ others last, Core.selection entries totalAmount = others ++ [last] →
        total amountOf others < amount.toNat + fee.toNat := by
  by_cases hzero : totalAmount = 0
  · have hnothing : amount.toNat + fee.toNat = 0 := by
      rw [← htotal, hzero]
      rfl
    have hnil := selection_zero_eq_nil_iff.mpr (fits.nothing hnothing)
    rw [hzero, hnil]
    refine ⟨by decide, fun others last heq => ?_⟩
    exact absurd heq.symm (List.append_ne_nil_of_right_ne_nil _ (List.cons_ne_nil _ _))
  · rw [selection_of_ne_zero hzero, htotal]
    exact ⟨(total_cover_lt_bound_iff (by decide)).mpr fits.sums,
      fun others last heq => (of_cover_eq heq).2⟩

/-- No output is selected twice where there is enough to take. -/
theorem Fits.nodup_selection (fits : Fits entries amount fee)
    (htotal : totalAmount.toNat = amount.toNat + fee.toNat)
    (henough : totalAmount.toNat ≤ total amountOf (unmarked entries)) :
    ((Core.selection entries totalAmount).map fun p => p.2.hash).Nodup := by
  by_cases hzero : totalAmount = 0
  · rw [hzero] at htotal ⊢
    rw [selection_zero_eq_nil_iff.mpr (fits.nothing htotal.symm)]
    exact List.nodup_nil
  · rw [nodup_selection_iff hzero]
    rw [htotal] at henough ⊢
    exact fits.distinct henough

end Selection

section Checked

variable {store : UtxoStore} {entries : List (Σ _ : PublicKey, List (Bool × TxOutput))}
  {calculateFee : UInt64 → UInt64} {paymentId changeId : Uuid} {recipientPubkey : PublicKey}
  {amount : UInt64}

/-- Amounts that fit a word are added up exactly, and the wallet has a key where there are
any. -/
theorem exists_selected {totalAmount : UInt64} (hkeys : HasKeys store entries)
    (hfit : total amountOf (selection entries totalAmount) < 2 ^ 64) :
    ∃ added sum, List.Forall₂ (SignedBy store) (selection entries totalAmount) added ∧
      sum.toNat = total amountOf (selection entries totalAmount) ∧
      (store.myKeys ≠ [] ∨ sum = 0) ∧
      selectInputsIn .checked store totalAmount entries [] 0 = .ok (added, sum) := by
  obtain ⟨added, hsigned, hselect⟩ := selectInputsIn_selection hkeys totalAmount
  rw [fitted, if_pos hfit] at hselect
  refine ⟨added, _, hsigned, UInt64.toNat_ofNat_of_lt' hfit, ?_, hselect⟩
  cases hcases : selection entries totalAmount with
  | nil => exact Or.inr rfl
  | cons p rest =>
      have hsublist := selection_sublist entries totalAmount
      rw [hcases] at hsublist
      exact Or.inl (hkeys.myKeys_ne_nil (hsublist.mem List.mem_cons_self))

/-- What is created from a selection that fits a word, over exact sums. -/
theorem createTransactionIn_of_fit (paymentId changeId : Uuid) (recipientPubkey : PublicKey)
    (hkeys : HasKeys store entries) (hgoal : amount.toNat + (calculateFee amount).toNat < 2 ^ 64)
    {picked : List (PublicKey × TxOutput)}
    (hpicked : selection entries (amount + calculateFee amount) = picked)
    (hfit : total amountOf picked < 2 ^ 64) :
    (total amountOf picked < amount.toNat + (calculateFee amount).toNat ∧
        createTransactionIn .checked store entries calculateFee paymentId changeId recipientPubkey
          amount = .error (.bail "Insufficient funds")) ∨
      ∃ tx change, createTransactionIn .checked store entries calculateFee paymentId changeId
          recipientPubkey amount = .ok tx ∧
        List.Forall₂ (SignedBy store) picked tx.inputs ∧
        total amountOf picked = amount.toNat + (calculateFee amount).toNat + change ∧
        (change = 0 → tx.outputs = [⟨amount, paymentId, recipientPubkey⟩]) ∧
        (0 < change → ∃ first others sats, store.myKeys = first :: others ∧
          sats.toNat = change ∧ tx.outputs = [⟨amount, paymentId, recipientPubkey⟩,
            ⟨sats, changeId, first.publicKey⟩]) := by
  subst hpicked
  have htotal := WordSum.toNat_add_of_lt hgoal
  obtain ⟨added, sum, hsigned, hsum, hfirst, hselect⟩ := exists_selected hkeys hfit
  rw [← hsum, ← htotal]
  rcases createTransactionIn_cases paymentId changeId recipientPubkey
    (OverflowMode.add_of_lt .checked hgoal) hselect hfirst with
    ⟨hlt, hresult⟩ | ⟨hle, tx, hresult, rfl, hexact, hmore⟩
  · exact Or.inl ⟨UInt64.lt_iff_toNat_lt.mp hlt, hresult⟩
  · have hle' := UInt64.le_iff_toNat_le.mp hle
    refine Or.inr ⟨tx, _, hresult, hsigned, (Nat.add_sub_of_le hle').symm, fun hzero => ?_,
      fun hpos => ?_⟩
    · apply hexact
      apply UInt64.toNat_inj.mp
      exact Nat.le_antisymm (Nat.le_of_sub_eq_zero hzero) hle'
    · obtain ⟨first, others, hkeys', houtputs⟩ :=
        hmore (UInt64.lt_iff_toNat_lt.mpr (Nat.lt_of_sub_pos hpos))
      exact ⟨first, others, _, hkeys', UInt64.toNat_sub_of_le _ _ hle, houtputs⟩

theorem balances_of_fits (hkeys : HasKeys store entries)
    (fits : Fits entries amount (calculateFee amount)) :
    Balances .checked store entries calculateFee paymentId changeId recipientPubkey amount := by
  have htotal := WordSum.toNat_add_of_lt fits.goal
  obtain ⟨hfit, hneeded⟩ := fits.selection htotal
  have hless := total_selection_lt_iff entries (amount + calculateFee amount)
  rw [htotal] at hless
  rcases createTransactionIn_of_fit paymentId changeId recipientPubkey hkeys fits.goal rfl hfit with
    ⟨hlt, hresult⟩ | ⟨tx, change, hresult, hsigned, hexact, hnone, hchange⟩
  · constructor
    · simp [hresult]
    · simp [hresult]
    · simp [hresult]
    · exact iff_of_true hresult (hless.mp hlt)
  · have hsublist := selection_sublist entries (amount + calculateFee amount)
    constructor
    · simp [hresult]
    · intro tx' htx'
      obtain rfl : tx = tx' := Except.ok.inj (hresult.symm.trans htx')
      have henough : ¬ total amountOf (unmarked entries) <
          amount.toNat + (calculateFee amount).toNat := fun hlt => by
        have hpicked := hless.mpr hlt
        omega
      have hnodup := fits.nodup_selection htotal (by omega)
      rw [← spends_of_signed hsigned] at hnodup
      exact ⟨_, change, hsublist, hnodup, hsigned, hexact, hneeded, hnone, hchange⟩
    · simp [hresult]
    · refine iff_of_false (by simp [hresult]) fun hlt => ?_
      have hpicked := hless.mpr hlt
      omega

/-- Where no transaction unwinds, the amount and the fee fit a word, and so does what is
selected. -/
theorem fit_of_noOverflow (hkeys : HasKeys store entries)
    (h : createTransactionIn .checked store entries calculateFee paymentId changeId recipientPubkey
      amount ≠ .error .panic) :
    amount.toNat + (calculateFee amount).toNat < 2 ^ 64 ∧
      total amountOf (selection entries (amount + calculateFee amount)) < 2 ^ 64 := by
  have hgoal : amount.toNat + (calculateFee amount).toNat < 2 ^ 64 := by
    by_contra hover
    exact h (by simp only [createTransactionIn, OverflowMode.add, if_neg hover])
  refine ⟨hgoal, ?_⟩
  by_contra hover
  have hadd := OverflowMode.add_of_lt .checked hgoal
  obtain ⟨added, -, hselect⟩ := selectInputsIn_selection hkeys (amount + calculateFee amount)
  rw [fitted, if_neg hover] at hselect
  exact h (by simp only [createTransactionIn, hadd, hselect])

/-- A payment that balances takes no output twice. -/
theorem nodup_selection_of_balances (hkeys : HasKeys store entries)
    (h : Balances .checked store entries calculateFee paymentId changeId recipientPubkey amount)
    (henough : amount.toNat + (calculateFee amount).toNat ≤ total amountOf (unmarked entries)) :
    ((selection entries (amount + calculateFee amount)).map fun p => p.2.hash).Nodup := by
  obtain ⟨hgoal, hfit⟩ := fit_of_noOverflow hkeys h.noOverflow
  have hless := total_selection_lt_iff entries (amount + calculateFee amount)
  rw [WordSum.toNat_add_of_lt hgoal] at hless
  rcases createTransactionIn_of_fit paymentId changeId recipientPubkey hkeys hgoal rfl hfit with
    ⟨hlt, -⟩ | ⟨tx, -, hresult, hsigned, -⟩
  · have hall := hless.mp hlt
    omega
  · obtain ⟨picked, change, balanced⟩ := h.created tx hresult
    rw [← spends_of_signed hsigned]
    exact balanced.distinct

/-- A payment that balances takes nothing for nothing. -/
theorem selection_eq_nil_of_balances (hkeys : HasKeys store entries)
    (h : Balances .checked store entries calculateFee paymentId changeId recipientPubkey amount)
    (hnothing : amount.toNat + (calculateFee amount).toNat = 0) :
    selection entries (amount + calculateFee amount) = [] := by
  obtain ⟨hgoal, hfit⟩ := fit_of_noOverflow hkeys h.noOverflow
  rcases createTransactionIn_of_fit paymentId changeId recipientPubkey hkeys hgoal rfl hfit with
    ⟨hlt, -⟩ | ⟨tx, -, hresult, hsigned, -⟩
  · rw [hnothing] at hlt
    exact absurd hlt (Nat.not_lt_zero _)
  · obtain ⟨picked, change, balanced⟩ := h.created tx hresult
    have hlength : picked.length = (selection entries (amount + calculateFee amount)).length :=
      balanced.signed.length_eq.trans hsigned.length_eq.symm
    rcases List.eq_nil_or_concat picked with rfl | ⟨others, last, hlast⟩
    · exact List.length_eq_zero_iff.mp hlength.symm
    · -- the last one is needed although the others reach the goal already
      rw [List.concat_eq_append] at hlast
      have hless := balanced.needed others last hlast
      rw [hnothing] at hless
      exact absurd hless (Nat.not_lt_zero _)

theorem fits_of_balances (hkeys : HasKeys store entries)
    (h : Balances .checked store entries calculateFee paymentId changeId recipientPubkey amount) :
    Fits entries amount (calculateFee amount) := by
  obtain ⟨hgoal, hfit⟩ := fit_of_noOverflow hkeys h.noOverflow
  have htotal := WordSum.toNat_add_of_lt hgoal
  have hzero_iff : amount + calculateFee amount = 0 ↔
      amount.toNat + (calculateFee amount).toNat = 0 := by
    rw [← htotal, ← UInt64.toNat_inj, UInt64.toNat_zero]
  have hne {before : List (PublicKey × TxOutput)}
      (hlt : total amountOf before < amount.toNat + (calculateFee amount).toNat) :
      amount + calculateFee amount ≠ 0 := fun hzero =>
    Nat.not_lt_zero _ (hzero_iff.mp hzero ▸ hlt)
  refine ⟨hgoal, fun before p after hsplit hlt => ?_, fun henough before p after hsplit hlt => ?_,
    fun hnothing => ?_⟩
  · rw [selection_of_ne_zero (hne hlt), htotal, total_cover_lt_bound_iff (by decide)] at hfit
    exact hfit before p after hsplit hlt
  · have hnodup := nodup_selection_of_balances hkeys h henough
    rw [nodup_selection_iff (hne hlt), htotal] at hnodup
    exact hnodup before p after hsplit hlt
  · rw [← selection_zero_eq_nil_iff, ← hzero_iff.mpr hnothing]
    exact selection_eq_nil_of_balances hkeys h hnothing

theorem Balances.of_mode {mode mode' : OverflowMode}
    (h : Balances mode store entries calculateFee paymentId changeId recipientPubkey amount) :
    Balances mode' store entries calculateFee paymentId changeId recipientPubkey amount := by
  have heq : ∀ m, createTransactionIn m store entries calculateFee paymentId changeId
      recipientPubkey amount = createTransactionIn .checked store entries calculateFee paymentId
        changeId recipientPubkey amount := fun m => createTransactionIn_of_checked m h.noOverflow
  have hmode := (heq mode').trans (heq mode).symm
  constructor
  · exact h.noOverflow
  · rw [hmode]
    exact h.created
  · rw [hmode]
    exact h.fails
  · rw [hmode]
    exact h.refused

end Checked

/-- In every build, whatever the wallet holds and is to pay, a payment balances exactly where
every sum fits, no output is taken twice and nothing is taken for nothing. -/
theorem balances_iff_fits (mode : OverflowMode) {store : UtxoStore}
    {entries : AList fun _ : PublicKey => List (Bool × TxOutput)}
    (hentries : entries.toFinmap = store.utxos)
    (calculateFee : UInt64 → UInt64) (paymentId changeId : Uuid) (recipientPubkey : PublicKey)
    (amount : UInt64) :
    Balances mode store entries.entries calculateFee paymentId changeId recipientPubkey amount ↔
      Fits entries.entries amount (calculateFee amount) := by
  have hkeys := hasKeys_of_toFinmap hentries
  constructor
  · intro h
    exact fits_of_balances hkeys (h.of_mode : Balances .checked _ _ _ _ _ _ _)
  · intro fits
    exact (balances_of_fits hkeys fits).of_mode

end Core

namespace StandIn

/-- What alice's wallet lists: the coin of the first block. -/
def aliceEntries : AList fun _ : PublicKey => List (Bool × TxOutput) :=
  AList.singleton alice [(false, firstCoin)]

def aliceStore : letI := signer; UtxoStore :=
  letI := signer
  { myKeys := [keyPair alice]
    utxos := aliceEntries.toFinmap
    owned := by
      intro pubkey hmem
      rw [Finmap.mem_toFinmap] at hmem
      have hkeys : pubkey ∈ [alice] := hmem
      simpa [keyPair] using hkeys }

/-- What a wallet with two keys lists, one coin of which is marked. -/
def sharedEntries : AList fun _ : PublicKey => List (Bool × TxOutput) :=
  (AList.singleton bob [(false, coin bob 12 2000000000)]).insert alice
    [(true, coin alice 10 2000000000), (false, coin alice 11 1000000000)]

def sharedStore : letI := signer; UtxoStore :=
  letI := signer
  { myKeys := [keyPair bob, keyPair alice]
    utxos := sharedEntries.toFinmap
    owned := by
      intro pubkey hmem
      rw [Finmap.mem_toFinmap] at hmem
      rw [sharedEntries, AList.mem_insert] at hmem
      have hkeys : pubkey = alice ∨ pubkey ∈ [bob] := hmem
      simpa [keyPair, or_comm] using hkeys }

/-- Carol is paid with the two coins that are not marked, and what is left goes to bob. -/
theorem balances_sharedEntries :
    letI := crates
    letI := signer
    Core.Balances .checked sharedStore sharedEntries.entries (fun _ => 5) ⟨7⟩ ⟨8⟩ carol
      2500000000 := by
  let := crates
  let := signer
  let goal : Nat := 2500000005
  have hsums : total Core.amountOf (cover Core.amountOf goal
      (Core.unmarked sharedEntries.entries)) < 2 ^ 64 := by
    decide +kernel
  have hapart : ((cover Core.amountOf goal (Core.unmarked sharedEntries.entries)).map
      fun p => p.2.hash).Nodup := by
    decide +kernel
  refine (Core.balances_iff_fits .checked rfl _ _ _ _ _).mpr ⟨by decide, ?_, ?_, by decide⟩
  · exact (total_cover_lt_bound_iff (by decide)).mp hsums
  · intro _
    rw [nodup_map_iff_forall_split] at hapart
    exact forall_split_cover_iff.mp hapart

/-- The highest amount, with a fee of one, overflows in every build. -/
theorem not_balances_highest :
    letI := crates
    letI := signer
    ¬ Core.Balances .checked aliceStore aliceEntries.entries (fun _ => 1) ⟨7⟩ ⟨8⟩ bob
        18446744073709551615 ∧
      ¬ Core.Balances .wrapping aliceStore aliceEntries.entries (fun _ => 1) ⟨7⟩ ⟨8⟩ bob
        18446744073709551615 := by
  let := crates
  let := signer
  exact ⟨fun h => h.noOverflow rfl, fun h => h.noOverflow rfl⟩

end StandIn

end ToyBtc
