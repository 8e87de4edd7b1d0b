import ToyBtc.Relay
import ToyBtc.Conflicts
import ToyBtc.Spends
import Mathlib.Data.List.AList

/-!
# What the wallet builds

The wallet asks a node for the unspent outputs of its keys, picks unmarked ones
until they cover the amount and the fee, signs for each with the key it was
found under and pays what is left back to its first key. Each step keeps what
the checks of the mempool and of a block look at.

## Implementation notes

The node lists a hash map and the wallet a sorted map, so an order of listing
is an argument. Identifiers are drawn by the caller. A TCP reply and a gRPC
reply carry the same pairs.
-/

namespace ToyBtc

theorem lookup_foldl_insert {κ ι : Type} [DecidableEq κ] {ν : Type} (key : ι → κ) (value : κ → ν)
    (items : List ι) (m : Finmap fun _ : κ => ν) (k : κ) :
    (items.foldl (fun m i => m.insert (key i) (value (key i))) m).lookup k =
      if k ∈ items.map key then some (value k) else m.lookup k := by
  induction items generalizing m with
  | nil => simp
  | cons i rest ih =>
      rw [List.foldl_cons, ih, List.map_cons]
      by_cases hrest : k ∈ rest.map key
      · rw [if_pos hrest, if_pos (List.mem_cons_of_mem _ hrest)]
      · rw [if_neg hrest]
        by_cases hk : k = key i
        · rw [if_pos (hk ▸ List.mem_cons_self), hk, Finmap.lookup_insert]
        · rw [Finmap.lookup_insert_of_ne _ hk, if_neg]
          rw [List.mem_cons, not_or]
          exact ⟨hk, hrest⟩

theorem lookup_of_mem_entries {u : UtxoSet} {listing : AList fun _ : Hash => Bool × TxOutput}
    (hlisting : listing.toFinmap = u) {entry : Σ _ : Hash, Bool × TxOutput}
    (h : entry ∈ listing.entries) : u.lookup entry.1 = some entry.2 := by
  rw [← hlisting, Finmap.lookup_toFinmap]
  exact AList.mem_lookup_iff.mpr h

variable [Crates]

/-! ### The reply of the node -/

/-- The node's outputs for a public key, from a listing of its UTXO set. -/
def Blockchain.utxoSetForPubkey (listing : AList fun _ : Hash => Bool × TxOutput)
    (pubkey : PublicKey) : List (Bool × TxOutput) :=
  (listing.entries.map Sigma.snd).filter fun v => v.2.pubkey = pubkey

/-- The answer to `FetchUTXOs`. -/
def Handler.fetchUtxos (listing : AList fun _ : Hash => Bool × TxOutput) (pubkey : PublicKey) :
    List (TxOutput × Bool) :=
  (Blockchain.utxoSetForPubkey listing pubkey).map fun v => (v.2, v.1)

/-- Every output of the UTXO set is stored under its own hash. -/
def UtxoSet.KeyedByHash (u : UtxoSet) : Prop := ∀ h o, u.output h = some o → o.hash = h

theorem Blockchain.Stored.keyedByHash {s : Blockchain} (hs : s.Stored) :
    s.utxoSet.KeyedByHash := by
  intro h o ho
  obtain ⟨bs, -, houtputs⟩ := hs.outputs
  rw [houtputs] at ho
  obtain ⟨-, -, -, -, -, hhash⟩ := exists_creator_of_ledger ho
  exact hhash

/-- A reply shows outputs of the UTXO set. -/
theorem mem_utxoSetForPubkey {u : UtxoSet} (hkeyed : u.KeyedByHash)
    {listing : AList fun _ : Hash => Bool × TxOutput} (hlisting : listing.toFinmap = u)
    {pubkey : PublicKey} {v : Bool × TxOutput}
    (h : v ∈ Blockchain.utxoSetForPubkey listing pubkey) :
    u.lookup v.2.hash = some v ∧ v.2.pubkey = pubkey := by
  obtain ⟨hmem, hpubkey⟩ := List.mem_filter.mp h
  obtain ⟨entry, hentry, rfl⟩ := List.mem_map.mp hmem
  have hlookup := lookup_of_mem_entries hlisting hentry
  rw [hkeyed entry.1 entry.2.2 (UtxoSet.output_eq_some.mpr ⟨entry.2.1, hlookup⟩)]
  exact ⟨hlookup, of_decide_eq_true hpubkey⟩

/-- No output is in a reply twice. -/
theorem utxoSetForPubkey_nodup {u : UtxoSet} (hkeyed : u.KeyedByHash)
    {listing : AList fun _ : Hash => Bool × TxOutput} (hlisting : listing.toFinmap = u)
    (pubkey : PublicKey) :
    ((Blockchain.utxoSetForPubkey listing pubkey).map fun v => v.2.hash).Nodup := by
  have hkeys : (listing.entries.map Sigma.snd).map (fun v => v.2.hash) = listing.keys := by
    rw [List.map_map]
    apply List.map_congr_left
    intro entry hentry
    have hlookup := lookup_of_mem_entries hlisting hentry
    exact hkeyed entry.1 entry.2.2 (UtxoSet.output_eq_some.mpr ⟨entry.2.1, hlookup⟩)
  have hnodup := listing.keys_nodup
  rw [← hkeys] at hnodup
  exact hnodup.sublist (List.filter_sublist.map _)

/-! ### The wallet -/

/-- What the wallet calls from another crate: signing with a private key. -/
class Signer where
  PrivateKey : Type
  sign : PrivateKey → List UInt8 → Signature

variable [Signer]

/-- Sign a TxOutput from its hash. -/
def Signature.signOutput (outputHash : Hash) (privkey : Signer.PrivateKey) : Signature :=
  Signer.sign privkey outputHash.asBytes

/-- Loaded key pair. -/
structure LoadedKey where
  publicKey : PublicKey
  privateKey : Signer.PrivateKey

/-- The public key verifies whatever the private key signs. -/
def LoadedKey.Matches (key : LoadedKey) : Prop :=
  ∀ message, Crates.verify key.publicKey message (Signer.sign key.privateKey message) = true

/-- The wallet's keys and the outputs it knows for them. -/
structure UtxoStore where
  myKeys : List LoadedKey
  utxos : Finmap fun _ : PublicKey => List (Bool × TxOutput)
  owned : ∀ pubkey ∈ utxos, pubkey ∈ myKeys.map LoadedKey.publicKey

/-- How `create_transaction` ends without a transaction. -/
inductive WalletAbort
  | bail (message : String)
  | panic
  deriving DecidableEq

namespace Core

/-- Fetches UTXOs from the node for all loaded keys: each reply replaces all that was
known for its key. -/
def fetchUtxos (store : UtxoStore) (reply : PublicKey → List (TxOutput × Bool)) : UtxoStore where
  myKeys := store.myKeys
  utxos := store.myKeys.foldl (fun utxos key =>
    utxos.insert key.publicKey ((reply key.publicKey).map fun v => (v.2, v.1))) store.utxos
  owned := by
    intro pubkey hmem
    by_contra hkey
    have hlookup := lookup_foldl_insert LoadedKey.publicKey
      (fun k => (reply k).map fun v => (v.2, v.1)) store.myKeys store.utxos pubkey
    rw [if_neg hkey] at hlookup
    rw [← Finmap.lookup_isSome, hlookup, Finmap.lookup_isSome] at hmem
    exact hkey (store.owned pubkey hmem)

/-- The amounts of all outputs that the wallet knows, marked or not. -/
def getBalance (entries : List (Σ _ : PublicKey, List (Bool × TxOutput))) : UInt64 :=
  ((entries.flatMap Sigma.snd).map fun v => v.2.amount).sum

/-- Returns sender's private key for specified public key. -/
def myPrivkey (store : UtxoStore) (pubkey : PublicKey) : Except String Signer.PrivateKey :=
  match store.myKeys.find? fun key => key.publicKey = pubkey with
  | some key => .ok key.privateKey
  | none => .error "Public key not found"

/-- The loop over the outputs of one key, with the inputs and their sum so far. -/
def selectUtxos (privkey : Signer.PrivateKey) (totalAmount : UInt64) :
    List (Bool × TxOutput) → List TxInput → UInt64 → List TxInput × UInt64
  | [], inputs, inputSum => (inputs, inputSum)
  | (marked, utxo) :: rest, inputs, inputSum =>
      -- skip marked UTXOs
      if marked then selectUtxos privkey totalAmount rest inputs inputSum
      else
        let inputs := inputs ++ [⟨utxo.hash, Signature.signOutput utxo.hash privkey⟩]
        let inputSum := inputSum + utxo.amount
        if totalAmount ≤ inputSum then (inputs, inputSum)
        else selectUtxos privkey totalAmount rest inputs inputSum

/-- The loop over all keys. -/
def selectInputs (store : UtxoStore) (totalAmount : UInt64) :
    List (Σ _ : PublicKey, List (Bool × TxOutput)) → List TxInput → UInt64 →
      Except WalletAbort (List TxInput × UInt64)
  | [], inputs, inputSum => .ok (inputs, inputSum)
  | ⟨pubkey, utxos⟩ :: rest, inputs, inputSum =>
      match myPrivkey store pubkey with
      | .error cause => .error (.bail ("get sender's private key: " ++ cause))
      | .ok privkey =>
          let (inputs, inputSum) := selectUtxos privkey totalAmount utxos inputs inputSum
          if totalAmount ≤ inputSum then .ok (inputs, inputSum)
          else selectInputs store totalAmount rest inputs inputSum

/-- Creates new transaction, with an identifier for the payment and one for the
change. -/
def createTransaction (store : UtxoStore)
    (entries : List (Σ _ : PublicKey, List (Bool × TxOutput)))
    (calculateFee : UInt64 → UInt64) (paymentId changeId : Uuid) (recipientPubkey : PublicKey)
    (amount : UInt64) : Except WalletAbort Tx :=
  let totalAmount := amount + calculateFee amount
  match selectInputs store totalAmount entries [] 0 with
  | .error e => .error e
  | .ok (inputs, inputSum) =>
      if inputSum < totalAmount then .error (.bail "Insufficient funds")
      else
        let payment : TxOutput := ⟨amount, paymentId, recipientPubkey⟩
        if totalAmount < inputSum then
          match store.myKeys with
          | [] => .error .panic
          | first :: _ =>
              .ok ⟨inputs, [payment, ⟨inputSum - totalAmount, changeId, first.publicKey⟩]⟩
        else .ok ⟨inputs, [payment]⟩

/-! ### What is selected -/

/-- The input spends an unmarked output of one of the entries and is signed with the
wallet's key for that entry. -/
def SignedFor (store : UtxoStore) (entries : List (Σ _ : PublicKey, List (Bool × TxOutput)))
    (i : TxInput) : Prop :=
  ∃ entry ∈ entries, ∃ privkey, myPrivkey store entry.1 = .ok privkey ∧
    ∃ o, (false, o) ∈ entry.2 ∧ i = ⟨o.hash, Signature.signOutput o.hash privkey⟩

omit [Crates] in
theorem myPrivkey_ok {store : UtxoStore} {pubkey : PublicKey} {privkey : Signer.PrivateKey}
    (h : myPrivkey store pubkey = .ok privkey) :
    ∃ key ∈ store.myKeys, key.publicKey = pubkey ∧ key.privateKey = privkey := by
  unfold myPrivkey at h
  cases hfind : store.myKeys.find? fun key => key.publicKey = pubkey with
  | none =>
      rw [hfind] at h
      cases h
  | some key =>
      rw [hfind] at h
      have hkey := List.find?_some hfind
      exact ⟨key, List.mem_of_find?_eq_some hfind, of_decide_eq_true hkey, Except.ok.inj h⟩

/-- The inner loop takes some unmarked outputs in turn. -/
theorem selectUtxos_eq (privkey : Signer.PrivateKey) (totalAmount : UInt64)
    (utxos : List (Bool × TxOutput)) (inputs : List TxInput) (inputSum : UInt64) :
    ∃ picked : List TxOutput, (picked.map fun o => (false, o)).Sublist utxos ∧
      selectUtxos privkey totalAmount utxos inputs inputSum =
        (inputs ++ picked.map fun o => ⟨o.hash, Signature.signOutput o.hash privkey⟩,
          inputSum + (picked.map TxOutput.amount).sum) := by
  induction utxos generalizing inputs inputSum with
  | nil => exact ⟨[], List.Sublist.refl _, by simp [selectUtxos]⟩
  | cons v rest ih =>
      obtain ⟨marked, utxo⟩ := v
      rw [selectUtxos]
      cases marked with
      | true =>
          obtain ⟨picked, hsub, heq⟩ := ih inputs inputSum
          exact ⟨picked, hsub.cons _, heq⟩
      | false =>
          by_cases hreached : totalAmount ≤ inputSum + utxo.amount
          · refine ⟨[utxo], List.Sublist.cons_cons _ (List.nil_sublist _), ?_⟩
            simp [hreached]
          · obtain ⟨picked, hsub, heq⟩ := ih
              (inputs ++ [⟨utxo.hash, Signature.signOutput utxo.hash privkey⟩])
              (inputSum + utxo.amount)
            refine ⟨utxo :: picked, List.Sublist.cons_cons _ hsub, ?_⟩
            simp only [Bool.false_eq_true, if_false, hreached, heq, List.append_assoc,
              List.map_cons, List.sum_cons, add_assoc, List.singleton_append]

/-- The outer loop takes some unmarked outputs of all entries, and signs for each. -/
theorem selectInputs_ok {store : UtxoStore} {totalAmount : UInt64}
    {entries : List (Σ _ : PublicKey, List (Bool × TxOutput))} {inputs inputs' : List TxInput}
    {inputSum inputSum' : UInt64}
    (h : selectInputs store totalAmount entries inputs inputSum = .ok (inputs', inputSum')) :
    ∃ picked : List TxOutput,
      (picked.map fun o => (false, o)).Sublist (entries.flatMap Sigma.snd) ∧
      ∃ added, inputs' = inputs ++ added ∧ (∀ i ∈ added, SignedFor store entries i) ∧
        added.map TxInput.prevTxOutputHash = picked.map TxOutput.hash ∧
        inputSum' = inputSum + (picked.map TxOutput.amount).sum := by
  induction entries generalizing inputs inputSum with
  | nil =>
      cases h
      exact ⟨[], List.Sublist.refl _, [], by simp, by simp, rfl, by simp⟩
  | cons entry rest ih =>
      obtain ⟨pubkey, utxos⟩ := entry
      rw [selectInputs] at h
      cases hkey : myPrivkey store pubkey with
      | error cause =>
          rw [hkey] at h
          cases h
      | ok privkey =>
          obtain ⟨picked, hsub, heq⟩ := selectUtxos_eq privkey totalAmount utxos inputs inputSum
          have hsigned : ∀ o ∈ picked, SignedFor store (⟨pubkey, utxos⟩ :: rest)
              ⟨o.hash, Signature.signOutput o.hash privkey⟩ := by
            intro o ho
            exact ⟨_, List.mem_cons_self, privkey, hkey, o,
              hsub.mem (List.mem_map_of_mem ho), rfl⟩
          simp only [hkey, heq] at h
          split at h
          · cases h
            refine ⟨picked, hsub.trans (List.sublist_append_left _ _), _, rfl, ?_, ?_, rfl⟩
            · simpa using hsigned
            · simp
          · obtain ⟨more, hmore, added, rfl, hadded, hhashes, rfl⟩ := ih h
            refine ⟨picked ++ more, ?_,
              (picked.map fun o => ⟨o.hash, Signature.signOutput o.hash privkey⟩) ++ added,
              List.append_assoc .., ?_, ?_, ?_⟩
            · rw [List.map_append, List.flatMap_cons]
              exact hsub.append hmore
            · rw [List.forall_mem_append]
              constructor
              · simpa using hsigned
              · intro i hi
                obtain ⟨entry, hentry, hrest⟩ := hadded i hi
                exact ⟨entry, List.mem_cons_of_mem _ hentry, hrest⟩
            · rw [List.map_append, hhashes, List.map_append]
              simp
            · rw [List.map_append, List.sum_append, add_assoc]

/-- A created transaction spends selected outputs for the amount and the fee, and its
outputs leave exactly the fee. -/
theorem createTransaction_ok {store : UtxoStore}
    {entries : List (Σ _ : PublicKey, List (Bool × TxOutput))} {calculateFee : UInt64 → UInt64}
    {paymentId changeId : Uuid} {recipientPubkey : PublicKey} {amount : UInt64} {tx : Tx}
    (h : createTransaction store entries calculateFee paymentId changeId recipientPubkey amount =
      .ok tx) :
    ∃ picked : List TxOutput,
      (picked.map fun o => (false, o)).Sublist (entries.flatMap Sigma.snd) ∧
      (∀ i ∈ tx.inputs, SignedFor store entries i) ∧ tx.spends = picked.map TxOutput.hash ∧
      amount + calculateFee amount ≤ (picked.map TxOutput.amount).sum ∧
      tx.outputAmount = (picked.map TxOutput.amount).sum - calculateFee amount ∧
      ⟨amount, paymentId, recipientPubkey⟩ ∈ tx.outputs := by
  simp only [createTransaction] at h
  cases hselect : selectInputs store (amount + calculateFee amount) entries [] 0 with
  | error e =>
      rw [hselect] at h
      cases h
  | ok selected =>
      obtain ⟨inputs, inputSum⟩ := selected
      obtain ⟨picked, hsub, added, rfl, hsigned, hhashes, rfl⟩ := selectInputs_ok hselect
      rw [hselect] at h
      simp only [zero_add] at h
      split at h
      · cases h
      · next hcovers =>
          refine ⟨picked, hsub, ?_⟩
          have hle := UInt64.not_lt.mp hcovers
          split at h
          · cases hkeys : store.myKeys with
            | nil =>
                rw [hkeys] at h
                cases h
            | cons first others =>
                rw [hkeys] at h
                cases h
                refine ⟨hsigned, hhashes, hle, ?_, List.mem_cons_self⟩
                simp only [Tx.outputAmount, List.map_cons, List.map_nil, List.sum_cons,
                  List.sum_nil]
                grind
          · next hexact =>
              cases h
              have heq := UInt64.le_antisymm (UInt64.not_lt.mp hexact) hle
              refine ⟨hsigned, hhashes, hle, ?_, List.mem_cons_self⟩
              simp only [Tx.outputAmount, List.map_cons, List.map_nil, List.sum_cons, List.sum_nil]
              grind

end Core

/-! ### What the node makes of it -/

/-- The entries show outputs of the UTXO set under their keys, and none of them twice. -/
structure Shows (u : UtxoSet) (entries : List (Σ _ : PublicKey, List (Bool × TxOutput))) :
    Prop where
  shown : ∀ entry ∈ entries, ∀ v ∈ entry.2, u.lookup v.2.hash = some v ∧ v.2.pubkey = entry.1
  distinct : ((entries.flatMap Sigma.snd).map fun v => v.2.hash).Nodup

omit [Crates] in
/-- What a store holds for a key once the replies of the node are in. -/
theorem lookup_fetchUtxos {store : UtxoStore}
    {listing : PublicKey → AList fun _ : Hash => Bool × TxOutput} {pubkey : PublicKey}
    {utxos : List (Bool × TxOutput)}
    (h : (Core.fetchUtxos store fun k => Handler.fetchUtxos (listing k) k).utxos.lookup pubkey =
      some utxos) : utxos = Blockchain.utxoSetForPubkey (listing pubkey) pubkey := by
  have hmem : pubkey ∈ store.myKeys.map LoadedKey.publicKey :=
    (Core.fetchUtxos store fun k => Handler.fetchUtxos (listing k) k).owned pubkey
      (Finmap.mem_of_lookup_eq_some h)
  have hlookup := lookup_foldl_insert LoadedKey.publicKey
    (fun k => (Handler.fetchUtxos (listing k) k).map fun v => (v.2, v.1))
    store.myKeys store.utxos pubkey
  rw [if_pos hmem] at hlookup
  rw [Core.fetchUtxos, hlookup] at h
  simpa [Handler.fetchUtxos, Function.comp_def] using h.symm

theorem shows_fetchUtxos {u : UtxoSet} (hkeyed : u.KeyedByHash) {store : UtxoStore}
    {listing : PublicKey → AList fun _ : Hash => Bool × TxOutput}
    (hlisting : ∀ k, (listing k).toFinmap = u)
    {entries : AList fun _ : PublicKey => List (Bool × TxOutput)}
    (hentries : entries.toFinmap =
      (Core.fetchUtxos store fun k => Handler.fetchUtxos (listing k) k).utxos) :
    Shows u entries.entries := by
  have hvalue (entry) (hentry : entry ∈ entries.entries) :
      entry.2 = Blockchain.utxoSetForPubkey (listing entry.1) entry.1 := by
    apply lookup_fetchUtxos
    rw [← hentries, Finmap.lookup_toFinmap]
    exact AList.mem_lookup_iff.mpr hentry
  have hshown (entry) (hentry : entry ∈ entries.entries) (v) (hv : v ∈ entry.2) :
      u.lookup v.2.hash = some v ∧ v.2.pubkey = entry.1 := by
    rw [hvalue entry hentry] at hv
    exact mem_utxoSetForPubkey hkeyed (hlisting _) hv
  refine ⟨hshown, ?_⟩
  rw [List.map_flatMap, List.nodup_flatMap]
  constructor
  · intro entry hentry
    rw [hvalue entry hentry]
    exact utxoSetForPubkey_nodup hkeyed (hlisting _) _
  · -- one output is not under two keys
    have hkeys : entries.entries.Pairwise fun a b => a.1 ≠ b.1 :=
      List.pairwise_map.mp entries.keys_nodup
    apply hkeys.imp_of_mem
    intro a b ha hb hne
    rw [Function.onFun, List.disjoint_left]
    intro h hla hlb
    obtain ⟨v, hv, rfl⟩ := List.mem_map.mp hla
    obtain ⟨w, hw, hhash⟩ := List.mem_map.mp hlb
    obtain ⟨hv, hva⟩ := hshown a ha v hv
    obtain ⟨hw, hwb⟩ := hshown b hb w hw
    rw [hhash, hv] at hw
    obtain rfl := Option.some.inj hw
    exact hne (hva.symm.trans hwb)

/-- The mempool takes the transaction without coming to the replacement of an older one,
its fee is the expected one, and a block of a coinbase for subsidy and fee and of the
transaction passes. -/
structure Blockchain.Takes (s : Blockchain) (tx : Tx) (fee : UInt64) : Prop where
  admissible : s.Admissible tx
  unmarked : ∀ h ∈ tx.spends, ∃ o, s.utxoSet.lookup h = some (false, o)
  inserts : ∀ now, s.Inserts now tx
  fee_eq : tx.fee s.utxoSet = fee
  verifies : ∀ header coinbase height reward, blockReward height = some reward →
    coinbase.inputs = [] → coinbase.outputs ≠ [] → coinbase.outputAmount = reward + fee →
      (Block.new header [coinbase, tx]).verifyTransactions height s.utxoSet = .ok ()

omit [Signer] in
/-- Unmarked inputs lead past the replacement loop. -/
theorem Blockchain.inserts_of_unmarked {s : Blockchain} {tx : Tx} (hadm : s.Admissible tx)
    (hunmarked : ∀ h ∈ tx.spends, ∃ o, s.utxoSet.lookup h = some (false, o))
    (hpaid : tx.outputAmount ≤ tx.inputAmount s.utxoSet) (now : DateTime) :
    s.Inserts now tx := by
  refine inserts_iff.mpr ⟨hadm, ?_, hpaid⟩
  rw [outbid_iff, replaceOlder_of_no_creator]
  · simp
  · intro i hi o hmarked
    obtain ⟨o', ho'⟩ := hunmarked _ (List.mem_map_of_mem hi)
    rw [hmarked] at ho'
    cases ho'

/-- The inputs that the wallet signs are authorized. -/
theorem authorized_of_signedFor {u : UtxoSet} {store : UtxoStore}
    (hmatches : ∀ key ∈ store.myKeys, key.Matches)
    {entries : List (Σ _ : PublicKey, List (Bool × TxOutput))} (hshows : Shows u entries)
    {i : TxInput} (h : Core.SignedFor store entries i) : i.Authorized u := by
  obtain ⟨entry, hentry, privkey, hkey, o, ho, rfl⟩ := h
  obtain ⟨key, hmem, hpublic, rfl⟩ := Core.myPrivkey_ok hkey
  obtain ⟨hlookup, hpubkey⟩ := hshows.shown entry hentry _ ho
  refine ⟨o, UtxoSet.output_eq_some.mpr ⟨false, hlookup⟩, ?_⟩
  have hverify := hmatches key hmem o.hash.asBytes
  rw [hpublic, ← hpubkey] at hverify
  exact hverify

section Picked

variable {u : UtxoSet} {entries : List (Σ _ : PublicKey, List (Bool × TxOutput))}
  {picked : List TxOutput}

omit [Signer] in
/-- Outputs that are picked as unmarked are in the set, and unmarked. -/
theorem Shows.lookup_picked (hshows : Shows u entries)
    (hsub : (picked.map fun o => (false, o)).Sublist (entries.flatMap Sigma.snd)) {o : TxOutput}
    (ho : o ∈ picked) : u.lookup o.hash = some (false, o) := by
  obtain ⟨entry, hentry, hmem⟩ := List.mem_flatMap.mp (hsub.mem (List.mem_map_of_mem ho))
  exact (hshows.shown entry hentry _ hmem).1

omit [Signer] in
theorem Shows.picked_nodup (hshows : Shows u entries)
    (hsub : (picked.map fun o => (false, o)).Sublist (entries.flatMap Sigma.snd)) :
    (picked.map TxOutput.hash).Nodup := by
  have hall := hshows.distinct.sublist (hsub.map fun v => v.2.hash)
  rw [List.map_map] at hall
  exact hall

omit [Signer] in
/-- A transaction that spends picked outputs has their amounts to spend. -/
theorem Shows.inputAmount_picked (hshows : Shows u entries)
    (hsub : (picked.map fun o => (false, o)).Sublist (entries.flatMap Sigma.snd)) {tx : Tx}
    (hspends : tx.spends = picked.map TxOutput.hash) :
    tx.inputAmount u = (picked.map TxOutput.amount).sum := by
  rw [Tx.inputAmount_eq, hspends, List.map_map]
  congr 1
  apply List.map_congr_left
  intro o ho
  simp [UtxoSet.amount, UtxoSet.output, hshows.lookup_picked hsub ho]

end Picked

omit [Signer] in
/-- A block of a coinbase and one other transaction passes if the two of them do. -/
theorem Block.verifyTransactions_pair {header : BlockHeader} {coinbase tx : Tx}
    {height reward : UInt64} {u : UtxoSet} (hauthorized : ∀ i ∈ tx.inputs, i.Authorized u)
    (hdistinct : tx.spends.Nodup) (hpaid : tx.outputAmount ≤ tx.inputAmount u)
    (hreward : blockReward height = some reward) (hin : coinbase.inputs = [])
    (hout : coinbase.outputs ≠ []) (hamount : coinbase.outputAmount = reward + tx.fee u) :
    (Block.new header [coinbase, tx]).verifyTransactions height u = .ok () := by
  apply (Block.verifyTransactions_ok_iff ..).mpr
  refine ⟨coinbase, [tx], rfl, ?_, ?_, ?_, hin, hout, reward, hreward, ?_⟩
  · intro tx' htx'
    rw [List.mem_singleton.mp htx']
    exact hauthorized
  · simpa using hdistinct
  · simpa using hpaid
  · rw [List.map_singleton, List.sum_singleton]
    exact hamount

/-- What the wallet builds on shown outputs, the chain that shows them takes. -/
theorem takes_of_shows {s : Blockchain} {store : UtxoStore}
    (hmatches : ∀ key ∈ store.myKeys, key.Matches)
    {entries : List (Σ _ : PublicKey, List (Bool × TxOutput))} (hshows : Shows s.utxoSet entries)
    {calculateFee : UInt64 → UInt64} {paymentId changeId : Uuid} {recipientPubkey : PublicKey}
    {amount : UInt64} {tx : Tx} (hfit : amount.toNat + (calculateFee amount).toNat < 2 ^ 64)
    (h : Core.createTransaction store entries calculateFee paymentId changeId recipientPubkey
      amount = .ok tx)
    (hnew : ∀ e ∈ s.mempool, e.2.hash ≠ tx.hash) : s.Takes tx (calculateFee amount) := by
  obtain ⟨picked, hsub, hsigned, hspends, hcovers, houtputs, -⟩ := Core.createTransaction_ok h
  have hinputs := hshows.inputAmount_picked hsub hspends
  rw [← hinputs] at hcovers houtputs
  have hunmarked : ∀ k ∈ tx.spends, ∃ o, s.utxoSet.lookup k = some (false, o) := by
    intro k hk
    rw [hspends] at hk
    obtain ⟨o, ho, rfl⟩ := List.mem_map.mp hk
    exact ⟨o, hshows.lookup_picked hsub ho⟩
  have hdistinct : tx.spends.Nodup := hspends ▸ hshows.picked_nodup hsub
  have hless : calculateFee amount ≤ tx.inputAmount s.utxoSet := by
    have hle := UInt64.le_iff_toNat_le.mp hcovers
    rw [WordSum.toNat_add_of_lt hfit] at hle
    rw [UInt64.le_iff_toNat_le]
    omega
  have hpaid : tx.outputAmount ≤ tx.inputAmount s.utxoSet := by
    rw [houtputs, UInt64.le_iff_toNat_le, UInt64.toNat_sub_of_le _ _ hless]
    exact Nat.sub_le _ _
  have hfee : tx.fee s.utxoSet = calculateFee amount := by
    rw [Tx.fee, houtputs]
    grind
  have hadm : s.Admissible tx := by
    refine ⟨hnew, fun k hk => ?_, hdistinct⟩
    obtain ⟨o, ho⟩ := hunmarked k hk
    exact Finmap.mem_of_lookup_eq_some ho
  refine ⟨hadm, hunmarked, Blockchain.inserts_of_unmarked hadm hunmarked hpaid, hfee, ?_⟩
  intro header coinbase height reward hreward hin hout hamount
  apply Block.verifyTransactions_pair _ hdistinct hpaid hreward hin hout
  · rw [hfee]
    exact hamount
  · intro i hi
    exact authorized_of_signedFor hmatches hshows (hsigned i hi)

/-- What the wallet builds from the replies of a node, the node takes, if the keys are
pairs, the amount and the fee fit a word, and the identifier of the payment is not in
the mempool, whose transactions hash apart from the new one. -/
theorem Node.Reached.takes_createTransaction {n : Node} (reached : n.Reached) {store : UtxoStore}
    (hmatches : ∀ key ∈ store.myKeys, key.Matches)
    {listing : PublicKey → AList fun _ : Hash => Bool × TxOutput}
    (hlisting : ∀ k, (listing k).toFinmap = n.chain.utxoSet)
    {entries : AList fun _ : PublicKey => List (Bool × TxOutput)}
    (hentries : entries.toFinmap =
      (Core.fetchUtxos store fun k => Handler.fetchUtxos (listing k) k).utxos)
    {calculateFee : UInt64 → UInt64} {paymentId changeId : Uuid} {recipientPubkey : PublicKey}
    {amount : UInt64} (hfit : amount.toNat + (calculateFee amount).toNat < 2 ^ 64)
    (hfresh : ∀ e ∈ n.chain.mempool, ∀ o ∈ e.2.outputs, o.uniqueId ≠ paymentId) {tx : Tx}
    (h : Core.createTransaction
      (Core.fetchUtxos store fun k => Handler.fetchUtxos (listing k) k) entries.entries
      calculateFee paymentId changeId recipientPubkey amount = .ok tx)
    (hapart : ∀ e ∈ n.chain.mempool, e.2.hash = tx.hash → e.2 = tx) :
    n.chain.Takes tx (calculateFee amount) := by
  have hkeyed := (ReachedBy.stored reached).1.keyedByHash
  refine takes_of_shows ?_ (shows_fetchUtxos hkeyed hlisting hentries) hfit h ?_
  · exact hmatches
  · intro e he hhash
    obtain ⟨-, -, -, -, -, -, hpayment⟩ := Core.createTransaction_ok h
    rw [← hapart e he hhash] at hpayment
    exact hfresh e he _ hpayment rfl

/-- In the stand-in a private key is the public key. -/
@[reducible] def StandIn.signer : Signer where
  PrivateKey := PublicKey
  sign := StandIn.signature

namespace StandIn

def carol : PublicKey := ⟨3⟩

/-- A first block with two coins for alice and one for bob. -/
def threeCoins : Block :=
  firstBlock minTarget
    [⟨[], [coin alice 10 2000000000, coin alice 11 1000000000, coin bob 12 2000000000]⟩]

/-- Alice pays the larger of her coins to bob. -/
def paysLarger : Tx := payment (coin alice 10 2000000000) [coin bob 13 2000000000]

/-- The key pair of a public key. -/
def keyPair (pubkey : PublicKey) : @LoadedKey signer := @LoadedKey.mk signer pubkey pubkey

omit [Crates] [Signer] in
theorem matches_keyPair (pubkey : PublicKey) :
    letI := crates
    letI := signer
    (keyPair pubkey).Matches :=
  fun _ => decide_eq_true rfl

end StandIn

omit [Crates] [Signer] in
/-- From a wallet with two keys, one coin of which is marked by a payment in the mempool,
carol is paid with the two others. -/
theorem Node.takes_createTransaction_twoKeys :
    letI := StandIn.crates
    letI := StandIn.signer
    ∃ (n : Node) (tx : Tx), n.Reached ∧ n.chain.mempool = [(0, StandIn.paysLarger)] ∧
      tx.inputs.length = 2 ∧ tx.outputs.length = 2 ∧ n.chain.Takes tx 5 := by
  let := StandIn.crates
  let := StandIn.signer
  let marked := StandIn.coin StandIn.alice 10 2000000000
  let smaller := StandIn.coin StandIn.alice 11 1000000000
  let bobs := StandIn.coin StandIn.bob 12 2000000000
  let store : UtxoStore := ⟨[StandIn.alice, StandIn.bob].map StandIn.keyPair, ∅,
    fun _ h => absurd h Finmap.notMem_empty⟩
  let listing : AList fun _ : Hash => Bool × TxOutput :=
    ((AList.singleton bobs.hash (false, bobs)).insert smaller.hash (false, smaller)).insert
      marked.hash (true, marked)
  let entries : AList fun _ : PublicKey => List (Bool × TxOutput) :=
    (AList.singleton StandIn.bob [(false, bobs)]).insert StandIn.alice
      [(true, marked), (false, smaller)]
  let id (n : Nat) : Uuid := ⟨BitVec.ofNat 128 n⟩
  have hrun : (StandIn.runNode [.call (.addBlock StandIn.threeCoins),
      .call (.addToMempool 0 StandIn.paysLarger)]).any (fun n => decide (
        n.chain.mempool = [(0, StandIn.paysLarger)] ∧
          listing.toFinmap = n.chain.utxoSet)) = true := by
    decide +kernel
  have hentries : entries.toFinmap =
      (Core.fetchUtxos store fun k => Handler.fetchUtxos listing k).utxos := by
    decide +kernel
  have hbuilt : (Core.createTransaction
      (Core.fetchUtxos store fun k => Handler.fetchUtxos listing k) entries.entries
      (fun _ => 5) (id 7) (id 8) StandIn.carol 2500000000).toOption.any
        (fun tx => decide (tx.inputs.length = 2 ∧ tx.outputs.length = 2 ∧
          StandIn.paysLarger.hash ≠ tx.hash)) = true := by
    decide +kernel
  obtain ⟨n, hn, hmempool, hlisting⟩ := StandIn.exists_runNode hrun
  obtain ⟨tx, hcreated, hinputs, houtputs, hne⟩ := exists_ok_of_any hbuilt
  have hmatches : ∀ key ∈ store.myKeys, key.Matches := by
    intro key hkey
    obtain ⟨pubkey, -, rfl⟩ := List.mem_map.mp hkey
    exact StandIn.matches_keyPair pubkey
  have hreached : n.Reached := StandIn.reached_of_runNode hn
  refine ⟨n, tx, hreached, hmempool, hinputs, houtputs, hreached.takes_createTransaction
    hmatches (fun _ => hlisting) hentries (by decide) ?_ hcreated ?_⟩
  · rw [hmempool]
    decide
  · intro e he hhash
    rw [hmempool, List.mem_singleton] at he
    rw [he] at hhash
    exact absurd hhash hne

end ToyBtc
