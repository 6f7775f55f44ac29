import Bitcoin.Engine
import Bitcoin.Proofs.Amount
import Bitcoin.Proofs.Block.Mining
import Bitcoin.Proofs.Mempool.Independence
import Bitcoin.Proofs.Validation.Native

/-!
# Assembled blocks

A block that an engine assembles holds transactions it was given, all valid and
none in conflict with another (`Block.Chosen`), is framed as the configuration
has it (`Block.Framed`), and meets the target (`Block.Won`).

A template for transactions whose fees are not negative is framed
(`framed_of_create`): its commitment stands in the last output, where the scan
for one begins, and its reward is exact, since a sum of fees that stopped at the
bound leaves no room for a subsidy. The pool that the block is chosen from is one
that requests lead to (`buildMempool_eq_serveAll`), hence consistent, and valid
transactions pay no negative fees.
-/

/-! ## Templates -/

namespace Bitcoin

namespace WitnessCommitment

theorem ofScript?_script (commitment : Hash256) : ofScript? (script commitment) = some commitment := by
  have ht : (script commitment).take 6 = [0x6a, 0x24] ++ header := rfl
  have hd : (script commitment).drop 6 = commitment.val := rfl
  rw [ofScript?, if_pos ht, hd, FixedBytes.ofBytes?_val]

/-- A commitment in the last output is found, whatever the others hold. -/
theorem ofCoinbase?_of_outputs {coinbase : Transaction} (front : List Output) {value : Amount}
    {commitment : Hash256} (h : coinbase.outputs = front ++ [.ofScript value (script commitment)]) :
    ofCoinbase? coinbase = some commitment := by
  have hs : ofScript? (Output.ofScript value (script commitment)).script = some commitment := ofScript?_script _
  rw [ofCoinbase?, h, List.reverse_append, List.reverse_singleton, List.singleton_append, List.findSome?_cons, hs]

theorem isHeld_eq_true_iff {coinbase : Transaction} {txs : List Transaction} :
    isHeld coinbase txs = .ok true ↔
      ∃ commitment, compute txs = .ok commitment ∧ ofCoinbase? coinbase = some commitment := by
  rw [isHeld, bind_eq_ok]
  refine exists_congr fun commitment => and_congr_right fun _ => ?_
  show Except.ok (decide (ofCoinbase? coinbase = some commitment)) = .ok true ↔ _
  simp

end WitnessCommitment

/-- The header of a block is that of a configuration and of its transactions,
and its coinbase transaction commits to these and claims what they pay. -/
structure Block.Framed (c : MinerConfig) (b : Block) : Prop where
  version : b.header.version = c.blockVersion
  previous : c.previousBlock = .ok b.header.previous
  timestamp : b.header.timestamp = c.timestamp
  bits : b.header.bits = c.bits
  merkleRoot : Merkle.root ((b.coinbase :: b.transactions).map fun tx => tx.txid.reverse) = .ok b.header.merkleRoot
  commitment : WitnessCommitment.isHeld b.coinbase b.transactions = .ok true
  /-- The first output is paid the subsidy and the fees. -/
  reward : 0 < c.blockSubsidy → ∃ o, b.coinbase.outputs[0]? = some o ∧
    o.value.toInt = c.blockSubsidy.toInt + Amount.exactSum (b.transactions.map Transaction.fee)

variable {c : MinerConfig} {txs : List Transaction} {t : BlockTemplate}

theorem outputs_of_coinbaseTransaction {fees : Amount} {commitment : Hash256} {tx : Transaction}
    (h : coinbaseTransaction c fees commitment = .ok tx) :
    ∃ reward payout, Amount.ofInt? (c.blockSubsidy.toInt + fees.toInt) = some reward ∧
      tx.outputs = [.ofScript reward payout, .ofScript 0 (WitnessCommitment.script commitment)] := by
  unfold coinbaseTransaction at h
  obtain ⟨scriptSig, -, h⟩ := bind_eq_ok.1 h
  cases hr : Amount.ofInt? (c.blockSubsidy.toInt + fees.toInt) with
  | none =>
    rw [hr] at h
    cases h
  | some reward =>
    rw [hr] at h
    obtain ⟨payout, -, h⟩ := bind_eq_ok.1 h
    cases h
    exact ⟨reward, payout, rfl, rfl⟩

namespace BlockTemplate

/-- The parts a template is made of. -/
theorem exists_of_create (h : create c txs = .ok t) : ∃ commitment coinbase previous merkleRoot target,
    WitnessCommitment.compute txs = .ok commitment ∧
    coinbaseTransaction c (Transaction.totalFee txs) commitment = .ok coinbase ∧
    c.previousBlock = .ok previous ∧
    Merkle.root ((coinbase :: txs).map fun tx => tx.txid.reverse) = .ok merkleRoot ∧
    c.targetHash = .ok target ∧
    t = ⟨⟨⟨c.blockVersion, previous, merkleRoot, c.timestamp, c.bits, 0⟩, coinbase, txs⟩, target⟩ := by
  unfold create at h
  obtain ⟨commitment, hc, h⟩ := bind_eq_ok.1 h
  obtain ⟨coinbase, hb, h⟩ := bind_eq_ok.1 h
  obtain ⟨previous, hp, h⟩ := bind_eq_ok.1 h
  obtain ⟨merkleRoot, hm, h⟩ := bind_eq_ok.1 h
  obtain ⟨target, ht, h⟩ := bind_eq_ok.1 h
  cases h
  exact ⟨commitment, coinbase, previous, merkleRoot, target, hc, hb, hp, hm, ht, rfl⟩

theorem framed_of_create (h : create c txs = .ok t) (hf : ∀ tx ∈ txs, 0 ≤ tx.fee) : t.block.Framed c := by
  obtain ⟨commitment, coinbase, previous, merkleRoot, target, hc, hb, hp, hm, -, rfl⟩ := exists_of_create h
  obtain ⟨reward, payout, hr, ho⟩ := outputs_of_coinbaseTransaction hb
  refine ⟨rfl, hp, rfl, rfl, hm, ?_, fun hs => ⟨.ofScript reward payout, by rw [ho]; rfl, ?_⟩⟩
  · exact WitnessCommitment.isHeld_eq_true_iff.2
      ⟨commitment, hc, WitnessCommitment.ofCoinbase?_of_outputs [.ofScript reward payout] ho⟩
  · have hn : ∀ x ∈ txs.map Transaction.fee, 0 ≤ x := by
      intro x hx
      obtain ⟨tx, ht, rfl⟩ := List.mem_map.1 hx
      exact hf tx ht
    exact Amount.toInt_eq_of_ofInt?_add_saturatingSum hn hs hr

end BlockTemplate

/-- What a block says does not depend on the nonce. -/
theorem Block.Framed.withNonce {b : Block} (h : b.Framed c) (nonce : UInt32) :
    Framed c { b with header := b.header.withNonce nonce } :=
  ⟨h.version, h.previous, h.timestamp, h.bits, h.merkleRoot, h.commitment, h.reward⟩

/-! ## Blocks -/

/-- The transactions of a block are valid ones of those given, go together, and
fit. -/
structure Block.Chosen (e : Engine) (txs : List Transaction) (b : Block) : Prop where
  mem : ∀ tx ∈ b.transactions, tx ∈ txs
  valid : ∀ tx ∈ b.transactions, e.validate tx = .valid
  nodup_txid : (b.transactions.map Transaction.txid).Nodup
  disjoint_claims : b.transactions.Pairwise fun s t => ∀ o ∈ s.claims, o ∉ t.claims
  totalWeight_le : Transaction.totalWeight b.transactions ≤ e.config.weightBudget

/-- A block's hash is below the target, with a nonce within the limit. -/
structure Block.Won (c : MinerConfig) (b : Block) : Prop where
  hash_lt : ∃ target, c.targetHash = .ok target ∧ Bytes.ofBigEndian b.header.hash.val < Bytes.ofBigEndian target.val
  nonce_le : b.header.nonce ≤ c.maxNonce

theorem Verdict.isValid_iff {v : Verdict} : v.isValid = true ↔ v = .valid := by
  cases v <;> simp [isValid]

namespace Engine

open Transaction (scriptHashSpend)

variable {e : Engine} {txs : List Transaction} {tx : Transaction} {b : Block}

/-! ## Choice -/

/-- Building a pool is offering it the valid transactions. -/
theorem buildMempool_eq_serveAll (e : Engine) (txs : List Transaction) : e.buildMempool txs =
    Mempool.serveAll ((txs.filter fun tx => (e.validate tx).isValid).map .offer) := by
  rw [Mempool.serveAll, List.foldl_map, List.foldl_filter]
  rfl

theorem consistent_buildMempool (e : Engine) (txs : List Transaction) : (e.buildMempool txs).Consistent := by
  rw [buildMempool_eq_serveAll]
  exact Mempool.consistent_serveAll _

theorem mem_and_valid_of_mem_select (h : tx ∈ e.select (e.buildMempool txs)) :
    tx ∈ txs ∧ e.validate tx = .valid := by
  have hg := (e.consistent_buildMempool txs).get?_of_mem_select h
  rw [buildMempool_eq_serveAll] at hg
  obtain ⟨t, ht, he⟩ := List.mem_map.1 (Mempool.offer_mem_of_get?_serveAll hg)
  cases he
  exact (List.mem_filter.1 ht).imp_right Verdict.isValid_iff.1

theorem chosen_of_transactions_eq (h : b.transactions = e.select (e.buildMempool txs)) : b.Chosen e txs := by
  have hc := e.consistent_buildMempool txs
  constructor <;> rw [h]
  · exact fun tx ht => (mem_and_valid_of_mem_select ht).1
  · exact fun tx ht => (mem_and_valid_of_mem_select ht).2
  · exact hc.nodup_txid_select _
  · exact hc.pairwise_claims_select _
  · exact Mempool.totalWeight_select_le _ _

/-- A single transaction is chosen if it is valid and fits. -/
theorem select_buildMempool_singleton (e : Engine) {tx : Transaction} (hv : e.validate tx = .valid)
    (hw : tx.weight ≤ e.config.weightBudget) : e.select (e.buildMempool [tx]) = [tx] := by
  have hm : e.buildMempool [tx] = Mempool.empty.insert tx := by
    have hc : Mempool.empty.conflicts tx = [] := by
      refine List.eq_nil_iff_forall_not_mem.2 fun id hi => ?_
      obtain ⟨o, -, ho⟩ := Mempool.mem_conflicts.1 hi
      rw [Mempool.spender?_empty] at ho
      cases ho
    simp [buildMempool, hv, Verdict.isValid, Mempool.offer_eq, hc]
  have hl : (e.buildMempool [tx]).toList = [tx] := by
    simp [hm, Mempool.toList, Mempool.get?_insert]
  have hs : (e.buildMempool [tx]).sorted = [tx] := by
    simp [Mempool.sorted, hl]
  rw [select, Mempool.select, hs, Mempool.pack, Nat.zero_add, if_neg (Nat.not_lt.2 hw), Mempool.pack]

/-! ## Assembly -/

theorem exists_of_assembleBlock (h : e.assembleBlock txs = .ok (some b)) : ∃ t nonce,
    BlockTemplate.create e.config (e.select (e.buildMempool txs)) = .ok t ∧
    t.block.header.search t.target e.config.maxNonce = some nonce ∧
    b = { t.block with header := t.block.header.withNonce nonce } := by
  obtain ⟨t, ht, h⟩ := bind_eq_ok.1 h
  have hm : t.mine? e.config.maxNonce = some b := Except.ok.inj h
  obtain ⟨nonce, hn, hb⟩ := Option.map_eq_some_iff.1 hm
  exact ⟨t, nonce, ht, hn, hb.symm⟩

/-- A block that is assembled holds valid transactions of those given that do
not conflict, is framed as configured, and meets the target. -/
theorem chosen_framed_won_of_assembleBlock (e : Engine) (txs : List Transaction) (b : Block)
    (h : e.assembleBlock txs = .ok (some b)) : b.Chosen e txs ∧ b.Framed e.config ∧ b.Won e.config := by
  obtain ⟨t, nonce, ht, hn, rfl⟩ := exists_of_assembleBlock h
  have hfees : ∀ tx ∈ e.select (e.buildMempool txs), 0 ≤ tx.fee := fun tx hm =>
    ((tx.validate_eq_valid_iff e.verifier).1 (mem_and_valid_of_mem_select hm).2).1
  have hframed := (BlockTemplate.framed_of_create ht hfees).withNonce nonce
  obtain ⟨_, _, _, _, target, -, -, -, -, htarget, rfl⟩ := BlockTemplate.exists_of_create ht
  obtain ⟨hle, hmeets, -⟩ := BlockHeader.search_eq_some_iff.1 hn
  exact ⟨chosen_of_transactions_eq rfl, hframed, ⟨target, htarget, BlockHeader.meets_iff.1 hmeets⟩, hle⟩

/-- Verifies no signature, and mines what does not hash to all ones. -/
def lenient : Engine where
  verifier := .rejecting
  config := { MinerConfig.defaults 0 with
    target := "ffffffffffffffffffffffffffffffffffffffffffffffffffffffffffffffff" }

set_option maxRecDepth 100000 in
theorem chosen_framed_won_of_assembleBlock_scriptHashSpend :
    ∃ b, lenient.assembleBlock [scriptHashSpend] = .ok (some b) ∧ b.transactions = [scriptHashSpend] ∧
      b.Chosen lenient [scriptHashSpend] ∧ b.Framed lenient.config ∧ b.Won lenient.config := by
  have hv : lenient.validate scriptHashSpend = .valid := by decide +kernel
  have hw : scriptHashSpend.weight ≤ lenient.config.weightBudget := by decide +kernel
  have hs := lenient.select_buildMempool_singleton hv hw
  -- the first nonce wins, so one hash of the header is evaluated
  have hm : (match BlockTemplate.create lenient.config [scriptHashSpend] with
      | .ok t => (t.mine? lenient.config.maxNonce).isSome
      | .error _ => false) = true := by decide +kernel
  cases ht : BlockTemplate.create lenient.config [scriptHashSpend] with
  | error e =>
    rw [ht] at hm
    cases hm
  | ok t =>
    rw [ht] at hm
    obtain ⟨b, hb⟩ := Option.isSome_iff_exists.1 hm
    have ha : lenient.assembleBlock [scriptHashSpend] = .ok (some b) := by
      rw [assembleBlock, createTemplate, hs, ht, ← hb]
      rfl
    have hspec := chosen_framed_won_of_assembleBlock _ _ _ ha
    obtain ⟨t', nonce, ht', -, rfl⟩ := exists_of_assembleBlock ha
    rw [hs] at ht'
    obtain ⟨_, _, _, _, _, -, -, -, -, -, rfl⟩ := BlockTemplate.exists_of_create ht'
    exact ⟨_, ha, rfl, hspec⟩

end Engine

end Bitcoin
