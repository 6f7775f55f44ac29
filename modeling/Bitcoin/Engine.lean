import Bitcoin.Block
import Bitcoin.Mempool
import Bitcoin.Validation

/-!
# From transactions to a block

An engine validates transactions, offers the valid ones to a memory pool,
chooses from it what fits a block, and mines the block.
-/

namespace Bitcoin

/-- A way of verifying signatures and a way of mining. -/
structure Engine where
  verifier : Verifier
  config : MinerConfig

namespace Engine

/-- The verdict on a transaction. -/
def validate (e : Engine) (tx : Transaction) : Verdict := tx.validate e.verifier

/-- The pool after the valid ones of some transactions were offered to it in
order. -/
def buildMempool (e : Engine) (txs : List Transaction) : Mempool :=
  txs.foldl (fun m tx => if (e.validate tx).isValid then (m.offer tx).2 else m) .empty

/-- The candidates that fit a block. -/
def select (e : Engine) (m : Mempool) : List Transaction := m.select e.config.weightBudget

/-- The template of a block with the given transactions. -/
def createTemplate (e : Engine) (txs : List Transaction) : Except Error BlockTemplate :=
  BlockTemplate.create e.config txs

/-- The block mined from the best of some transactions; none if no nonce up to
the limit meets the target. -/
def assembleBlock (e : Engine) (txs : List Transaction) : Except Error (Option Block) := do
  let template ← e.createTemplate (e.select (e.buildMempool txs))
  return template.mine? e.config.maxNonce

end Engine

end Bitcoin
