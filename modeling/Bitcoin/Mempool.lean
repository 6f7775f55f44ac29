import Std.Data.ExtHashMap
import Bitcoin.Transaction

/-!
# The memory pool

The pool holds the candidates for a block. No two of them spend the same
outpoint: one that would is refused, or replaces those it conflicts with if it
signals that it may be replaced itself. `select` packs candidates by falling
fee rate into a weight budget.
-/

namespace Bitcoin

/-- The candidates for a block. -/
structure Mempool where
  /-- The candidates by identifier. -/
  candidates : Std.ExtHashMap Hash256 Transaction
  /-- Which candidate spends an outpoint. -/
  spent : Std.ExtHashMap OutPoint Hash256
  /-- The identifiers of the candidates, in order of arrival. -/
  arrival : List Hash256

/-- Why a transaction is refused. -/
inductive Refusal where
  | present (txid : Hash256)
  | doubleSpend (txid : Hash256)
  deriving Repr, DecidableEq

/-- The wording of a refusal. -/
def Refusal.message : Refusal → String
  | present txid => Hex.encode txid.val ++ " already in mempool"
  | doubleSpend txid =>
    Hex.encode txid.val ++ " double-spends a candidate without signalling replaceability"

/-- What becomes of a transaction offered to the pool. -/
inductive Admission where
  | accepted
  /-- It was taken in, and the candidates listed left for it. -/
  | replaced (txids : List Hash256)
  | rejected (why : Refusal)
  deriving Repr, DecidableEq

/-- The outpoints that a transaction claims: those of all inputs but coinbase
inputs. -/
def Transaction.claims (tx : Transaction) : List OutPoint :=
  (tx.inputs.filter fun i => !i.isCoinbase).map Input.outpoint

namespace Mempool

/-- The pool without candidates. -/
def empty : Mempool := ⟨∅, ∅, []⟩

/-- The number of candidates. -/
def size (m : Mempool) : Nat := m.candidates.size

/-- Whether there is no candidate. -/
def isEmpty (m : Mempool) : Bool := m.candidates.isEmpty

/-- Whether an identifier is that of a candidate. -/
def contains (m : Mempool) (txid : Hash256) : Bool := m.candidates.contains txid

/-- The candidate with an identifier. -/
def get? (m : Mempool) (txid : Hash256) : Option Transaction := m.candidates[txid]?

/-- The candidate that spends an outpoint. -/
def spender? (m : Mempool) (o : OutPoint) : Option Hash256 := m.spent[o]?

/-- The candidates that claim an outpoint of `tx`, each once, in the order in
which its inputs meet them. -/
def conflicts (m : Mempool) (tx : Transaction) : List Hash256 :=
  tx.claims.foldl
    (fun found o =>
      match m.spender? o with
      | some txid => if found.contains txid then found else found ++ [txid]
      | none => found)
    []

/-- The pool with `tx` as its latest candidate. -/
def insert (m : Mempool) (tx : Transaction) : Mempool :=
  let txid := tx.txid
  { candidates := m.candidates.insert txid tx
    spent := tx.claims.foldl (fun spent o => spent.insert o txid) m.spent
    arrival := m.arrival ++ [txid] }

/-- The pool without a candidate, whose outpoints are free again. -/
def erase (m : Mempool) (txid : Hash256) : Mempool :=
  match m.get? txid with
  | none => m
  | some tx =>
    { candidates := m.candidates.erase txid
      spent := (tx.inputs.map Input.outpoint).foldl
        (fun spent o => if spent[o]? = some txid then spent.erase o else spent) m.spent
      arrival := m.arrival.filter (· != txid) }

/-- Removes a candidate and gives it back, if there is one with the identifier. -/
def remove (m : Mempool) (txid : Hash256) : Option Transaction × Mempool := (m.get? txid, m.erase txid)

/-- Offers a transaction to the pool. -/
def offer (m : Mempool) (tx : Transaction) : Admission × Mempool :=
  let txid := tx.txid
  if m.contains txid then (.rejected (.present txid), m)
  else
    match m.conflicts tx with
    | [] => (.accepted, m.insert tx)
    | found =>
      if tx.signalsReplacement then (.replaced found, (found.foldl erase m).insert tx)
      else (.rejected (.doubleSpend txid), m)

/-- The candidates in order of arrival. -/
def toList (m : Mempool) : List Transaction := m.arrival.filterMap m.get?

/-- The candidates by falling fee rate; of equal ones the first to arrive comes
first. -/
def sorted (m : Mempool) : List Transaction :=
  let keyed := m.toList.map fun tx => (tx.rateKey, tx)
  (keyed.mergeSort fun a b => decide (b.1 ≤ a.1)).map (·.2)

/-- Takes transactions in order, passing over each that would make the weight
of those taken exceed the budget. -/
def pack (budget : Nat) : Nat → List Transaction → List Transaction
  | _, [] => []
  | used, tx :: txs =>
    if budget < used + tx.weight then pack budget used txs
    else tx :: pack budget (used + tx.weight) txs

/-- The candidates chosen for a block within a weight budget. -/
def select (m : Mempool) (budget : Nat) : List Transaction := pack budget 0 m.sorted

end Mempool

end Bitcoin
