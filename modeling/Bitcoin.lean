import Bitcoin.Engine
import Bitcoin.Record
import Bitcoin.Transaction.Decode
import Bitcoin.Proofs.Block.Assembly
import Bitcoin.Proofs.Mempool.Packing
import Bitcoin.Proofs.Mempool.Replacement
import Bitcoin.Proofs.Merkle
import Bitcoin.Proofs.Record.Coinbase
import Bitcoin.Proofs.Script.Disassembly
import Bitcoin.Proofs.Script.Frame
import Bitcoin.Proofs.Script.Multisig
import Bitcoin.Proofs.Script.Numerals
import Bitcoin.Proofs.Script.Timelock
import Bitcoin.Proofs.Script.Word
import Bitcoin.Proofs.Sighash.Legacy
import Bitcoin.Proofs.Sighash.Taproot
import Bitcoin.Proofs.Sighash.WitnessV0
import Bitcoin.Proofs.Taproot
import Bitcoin.Proofs.Validation.Conservation
import Bitcoin.Proofs.Validation.WitnessSize
import Bitcoin.Proofs.Wire.Session
import Bitcoin.Proofs.Wire.Truncation
