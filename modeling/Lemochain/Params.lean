/-!
# Protocol parameters (`params/protocol_params.go`, `params/gas_table.go`)

The gas constants the modelled parts of the virtual machine and the state
transition read, under the source's names and at the source's `uint64`
type; the others are left out.
-/

namespace Lemochain.Params

/-- Per transaction not creating a contract. -/
def TxGas : UInt64 := 21000
/-- Per transaction that creates a contract. -/
def TxGasContractCreation : UInt64 := 53000
/-- Per byte of data attached to a transaction that equals zero. -/
def TxDataZeroGas : UInt64 := 4
/-- Per byte of data attached to a transaction that is not zero. -/
def TxDataNonZeroGas : UInt64 := 68
/-- Divisor of the quadratic part of the memory cost. -/
def QuadCoeffDiv : UInt64 := 512
/-- Per word of memory. -/
def MemoryGas : UInt64 := 3
/-- Free gas given to the callee of a call with value. -/
def CallStipend : UInt64 := 2300
/-- Paid for a call with a non-zero value. -/
def CallValueTransferGas : UInt64 := 9000
/-- Paid for a call whose destination did not exist. -/
def CallNewAccountGas : UInt64 := 25000
/-- Divisor of the quadratic part of the big modular exponentiation. -/
def ModExpQuadCoeffDiv : UInt64 := 20

/-- `params.GasTable`, the fields the call gas reads: the base cost of the
calls, and `CreateBySuicide`, non-zero from EIP-150 on. -/
structure GasTable where
  Calls : UInt64
  CreateBySuicide : UInt64
  deriving DecidableEq, Repr

/-- `params.GasTableEIP150`. -/
def GasTableEIP150 : GasTable := ⟨700, 25000⟩

/-- `params.GasTableHomestead`. -/
def GasTableHomestead : GasTable := ⟨40, 0⟩

end Lemochain.Params
