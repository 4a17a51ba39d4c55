import Cact.Lowering.Abi
import Cact.Rv64.Inst

/-!
# The ABI of the RV64 target (`rv64/abi.hpp`)

- `gpr`, `fpr`, `abi`: the register files and the calling convention.
- `size`: how many bytes a global of a type takes.
-/

namespace Cact

namespace Rv64

open Ir

/-- `abi::GPR`. -/
def gpr : Lowering.RegisterABI where
  size := 32
  calleeSaved := [1, 8, 9, 18, 19, 20, 21, 22, 23, 24, 25, 26, 27]
  parameters := [10, 11, 12, 13, 14, 15, 16, 17]
  returnValue := 10
  name idx := generalRegNames.getD idx ""
  parameters_lt := by decide
  parameters_nodup := by decide
  returnValue_lt := by decide

/-- `abi::FPR`. -/
def fpr : Lowering.RegisterABI where
  size := 32
  calleeSaved := [8, 9, 18, 19, 20, 21, 22, 23, 24, 25, 26, 27]
  parameters := [10, 11, 12, 13, 14, 15, 16, 17]
  returnValue := 10
  name idx := floatRegNames.getD idx ""
  parameters_lt := by decide
  parameters_nodup := by decide
  returnValue_lt := by decide

/-- `rv64::ABI`. -/
def abi : Lowering.TargetABI := ⟨gpr, fpr⟩

/-- `abi::size`. -/
def size : Ty → Except Fault Nat
  | .prim .int => .ok 8
  | .prim .float => .ok 8
  | .prim .int32 => .ok 4
  | .prim .int1 => .ok 1
  | .prim .float32 => .ok 4
  | .prim .float64 => .ok 8
  | .product .nil => .ok 0
  | .reference _ _ _ => .ok 8
  | .array elem n => (size elem).map (· * n)
  | _ => .error (.compilerError "size: non-trivial type")

end Rv64
end Cact
