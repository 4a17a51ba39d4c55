import Cact.Gen.Branch
import Cact.Gen.InitList
import Cact.Ir.Analysis.Dominance
import Cact.Ir.Analysis.Liveness
import Cact.Ir.Clone
import Cact.Ir.Destruct
import Cact.Ir.Optim.CommonExprEnd
import Cact.Ir.Optim.ConstexprFolder
import Cact.Ir.Optim.CopyEnd
import Cact.Ir.Optim.DeadBlock
import Cact.Ir.Optim.DeadDef
import Cact.Ir.Optim.StrengthReduction
import Cact.Ir.Subtype
import Cact.Lib.Exact
import Cact.Lib.OpenGraph
import Cact.Lowering.ArrayImages
import Cact.Lowering.OptimisticColors
import Cact.Rv64.CallSite
import Cact.Rv64.Emit
import Cact.Rv64.IselUnary
import Cact.Rv64.Layout
import Cact.Rv64.Optim.Driver
import Cact.Rv64.Optim.Flow
