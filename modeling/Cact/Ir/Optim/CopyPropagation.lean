import Cact.Ir.Equal
import Cact.Ir.Operands
import Cact.Lib.Chase

/-!
# Copy propagation (`transform/optim/copy_propagation.hpp`)

For each function in turn the pass collects what its variables are copies of, replaces
every use of a copy by the root of its chain, and repeats this until no use was replaced.
The table of copies is an `unordered_map`, whose entries come in no particular order when
they are replaced, so a round has an outcome for every order.

- `copies`: the table, from the globals, the moves and the phis of a function.
- `getRoot`: the end of a chain of copies.
- `propagate`: the replacements of a round, in a given order.
- `Round`, `PassStep`: the rounds, and the run of the pass over all functions.
-/

namespace Cact

namespace Ir

namespace CopyPropagation

/-- The table `copies`: a variable and what it is a copy of. -/
abbrev Copies := List (Var × Value)

/-- `copies.find`. -/
def find (cs : Copies) : Value → Option Value
  | .const _ => none
  | .left v => cs.lookup v.var

/-- `copies[v] = x`. -/
def insert (cs : Copies) (v : Var) (x : Value) : Copies :=
  if cs.any fun c => c.1 == v then cs.map fun c => if c.1 = v then (v, x) else c
  else cs ++ [(v, x)]

/-- `get_root`. No chain of different values is longer than the table. -/
def getRoot (cs : Copies) (x : Value) : Value := chase (find cs) Value.eqv (cs.length + 1) [] x

/-- The value that the arguments of a phi have in common, where they are copies of the
phi itself or of one other value. -/
def uniform (cs : Copies) (r : LeftValue) :
    List (BlockId × Value) → Option Value → Option (Option Value)
  | [], u => some u
  | (_, .const _) :: _, _ => none
  | (_, .left a) :: args, u =>
    let root := getRoot cs (.left a)
    if root.eqv (.left r) then uniform cs r args u
    else
      match u with
      | none => uniform cs r args (some root)
      | some x => if x.eqv root then uniform cs r args (some x) else none

/-- What an instruction adds to the table. Moves and phis have results. -/
def collect (cs : Copies) : Inst → Copies
  | .unary u =>
    match u.result with
    | some r => if u.op = .mov && !u.operand.typeOf.isArray then insert cs r.var u.operand else cs
    | none => cs
  | .phi p =>
    match p.result with
    | some r =>
      match uniform cs r p.args none with
      | some (some x) => insert cs r.var x
      | _ => cs
    | none => cs
  | _ => cs

/-- The entry of a global that is known at compile time. -/
def globalCopy (a : Alloc) : Option (Var × Value) :=
  if a.comptime && !a.type.isArray then a.init.map fun c => (.named (.alloc a.id), .const c)
  else none

/-- The entries of the globals. -/
def globalCopies (prog : Program) : Copies :=
  (prog.globals.filterMap globalCopy).foldl (fun cs c => insert cs c.1 c.2) []

/-- The table of a function. -/
def copies (prog : Program) (f : Func) : Copies :=
  (f.blocks.flatMap Block.insts).foldl collect (globalCopies prog)

/-! ## Replacing uses -/

/-- A temporary belongs to one function; all others are known in the whole program. -/
def inScope (fn : String) (v : Var) (g : String) : Bool :=
  match v with
  | .temp _ => g == fn
  | _ => true

/-- A value with one variable replaced. -/
def replace (v : Var) (x : Value) : Value → Value
  | .const c => .const c
  | .left l => if l.var = v then x else .left l

/-- Does the function use the variable? -/
def uses (v : Var) (f : Func) : Bool := f.operands.any fun x => x.var? == some v

/-- `replace_all_uses_with`. -/
def replaceAllUses (prog : Program) (fn : String) (v : Var) (x : Value) : Program × Bool :=
  (prog.mapUsed fun g => if inScope fn v g then replace v x else id,
    prog.funcs.any fun g => inScope fn v g.name && uses v g)

/-- The replacements of a round, entry by entry. -/
def propagate (prog : Program) (fn : String) (cs : Copies) : Copies → Program × Bool
  | [] => (prog, false)
  | (v, x) :: order =>
    let (prog', changed) := replaceAllUses prog fn v (getRoot cs x)
    let (prog'', changed') := propagate prog' fn cs order
    (prog'', changed || changed')

/-! ## The run of the pass -/

/-- A round of `propagate` for the function `fn`, in some order of the table. -/
inductive Round (fn : String) (p q : Program) (changed : Bool) : Prop
  | mk (f : Func) (hf : p.findFunc fn = some f) (order : Copies) (ho : order.Perm (copies p f))
      (h : propagate p fn (copies p f) order = (q, changed))

/-- The pass in its loops: the program, and the functions that are left. -/
structure PassState where
  prog : Program
  todo : List String
  changed : Bool

/-- The rounds of a function are repeated until one of them changes nothing. -/
inductive PassStep : PassState → PassState → Prop
  | again {p q : Program} {fn : String} {fns : List String} {c : Bool} (h : Round fn p q true) :
      PassStep ⟨p, fn :: fns, c⟩ ⟨q, fn :: fns, true⟩
  | next {p q : Program} {fn : String} {fns : List String} {c : Bool} (h : Round fn p q false) :
      PassStep ⟨p, fn :: fns, c⟩ ⟨q, fns, c⟩

/-- `apply` starts with the first function. -/
def start (prog : Program) : Except Fault PassState :=
  if prog.isSsa then .ok ⟨prog, prog.funcs.map Func.name, false⟩
  else .error (.compilerError "CopyPropagation requires SSA form")

/-- The pass ends in every order of its tables. -/
def Terminates (s : PassState) : Prop := Acc (fun t s => PassStep s t) s

/-- The pass can end with this program. -/
def Results (s : PassState) (q : Program) : Prop :=
  ∃ c, Relation.ReflTransGen PassStep s ⟨q, [], c⟩

end CopyPropagation

end Ir
end Cact
