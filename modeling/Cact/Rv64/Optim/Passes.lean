import Cact.Rv64.Vm

/-!
# The assembly passes (`rv64/optim/peephole.hpp`, `rv64/optim/label.hpp`)

- `peepholeApply`: the window loop the peephole rules share.
- `RedundantJumpElimination`, `BranchCondSimplification`, `RedundantLoadElimination`,
  `DeadLabelElimination`: the four passes, each a function on modules that also
  says whether it has changed anything.
- `assemblyPasses`, `applyPasses`, `optimizeAsm`: the loop of the driver.
- `Site`, `AsmStep`: the same passes taken apart into rewritings of one window.
-/

namespace Cact

namespace Rv64

open Ir (Fault)

namespace Optim

/-! ## The peephole framework -/

/-- The iterations of `peephole_apply` at the indices below a number, from the
highest down. A rule looks at the instructions from its index on. -/
def peepholeFrom (window : Nat) (rule : List Inst → Option (List Inst)) :
    Nat → List Inst → List Inst × Bool
  | 0, insts => (insts, false)
  | i + 1, insts =>
    if insts.length < i + window then peepholeFrom window rule i insts
    else
      match rule (insts.drop i) with
      | none => peepholeFrom window rule i insts
      | some repl =>
        ((peepholeFrom window rule i
          (insts.take i ++ repl ++ insts.drop (i + window))).1, true)

/-- `peephole_apply`. -/
def peepholeApply (window : Nat) (rule : List Inst → Option (List Inst)) (insts : List Inst) :
    List Inst × Bool :=
  peepholeFrom window rule (insts.length + 1 - window) insts

/-- What the peephole passes do to a module: `f` on the instructions of every block. -/
def mapInsts (f : List Inst → List Inst × Bool) (m : Module) : Module × Bool :=
  ({ m with funcs := m.funcs.map fun func =>
      { func with blocks := func.blocks.map fun b => { b with insts := (f b.insts).1 } } },
    m.funcs.any fun func => func.blocks.any fun b => (f b.insts).2)

/-! ## RedundantJumpElimination -/

namespace RedundantJumpElimination

/-- The blocks of one function. The last instruction of every block but the last
is looked at, so that such a block must not be empty. -/
def applyBlocks : List Block → Except Fault (List Block × Bool)
  | b :: next :: rest => do
    let (rest', changed) ← applyBlocks (next :: rest)
    match b.insts.getLast? with
    | none => .error .outOfBounds
    | some last =>
      if last = .pseudoJ ⟨.j, next.label⟩ then
        return ({ b with insts := b.insts.dropLast } :: rest', true)
      else return (b :: rest', changed)
  | blocks => .ok (blocks, false)

def applyFuncs : List Func → Except Fault (List Func × Bool)
  | [] => .ok ([], false)
  | f :: fs => do
    let (blocks, changed) ← applyBlocks f.blocks
    let (fs', changed') ← applyFuncs fs
    return ({ f with blocks := blocks } :: fs', changed || changed')

/-- `RedundantJumpElimination::apply`. -/
def apply (m : Module) : Except Fault (Module × Bool) := do
  let (funcs, changed) ← applyFuncs m.funcs
  return ({ m with funcs := funcs }, changed)

end RedundantJumpElimination

/-! ## BranchCondSimplification -/

namespace BranchCondSimplification

/-- `cmp_rd`. -/
def cmpRd : Inst → Option GeneralReg
  | .instR r => if r.op = .slt ∨ r.op = .sltu then some r.rd else none
  | .instI i => if i.op = .slti ∨ i.op = .sltiu then some i.rd else none
  | .pseudoR p => if p.op = .seqz ∨ p.op = .snez then some p.rd else none
  | _ => none

/-- The other of the two branches on zero. -/
def negate : PseudoBOp → PseudoBOp
  | .bnez => .beqz
  | .beqz => .bnez

/-- `cmp x, ...; xori x, x, 1; bnez/beqz x, L` becomes `cmp x, ...; beqz/bnez x, L`. -/
def rule1 : List Inst → Option (List Inst)
  | cmp :: .instI xori :: .pseudoB br :: _ =>
    if xori.op = .xori ∧ xori.imm = 1 ∧ xori.rd = xori.rs1 then
      if cmpRd cmp = some xori.rd ∧ xori.rd = br.rs1 then
        some [cmp, .pseudoB ⟨negate br.op, br.rs1, br.target⟩]
      else none
    else none
  | _ => none

/-- The branch that compares by itself. -/
def branchOp : OpR → PseudoBOp → Option OpB
  | .slt, .bnez => some .blt
  | .slt, .beqz => some .bge
  | .sltu, .bnez => some .bltu
  | .sltu, .beqz => some .bgeu
  | _, _ => none

/-- `slt/sltu x, y, z; bnez/beqz x, L` becomes `blt/bge/bltu/bgeu y, z, L`. -/
def rule2 : List Inst → Option (List Inst)
  | .instR slt :: .pseudoB br :: _ =>
    if slt.rd = br.rs1 then
      (branchOp slt.op br.op).map fun bop => [.instB ⟨bop, slt.rs1, slt.rs2, br.target⟩]
    else none
  | _ => none

/-- `seqz/snez x, y; bnez/beqz x, L` becomes `beqz/bnez y, L`. -/
def rule3 : List Inst → Option (List Inst)
  | .pseudoR pr :: .pseudoB br :: _ =>
    if (pr.op = .seqz ∨ pr.op = .snez) ∧ pr.rd = br.rs1 then
      let op := if (pr.op == .seqz) == (br.op == .bnez) then .beqz else .bnez
      some [.pseudoB ⟨op, pr.rs1, br.target⟩]
    else none
  | _ => none

/-- The three rules with the sizes of their windows, in the order they are applied. -/
def rules : List (Nat × (List Inst → Option (List Inst))) := [(3, rule1), (2, rule2), (2, rule3)]

def applyInsts (insts : List Inst) : List Inst × Bool :=
  let (insts, changed1) := peepholeApply 3 rule1 insts
  let (insts, changed2) := peepholeApply 2 rule2 insts
  let (insts, changed3) := peepholeApply 2 rule3 insts
  (insts, changed1 || changed2 || changed3)

/-- `BranchCondSimplification::apply`. -/
def apply (m : Module) : Except Fault (Module × Bool) := .ok (mapInsts applyInsts m)

end BranchCondSimplification

/-! ## RedundantLoadElimination -/

namespace RedundantLoadElimination

/-- `gen_extract`: the part of `src` that a load of its stored value reads. -/
def genExtract (op : OpI) (dst src : GeneralReg) : List Inst :=
  match op with
  | .ld => [.instI ⟨.addi, dst, src, 0⟩]
  | .lw => [.instI ⟨.addiw, dst, src, 0⟩]
  | .lwu => [.instI ⟨.slli, dst, src, 32⟩, .instI ⟨.srli, dst, dst, 32⟩]
  | .lh => [.instI ⟨.slli, dst, src, 48⟩, .instI ⟨.srai, dst, dst, 48⟩]
  | .lhu => [.instI ⟨.slli, dst, src, 48⟩, .instI ⟨.srli, dst, dst, 48⟩]
  | .lb => [.instI ⟨.slli, dst, src, 56⟩, .instI ⟨.srai, dst, dst, 56⟩]
  | .lbu => [.instI ⟨.andi, dst, src, 0xff⟩]
  | _ => []

/-- `rule`. The widths are those of the machine's stores and loads. -/
def rule : List Inst → Option (List Inst)
  | .instI st :: .instI ld :: _ =>
    if storeWidth st.op = 0 ∨ loadWidth ld.op = 0 then none
    else if storeWidth st.op < loadWidth ld.op then none
    else if st.rs1 ≠ ld.rs1 ∨ st.imm ≠ ld.imm then none
    else some (.instI st :: genExtract ld.op ld.rd st.rd)
  | _ => none

/-- `RedundantLoadElimination::apply`. -/
def apply (m : Module) : Except Fault (Module × Bool) := .ok (mapInsts (peepholeApply 2 rule) m)

end RedundantLoadElimination

/-! ## DeadLabelElimination -/

namespace DeadLabelElimination

/-- `labels_in`, for the blocks of a module. -/
def labelsIn (m : Module) : List String := m.flat.filterMap Inst.target

/-- The label of `func.blocks[0]`. -/
def entryLabel (f : Func) : Except Fault String :=
  match f.blocks with
  | [] => .error .outOfBounds
  | b :: _ => .ok b.label

/-- One block of the second loop: a block without a needed label is appended to
the block before it. The blocks kept so far are in reverse order. -/
def squash (labels : List String) (kept : List Block) (b : Block) : Except Fault (List Block) :=
  if b.label ∈ labels then .ok (b :: kept)
  else
    match kept with
    | [] => .error .outOfBounds
    | last :: kept => .ok ({ last with insts := last.insts ++ b.insts } :: kept)

def squashFunc (labels : List String) (f : Func) : Except Fault Func := do
  let kept ← f.blocks.foldlM (squash labels) []
  return { f with blocks := kept.reverse }

/-- `DeadLabelElimination::apply`. -/
def apply (m : Module) : Except Fault (Module × Bool) := do
  let entries ← m.funcs.mapM entryLabel
  let labels := labelsIn m ++ entries
  let funcs ← m.funcs.mapM (squashFunc labels)
  return ({ m with funcs := funcs },
    m.funcs.any fun f => f.blocks.any fun b => decide (b.label ∉ labels))

end DeadLabelElimination

/-! ## The driver -/

/-- `passes` of the assembly loop of `compiler.cpp`. -/
def assemblyPasses : List (Module → Except Fault (Module × Bool)) :=
  [RedundantJumpElimination.apply, DeadLabelElimination.apply,
    BranchCondSimplification.apply, RedundantLoadElimination.apply]

/-- `apply(passes)`. -/
def applyPasses : List (Module → Except Fault (Module × Bool)) → Module →
    Except Fault (Module × Bool)
  | [], m => .ok (m, false)
  | p :: ps, m => do
    let (m, changed) ← p m
    let (m, changed') ← applyPasses ps m
    return (m, changed || changed')

/-- `while (apply(passes));`, for at most `fuel` rounds. The module it ends with is
`none` when there is still something to change. -/
def optimizeAsm : Nat → Module → Except Fault (Option Module)
  | 0, _ => .ok none
  | fuel + 1, m => do
    let (m', changed) ← applyPasses assemblyPasses m
    if changed then optimizeAsm fuel m' else return some m'

/-! ## Single rewritings -/

/-- A place in the code of a module: everything but a window of instructions. -/
structure Site where
  globals : List Global
  floatLiterals : List FloatLiteral
  funcsBefore : List Func
  name : String
  blocksBefore : List Block
  label : String
  before : List Inst
  after : List Inst
  blocksAfter : List Block
  funcsAfter : List Func

namespace Site

/-- The function of a site with a window filled in. -/
def plugFunc (s : Site) (w : List Inst) : Func :=
  ⟨s.name, s.blocksBefore ++ ⟨s.label, s.before ++ w ++ s.after⟩ :: s.blocksAfter⟩

/-- The module with a window filled in. -/
def plug (s : Site) (w : List Inst) : Module :=
  ⟨s.globals, s.funcsBefore ++ s.plugFunc w :: s.funcsAfter, s.floatLiterals⟩

/-- The instructions before the window. -/
def codeBefore (s : Site) : List Inst :=
  flatOf (s.funcsBefore.flatMap Func.blocks ++ s.blocksBefore) ++ s.before

/-- The instructions after the window. -/
def codeAfter (s : Site) : List Inst :=
  s.after ++ flatOf (s.blocksAfter ++ s.funcsAfter.flatMap Func.blocks)

end Site

/-- What is asked of a rewriting before it is made. -/
structure Guard where
  /-- of a branch on the register, at this index of the module's code -/
  branch : Module → Nat → GeneralReg → Prop
  /-- of a jump to the label, at this index of the module's code -/
  jump : Module → Nat → String → Prop

/-- No condition: what the passes do. -/
def Guard.none : Guard := ⟨fun _ _ _ => True, fun _ _ _ => True⟩

/-- One rewriting by an assembly pass: one window of a peephole rule, one jump to
the next block, or the labels nothing refers to. -/
inductive AsmStep (g : Guard) : Module → Module → Prop
  | branchCond (s : Site) (rule : List Inst → Option (List Inst)) (w w' : List Inst)
      (br : PseudoB) (hrule : (w.length, rule) ∈ BranchCondSimplification.rules)
      (hw : rule w = some w') (hbr : w.getLast? = some (.pseudoB br))
      (hg : g.branch (s.plug w) (s.codeBefore.length + (w.length - 1)) br.rs1) :
      AsmStep g (s.plug w) (s.plug w')
  | redundantLoad (s : Site) (w w' : List Inst) (hlen : w.length = 2)
      (hw : RedundantLoadElimination.rule w = some w') : AsmStep g (s.plug w) (s.plug w')
  | redundantJump (s : Site) (next : Block) (rest : List Block) (hlast : s.after = [])
      (hnext : s.blocksAfter = next :: rest)
      (hg : g.jump (s.plug [.pseudoJ ⟨.j, next.label⟩]) s.codeBefore.length next.label) :
      AsmStep g (s.plug [.pseudoJ ⟨.j, next.label⟩]) (s.plug [])
  | deadLabels (m m' : Module) (changed : Bool)
      (h : DeadLabelElimination.apply m = .ok (m', changed)) : AsmStep g m m'

/-- Any number of rewritings. -/
abbrev AsmSteps (g : Guard) : Module → Module → Prop := Relation.ReflTransGen (AsmStep g)

end Optim

end Rv64
end Cact
