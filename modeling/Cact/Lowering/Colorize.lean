import Cact.Lowering.Interfere

/-!
# The graph colouring allocator (`lowering/regalloc/colorize.hpp`)

Every node and every move stands in one of a few lists. The main loop simplifies,
coalesces, freezes and picks spill candidates until only the select stack is left, and
then the stack is unwound to hand out colours.

- `BriggsAllocator`: the two families of lists, the graph and the result.
- `step`: one round of the main loop of `colorize`.
-/

namespace Cact

namespace Lowering

/-- The lists of `nodes`. -/
inductive NodeList where
  | precolored
  | initial
  | simplify
  | freeze
  | toSpill
  | spilled
  | coalesced
  | colored
  | selectStack
  deriving DecidableEq, Repr

/-- The lists of `moves`. -/
inductive MoveList where
  | coalesced
  | constrained
  | frozen
  | ready
  | scheduled
  deriving DecidableEq, Repr

/-- `BriggsAllocator`; `colors` and `spilled` are its `result`. -/
structure BriggsAllocator (V : Type) where
  nodes : Worklists NodeList V
  moves : Worklists MoveList (V × V)
  graph : InterfereGraph V
  colors : V → Option Nat
  spilled : List V
  priority : Nat → Int

namespace BriggsAllocator

variable {V : Type} [LinearOrder V]

/-- `relocate` on `node_locations`. -/
def relocateNode (s : BriggsAllocator V) (v : V) (l : NodeList) :
    Except LookupFault (BriggsAllocator V) := do
  return { s with nodes := ← s.nodes.relocate v l }

/-- `relocate` on `move_locations`. -/
def relocateMove (s : BriggsAllocator V) (m : V × V) (l : MoveList) :
    Except LookupFault (BriggsAllocator V) := do
  return { s with moves := ← s.moves.relocate m l }

/-- One round of the loop of the constructor. -/
def enter (s : BriggsAllocator V) (value : V) : BriggsAllocator V :=
  let node := s.graph.node value
  let s := match node.color with
    | some c => { s with
        nodes := s.nodes.pushBack .precolored value
        colors := Function.update s.colors value (some c) }
    | none => { s with nodes := s.nodes.pushBack .initial value }
  let moves := (s.graph.inOrder node.move).foldl
    (fun moves src => moves.pushBack .ready (value, src)) s.moves
  { s with moves := moves }

/-- `BriggsAllocator(graph, priority)`. -/
def start (g : InterfereGraph V) (priority : Nat → Int) : BriggsAllocator V :=
  g.keys.foldl enter ⟨.empty, .empty, g, fun _ => none, [], priority⟩

/-- `adjacent`. -/
def adjacent (s : BriggsAllocator V) (value : V) : Except LookupFault (List V) := do
  (s.graph.inOrder (← s.graph.get value).interfere).filterM fun adj => do
    let loc ← s.nodes.listAt adj
    return !(loc = .selectStack || loc = .coalesced)

/-- `effective_moves`. -/
def effectiveMoves (s : BriggsAllocator V) (dest : V) : Except LookupFault (List (V × V)) := do
  let moves := (s.graph.inOrder (← s.graph.get dest).move).map fun src => (dest, src)
  moves.filterM fun mov => do
    let loc ← s.moves.listAt mov
    return loc = .scheduled || loc = .ready

/-- `move_related`. -/
def moveRelated (s : BriggsAllocator V) (value : V) : Except LookupFault Bool := do
  return !(← s.effectiveMoves value).isEmpty

/-- One round of `initialize`. -/
def initializeNode (s : BriggsAllocator V) (val : V) :
    Except LookupFault (BriggsAllocator V) := do
  if s.graph.maxColor ≤ (← s.graph.get val).degree then s.relocateNode val .toSpill
  else if ← s.moveRelated val then s.relocateNode val .freeze
  else s.relocateNode val .simplify

/-- `initialize`. -/
def initializeNodes (s : BriggsAllocator V) : Except LookupFault (BriggsAllocator V) :=
  (s.nodes.values .initial).foldlM initializeNode s

/-- `enable_moves`. -/
def enableMoves (s : BriggsAllocator V) (dest : V) : Except LookupFault (BriggsAllocator V) := do
  (← s.effectiveMoves dest).foldlM (fun s mov => do
    if (← s.moves.listAt mov) = .scheduled then s.relocateMove mov .ready else return s) s

/-- `decrement_degree`. -/
def decrementDegree (s : BriggsAllocator V) (value : V) :
    Except LookupFault (BriggsAllocator V) := do
  if (← s.nodes.listAt value) = .precolored then return s
  let d := (← s.graph.get value).degree
  let s := { s with graph := s.graph.modify (s.graph.aliasOf value)
                      fun n => { n with degree := d - 1 } }
  if d = s.graph.maxColor then
    let s ← s.enableMoves value
    let s ← (← s.adjacent value).foldlM enableMoves s
    if ← s.moveRelated value then s.relocateNode value .freeze
    else s.relocateNode value .simplify
  else return s

/-- `simplify`. -/
def simplify (s : BriggsAllocator V) : Except LookupFault (BriggsAllocator V) := do
  let n ← s.nodes.front .simplify
  let s ← s.relocateNode n .selectStack
  (← s.adjacent n).foldlM decrementDegree s

/-- The local `replace` of `merge`. -/
def replaceMove (s : BriggsAllocator V) (old : V × V) (new : Option (V × V)) :
    Except LookupFault (BriggsAllocator V) := do
  return { s with moves := ← s.moves.replace old new }

def modifyMove (s : BriggsAllocator V) (v : V) (f : Finset V → Finset V) : BriggsAllocator V :=
  { s with graph := s.graph.modify (s.graph.aliasOf v) fun n => { n with move := f n.move } }

/-- One round of the first loop of `merge`. -/
def mergeMove (dest src : V) (s : BriggsAllocator V) (m : V) :
    Except LookupFault (BriggsAllocator V) := do
  -- the loop walks over the set as the rounds change it
  if m ∉ (← s.graph.get src).move then return s
  if m ∈ (← s.graph.get dest).move then return s
  let _ ← s.graph.get m
  let s := s.modifyMove m fun l => l.erase src
  let s := if m = dest then s else s.modifyMove m fun l => insert dest l
  let s ← s.replaceMove (src, m) (if m = dest then none else some (dest, m))
  s.replaceMove (m, src) (if m = dest then none else some (m, dest))

/-- One round of the second loop of `merge`. -/
def mergeEdge (dest src : V) (s : BriggsAllocator V) (neighbor : V) :
    Except LookupFault (BriggsAllocator V) := do
  if neighbor ∉ (← s.graph.get src).interfere then return s
  let s := { s with graph := s.graph.interfere dest neighbor }
  let loc ← s.nodes.listAt neighbor
  if loc ≠ .selectStack ∧ loc ≠ .coalesced then s.decrementDegree neighbor else return s

/-- `merge`. -/
def merge (s : BriggsAllocator V) (dest src : V) : Except LookupFault (BriggsAllocator V) := do
  let s ← s.relocateNode src .coalesced
  let s ← s.enableMoves src
  let s ← s.graph.keys.foldlM (mergeMove dest src) s
  let inherited := (← s.graph.get src).move
  let s := s.modifyMove dest fun l => ((l ∪ inherited).erase dest).erase src
  let s ← s.graph.keys.foldlM (mergeEdge dest src) s
  let full := s.graph.maxColor ≤ (← s.graph.get dest).degree
  let s ← if full ∧ (← s.nodes.listAt dest) = .freeze then s.relocateNode dest .toSpill
    else pure s
  return { s with graph := s.graph.setAlias dest src }

/-- One round of `freeze_moves`. -/
def freezeMove (dest : V) (s : BriggsAllocator V) (mov : V × V) :
    Except LookupFault (BriggsAllocator V) := do
  let s ← s.relocateMove mov .frozen
  let src := if s.graph.aliasOf mov.1 = s.graph.aliasOf dest then s.graph.aliasOf mov.2
    else s.graph.aliasOf mov.1
  if ← s.moveRelated src then return s
  if s.graph.maxColor ≤ (← s.graph.get src).degree then return s
  if (← s.nodes.listAt src) = .freeze then s.relocateNode src .simplify else return s

/-- `freeze_moves`. -/
def freezeMoves (s : BriggsAllocator V) (dest : V) : Except LookupFault (BriggsAllocator V) := do
  (← s.effectiveMoves dest).foldlM (freezeMove dest) s

/-- `freeze`. -/
def freeze (s : BriggsAllocator V) : Except LookupFault (BriggsAllocator V) := do
  let f ← s.nodes.front .freeze
  let s ← s.relocateNode f .simplify
  s.freezeMoves f

/-- `unfreeze`. -/
def unfreeze (s : BriggsAllocator V) (value : V) : Except LookupFault (BriggsAllocator V) := do
  if (← s.nodes.listAt value) = .precolored then return s
  if ← s.moveRelated value then return s
  if s.graph.maxColor ≤ (← s.graph.get value).degree then return s
  s.relocateNode value .simplify

/-- The branches of `coalesce`. -/
inductive CoalesceCase where
  | same
  | constrained
  | mergable
  | scheduled
  deriving DecidableEq, Repr

/-- The two ends of a move as `coalesce` looks at them: a precoloured node comes first. -/
def ends (s : BriggsAllocator V) (mov : V × V) : Except LookupFault (V × V) := do
  let x := s.graph.aliasOf mov.1
  let y := s.graph.aliasOf mov.2
  if (← s.nodes.listAt y) = .precolored then return (y, x) else return (x, y)

/-- The conditions of `coalesce`. -/
def coalesceCase (s : BriggsAllocator V) (x y : V) : Except LookupFault CoalesceCase := do
  if x = y then return .same
  if (← s.nodes.listAt y) = .precolored then return .constrained
  if ← s.graph.interferes x y then return .constrained
  if ← s.graph.mergable x y then return .mergable
  return .scheduled

/-- `coalesce`. -/
def coalesce (s : BriggsAllocator V) : Except LookupFault (BriggsAllocator V) := do
  let mov ← s.moves.front .ready
  let (x, y) ← s.ends mov
  match ← s.coalesceCase x y with
  | .same =>
    let s ← s.relocateMove mov .coalesced
    s.unfreeze x
  | .constrained =>
    let s ← s.relocateMove mov .constrained
    let s ← s.unfreeze x
    s.unfreeze y
  | .mergable =>
    let s ← s.relocateMove mov .coalesced
    let s ← s.merge x y
    s.unfreeze x
  | .scheduled => s.relocateMove mov .scheduled

/-- `graph.priority`, as the quotient it is. -/
def quotient (s : BriggsAllocator V) (v : V) : Int × UInt64 :=
  (s.graph.prior v, (s.graph.node v).degree)

/-- `spill`. -/
def spill (s : BriggsAllocator V) : Except LookupFault (BriggsAllocator V) := do
  let first ← s.nodes.front .toSpill
  let m := (s.nodes.values .toSpill).foldl (fun m n =>
    if s.graph.lessPriority (s.quotient n) (s.quotient m) then n else m) first
  let s ← s.relocateNode m .simplify
  s.freezeMoves m

/-- The condition of the main loop. -/
def busy (s : BriggsAllocator V) : Bool :=
  !(s.nodes.values .simplify).isEmpty || !(s.nodes.values .freeze).isEmpty ||
    !(s.nodes.values .toSpill).isEmpty || !(s.moves.values .ready).isEmpty

/-- The body of the main loop. -/
def step (s : BriggsAllocator V) : Except LookupFault (BriggsAllocator V) :=
  if !(s.nodes.values .simplify).isEmpty then s.simplify
  else if !(s.moves.values .ready).isEmpty then s.coalesce
  else if !(s.nodes.values .freeze).isEmpty then s.freeze
  else if !(s.nodes.values .toSpill).isEmpty then s.spill
  else .ok s

/-- The colours of the neighbours are not for `n`. -/
def okColors (s : BriggsAllocator V) (n : InterfereNode V) : List Nat :=
  (s.graph.inOrder n.interfere).foldl (fun ok neighbor =>
    match s.colors (s.graph.aliasOf neighbor) with
    | some c => ok.filter (· ≠ c)
    | none => ok) (List.range s.graph.maxColor.toNat)

/-- The colour of a move partner, the last one that is still free. -/
def moveColor (s : BriggsAllocator V) (n : InterfereNode V) (ok : List Nat) : Option Nat :=
  (s.graph.inOrder n.move).foldl (fun best move =>
    match s.colors (s.graph.aliasOf move) with
    | some c => if c ∈ ok then some c else best
    | none => best) none

/-- The first of the colours with the highest priority. -/
def bestColor (s : BriggsAllocator V) (c : Nat) (cs : List Nat) : Nat :=
  cs.foldl (fun best c => if s.priority best < s.priority c then c else best) c

/-- The body of the first loop of `assign_colors`. -/
def assignColor (s : BriggsAllocator V) : Except LookupFault (BriggsAllocator V) := do
  let n ← s.nodes.back .selectStack
  let node ← s.graph.get n
  match s.okColors node with
  | [] => s.relocateNode n .spilled
  | c :: cs =>
    let best := (s.moveColor node (c :: cs)).getD (s.bestColor c cs)
    let s := { s with colors := Function.update s.colors n (some best) }
    s.relocateNode n .colored

/-- One round of the second loop of `assign_colors`. -/
def colorCoalesced (s : BriggsAllocator V) (n : V) : BriggsAllocator V :=
  match s.colors (s.graph.aliasOf n) with
  | some c => { s with colors := Function.update s.colors n (some c) }
  | none => { s with spilled := s.spilled ++ [n] }

/-- `colorize`, with at most `fuel` tests of the condition of each of its loops. -/
def colorize (fuel : Nat) (s : BriggsAllocator V) :
    Except LookupFault (Option (BriggsAllocator V)) := do
  let s ← s.initializeNodes
  match ← whileM busy step fuel s with
  | none => return none
  | some s =>
    match ← whileM (fun s => !(s.nodes.values .selectStack).isEmpty) assignColor fuel s with
    | none => return none
    | some s =>
      let s := (s.nodes.values .coalesced).foldl colorCoalesced s
      return some { s with spilled := s.spilled ++ s.nodes.values .spilled }

end BriggsAllocator

end Lowering

end Cact
