/-
  The LR(0) automaton: the graph of the kernels that can be reached from the
  start item.

  States are numbered as they are found, state by state and symbol by symbol.
  As a kernel is a set of items, the number of states is bounded, and so is
  the construction.
-/
import LRAutomata.Automaton.Graph
import LRAutomata.Data.Counting

namespace LRAutomata.Lr0

/-- A state of which only the kernel is known. -/
def fresh (q : StateId) (accessing : Option SymbolId) (kernel : List Item) : Core :=
  { accessing, kernel, closure := [], edges := [], predecessors := [], isocore := q }

/-- The state with the given kernel, which is added if it is new. -/
def findOrAdd (cores : Array Core) (X : SymbolId) (kernel : List Item) : Array Core × StateId :=
  match cores.toList.findIdx? fun c => c.kernel = kernel with
  | some q => (cores, q)
  | none => (cores.push (fresh cores.size (some X) kernel), cores.size)

/-- Complete the state `q`: compute its closure and its transitions, adding the
    states that are reached for the first time. -/
def expand (g : Grammar) (cores : Array Core) (q : StateId) : Array Core :=
  let kernel := (cores.getD q default).kernel
  let closure := ItemSet.closure g kernel
  let items := kernel ++ closure
  let (cores, edges) := (ItemSet.nextSymbols g items).foldl (fun (cores, edges) X =>
    let nextItems := ItemSet.advanceOver g items X
    let (cores, target) := findOrAdd cores X nextItems
    (cores, edges ++ [⟨X, target, nextItems⟩])) (cores, [])
  cores.modify q fun c => { c with closure, edges }

/-- Complete the states from `q` on, at most `rounds` of them. -/
def expandFrom (g : Grammar) : (rounds : Nat) → Array Core → StateId → Array Core
  | 0, cores, _ => cores
  | rounds + 1, cores, q =>
    if q < cores.size then expandFrom g rounds (expand g cores q) (q + 1) else cores

/-- The number of items of a grammar. -/
def itemCount (g : Grammar) : Nat :=
  total (g.rules.toList.map fun r => r.rhs.length + 1)

/-- The LR(0) automaton of a grammar.  A kernel is a set of
    items, so as many rounds as there are such sets complete all states. -/
def graph (g : Grammar) : Graph :=
  Graph.link ⟨expandFrom g (subsetCount (itemCount g)) #[fresh StateId.start none [Item.start]] 0⟩

end LRAutomata.Lr0
