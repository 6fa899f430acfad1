/- LR(1) automata. -/
import LRAutomata.Automaton.Annotation
import LRAutomata.Automaton.Basic
import LRAutomata.Automaton.Conflict
import LRAutomata.Automaton.Generate
import LRAutomata.Automaton.Graph
import LRAutomata.Automaton.ItemSet
import LRAutomata.Automaton.KernelLookahead
import LRAutomata.Automaton.Lookahead
import LRAutomata.Automaton.Lr0
import LRAutomata.Automaton.Pruning
import LRAutomata.Automaton.Splitting
import LRAutomata.Automaton.State
import LRAutomata.Counterexample.Basic
import LRAutomata.Counterexample.Derivation
import LRAutomata.Counterexample.Moves
import LRAutomata.Counterexample.Path
import LRAutomata.Counterexample.Search
import LRAutomata.Data.Counting
import LRAutomata.Data.Fixpoint
import LRAutomata.Data.NatSet
import LRAutomata.Data.Order
import LRAutomata.Data.OrderedMap
import LRAutomata.Data.OrderedSet
import LRAutomata.Data.Search
import LRAutomata.Data.SetEquations
import LRAutomata.Data.Worklist
import LRAutomata.Event
import LRAutomata.Grammar.Basic
import LRAutomata.Grammar.Define
import LRAutomata.Grammar.Display
import LRAutomata.Grammar.Draft
import LRAutomata.Grammar.Error
import LRAutomata.Grammar.First
import LRAutomata.Grammar.Nullable
import LRAutomata.Grammar.Rule
import LRAutomata.Grammar.Symbol
import LRAutomata.Grammar.SymbolTable
import LRAutomata.Grammar.Validity
import LRAutomata.Item
import LRAutomata.Label
import LRAutomata.Lookup
import LRAutomata.Panic
import LRAutomata.Proofs.Automaton.Action
import LRAutomata.Proofs.Automaton.Adequacy
import LRAutomata.Proofs.Automaton.Annotation
import LRAutomata.Proofs.Automaton.Calls
import LRAutomata.Proofs.Automaton.Canonical
import LRAutomata.Proofs.Automaton.Delivery
import LRAutomata.Proofs.Automaton.History
import LRAutomata.Proofs.Automaton.Inadequacy
import LRAutomata.Proofs.Automaton.ItemAutomaton
import LRAutomata.Proofs.Automaton.ItemSet
import LRAutomata.Proofs.Automaton.KernelLookahead
import LRAutomata.Proofs.Automaton.Lookahead
import LRAutomata.Proofs.Automaton.Lr0
import LRAutomata.Proofs.Automaton.Pruning
import LRAutomata.Proofs.Automaton.Records
import LRAutomata.Proofs.Automaton.Refinement
import LRAutomata.Proofs.Automaton.Renumbering
import LRAutomata.Proofs.Automaton.Representation
import LRAutomata.Proofs.Automaton.Resolution
import LRAutomata.Proofs.Automaton.RuleOrder
import LRAutomata.Proofs.Automaton.Selection
import LRAutomata.Proofs.Automaton.Separation
import LRAutomata.Proofs.Automaton.Splitting
import LRAutomata.Proofs.Automaton.Termination
import LRAutomata.Proofs.Automaton.Tracing
import LRAutomata.Proofs.Automaton.Trail
import LRAutomata.Proofs.Automaton.Unambiguous
import LRAutomata.Proofs.Automaton.UsedSymbols
import LRAutomata.Proofs.Automaton.Valid
import LRAutomata.Proofs.Automaton.Walk
import LRAutomata.Proofs.Automaton.WalkBound
import LRAutomata.Proofs.Checked.Annotation
import LRAutomata.Proofs.Checked.Automaton
import LRAutomata.Proofs.Checked.Basic
import LRAutomata.Proofs.Checked.Counterexample
import LRAutomata.Proofs.Checked.Derivation
import LRAutomata.Proofs.Checked.Search
import LRAutomata.Proofs.Checked.SetEquations
import LRAutomata.Proofs.Checked.Splitting
import LRAutomata.Proofs.Counterexample.ChainQueue
import LRAutomata.Proofs.Counterexample.Chains
import LRAutomata.Proofs.Counterexample.Drawing
import LRAutomata.Proofs.Counterexample.Example
import LRAutomata.Proofs.Counterexample.Moves
import LRAutomata.Proofs.Counterexample.Origin
import LRAutomata.Proofs.Counterexample.Path
import LRAutomata.Proofs.Counterexample.Precise
import LRAutomata.Proofs.Counterexample.Reduction
import LRAutomata.Proofs.Counterexample.Shift
import LRAutomata.Proofs.Counterexample.Spine
import LRAutomata.Proofs.Counterexample.Surfacing
import LRAutomata.Proofs.Data.Fixpoint
import LRAutomata.Proofs.Data.LeastSolution
import LRAutomata.Proofs.Data.OrderedMap
import LRAutomata.Proofs.Data.Permutation
import LRAutomata.Proofs.Data.Queue
import LRAutomata.Proofs.Data.Search
import LRAutomata.Proofs.Data.SetEquations
import LRAutomata.Proofs.Data.Worklist
import LRAutomata.Proofs.Grammar.Augmentation
import LRAutomata.Proofs.Grammar.Completion
import LRAutomata.Proofs.Grammar.Declarations
import LRAutomata.Proofs.Grammar.Derivation
import LRAutomata.Proofs.Grammar.First
import LRAutomata.Proofs.Grammar.Naming
import LRAutomata.Proofs.Grammar.Nullable
import LRAutomata.Proofs.Grammar.Numbering
import LRAutomata.Proofs.Grammar.ParseTree
import LRAutomata.Proofs.Grammar.Precedence
import LRAutomata.Proofs.Grammar.Renumbering
import LRAutomata.Proofs.Grammar.RuleOrder
import LRAutomata.Proofs.Grammar.SymbolOrder
import LRAutomata.Proofs.Grammar.SymbolTable
import LRAutomata.Proofs.Grammar.TokenNumbers
import LRAutomata.Proofs.Grammar.WellFormed
import LRAutomata.Proofs.Table.Basic
import LRAutomata.Proofs.Table.Calls
import LRAutomata.Proofs.Table.Closure
import LRAutomata.Proofs.Table.Lr0
import LRAutomata.Proofs.Table.Row
import LRAutomata.Proofs.Table.Splitting
import LRAutomata.Proofs.Text.CharLiteral
import LRAutomata.StateId
import LRAutomata.Table.Basic
import LRAutomata.Table.Closure
import LRAutomata.Table.Lr0
import LRAutomata.Table.Row
import LRAutomata.Table.Splitting
import LRAutomata.Text.Blank
import LRAutomata.Text.CharLiteral
import LRAutomata.Text.Identifier
import LRAutomata.Text.XidExtend
import LRAutomata.Text.XidStart
import LRAutomata.Validation
