import SecretTyping.Lib.Search
import SecretTyping.Lib.Lexical
import SecretTyping.Lib.Declarators
import SecretTyping.Lib.Rewriter
import SecretTyping.Typer.Ast
import SecretTyping.Typer.Emit
import SecretTyping.Typer.RecursiveSecretTyper
import SecretTyping.Typer.Script
import SecretTyping.Typer.Refinement
import SecretTyping.Typer.Runs
import SecretTyping.Typer.Outcome
import SecretTyping.Typer.Worklist
import SecretTyping.Typer.Blocks
import SecretTyping.Typer.Access
import SecretTyping.Typer.Coverage
import SecretTyping.Typer.NullSafety
import SecretTyping.Typer.Order
import SecretTyping.Typer.FunctionCopies
import SecretTyping.Typer.Initializers
import SecretTyping.Typer.Signatures
import SecretTyping.Typer.Keywords
import SecretTyping.Lib.TwoPasses
import SecretTyping.Typer.Fields
import SecretTyping.Typer.Definitions
import SecretTyping.Typer.Trigger
import SecretTyping.Lib.LastWrite
import SecretTyping.Consumer.Consumer
import SecretTyping.Consumer.Outputs
import SecretTyping.Consumer.LostOutput
import SecretTyping.Consumer.OutputText
import SecretTyping.Lib.Replacement
import SecretTyping.Consumer.OutputPaths
import SecretTyping.Lib.Heap
import SecretTyping.Lib.SearchTree
import SecretTyping.Lib.Subtree
import SecretTyping.Bst.BinarySearch
import SecretTyping.Bst.Representation
import SecretTyping.Bst.Insertion
import SecretTyping.Bst.Runs
import SecretTyping.Bst.SetSemantics
import SecretTyping.Bst.Levels
import SecretTyping.Bst.Deletion
import SecretTyping.Lib.Traversal
import SecretTyping.Bst.Membership
import SecretTyping.Bst.Traversals
import SecretTyping.Lib.MultisetTree
import SecretTyping.Bst.SingleThreaded
import SecretTyping.Lib.Locking
import SecretTyping.Lib.Serial
import SecretTyping.Bst.BinarySearchTest
import SecretTyping.Bst.Transactions
import SecretTyping.Lib.Chain
import SecretTyping.Lists.Node
import SecretTyping.Lists.LinkedList
import SecretTyping.Lists.Loops
import SecretTyping.Lists.Sequence
import SecretTyping.Lists.Completion
import SecretTyping.Lists.Destruction
import SecretTyping.Lib.Fifo
import SecretTyping.Lists.Queue
import SecretTyping.Lists.StaleRear
import SecretTyping.Lib.Lifo
import SecretTyping.Lists.Stack
import SecretTyping.Lib.Run
import SecretTyping.Pool.FastPath
import SecretTyping.Pool.ThreadIds
import SecretTyping.Pool.Isolation
import SecretTyping.Lib.Boundaries
import SecretTyping.Bench.IntervalLog
import SecretTyping.Bench.Threads
import SecretTyping.Lib.Accumulation
import SecretTyping.Bench.RunResults
import SecretTyping.Bench.MixedRuns
import SecretTyping.Bench.LogBounds
import SecretTyping.Lib.Barrier
import SecretTyping.Bench.WaitCycles
import SecretTyping.Lib.Sections
import SecretTyping.Bench.OpsTotals
import SecretTyping.Bench.LockedTests
import SecretTyping.Lib.Phases
import SecretTyping.Lib.Relays
import SecretTyping.Bench.BarrierTests
import SecretTyping.Bench.BstInit
import SecretTyping.Exprs.Arguments
import SecretTyping.Exprs.Experiments
import SecretTyping.Pool.Arenas
import SecretTyping.Pool.Selection
import SecretTyping.Pool.Teardown
import SecretTyping.Lib.Digits
import SecretTyping.Umf.Critnib
import SecretTyping.Umf.CritnibMap
import SecretTyping.Umf.CritnibMemory
import SecretTyping.Umf.CritnibReuse
import SecretTyping.Lib.Sorted
import SecretTyping.Umf.CritnibIter
import SecretTyping.Umf.Ravl
import SecretTyping.Umf.RavlOrder
import SecretTyping.Umf.RavlRanks
import SecretTyping.Umf.RavlRuns
import SecretTyping.Lib.Regions
import SecretTyping.Lib.Segments
import SecretTyping.Umf.Alignment
import SecretTyping.Umf.Coarse
import SecretTyping.Umf.CoarseAlloc
import SecretTyping.Umf.CoarseHeap
import SecretTyping.Umf.CoarseLedger
import SecretTyping.Umf.Tracker
import SecretTyping.Umf.TrackerCalls
