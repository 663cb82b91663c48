import Smpcil.Basic
import Smpcil.Foundations.Loop
import Smpcil.Foundations.TwoRuns
import Smpcil.Foundations.RedBlackTree
import Smpcil.Foundations.BreadthFirst
import Smpcil.Foundations.KeyOrder
import Smpcil.Foundations.Allocator
import Smpcil.Foundations.Chain
import Smpcil.Foundations.StringMatch
import Smpcil.Foundations.Occurrences
import Smpcil.Tree.Model
import Smpcil.Tree.Linked
import Smpcil.Tree.InsertFixup
import Smpcil.Tree.DeleteFixup
import Smpcil.Tree.Insert
import Smpcil.Tree.Lookup
import Smpcil.Tree.Remove
import Smpcil.Tree.Runs
import Smpcil.Tree.Correctness
import Smpcil.Tree.Depth
import Smpcil.Pool.Model
import Smpcil.Pool.Layout
import Smpcil.Pool.Requests
import Smpcil.Pool.Runs
import Smpcil.Pool.Reads
import Smpcil.Pool.Release
import Smpcil.Pool.Calls
import Smpcil.Pool.Serving
import Smpcil.Array.Model
import Smpcil.Array.Pushes
import Smpcil.Array.Access
import Smpcil.Array.Traversal
import Smpcil.Link.Model
import Smpcil.Link.Layout
import Smpcil.Link.Refinement
import Smpcil.Link.Independence
import Smpcil.Text.Model
import Smpcil.Text.Tables
import Smpcil.Text.Search
import Smpcil.Text.Positions
import Smpcil.Text.Split
import Smpcil.Text.Pieces
import Smpcil.Text.Join
import Smpcil.Stack.Model
import Smpcil.Stack.Layout
import Smpcil.Stack.Refinement
import Smpcil.Queue.Model
import Smpcil.Queue.Layout
import Smpcil.Queue.Refinement
import Smpcil.References
import Smpcil.Teardown.Model
import Smpcil.Teardown.Cells
import Smpcil.Teardown.Entering
import Smpcil.Teardown.Walk
import Smpcil.Teardown.Runs
import Smpcil.Teardown.Correctness
import Smpcil.PartList.Model
import Smpcil.PartList.Traversal
import Smpcil.Foundations.Trimming
import Smpcil.Text.Trim
import Smpcil.Foundations.PackedStrings
import Smpcil.Title.Model
import Smpcil.Title.Copies
import Smpcil.Title.Runs
import Smpcil.Title.Correctness
import Smpcil.Text.Limit
import Smpcil.Pool.Termination
import Smpcil.Pool.Records
import Smpcil.Stack.Capacity
import Smpcil.Foundations.Slots
import Smpcil.UnitSlots
import Smpcil.Pool.Refusals
import Smpcil.Pool.FirstBlock
import Smpcil.Constructors
import Smpcil.Tree.Deficit
import Smpcil.Text.Slices
import Smpcil.Text.Compare
import Smpcil.Foundations.Tokens
import Smpcil.Text.Tok
import Smpcil.Pool.Accounting
import Smpcil.Pool.Lifetime
import Smpcil.Link.Lifetime
import Smpcil.Lifetimes
import Smpcil.Teardown.Ownership
import Smpcil.Queue.Ownership
import Smpcil.Tree.Rotations
import Smpcil.Foundations.Ledger
import Smpcil.Foundations.Separators
import Smpcil.Text.Ownership
import Smpcil.Text.Tokenisers
import Smpcil.Foundations.Units
import Smpcil.Ipc.Semaphore
import Smpcil.Files.Model
import Smpcil.Files.Transfers
import Smpcil.Files.Mapping
import Smpcil.Ipc.Messages
import Smpcil.Stack.Lifetime
