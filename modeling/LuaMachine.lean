import LuaMachine.Action
import LuaMachine.Arena
import LuaMachine.Arena.Registers
import LuaMachine.Arena.Ring
import LuaMachine.Arena.Sweep
import LuaMachine.Bytes
import LuaMachine.Bytes.Hash
import LuaMachine.Bytes.Utf8
import LuaMachine.Double
import LuaMachine.Double.Text
import LuaMachine.Failure
import LuaMachine.Function
import LuaMachine.Heap
import LuaMachine.Library.Arguments
import LuaMachine.Library.Base
import LuaMachine.Library.Catalog
import LuaMachine.Library.Coroutines
import LuaMachine.Library.Dispatch
import LuaMachine.Library.Sequence
import LuaMachine.Library.Text
import LuaMachine.Machine
import LuaMachine.Metamethod
import LuaMachine.Numeral
import LuaMachine.Operation.Access
import LuaMachine.Operation.Call
import LuaMachine.Operation.Compare
import LuaMachine.Operation.Iterate
import LuaMachine.Operation.Text
import LuaMachine.Pattern.Charset
import LuaMachine.Pattern.Error
import LuaMachine.Pattern.Item
import LuaMachine.Pattern.Search
import LuaMachine.Pattern.Template
import LuaMachine.Pattern.Trail
import LuaMachine.Pool
import LuaMachine.Pool.Registers
import LuaMachine.Script.Eval
import LuaMachine.Script.Expr
import LuaMachine.Script.Operation
import LuaMachine.Session
import LuaMachine.Table
import LuaMachine.Table.HashPart
import LuaMachine.Table.Sequence
import LuaMachine.Table.Traversal
import LuaMachine.Transcript
import LuaMachine.Value
import LuaMachine.Proofs.Double
import LuaMachine.Proofs.Key
import LuaMachine.Proofs.HashPart
import LuaMachine.Proofs.Table
import LuaMachine.Proofs.Reachable
import LuaMachine.Proofs.Tape
import LuaMachine.Proofs.Dictionary
import LuaMachine.Proofs.Traversal
import LuaMachine.Proofs.Walk
import LuaMachine.Proofs.KeyHash
import LuaMachine.Proofs.Coroutine
import LuaMachine.Proofs.Trail
import LuaMachine.Proofs.Choice
import LuaMachine.Proofs.Subject
import LuaMachine.Proofs.Matcher
import LuaMachine.Proofs.FirstMatch
import LuaMachine.Proofs.Reader
import LuaMachine.Proofs.Boundary
import LuaMachine.Proofs.InRange
import LuaMachine.Proofs.Bytewise
import LuaMachine.Proofs.Arena
import LuaMachine.Proofs.Ring
import LuaMachine.Proofs.Sweep
import LuaMachine.Proofs.Registry
import LuaMachine.Proofs.Pool
import LuaMachine.Proofs.Interning
import LuaMachine.Proofs.Rendezvous
import LuaMachine.Proofs.Alternation
import LuaMachine.Proofs.Handover
import LuaMachine.Proofs.NodeOrder
import LuaMachine.Proofs.Capacity
import LuaMachine.Proofs.Forgetting
import LuaMachine.Proofs.Iteration
import LuaMachine.Proofs.Strands
import LuaMachine.Proofs.CallDepth
import LuaMachine.Proofs.Waiting
import LuaMachine.Proofs.Resuming
import LuaMachine.Proofs.Steady
import LuaMachine.Proofs.Permanence
import LuaMachine.Proofs.Wrapping
import LuaMachine.Proofs.Rounding
import LuaMachine.Proofs.NumberOrder
import LuaMachine.Proofs.MergeSort
import LuaMachine.Proofs.MergeLoops
import LuaMachine.Proofs.Callers
import LuaMachine.Proofs.Performing
import LuaMachine.Proofs.Sessions
import LuaMachine.Proofs.Histories
import LuaMachine.Proofs.Rounds
import LuaMachine.Proofs.Shifting
import LuaMachine.Proofs.Enumeration
import LuaMachine.Proofs.Sorting
import LuaMachine.Proofs.Chains
import LuaMachine.Proofs.Rebuilding
import LuaMachine.Proofs.Literal
import LuaMachine.Proofs.Placement
import LuaMachine.Proofs.Advance
import LuaMachine.Proofs.SearchDepth
import LuaMachine.Proofs.Reached
import LuaMachine.Proofs.Release
import LuaMachine.Proofs.Accounting
import LuaMachine.Proofs.Digits
import LuaMachine.Proofs.Grammar
import LuaMachine.Proofs.IntegerText
import LuaMachine.Proofs.Unpacking
import LuaMachine.Proofs.Undoing
import LuaMachine.Proofs.Brackets
import LuaMachine.Proofs.Positions
import LuaMachine.Proofs.Joining
