import PackedBits.Word
import PackedBits.Word.Lemmas
import PackedBits.Cursor
import PackedBits.Cursor.Lemmas
import PackedBits.Memory
import PackedBits.Memory.Lawful
import PackedBits.Chunk
import PackedBits.Chunk.Lemmas
import PackedBits.BitRef
import PackedBits.Range.Scan
import PackedBits.Range.Pieces
import PackedBits.Range.Fill
import PackedBits.Range.Move
import PackedBits.Range.Combine
import PackedBits.Range.Reverse
import PackedBits.Range.Rotate
import PackedBits.Range.Search
import PackedBits.Range.Arrange
import PackedBits.Failure
import PackedBits.Bounds
import PackedBits.Span.Basic
import PackedBits.Span.Query
import PackedBits.Span.Update
import PackedBits.Walk.Basic
import PackedBits.Walk.Bits
import PackedBits.Walk.Ones
import PackedBits.Walk.Select
import PackedBits.Provider
import PackedBits.Storage.Basic
import PackedBits.Storage.Plain
import PackedBits.Storage.ControlBlock
import PackedBits.Storage.SmallBuffer
import PackedBits.Storage.Tagged
import PackedBits.BitVector.Edit
import PackedBits.BitVector.Build
import PackedBits.BitVector.Sets
import PackedBits.BitVector.Order
import PackedBits.BitVector.Pool
import PackedBits.View
import PackedBits.FixedSet
import PackedBits.Text.Digits
import PackedBits.Text.Record
import PackedBits.Proofs.Words
import PackedBits.Proofs.Size
import PackedBits.Proofs.Bounds
import PackedBits.Proofs.Attempt
import PackedBits.Proofs.Provider
import PackedBits.Proofs.Range.Overwrite
import PackedBits.Proofs.Pointer
import PackedBits.Proofs.Range.Pieces
import PackedBits.Proofs.Range.Rewrite
import PackedBits.Proofs.Range.Move
import PackedBits.Proofs.Range.Scan
import PackedBits.Proofs.Range.Exchange
import PackedBits.Proofs.Range.Arrange
import PackedBits.Proofs.Range.Fill
import PackedBits.Proofs.Range.Successor
import PackedBits.Proofs.Range.Enumeration
import PackedBits.Proofs.Range.Rotate
import PackedBits.Proofs.Range.Frame
import PackedBits.Proofs.Range.Transfer
import PackedBits.Proofs.Range.Compare
import PackedBits.Proofs.Range.Count
import PackedBits.Proofs.Range.Answer
import PackedBits.Proofs.Range.Search
import PackedBits.Proofs.Range.Fence
import PackedBits.Proofs.Range.Access
import PackedBits.Proofs.Span.Bits
import PackedBits.Proofs.Span.Change
import PackedBits.Proofs.Span.OnList
import PackedBits.Proofs.Span.Moves
import PackedBits.Proofs.Span.Frame
import PackedBits.Proofs.Walk.References
import PackedBits.Proofs.Walk.Queue
import PackedBits.Proofs.Walk.History
import PackedBits.Proofs.Walk.Values
import PackedBits.Proofs.Walk.Ones
import PackedBits.Proofs.Walk.Ahead
import PackedBits.Proofs.Storage.Lawful
import PackedBits.Proofs.Storage.Resize
import PackedBits.Proofs.Storage.Plain
import PackedBits.Proofs.Storage.ControlBlock
import PackedBits.Proofs.Storage.SmallBuffer
import PackedBits.Proofs.Storage.Tagged
import PackedBits.Proofs.Storage.Encoding
import PackedBits.Proofs.Storage.Mode
import PackedBits.Proofs.BitVector.Edit
import PackedBits.Proofs.BitVector.Build
import PackedBits.Proofs.BitVector.Sets
import PackedBits.Proofs.BitVector.Order
import PackedBits.Proofs.BitVector.Pool
import PackedBits.Proofs.Backend
import PackedBits.Proofs.Run.Change
import PackedBits.Proofs.Run.Action
import PackedBits.Proofs.Storage.Growth
import PackedBits.Proofs.Run.Lists
import PackedBits.Proofs.Run.Edit
import PackedBits.Proofs.Run.SpareBits
import PackedBits.Proofs.Run.Capacity
import PackedBits.Proofs.Run.Reservation
import PackedBits.Proofs.Run.Mode
import PackedBits.Proofs.Run.Fresh
import PackedBits.Proofs.Run.Transition
import PackedBits.Proofs.Run.Refusal
import PackedBits.Proofs.Run.Accounting
import PackedBits.Proofs.Run.Simulation
import PackedBits.Proofs.Run.Refinement
import PackedBits.Proofs.Run.SetOperations
import PackedBits.Proofs.Run.Reached
import PackedBits.Proofs.Run.Comparison
import PackedBits.Proofs.Run.Locality
import PackedBits.Proofs.Run.Tally
import PackedBits.Proofs.Walk.Places
import PackedBits.Proofs.Run.Retention
import PackedBits.Proofs.Run.Ranking
import PackedBits.Proofs.Walk.Bits
import PackedBits.Proofs.Text.Filling
import PackedBits.Proofs.FixedSet
import PackedBits.Proofs.Text.Characters
import PackedBits.Proofs.Text.Digits
import PackedBits.Proofs.Run.Sets
import PackedBits.Proofs.Run.Packing
import PackedBits.Proofs.Run.Arithmetic
import PackedBits.Proofs.Walk.Selection
import PackedBits.Proofs.Walk.Picking
import PackedBits.Proofs.Run.Occurrence
import PackedBits.Proofs.Run.Rotation
import PackedBits.Proofs.Run.Displacement
import PackedBits.Proofs.Run.SetPredicates
import PackedBits.Proofs.Walk.Sharing
import PackedBits.Proofs.Run.Extension
import PackedBits.Proofs.Range.Lens
import PackedBits.Proofs.Range.Weight
import PackedBits.Proofs.Storage.Requests
import PackedBits.Proofs.Storage.Trimming
import PackedBits.Proofs.Run.Tightness
import PackedBits.Proofs.Run.Doubling
