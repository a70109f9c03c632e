import TapeLang.Main
import TapeLang.Proofs.Nesting.Block
import TapeLang.Proofs.Nesting.Linked
import TapeLang.Proofs.Nesting.Thread
import TapeLang.Proofs.Optimizer.Reduction
import TapeLang.Proofs.Sink
import TapeLang.Proofs.Optimizer.Sweep
import TapeLang.Proofs.Nesting.Lockstep
import TapeLang.Proofs.Optimizer.Preservation
import TapeLang.Proofs.Code.Chunks
import TapeLang.Proofs.Code.Trail
import TapeLang.Proofs.Code.Simulation
import TapeLang.Proofs.Code.Run
import TapeLang.Proofs.X86.Decoding
import TapeLang.Proofs.X86.Encodable
import TapeLang.Proofs.X86.Layout
import TapeLang.Proofs.X86.Assembly
import TapeLang.Proofs.X86.Machine
import TapeLang.Proofs.X86.Stack
import TapeLang.Proofs.Code.Host
import TapeLang.Proofs.Code.Moves
import TapeLang.Proofs.X86.Invariant
import TapeLang.Proofs.X86.Realization
import TapeLang.Proofs.X86.Closing
import TapeLang.Proofs.X86.Simulation
import TapeLang.Proofs.Code.Follows
import TapeLang.Proofs.X86.Acceptance
import TapeLang.Proofs.X86.Correctness
import TapeLang.A64.Decoding
import TapeLang.A64.Machine
import TapeLang.Proofs.A64.Assembly
import TapeLang.Proofs.A64.Machine
import TapeLang.Proofs.A64.Stack
import TapeLang.Proofs.A64.Invariant
import TapeLang.Proofs.A64.Realization
import TapeLang.Proofs.A64.Closing
import TapeLang.Proofs.A64.Simulation
import TapeLang.Proofs.A64.Acceptance
import TapeLang.Proofs.A64.Correctness
import TapeLang.Proofs.Completion
import TapeLang.Proofs.Overruns
import TapeLang.Proofs.Engine
import TapeLang.Proofs.Faults
import TapeLang.Proofs.Nesting.Reaches
import TapeLang.Proofs.Nesting.Runs
import TapeLang.Proofs.Optimizer.Reflection
import TapeLang.Proofs.Nesting.Brackets
import TapeLang.Proofs.Nesting.Linking
import TapeLang.Proofs.Nesting.Evaluation
import TapeLang.Proofs.Source.Parsing
import TapeLang.Proofs.Nesting.Depth
import TapeLang.Proofs.Nesting.Matched
import TapeLang.Proofs.Optimizer.Targets
import TapeLang.Proofs.Code.Disassembly
import TapeLang.Proofs.Code.Placement
import TapeLang.Proofs.X86.Placement
import TapeLang.Proofs.A64.Placement
import TapeLang.Proofs.Sending
import TapeLang.Proofs.Emission
import TapeLang.Proofs.Code.Recording
import TapeLang.Proofs.X86.Recording
import TapeLang.Proofs.Failing
import TapeLang.Proofs.Stepping
import TapeLang.Proofs.Session
import TapeLang.Proofs.Code.Discipline
import TapeLang.Proofs.X86.Discipline
import TapeLang.Proofs.A64.Discipline
import TapeLang.Proofs.Discipline
import TapeLang.Proofs.Elf.Reading
import TapeLang.Proofs.Elf.StringTable
import TapeLang.Proofs.Elf.Layout
import TapeLang.Proofs.Elf.Relocatable
import TapeLang.Proofs.Optimizer.Normal
import TapeLang.Proofs.Optimizer.Passes
import TapeLang.Proofs.Nesting.Open
import TapeLang.Proofs.Code.Refusal
import TapeLang.Proofs.Refusal
import TapeLang.Proofs.X86.Requests
import TapeLang.Proofs.Capacity
import TapeLang.Proofs.Optimizer.Refusal
import TapeLang.Proofs.Widening
import TapeLang.Proofs.A64.Reach
import TapeLang.Proofs.Portability
import TapeLang.Proofs.Nesting.Pending
import TapeLang.Proofs.Nesting.Pairing
import TapeLang.Proofs.Listing
import TapeLang.Proofs.Source.Header
import TapeLang.Proofs.Counting
import TapeLang.Proofs.Nesting.Executed
import TapeLang.Proofs.Optimizer.Economy
import TapeLang.Proofs.Source.Utf8
import TapeLang.Proofs.Source.Decoding
import TapeLang.Proofs.Code.Bounds
import TapeLang.Proofs.X86.Bounds
import TapeLang.Proofs.A64.Bounds
import TapeLang.Proofs.Bounds
