import BlockCompiler.Builder
import BlockCompiler.Chunk.Expectation
import BlockCompiler.Compile
import BlockCompiler.Proofs.ConstantReferences
import BlockCompiler.Proofs.TypeAgreement
import BlockCompiler.Proofs.TypeMachine
import BlockCompiler.Proofs.Semantics
import BlockCompiler.Proofs.Preservation
import BlockCompiler.Proofs.Accounting
import BlockCompiler.Proofs.Closure
import BlockCompiler.Proofs.Faults
import BlockCompiler.Proofs.ConstantGate
import BlockCompiler.Proofs.DebugRecords
import BlockCompiler.Proofs.Numbering
import BlockCompiler.Proofs.HoistedFunctions
import BlockCompiler.Proofs.Recompilation
import BlockCompiler.Proofs.DeclarationOrder
import BlockCompiler.Proofs.RealText
import BlockCompiler.Proofs.ShortestDecimal
import BlockCompiler.Proofs.UniqueText
import BlockCompiler.Proofs.Deduplication
import BlockCompiler.Proofs.MentionedNames
import BlockCompiler.Proofs.MadeUpNames
import BlockCompiler.Proofs.FreshNames
import BlockCompiler.Proofs.TidyRegistry
import BlockCompiler.Proofs.FrameSizing
import BlockCompiler.Proofs.FrameSlots
import BlockCompiler.Proofs.StoredReals
import BlockCompiler.Proofs.NestingCeiling
import BlockCompiler.Proofs.Returns
import BlockCompiler.Proofs.SharedWrappers
import BlockCompiler.Proofs.Decoding
import BlockCompiler.Proofs.FailedBodies
import BlockCompiler.Proofs.TypeErrors
import BlockCompiler.Proofs.StackBalance
import BlockCompiler.Proofs.PoolHistory
import BlockCompiler.Proofs.RegistryHistory
import BlockCompiler.Proofs.LineTable
import BlockCompiler.Proofs.Expectations
