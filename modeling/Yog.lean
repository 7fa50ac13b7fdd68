import Yog.Proofs.Returned
import Yog.Proofs.Program
import Yog.Proofs.Operands
import Yog.Proofs.Flow
import Yog.Proofs.Depths
import Yog.Proofs.Super
import Yog.Proofs.NativeBinding
import Yog.Proofs.Caught
import Yog.Proofs.JumpTargets
import Yog.Proofs.Buffers
import Yog.Proofs.Division
import Yog.Proofs.Bitwise
import Yog.Proofs.Shifts
import Yog.Proofs.Powers
import Yog.Proofs.Conversions
import Yog.Proofs.Lookups
import Yog.Proofs.FastPaths
import Yog.Proofs.HashTable
import Yog.Proofs.Arrays
import Yog.Proofs.Suspension
import Yog.Proofs.Collections
import Yog.Proofs.Copies
import Yog.Proofs.Generations
import Yog.Proofs.Codecs
import Yog.Proofs.PegSemantics
import Yog.Proofs.PegTermination
import Yog.Proofs.ParsedArgs
import Yog.Proofs.StructLayout
import Yog.Proofs.Pointees
import Yog.Proofs.Coroutines
import Yog.Proofs.InternedSymbols
import Yog.Proofs.SharedPackages
import Yog.Proofs.Patterns
import Yog.Proofs.Matching
import Yog.Proofs.Substrings
import Yog.Proofs.Iteration
import Yog.Proofs.Foreach
import Yog.Proofs.ConstPools
import Yog.Proofs.LocalSlots
import Yog.Proofs.StringLiterals
import Yog.Proofs.Heredocs
import Yog.Proofs.LineTables
import Yog.Proofs.Properties
import Yog.Proofs.ChainedAssignments
import Yog.Proofs.DictLiterals
import Yog.Proofs.DottedImports
import Yog.Proofs.ReusedFrames
import Yog.Proofs.FirstSets
import Yog.Proofs.HeapRuns
import Yog.ArrayScript
import Yog.Base64
import Yog.LalrActions
import Yog.Lib.Firsts
import Yog.Proofs.ActionArguments
import Yog.Proofs.ArraySort
import Yog.Proofs.Base64Decoding
import Yog.Proofs.IntegerGrammar
import Yog.Proofs.IntegerReading
import Yog.Proofs.QuotedprintableDecoding
import Yog.Lib.Routes
import Yog.Path
import Yog.Proofs.PathNormalization
import Yog.Proofs.FormatStrings
import Yog.Proofs.ScopedFiles
import Yog.FieldMemory
import Yog.Proofs.BitFields
import Yog.Inspect
import Yog.Lib.Slice
import Yog.Positions
import Yog.Proofs.Positions
import Yog.Proofs.Printing
