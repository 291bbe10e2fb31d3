import Luma.Library.BigEndian
import Luma.Library.LittleEndian
import Luma.Library.ByteReader
import Luma.Library.TracedReader
import Luma.Library.Binary64
import Luma.Library.Binary64Order
import Luma.Library.Matching
import Luma.Library.Triple
import Luma.Library.OrderedMap
import Luma.Library.Brackets
import Luma.Library.Interaction
import Luma.Library.Interleaving
import Luma.Library.Linearizability
import Luma.Library.Scanning
import Luma.Library.Simulation
import Luma.Library.Coinduction
import Luma.Library.Representatives
import Luma.Library.StableSort
import Luma.Library.Utf8
import Luma.Value.Decimal
import Luma.Value.DecimalDigits
import Luma.Value.DecimalArithmetic
import Luma.Value.DecimalOrder
import Luma.Value.DecimalRounding
import Luma.Value.DecimalText
import Luma.Value.Value
import Luma.Value.Hash
import Luma.Value.Equality
import Luma.Value.EqualityLaws
import Luma.Value.HashLaws
import Luma.Value.Duplicates
import Luma.Value.Sameness
import Luma.Value.Dictionary
import Luma.Value.DictionaryLaws
import Luma.Value.DictionaryRuns
import Luma.Types.TypeInfo
import Luma.Types.Pattern
import Luma.Types.Inhabits
import Luma.Types.Widening
import Luma.Types.WideningLaws
import Luma.Types.NumericFlow
import Luma.Types.TypeMatcher
import Luma.Types.Resolve
import Luma.Types.TypeTests
import Luma.Types.TypeTestSoundness
import Luma.Types.NumericSoundness
import Luma.Types.Wrappers
import Luma.Types.WrapperSoundness
import Luma.Types.NarrowingSoundness
import Luma.Types.InterfaceQuestions
import Luma.Types.InterfaceSatisfaction
import Luma.Types.InterfaceSoundness
import Luma.Types.InterfacePaths
import Luma.Concurrency.ChannelLinearizability
import Luma.Concurrency.TaskCompletion
import Luma.Concurrency.ScopeTeardown
import Luma.Protocol.Transport
import Luma.Protocol.TransportFraming
import Luma.Protocol.JsonValue
import Luma.LanguageServer.DocumentStore
import Luma.LanguageServer.Positions
import Luma.LanguageServer.PositionOffsets
import Luma.LanguageServer.PositionEncodings
import Luma.LanguageServer.PositionEncoder
import Luma.LanguageServer.DocumentSync
import Luma.LanguageServer.DocumentRuns
import Luma.Stdlib.Csv
import Luma.Stdlib.CsvFinalNewline
import Luma.Stdlib.SetRuns
import Luma.Stdlib.RandomBounded
import Luma.Stdlib.ArrayOrder
import Luma.Stdlib.Base64
import Luma.Stdlib.Glob
import Luma.Stdlib.Gzip
import Luma.Stdlib.KeyValueStore
import Luma.Stdlib.Utf8Codec
import Luma.Stdlib.XmlRoundTrip
import Luma.Syntax.Ast
import Luma.Compiler.ScopeCode
import Luma.Compiler.TaskScopes
import Luma.Compiler.TaskScopeSoundness
import Luma.Analysis.LexerCursor
import Luma.Analysis.MatchExhaustiveness
import Luma.Analysis.Returns
import Luma.Analysis.ControlFlow
import Luma.Analysis.ReturnSoundness
import Luma.Bytecode.Opcode
import Luma.Bytecode.Chunk
import Luma.Bytecode.Verifier
import Luma.Bytecode.Flow
import Luma.Bytecode.CheckedVerifier
import Luma.Bytecode.StackDepth
import Luma.Bytecode.Serializer
import Luma.Bytecode.RoundTrip
import Luma.Bytecode.TracedDeserializer
import Luma.Bytecode.DeserializerSafety
import Luma.Vm.State
import Luma.Vm.Instructions
import Luma.Vm.Machine
import Luma.Vm.World
import Luma.Vm.Control
import Luma.Vm.Effects
import Luma.Vm.Unwinding
import Luma.Vm.NativeFunctions
import Luma.Vm.Cancellation
import Luma.Vm.Steps
import Luma.Vm.VerifiedRuns
import Luma.Vm.CancellationSafety
import Luma.Vm.IntegerArithmetic
import Luma.Analysis.TripleQuoted
import Luma.Analysis.TripleQuotedLines
import Luma.Analysis.TripleQuotedDedent
import Luma.Analysis.TripleQuotedPieces
import Luma.Analysis.LineBreaks
import Luma.Analysis.LineEndings
import Luma.Library.Resumption
import Luma.Stdlib.ChunkedDecoder
import Luma.Stdlib.ChunkedSteps
import Luma.Stdlib.ChunkedBody
import Luma.Stdlib.ChunkedArrival
import Luma.Stdlib.QueryString
import Luma.Stdlib.TextNumbers
import Luma.Stdlib.Url
import Luma.Library.GregorianCalendar
import Luma.Library.Binary64Whole
import Luma.Stdlib.Datetime
import Luma.Stdlib.DatetimeArithmetic
import Luma.Stdlib.DatetimeIso
import Luma.Stdlib.Utf8Recognisers
import Luma.Stdlib.Encoder
import Luma.Stdlib.HttpResponse
import Luma.Stdlib.HttpFraming
import Luma.Stdlib.CommandLine
import Luma.Library.Divisors
import Luma.Stdlib.IntegerMath
import Luma.Stdlib.IntegerMathLaws
import Luma.Stdlib.Template
import Luma.Stdlib.TextSplitting
import Luma.Stdlib.TextWrap
import Luma.Stdlib.TextDedent
import Luma.Library.SharedStorage
import Luma.Vm.Iteration
import Luma.Vm.IterationLaws
import Luma.Vm.CopyOnWrite
import Luma.Vm.IteratedStorage
import Luma.Library.HttpGrammar
import Luma.Library.HttpReading
import Luma.Stdlib.HttpRequest
import Luma.Vm.FieldPaths
import Luma.Library.CodedLine
import Luma.Repl.CharBoundaries
import Luma.Repl.LineText
import Luma.Repl.LineEditor
import Luma.Repl.LineEditing
import Luma.Library.LinkedList
import Luma.Library.Serving
import Luma.Common.LruCache
import Luma.Library.EditDistance
import Luma.Common.StringUtils
import Luma.LanguageServer.AnalysisCache
import Luma.LanguageServer.AnalysisCoherence
import Luma.Compiler.Compaction
import Luma.Compiler.CompactionPieces
import Luma.Compiler.CompactionLaws
import Luma.Vm.BinaryOperators
import Luma.Compiler.ConstantFolding
import Luma.Compiler.ConstantFoldingLaws
import Luma.Vm.NamedArguments
import Luma.Vm.CallEntry
import Luma.Library.Writes
import Luma.Vm.ArgumentBinding
import Luma.Vm.ArgumentMapping
import Luma.Vm.NamedArgumentLaws
import Luma.Library.DepthFirst
import Luma.Include.SourceManager
import Luma.Include.IncludeResolver
import Luma.Include.IncludeResolution
