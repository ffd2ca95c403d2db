import UosioCdt.Lib.Aborting
import UosioCdt.Lib.BinaryFloat
import UosioCdt.Lib.BlockWrites
import UosioCdt.Lib.BumpLayout
import UosioCdt.Lib.Chunks
import UosioCdt.Lib.ControlFlow
import UosioCdt.Lib.Cursor
import UosioCdt.Lib.Decimal
import UosioCdt.Lib.FixedBuffer
import UosioCdt.Lib.Framing
import UosioCdt.Lib.Interning
import UosioCdt.Lib.KeyedMerge
import UosioCdt.Lib.Leb128
import UosioCdt.Lib.LittleEndian
import UosioCdt.Lib.Marking
import UosioCdt.Lib.MixedRadix
import UosioCdt.Lib.MultiMap
import UosioCdt.Lib.OrderedTable
import UosioCdt.Lib.PaddedLeb128
import UosioCdt.Lib.PrefixTerms
import UosioCdt.Lib.Registration
import UosioCdt.Lib.Runs
import UosioCdt.Lib.SlotClock
import UosioCdt.Lib.StructuredCode
import UosioCdt.Lib.TableCursor
import UosioCdt.Lib.Tiling
import UosioCdt.Lib.WrapArith
import UosioCdt.Tools.Abi
import UosioCdt.Tools.AbiDiff
import UosioCdt.Tools.AbiDiffTheorems
import UosioCdt.Tools.AbiGen
import UosioCdt.Tools.AbiGenTheorems
import UosioCdt.Tools.AbiMerge
import UosioCdt.Tools.AbiMergeTheorems
import UosioCdt.Tools.Name
import UosioCdt.Tools.Codegen
import UosioCdt.Tools.CodegenTheorems
import UosioCdt.Tools.TypeNames
import UosioCdt.Tools.TypeReading
import UosioCdt.Tools.TypeNamesTheorems
import UosioCdt.Tools.TypeLayoutTheorems
import UosioCdt.Tools.Ricardian
import UosioCdt.Tools.RicardianText
import UosioCdt.Tools.RicardianTheorems
import UosioCdt.Tools.RicardianSafety
import UosioCdt.Tools.RicardianRoundTrip
import UosioCdt.Dispatch.Writer
import UosioCdt.Dispatch.WriterTheorems
import UosioCdt.Dispatch.Decode
import UosioCdt.Dispatch.Structure
import UosioCdt.Dispatch.Exec
import UosioCdt.Dispatch.Route
import UosioCdt.Dispatch.Routing
import UosioCdt.Dispatch.Hooks
import UosioCdt.Dispatch.MarkLive
import UosioCdt.Dispatch.MarkLiveTheorems
import UosioCdt.Dispatch.Exports
import UosioCdt.Dispatch.ExportsTheorems
import UosioCdt.Passes.UosioApply
import UosioCdt.Passes.UosioApplyTheorems
import UosioCdt.Core.Asset
import UosioCdt.Core.AssetTheorems
import UosioCdt.Core.AssetWrap
import UosioCdt.Core.Datastream
import UosioCdt.Core.DatastreamTheorems
import UosioCdt.Core.Varint
import UosioCdt.Core.VarintTheorems
import UosioCdt.Core.FixedBytes
import UosioCdt.Core.Serialize
import UosioCdt.Core.RoundTrip
import UosioCdt.Core.BoundedBySize
import UosioCdt.Core.FixedBytesWords
import UosioCdt.Core.FixedBytesTheorems
import UosioCdt.Core.FixedBytesWordsTheorems
import UosioCdt.Core.Extensions
import UosioCdt.Core.Overwrite
import UosioCdt.Core.OverwriteTheorems
import UosioCdt.Core.Streams
import UosioCdt.Core.NameString
import UosioCdt.Core.NameTheorems
import UosioCdt.Core.NameSuffixTheorems
import UosioCdt.Core.SymbolCode
import UosioCdt.Core.SymbolTheorems
import UosioCdt.Core.AssetString
import UosioCdt.Core.AssetStringTheorems
import UosioCdt.Core.Time
import UosioCdt.Core.TimeTheorems
import UosioCdt.Core.Rope
import UosioCdt.Core.RopeTheorems
import UosioCdt.Core.RopeTextTheorems
import UosioCdt.Core.RopeRun
import UosioCdt.Core.RopeForms
import UosioCdt.Tools.NameTheorems
import UosioCdt.Malloc.Memory
import UosioCdt.Malloc.Manager
import UosioCdt.Malloc.Blocks
import UosioCdt.Malloc.HeapTheorems
import UosioCdt.Malloc.MergeTheorems
import UosioCdt.Malloc.FreedTheorems
import UosioCdt.Malloc.Ready
import UosioCdt.Malloc.MallocTheorems
import UosioCdt.Malloc.Run
import UosioCdt.Malloc.RunTheorems
import UosioCdt.Malloc.ReallocTheorems
import UosioCdt.Malloc.ReallocRunTheorems
import UosioCdt.Malloc.SimpleMalloc
import UosioCdt.Malloc.SimpleMallocTheorems
import UosioCdt.Malloc.SimpleRealloc
import UosioCdt.Malloc.SimpleReallocTheorems
import UosioCdt.Malloc.Wasm
import UosioCdt.Malloc.WasmTheorems
import UosioCdt.Malloc.WasmMalloc
import UosioCdt.Malloc.WasmMallocTheorems
import UosioCdt.Malloc.WasmRefinement
import UosioCdt.Contracts.Chain
import UosioCdt.Contracts.MultiIndex
import UosioCdt.Contracts.Index
import UosioCdt.Contracts.Invariant
import UosioCdt.Contracts.LookupTheorems
import UosioCdt.Contracts.IndexTheorems
import UosioCdt.Contracts.ChangeTheorems
import UosioCdt.Contracts.Calls
import UosioCdt.Contracts.ListChain
import UosioCdt.Contracts.RunTheorems
import UosioCdt.Contracts.IterationTheorems
import UosioCdt.Contracts.Singleton
import UosioCdt.Contracts.SingletonTheorems
import UosioCdt.Contracts.IndexNames
import UosioCdt.Contracts.HostBuffers
import UosioCdt.Contracts.HostBuffersTheorems
import UosioCdt.Contracts.ActionWrapper
import UosioCdt.Contracts.ActionWrapperTheorems
import UosioCdt.Contracts.Delivery
import UosioCdt.Contracts.Transaction
import UosioCdt.Native.Tester
import UosioCdt.Native.TesterTheorems
import UosioCdt.Native.Crt
import UosioCdt.Native.CrtTheorems
import UosioCdt.Object.Metadata
import UosioCdt.Object.MetadataTheorems
import UosioCdt.Rt.FixInt
import UosioCdt.Rt.FixIntTheorems
import UosioCdt.Rt.FloatInt
import UosioCdt.Rt.FloatIntTheorems
import UosioCdt.Native.FloatRounding
import UosioCdt.Native.FloatRoundingTheorems
import UosioCdt.Rt.IntRoundTrip
import UosioCdt.Link.InputChunks
import UosioCdt.Link.InputChunksTheorems
import UosioCdt.Link.Layout
import UosioCdt.Link.LayoutTheorems
import UosioCdt.Link.DataSection
import UosioCdt.Link.DataSectionTheorems
import UosioCdt.Link.Indexes
import UosioCdt.Link.IndexesTheorems
import UosioCdt.Link.Constructors
import UosioCdt.Link.SymbolTable
import UosioCdt.Tools.StubSymbols
import UosioCdt.Link.SymbolTableTheorems
import UosioCdt.Link.Resolution
