import Olive.ParamEscapes
import Olive.BorrowLoop
import Olive.BorrowReplay
import Olive.BorrowSettled
import Olive.BorrowedReturnsSound
import Olive.GenBits
import Olive.GenCaptures
import Olive.GenCover
import Olive.ConstProp
import Olive.ConstPropSound
import Olive.Licm
import Olive.LicmAhead
import Olive.LicmSound
import Olive.Channel
import Olive.ChannelSends
import Olive.ChannelSound
import Olive.SimplifyCfg
import Olive.SimplifyCfgSound
import Olive.AssignedPaths
import Olive.CopyProp
import Olive.CopyPropSound
import Olive.Dce
import Olive.DceSound
import Olive.Gvn
import Olive.GvnSound
import Olive.DescriptorSound
import Olive.ExecutorSound
import Olive.ChunkSound
import Olive.GenSlabSound
import Olive.CombinatorsSound
import Olive.EqTypedSound
import Olive.HashTypedSound
import Olive.TailReturnSound
import Olive.ExhaustivenessSound
import Olive.AsyncSm
import Olive.AsyncSmBody
import Olive.AsyncSmSegments
import Olive.AsyncSmPolls
import Olive.AsyncSmSound
import Olive.AsyncSmRuns
import Olive.Liveness
import Olive.Worklist
import Olive.BorrowChecker
import Olive.BorrowPaths
import Olive.BorrowCheckerSound
import Olive.BorrowCheckerRuns
import Olive.Algebraic
import Olive.ScalarCode
import Olive.ConstFold
import Olive.Peephole
import Olive.OwnedRuns
import Olive.MoveElision
import Olive.MoveElisionMarks
import Olive.MoveElisionSound
import Olive.MoveElisionRuns
import Olive.MatchPatterns
import Olive.MatchNarrowing
import Olive.Utf8
import Olive.StrMethods
import Olive.RuntimeStrings
import Olive.RuntimeStringsSound
import Olive.Scoping
import Olive.ScopingSound
import Olive.Progression
import Olive.WrappingInt
import Olive.Slices
import Olive.RangeList
import Olive.PowerOfTwo
import Olive.StrengthReduction
import Olive.AnyBinop
import Olive.MeetTree
import Olive.DominatorTree
import Olive.DepthFirst
import Olive.Dominators
import Olive.NaturalLoops
import Olive.WorklistEnds
import Olive.BorrowCheckerEnds
import Olive.HashSets
import Olive.RuntimeSets
import Olive.RuntimeSetsSound
import Olive.Activations
import Olive.ActivationFrame
import Olive.TailCall
import Olive.TailCallSound
import Olive.TailCallKeeps
import Olive.StackWalk
import Olive.ListAppend
import Olive.ListAppendShape
import Olive.ApartLists
import Olive.ListAppendFrame
import Olive.ListAppendSound
import Olive.ListAppendKeeps
import Olive.Lines
import Olive.LineIndex
import Olive.LineIndexSound
import Olive.Fix
import Olive.FixSound
import Olive.StringUnits
import Olive.DictHeap
import Olive.BoxedReads
import Olive.HashMaps
import Olive.DictOwners
import Olive.DictRuns
import Olive.DictMap
import Olive.DictRefines
import Olive.ByteLists
import Olive.Buffers
import Olive.BufferOwners
import Olive.BufferSteps
import Olive.BufferRuns
import Olive.BufferRefines
import Olive.TraitDefaultsDesugar
import Olive.LivenessPaths
import Olive.MonthArithmetic
import Olive.FormatSpecSound
import Olive.JsonRoundTrip
import Olive.FStringsSound
import Olive.CallArgsSound
import Olive.ForRange
import Olive.ShadowStack
import Olive.DocLayout
import Olive.EditDistance
