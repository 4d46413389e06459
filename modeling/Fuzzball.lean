import Fuzzball.OCaml
import Fuzzball.BitVectorCasts
import Fuzzball.VineSyntax
import Fuzzball.VineTypecheck
import Fuzzball.VineSemantics
import Fuzzball.ConstantFold
import Fuzzball.ConstantFoldConstants
import Fuzzball.ConstantFoldAgreement
import Fuzzball.ConstantFoldCasts
import Fuzzball.ConstantFoldAlgebra
import Fuzzball.ConstantFoldExact
import Fuzzball.ConstantFoldSound
import Fuzzball.AvlMap
import Fuzzball.IntervalTree
import Fuzzball.IntervalDisjoint
import Fuzzball.GranularMemory
import Fuzzball.StateInvariants
import Fuzzball.GranularBytes
import Fuzzball.GranularReads
import Fuzzball.Patch
import Fuzzball.GranularContents
import Fuzzball.GranularFlat
import Fuzzball.GranularSnapshot
import Fuzzball.GranularLoads
import Fuzzball.IntervalWritten
import Fuzzball.IntervalReads
import Fuzzball.OCamlFormat
import Fuzzball.Heap
import Fuzzball.IntervalRecords
import Fuzzball.PointerManagement
import Fuzzball.PointerAreas
import Fuzzball.Machine
import Fuzzball.PointerSnapshot
import Fuzzball.DecisionTreeNode
import Fuzzball.DecisionTreeStore
import Fuzzball.Declarations
import Fuzzball.StatefulExceptions
import Fuzzball.FormulaManager
import Fuzzball.FormulaManagerState
import Fuzzball.FormulaManagerMemory
import Fuzzball.FormulaManagerWalk
import Fuzzball.FormulaManagerQueries
import Fuzzball.FormulaManagerRuns
import Fuzzball.SingleAssignment
import Fuzzball.Asmir
import Fuzzball.DivModU128
import Fuzzball.X86Flags
import Fuzzball.FlagCode
import Fuzzball.I386Flags
import Fuzzball.I386FlagValues
import Fuzzball.I386FlagCode
import Fuzzball.Multiply128
import Fuzzball.X64Flags
import Fuzzball.X64FlagValues
import Fuzzball.X64FlagCode
import Fuzzball.X64Thunk
import Fuzzball.X64ModifyFlags
import Fuzzball.BinaryDecisionTreeReach
import Fuzzball.Statements
import Fuzzball.CountZeros
import Fuzzball.ControlFlow
import Fuzzball.ByteMemory
import Fuzzball.CompareAndSwap
import Fuzzball.RotateCarry
import Fuzzball.RotateThroughCarry
import Fuzzball.BitVectorLanes
import Fuzzball.SimdLanes
import Fuzzball.ArmFlags
import Fuzzball.ArmModifyFlags
import Fuzzball.ArmThunk
import Fuzzball.ArmFlagCode
import Fuzzball.ByteStore
import Fuzzball.X64GuestState
import Fuzzball.X64GuestAccess
import Fuzzball.X64GuestRefinement
import Fuzzball.X64GuestIndexed
import Fuzzball.StackTracking
import Fuzzball.CgcBitmaps
import Fuzzball.Simulation
import Fuzzball.VineStatements
import Fuzzball.FragmentRuns
import Fuzzball.RemoveUnused
import Fuzzball.DeadAssigns
import Fuzzball.FragmentWords
import Fuzzball.CopyProp
import Fuzzball.SplitDivmod
import Fuzzball.StatefulBisimulation
import Fuzzball.CgcHandler
import Fuzzball.CgcSnapshot
import Fuzzball.VineValues
import Fuzzball.MemoRecursion
import Fuzzball.ExprTemps
import Fuzzball.AddressWidths
import Fuzzball.AddressSignedWidths
import Fuzzball.AddressZeros
import Fuzzball.AddressStrides
import Fuzzball.AddressTerms
import Fuzzball.ConstantFoldMore
import Fuzzball.LetsToMoves
import Fuzzball.Peephole
import Fuzzball.SimplifyRec
import Fuzzball.TableWidth
import Fuzzball.ByteRecords
import Fuzzball.SmtNames
import Fuzzball.InfluenceBounds
import Fuzzball.ConcreteDomain
import Fuzzball.ConstantShifts
import Fuzzball.SymbolicDomain
import Fuzzball.PartialUpdates
import Fuzzball.QueryBounds
import Fuzzball.LoaderMemory
import Fuzzball.LinuxLoader
import Fuzzball.TableStore
import Fuzzball.IntervalRemove
import Fuzzball.FastTypes
import Fuzzball.MissingRandom
import Fuzzball.ConcreteMemory
import Fuzzball.StringMemories
import Fuzzball.PageCopies
import Fuzzball.OCamlNumerals
import Fuzzball.SolverAnswers
import Fuzzball.Escapes
import Fuzzball.ReturnAddresses
import Fuzzball.TableLookup
import Fuzzball.Concretization
import Fuzzball.RegionBase
import Fuzzball.X64StateArea
import Fuzzball.VeritestingNodes
import Fuzzball.VeritestingControl
import Fuzzball.FragMarshal
import Fuzzball.FragMarshalRoundTrip
import Fuzzball.SmtTerms
import Fuzzball.SmtTranslate
import Fuzzball.SmtMeaning
import Fuzzball.SmtNodes
import Fuzzball.SmtWords
import Fuzzball.SmtExact
import Fuzzball.ChoiceTree
import Fuzzball.BinaryDecisionTreeCharts
import Fuzzball.BinaryDecisionTreeSides
import Fuzzball.BinaryDecisionTreeExtensions
import Fuzzball.BinaryDecisionTreeTries
import Fuzzball.BinaryDecisionTreeCounts
import Fuzzball.BinaryDecisionTreeMarks
import Fuzzball.PathExploration
import Fuzzball.PathExplorationRuns
