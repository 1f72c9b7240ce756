import Mosura.Lib.Window
import Mosura.Funcdata
import Mosura.NzmaskWide
import Mosura.NzmaskSound
import Mosura.NzmaskTermination
import Mosura.ConstFoldSound
import Mosura.SchedulingSound
import Mosura.SessionUpdates
import Mosura.ImageBudget
import Mosura.Recompile.VerifyAgree
import Mosura.ImageDecode
import Mosura.TblRoundTrip
import Mosura.EmuSound
import Mosura.CoverSound
import Mosura.EditRuns
import Mosura.OrientationSound
import Mosura.SurgeryRuns
import Mosura.CompareExact
import Mosura.FlagSound
import Mosura.Lib.Dominance
import Mosura.Symbolic
import Mosura.SymbolicImage
import Mosura.SymbolicRuns
import Mosura.SymbolicSound
import Mosura.RangeIntersect
import Mosura.RangeChecks
import Mosura.PullBackTests
import Mosura.ThreeWaySound
import Mosura.ExpandLoad
import Mosura.ExpandLoadSound
import Mosura.ConnectCfg
import Mosura.DominanceFrontier
import Mosura.Join
import Mosura.JoinCut
import Mosura.JoinRecords
import Mosura.JoinSound
import Mosura.Lib.Runs
import Mosura.RangeCompare
import Mosura.RangeContainer
import Mosura.RangeMask
import Mosura.Recompile.AlignScript
import Mosura.TblHostile
import Mosura.CalcDivisor
import Mosura.SessionFaults
import Mosura.Lib.Text
import Mosura.Options
import Mosura.OptionsTag
import Mosura.AddressSetAlgebra
import Mosura.ReferenceManager
import Mosura.ReferenceSound
import Mosura.Lib.BitRing
import Mosura.EmuM68k
import Mosura.EmuM68kSound
import Mosura.DivisionTrap
import Mosura.DivisionTrapSound
import Mosura.SleighBuild
import Mosura.SleighLabels
import Mosura.SleighLabelsSound
import Mosura.SleighSlots
import Mosura.DivRules
import Mosura.DivChainSound
import Mosura.RemSound
import Mosura.LocationMapRuns
import Mosura.Recompile.WatschedLegal
import Mosura.Recompile.NopSound
import Mosura.RefineSound
import Mosura.BooleanMatchSound
import Mosura.FlipInPlaceSound
import Mosura.SwitchNormSound
import Mosura.BlockJoinSound
import Mosura.GuardFoldSound
import Mosura.ValueSetSolve
import Mosura.StructureLoopsLabels
import Mosura.ScopeBreakSound
import Mosura.PhiPlacementSound
import Mosura.EmuBcd
