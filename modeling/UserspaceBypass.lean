import UserspaceBypass.LibStraightLine
import UserspaceBypass.X86Register
import UserspaceBypass.X86Operand
import UserspaceBypass.TranslateText
import UserspaceBypass.TranslateConflict
import UserspaceBypass.TranslateAssist
import UserspaceBypass.TranslateNormal
import UserspaceBypass.SimulateAbstract
import UserspaceBypass.SimulateConflict
import UserspaceBypass.SimulateNormal
import UserspaceBypass.SimulateStraightLine
import UserspaceBypass.TranslateSpecial
import UserspaceBypass.TranslateBlock
import UserspaceBypass.AllocationRoom
import UserspaceBypass.BlockDirty
import UserspaceBypass.BlockExit
import UserspaceBypass.CallProfile
import UserspaceBypass.ControlFlow
import UserspaceBypass.DaemonCompile
import UserspaceBypass.ExitCode
import UserspaceBypass.FlagSafety
import UserspaceBypass.IndirectJump
import UserspaceBypass.Install
import UserspaceBypass.LibMapM
import UserspaceBypass.LibMemory
import UserspaceBypass.LineStart
import UserspaceBypass.MaskSafety
import UserspaceBypass.Provenance
import UserspaceBypass.SlotTable
import UserspaceBypass.IndirectTransfer
import UserspaceBypass.SyscallPath
import UserspaceBypass.MissBalance
import UserspaceBypass.ProfileWindow
import UserspaceBypass.StoreBounds
import UserspaceBypass.DaemonHistory
import UserspaceBypass.Wrapper
import UserspaceBypass.OperandEncoding
import UserspaceBypass.OperandFaithful
import UserspaceBypass.StackWords
import UserspaceBypass.SpecialInst
import UserspaceBypass.SymbolTable
import UserspaceBypass.Memread
import UserspaceBypass.MissRepair
import UserspaceBypass.LibSimulation
import UserspaceBypass.ProgramSpec
import UserspaceBypass.LineTracks
import UserspaceBypass.ProgramRun
import UserspaceBypass.FrameSafety
import UserspaceBypass.VirtPtr
import UserspaceBypass.Chaining
