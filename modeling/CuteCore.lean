import CuteCore.Task.Isolation
import CuteCore.Trap.Trapvec
import CuteCore.Block.CacheRefinement
import CuteCore.Mm.CacheRuns
import CuteCore.Fs.AllocRuns
import CuteCore.Mm.Copyout
import CuteCore.Mm.KernelMap
import CuteCore.Mm.Uvmalloc
import CuteCore.Fs.Addressing
import CuteCore.Fs.CallRuns
import CuteCore.Fs.OpenFile
import CuteCore.Fs.Unlinking
import CuteCore.Fs.Owners
import CuteCore.Task.Argv
import CuteCore.Task.Pids
import CuteCore.Task.Teardown
import CuteCore.Fs.Parents
import CuteCore.Fs.Freeing
import CuteCore.Task.Allocproc
import CuteCore.Console.Formats
import CuteCore.Mm.SlabInit
import CuteCore.Mm.Freewalk
import CuteCore.Fs.FileLifetimes
import CuteCore.Driver.BlockMap
import CuteCore.Fs.SharedFiles
import CuteCore.Fs.DirMap
import CuteCore.Task.Switch
import CuteCore.Block.CacheOverDriver
import CuteCore.Block.Crash
import CuteCore.Driver.Uart
import CuteCore.Driver.Handshake
import CuteCore.Trap.Syscalls
import CuteCore.Trap.Nested
import CuteCore.Boot.Entry
import CuteCore.Lib.Strings
