import Xv6Plus.CollapseRace
import Xv6Plus.Console
import Xv6Plus.CopyExact
import Xv6Plus.CopyStr
import Xv6Plus.ExecArgs
import Xv6Plus.FsPath
import Xv6Plus.KallocExact
import Xv6Plus.Kill
import Xv6Plus.KmallocSize
import Xv6Plus.LogDisk
import Xv6Plus.MapRange
import Xv6Plus.PipeStream
import Xv6Plus.PipeWake
import Xv6Plus.Preempt
import Xv6Plus.ProcFree
import Xv6Plus.Shrink
import Xv6Plus.SigFork
import Xv6Plus.SlabFree
import Xv6Plus.SplitExact
import Xv6Plus.UmallocRun
import Xv6Plus.UnmapExact
import Xv6Plus.VirtioRun
