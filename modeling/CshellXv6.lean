import CshellXv6.Mlfq.Wake
import CshellXv6.Shell.ParserNodes
import CshellXv6.Shell.QuotedOperators
import CshellXv6.Shell.OneShell
import CshellXv6.Shell.Sequence
import CshellXv6.Shell.Syntax
import CshellXv6.Shell.ForegroundWait
import CshellXv6.Shell.BgInvariant
import CshellXv6.Shell.Activities
import CshellXv6.Shell.Ping
import CshellXv6.Shell.StageText
import CshellXv6.Mlfq.BoostEnds
import CshellXv6.Shell.Rewrites
import CshellXv6.Shell.PeekReverse
import CshellXv6.Shell.FrecencyTable
import CshellXv6.Shell.LocateRuns
import CshellXv6.Shell.RevealTree
import CshellXv6.Shell.RedirectSplit
import CshellXv6.Shell.StrReplace
import CshellXv6.Shell.Snoop
import CshellXv6.Shell.Hop
import CshellXv6.Shell.LexerBounds
import CshellXv6.Shell.NodeAccess
import CshellXv6.Shell.PipeFds
import CshellXv6.Xv6.PipeWaits
import CshellXv6.Xv6.Sleeplock
import CshellXv6.Xv6.LogCrash
import CshellXv6.Xv6.LogSync
import CshellXv6.Xv6.WaitRuns
import CshellXv6.Xv6.BioRuns
import CshellXv6.Xv6.ConsoleRuns
import CshellXv6.Shell.Spy
import CshellXv6.Xv6.FileWrite
