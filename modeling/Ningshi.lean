import Ningshi.Lib.BoundedMap
import Ningshi.Lib.Calendar
import Ningshi.Lib.FiniteMap
import Ningshi.Lib.JsonDoc
import Ningshi.Lib.Rename
import Ningshi.Lib.RustStr
import Ningshi.Lib.SwapRemove
import Ningshi.Lib.Trace
import Ningshi.Lib.Transition
import Ningshi.Clock
import Ningshi.Gate
import Ningshi.Packages
import Ningshi.Processes
import Ningshi.Rules
import Ningshi.Window
import Ningshi.Engine.State
import Ningshi.Engine.Reload
import Ningshi.Engine.Sync
import Ningshi.PackageChange
import Ningshi.Engine.Usage
import Ningshi.Engine.Verdict
import Ningshi.Schedule
import Ningshi.Engine.Tick
import Ningshi.BlockSet
import Ningshi.WakeUp
import Ningshi.Restart
import Ningshi.Daemon
import Ningshi.SystemUids
import Ningshi.SchemaVersion
import Ningshi.Protection
import Ningshi.ApplyTruth
import Ningshi.ReloadRetry
import Ningshi.Timezone
import Ningshi.BlockCopies
import Ningshi.Identity
import Ningshi.KillAgreement
import Ningshi.KillRace
import Ningshi.Killer
import Ningshi.KillerMessages
import Ningshi.GateBpf
import Ningshi.ReportSpacing
import Ningshi.ReportLoss
import Ningshi.LastGood
import Ningshi.ReloadRace
import Ningshi.WakeSpan
import Ningshi.Engine.Entries
import Ningshi.Engine.Cooldowns
import Ningshi.Engine.Refresh
import Ningshi.StaleCooldown
import Ningshi.RepeatedTick
import Ningshi.Lib.Cycle
import Ningshi.CooldownCycle
import Ningshi.Lib.Allowance
import Ningshi.ExtensionCap
import Ningshi.ExtensionEffect
import Ningshi.LiveScan
import Ningshi.Anchors
import Ningshi.Lib.JsonCarry
import Ningshi.WebRules
import Ningshi.WebContract
import Ningshi.Lib.EditLog
import Ningshi.WebFields
import Ningshi.WebSaves
import Ningshi.WeekWindows
import Ningshi.FailOpen
import Ningshi.PoolUsage
import Ningshi.CgroupSweep
import Ningshi.Lib.JsonGrowth
import Ningshi.CanonicalRules
import Ningshi.Lib.Handles
import Ningshi.Passes
import Ningshi.Descriptors
import Ningshi.LateMirror
import Ningshi.Lib.Claims
import Ningshi.KillCounts
import Ningshi.HealthCounters
import Ningshi.TimezoneOffset
import Ningshi.WindowTimes
import Ningshi.UserUids
import Ningshi.GroupSwitches
import Ningshi.Lib.Bursts
import Ningshi.Drain
import Ningshi.DataFiles
import Ningshi.PackageRace
import Ningshi.Inotify
import Ningshi.Socket
import Ningshi.MainLoop
import Ningshi.DayUsage
import Ningshi.KillerEnds
import Ningshi.LaunchEnds
import Ningshi.Pipeline
import Ningshi.TickOrder
import Ningshi.Lib.Countdown
import Ningshi.LimitReached
import Ningshi.WebPages
import Ningshi.WebStatus
import Ningshi.SingleDaemon
import Ningshi.SafetyNet
