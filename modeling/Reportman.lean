import Reportman.Backup
import Reportman.Faults
import Reportman.Frame
import Reportman.Containment
import Reportman.Inotify
import Reportman.NoLoss
import Reportman.Timers
import Reportman.Retention
import Reportman.EntryPoints
import Reportman.FmLoop
import Reportman.Messages
import Reportman.Panic
import Reportman.HealthProbe
import Reportman.Restarts
import Reportman.MonLoop
import Reportman.Spin
import Reportman.Descriptors
import Reportman.PipeEnds
import Reportman.Handshake
import Reportman.Probes
import Reportman.CloseFinal
import Reportman.Sigpipe
import Reportman.Orphans
import Reportman.Settings
import Reportman.MonitorLog
import Reportman.Singleton
import Reportman.Framing
import Reportman.Getters
import Reportman.ChildVector
import Reportman.Observed
import Reportman.ErrorCount
import Reportman.FreshCommand
import Reportman.Inactivity
import Reportman.Modes
import Reportman.Transaction
import Reportman.Access
import Reportman.Locks
import Reportman.Traversal
import Reportman.Numerals
import Reportman.Gregorian
import Reportman.NextTime
import Reportman.TimersReply
import Reportman.PipeBuffer
import Reportman.MonitorOptions
import Reportman.Copies
import Reportman.FormatStrings
import Reportman.SyslogFormats
import Reportman.LogPath
import Reportman.InitDirectories
import Reportman.Exclusion
import Reportman.Daemonize
import Reportman.Versions
import Reportman.Archive
import Reportman.Watches
import Reportman.Parallel
import Reportman.Concurrent
import Reportman.Halfway
import Reportman.Recovery
import Reportman.Interference
import Reportman.Ledger
import Reportman.Streams
import Reportman.Client
import Reportman.LogFile
import Reportman.Served
