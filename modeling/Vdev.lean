import Vdev.CString
import Vdev.Data
import Vdev.Action
import Vdev.Dispatch
import Vdev.LinkedList
import Vdev.Runs
import Vdev.WorkQueue
import Vdev.QueueOrder
import Vdev.Drain
import Vdev.Device
import Vdev.DeviceFrame
import Vdev.DeviceGrowth
import Vdev.DeviceKnown
import Vdev.Daemonlet
import Vdev.DaemonletRunner
import Vdev.Records
import Vdev.Sweep
import Vdev.DaemonletService
import Vdev.SweepSafety
import Vdev.DaemonletResult
import Vdev.Coldplug
import Vdev.ColdplugRelease
import Vdev.Tokens
import Vdev.Notification
import Vdev.Parsing
import Vdev.Preseed
import Vdev.AccessControl
import Vdev.AclFile
import Vdev.ConfigFile
import Vdev.Enumeration
import Vdev.Decimal
import Vdev.EventQueue
import Vdev.EventOrder
import Vdev.DaemonletReset
import Vdev.VdevfsMirror
import Vdev.DaemonletProcesses
import Vdev.DaemonletOrphans
import Vdev.Locking
import Vdev.Replacement
import Vdev.ReloadLock
import Vdev.Exchange
import Vdev.ExchangePairs
import Vdev.ExchangePile
import Vdev.Congruential
import Vdev.Nonce
import Vdev.CommandLine
import Vdev.ConfigFields
import Vdev.ActionFile
import Vdev.Startup
import Vdev.ReloadIdentity
import Vdev.Attempts
import Vdev.MetadataPaths
import Vdev.Staleness
import Vdev.MonitorTable
import Vdev.Cancellation
import Vdev.EventWatch
import Vdev.Multicast
import Vdev.EventPut
import Vdev.EchoEscapes
import Vdev.EventText
import Vdev.EventFormat
import Vdev.UdevIndex
import Vdev.Hwdb
import Vdev.HwdbPieces
import Vdev.HwdbLookup
import Vdev.HwdbAnswers
import Vdev.Matching
import Vdev.Renaming
import Vdev.DaemonletHandle
import Vdev.Reading
import Vdev.StatusLine
import Vdev.Subprocess
import Vdev.SubprocessPipe
import Vdev.HelperVariables
import Vdev.ActionFields
import Vdev.ActionLoading
import Vdev.PreseedLine
import Vdev.AddOutcome
import Vdev.Principals
import Vdev.OsLayer
import Vdev.SweptDevices
import Vdev.QueueWalk
import Vdev.SweepWalk
import Vdev.Precedence
import Vdev.UeventBuffer
import Vdev.Hotplug
import Vdev.PreseedBuffers
import Vdev.VdevfsImport
import Vdev.SysfsNames
import Vdev.SysfsParents
import Vdev.MonitorDestroy
import Vdev.MonitorFork
import Vdev.ReceiveEnds
import Vdev.EventCleanup
import Vdev.SeqnumField
import Vdev.ShellPatterns
import Vdev.UdevSymlinks
import Vdev.PropertyPrint
import Vdev.StreamEditor
import Vdev.Blkid
import Vdev.PathJoins
import Vdev.TrailingBlanks
import Vdev.SglibVectors
import Vdev.Transfers
import Vdev.DirectoryScan
import Vdev.DirectoryChains
import Vdev.UdevRules
import Vdev.UeventKeys
import Vdev.RedBlackTrees
import Vdev.SglibTrees
import Vdev.SglibOperations
import Vdev.SglibIterators
import Vdev.ParamTrees
import Vdev.CircularProbing
import Vdev.IndexRings
import Vdev.Hashmap
import Vdev.HashmapBuckets
import Vdev.HashmapPuts
import Vdev.HashmapResize
import Vdev.HashmapRemoval
import Vdev.HashmapOperations
import Vdev.HashmapIteration
