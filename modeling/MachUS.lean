import MachUS.Auth.Closure
import MachUS.Auth.DatabaseRuns
import MachUS.Auth.IdRange
import MachUS.Auth.NameTableRuns
import MachUS.Auth.SessionIsolation
import MachUS.Dir.DirectoryRuns
import MachUS.Dir.Insertions
import MachUS.Dir.LifeCycle
import MachUS.Dlong.Macros
import MachUS.Dlong.Text
import MachUS.Interrupt.RegionRuns
import MachUS.Io.SeveredChains
import MachUS.Io.StreamRuns
import MachUS.Io.WakeupRuns
import MachUS.Lookup.Stepwise
import MachUS.Mapped.CleaningRuns
import MachUS.Mapped.ClientAlone
import MachUS.Naming.CleanedPath
import MachUS.Naming.TokenChange
import MachUS.Pipenet.Agents
import MachUS.Pipenet.ConnectorRuns
import MachUS.Pipenet.UserData
import MachUS.Records.RecordRuns
import MachUS.Records.RoundTrip
import MachUS.Rpc.ArgScan
import MachUS.Rpc.CloneReset
import MachUS.Rpc.HandlerThreads
import MachUS.Rpc.MethodTables
import MachUS.Rpc.NoSenders
import MachUS.Rpc.PackBounds
import MachUS.Rpc.PortProtocol
import MachUS.Tm.GroupRuns
import MachUS.Tm.LockOrder
import MachUS.Tm.RegistrationRuns
import MachUS.Tm.SessionRuns
import MachUS.Tm.StopState
import MachUS.Tm.TaskIds
import MachUS.Tm.TimerDelay
import MachUS.Tm.TimerRuns
import MachUS.Ufs.CacheRanges
import MachUS.Ufs.DirFormat
import MachUS.Ufs.DirScanRuns
import MachUS.Ufs.DirVolumes
import MachUS.Ufs.SleepLockRuns
import MachUS.Ux.AccessDecision
import MachUS.Ux.AuthidMaps
import MachUS.Ux.Delivery
import MachUS.Ux.DirRead
import MachUS.Ux.FtabRuns
import MachUS.Ux.IdentityRuns
import MachUS.Ux.ProtectionUpdates
import MachUS.Ux.SelectRuns
import MachUS.Ux.StdProtection
import MachUS.Vnode.FileRuns
