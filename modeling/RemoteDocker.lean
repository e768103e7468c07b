import RemoteDocker.Broker.Ownership
import RemoteDocker.Channel.InFrame
import RemoteDocker.Client.Collected
import RemoteDocker.Client.Gate
import RemoteDocker.Client.Pruned
import RemoteDocker.Client.WirePaths
import RemoteDocker.DirCache.CaseClash
import RemoteDocker.DirCache.Commit
import RemoteDocker.DirCache.Coverage
import RemoteDocker.DirCache.FillBudget
import RemoteDocker.DirCache.FillLayout
import RemoteDocker.DirCache.FillList
import RemoteDocker.DirCache.Kept
import RemoteDocker.DirCache.Landing
import RemoteDocker.DirCache.OwnDeletion
import RemoteDocker.DirCache.Quiescence
import RemoteDocker.DirCache.Ranking
import RemoteDocker.DirCache.Stored
import RemoteDocker.Enrol.FileLock
import RemoteDocker.Enrol.KeyFiles
import RemoteDocker.Enrol.Revoked
import RemoteDocker.Enrol.Undo
import RemoteDocker.Forwards.Reserved
import RemoteDocker.FsWatch.Announced
import RemoteDocker.Manage.LastAdmin
import RemoteDocker.Manage.Withdrawn
import RemoteDocker.NfsServe.Bounded
import RemoteDocker.NfsServe.Isolated
import RemoteDocker.NfsServe.StableRoots
import RemoteDocker.NfsServe.Stale
import RemoteDocker.Ports.Manager
import RemoteDocker.Rewrite.BindSpec
import RemoteDocker.Rewrite.KeptPorts
import RemoteDocker.Rewrite.ModeFor
import RemoteDocker.Rewrite.Requested
import RemoteDocker.Runs.InUse
import RemoteDocker.Sessions.Revocation
import RemoteDocker.Tunnels.Datagram
import RemoteDocker.Tunnels.Told
import RemoteDocker.Unions.OneSupervisor
import RemoteDocker.Unions.Replaced
import RemoteDocker.Workspace.VolumeNames
