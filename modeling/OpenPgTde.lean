import OpenPgTde.Lib.Effect
import OpenPgTde.Lib.Aead
import OpenPgTde.Lib.SlotArray
import OpenPgTde.Encryption
import OpenPgTde.Keyring
import OpenPgTde.Server
import OpenPgTde.KeyMap.File
import OpenPgTde.KeyMap.Specs
import OpenPgTde.WalKeys.File
import OpenPgTde.WalKeys.Specs
import OpenPgTde.PrincipalKey.Operations
import OpenPgTde.PrincipalKey.Step
import OpenPgTde.PrincipalKey.Programs
import OpenPgTde.KeyMap.RelationKeys
import OpenPgTde.PrincipalKey.Lifecycle
import OpenPgTde.PrincipalKey.Default
import OpenPgTde.PrincipalKey.Interrupted
import OpenPgTde.KeyMap.Refinement
import OpenPgTde.KeyMap.Migration
import OpenPgTde.WalKeys.Rotation
import OpenPgTde.Replication.Redo
import OpenPgTde.Replication.Primary
import OpenPgTde.Replication.Standby
import OpenPgTde.Replication.Agreement
import OpenPgTde.Replication.Apart
import OpenPgTde.Replication.Recovery
import OpenPgTde.Lib.Breakpoints
import OpenPgTde.Xlog.CryptBuffer
import OpenPgTde.Xlog.Smgr
import OpenPgTde.Xlog.PerByte
import OpenPgTde.Xlog.Process
import OpenPgTde.Xlog.Runs
import OpenPgTde.Xlog.RangeList
import OpenPgTde.Xlog.Receive
import OpenPgTde.Frontend.Wal
import OpenPgTde.Frontend.Archive
import OpenPgTde.WalKeys.Migration
import OpenPgTde.WalKeys.Torn
import OpenPgTde.Smgr.Relation
import OpenPgTde.Smgr.Specs
import OpenPgTde.Smgr.Runs
import OpenPgTde.Smgr.Async
import OpenPgTde.EventCapture.Nesting
import OpenPgTde.EventCapture.Alter
import OpenPgTde.Lib.Splice
import OpenPgTde.Lib.Records
import OpenPgTde.Keyring.File
import OpenPgTde.TempFile.BufFile
import OpenPgTde.TempFile.Plain
import OpenPgTde.TempFile.Transparency
import OpenPgTde.TempFile.Shared
import OpenPgTde.Providers.Operations
import OpenPgTde.Providers.Specs
import OpenPgTde.Providers.File
import OpenPgTde.Lib.SlotLog
import OpenPgTde.Providers.Replay
import OpenPgTde.Providers.InUse
import OpenPgTde.Providers.Binding
import OpenPgTde.PrincipalKey.Lookup
import OpenPgTde.PrincipalKey.Attempt
import OpenPgTde.Providers.Deletion
import OpenPgTde.Providers.Names
import OpenPgTde.Concurrency.SmgrKey
import OpenPgTde.Concurrency.DefaultKey
import OpenPgTde.Concurrency.Provider
import OpenPgTde.KeyMap.Torn
import OpenPgTde.Encryption.ContextCache
import OpenPgTde.Keyring.Options
import OpenPgTde.Providers.Offline
import OpenPgTde.Rewind.Perform
import OpenPgTde.Rewind.Wal
import OpenPgTde.Keyring.OpenBao
import OpenPgTde.Keyring.Response
import OpenPgTde.Keyring.MountInfo
import OpenPgTde.Keyring.Address
import OpenPgTde.Rewind.Scan
import OpenPgTde.Rewind.FileMap
import OpenPgTde.Rewind.Segments
import OpenPgTde.Frontend.Checksums
import OpenPgTde.Rewind.Files
import OpenPgTde.Rewind.LocalSource
import OpenPgTde.WalKeys.Startup
import OpenPgTde.EventCapture.Databases
import OpenPgTde.Lib.Bitmap
import OpenPgTde.Rewind.PageMap
import OpenPgTde.Basebackup.Inject
