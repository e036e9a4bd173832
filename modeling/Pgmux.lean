import Pgmux.Streams
import Pgmux.Isolation
import Pgmux.ReadOnly
import Pgmux.Firewall
import Pgmux.CachedErrors
import Pgmux.StaleFill
import Pgmux.CachedBatches
import Pgmux.PoolWakeup
import Pgmux.Rejection
import Pgmux.ReadyDiscipline
import Pgmux.Pinning
import Pgmux.MuxExecution
import Pgmux.CacheRefinement
import Pgmux.ConnLimit
import Pgmux.DbGroup
import Pgmux.ApiReset
import Pgmux.BreakerAccounting
import Pgmux.RelayTransparency
import Pgmux.BreakerProbes
import Pgmux.Invalidator
import Pgmux.ReaderDemotion
import Pgmux.ApiResponse
import Pgmux.Placeholders
import Pgmux.BatchReset
import Pgmux.PreparedRouting
import Pgmux.TxFastPath
import Pgmux.LiteralValues
import Pgmux.Hints
import Pgmux.TableOffsets
import Pgmux.ParsePayload
import Pgmux.Startup
import Pgmux.RowDecoding
import Pgmux.IntegerParams
import Pgmux.StatementRegistry
import Pgmux.LimiterExact
import Pgmux.Selection
import Pgmux.AdminAuth
import Pgmux.Redaction
import Pgmux.Collector
import Pgmux.Lsn
import Pgmux.StringToken
