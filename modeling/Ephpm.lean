import Ephpm.Cluster.DatabaseElection
import Ephpm.Cluster.GossipKeys
import Ephpm.Cluster.Handshake
import Ephpm.Cluster.HotKeys
import Ephpm.Cluster.Landing
import Ephpm.Cluster.RequestCodec
import Ephpm.Cluster.SiteElection
import Ephpm.Cluster.StreamTransparency
import Ephpm.Db.ClientStream
import Ephpm.Db.MultiStatements
import Ephpm.Db.PoolClosed
import Ephpm.Db.PoolKeeping
import Ephpm.DbImport.Driver
import Ephpm.Fpm.Ceiling
import Ephpm.Fpm.Strength
import Ephpm.Kv.Completeness
import Ephpm.Kv.ExpireTime
import Ephpm.Kv.Glob
import Ephpm.Kv.Lock
import Ephpm.Kv.Rename
import Ephpm.Kv.Scan
import Ephpm.Kv.Sweep
import Ephpm.Kv.Volatile
import Ephpm.Kv.Watch
import Ephpm.Middleware.PreviewGate
import Ephpm.Middleware.Redirect
import Ephpm.Php.Jobs
import Ephpm.QueryStats.ValidText
import Ephpm.Resp.RoundTrip
import Ephpm.Server.ForwardedFor
import Ephpm.Server.Forwarding
import Ephpm.Server.Freshness
import Ephpm.Server.NewSite
import Ephpm.Server.Reclaiming
import Ephpm.Server.Replication
import Ephpm.Server.ServingGate
import Ephpm.Server.SiteBackends
import Ephpm.Ws.Isolation
