import VarahaCache.Http.Ttl
import VarahaCache.Hash.Tables
import VarahaCache.Hash.Concurrent
import VarahaCache.Storage.Concurrent
import VarahaCache.Storage.Recovery
import VarahaCache.Cache.LruLinked
import VarahaCache.Cache.Eviction
import VarahaCache.Cache.Concurrent
import VarahaCache.Cache.Coalesce
import VarahaCache.Cache.Streaming
import VarahaCache.Cache.Bans
import VarahaCache.Vcl.Rendering
import VarahaCache.Server.Dates
import VarahaCache.Server.Restarts
import VarahaCache.Server.Responses
import VarahaCache.Server.Subroutines
import VarahaCache.Server.Purge
import VarahaCache.Server.Replay
import VarahaCache.Server.Sharing
import VarahaCache.Server.Ranges
import VarahaCache.Server.Repeated
import VarahaCache.Transport.ResponseFraming
import VarahaCache.Vcl.Assignment
import VarahaCache.Vcl.Integers
import VarahaCache.Backend.Reconfiguration
import VarahaCache.Admin.Locks
import VarahaCache.Admin.VclManager
import VarahaCache.Backend.Health
import VarahaCache.Log.RingBuffer
import VarahaCache.Cache.Deadlines
import VarahaCache.Backend.ConnectionThreads
import VarahaCache.Backend.RandomDirector
import VarahaCache.Backend.RoundRobin
import VarahaCache.Transport.ProxyProto
import VarahaCache.Admin.Client
import VarahaCache.Filter.Esi
import VarahaCache.Filter.Gzip
import VarahaCache.Vmod.Blob
import VarahaCache.Vmod.QuerySort
import VarahaCache.Vmod.Cookie
import VarahaCache.Storage.Lru
import VarahaCache.Storage.FileThreads
