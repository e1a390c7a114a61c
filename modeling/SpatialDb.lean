import SpatialDb.Cluster.Replication
import SpatialDb.Net.ConnPool
import SpatialDb.Net.ProtocolSound
import SpatialDb.Net.PubSub
import SpatialDb.Query.Engine
import SpatialDb.Query.Lexer
import SpatialDb.Server.AreaParse
import SpatialDb.Server.FieldBytes
import SpatialDb.Server.Get
import SpatialDb.Server.Guard
import SpatialDb.Server.HookMatch
import SpatialDb.Server.HookQueue
import SpatialDb.Server.JsonNumber
import SpatialDb.Server.FollowSync
import SpatialDb.Server.LegacyAof
import SpatialDb.Server.LiveAof
import SpatialDb.Server.Nearby
import SpatialDb.Server.Replica
import SpatialDb.Server.Roam
import SpatialDb.Server.ShrinkJset
import SpatialDb.Server.Where
import SpatialDb.Spatial.Bing
import SpatialDb.Spatial.BulkLoad
import SpatialDb.Spatial.GeoFence
import SpatialDb.Spatial.GeohashCover
import SpatialDb.Spatial.Grid
import SpatialDb.Spatial.Hilbert
import SpatialDb.Spatial.Index
import SpatialDb.Spatial.Knn
import SpatialDb.Spatial.QuadBounds
import SpatialDb.Spatial.RTreeShape
import SpatialDb.Spatial.S2Bridge
import SpatialDb.Storage.Aof
import SpatialDb.Storage.BloomFilter
import SpatialDb.Storage.Compactor
import SpatialDb.Storage.PageCache
import SpatialDb.Storage.SSTableFile
import SpatialDb.Storage.TtlSweep
