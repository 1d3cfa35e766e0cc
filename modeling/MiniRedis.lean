import MiniRedis.Basic
import MiniRedis.Resp.Parse
import MiniRedis.Resp.Prefix
import MiniRedis.Resp.Write
import MiniRedis.Resp.Grammar
import MiniRedis.Resp.RoundTrip
import MiniRedis.Resp.Alloc
import MiniRedis.Hashtable.Basic
import MiniRedis.Hashtable.Probe
import MiniRedis.Hashtable.Resize
import MiniRedis.Hashtable.Ops
import MiniRedis.Hashtable.Iter
import MiniRedis.Hashtable.Run
import MiniRedis.Hashtable.Refinement
import MiniRedis.Hashtable.Capacity
import MiniRedis.Command.Glob
import MiniRedis.Command.GlobSpec
import MiniRedis.Command.Handlers
import MiniRedis.Command.ParseInt
import MiniRedis.Command.Dispatch
import MiniRedis.Command.Invariant
import MiniRedis.Command.Clock
import MiniRedis.Command.Instant
import MiniRedis.Command.Keyspace
import MiniRedis.Command.Laws
import MiniRedis.Server.Client
import MiniRedis.Server.Chunks
import MiniRedis.Server.Loop
import MiniRedis.Server.Keyspace
