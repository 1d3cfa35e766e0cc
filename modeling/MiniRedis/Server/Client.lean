import MiniRedis.Command.Dispatch

/-!
# Connections

A connection slot holds a socket and two buffers. `handle_client_read` appends what `recv`
returned to the read buffer and then drains it: while bytes remain it parses one frame,
dispatches it and drops it, stops when the parser needs more bytes, and on a malformed frame
appends the protocol error and closes the slot. `handle_client_write` hands the write buffer to
`send` and keeps what `send` did not take.

The buffer capacities only size the allocations and are left out. Besides the slot and the
store, each call reports what it passed to `client_write_append` and, for the read, the requests
it dispatched: these are what a client of the server can observe.
-/

namespace MiniRedis

/-- `client_t`: the socket (`-1` for a free slot) and the contents of the two buffers. -/
structure Client where
  fd : Int
  readBuf : Bytes
  writeBuf : Bytes
  deriving DecidableEq, Repr

/-- `client_init`: a free slot. -/
def clientInit : Client := ⟨-1, [], []⟩

/-- `client_close`: close the socket, free both buffers and reset the slot. -/
def clientClose (_c : Client) : Client := clientInit

/-- `client_write_append`. -/
def clientWriteAppend (c : Client) (data : Bytes) : Client :=
  if data.length = 0 then c else { c with writeBuf := c.writeBuf ++ data }

/-- What `recv` returned: the bytes read (none at end of stream), or `-1` with an `errno`
that asks to retry or one that does not. -/
inductive RecvResult where
  | bytes (data : Bytes)
  | wouldBlock
  | failed

/-- What `send` returned: the count of bytes it took, or `-1` with an `errno` that asks to
retry or one that does not. -/
inductive SendResult where
  | sent (n : Nat)
  | wouldBlock
  | failed

/-- The effect of one call of `handle_client_read`. -/
structure ReadResult where
  /-- The store after the dispatched commands. -/
  store : Hashtable
  /-- The slot afterwards. -/
  client : Client
  /-- The bytes passed to `client_write_append`, in order. -/
  appended : Bytes
  /-- The requests passed to `dispatch_command`, in order. -/
  dispatched : List RespValue

/-- The reply to a malformed frame. -/
def protocolError : Bytes := respWriteError (ascii "ERR Protocol error")

/-- The parse-and-execute loop of `handle_client_read`; the `k`-th dispatch of the call reads
the clock as `clk k`. -/
def drainLoop (store : Hashtable) (c : Client) (clk : Nat → Nat → Int) (k : Nat) : ReadResult :=
  if 0 < c.readBuf.length ∧ 0 ≤ c.fd then
    match _h : respParse c.readBuf with
    | .needMore => ⟨store, c, [], []⟩
    | .malformed => ⟨store, clientClose (clientWriteAppend c protocolError), protocolError, []⟩
    | .parsed cmd consumed =>
      match dispatchCommand store cmd (clk k) with
      | (store', reply) =>
        let r := drainLoop store'
          { clientWriteAppend c reply with readBuf := c.readBuf.drop consumed } clk (k + 1)
        ⟨r.store, r.client, reply ++ r.appended, cmd :: r.dispatched⟩
  else ⟨store, c, [], []⟩
termination_by c.readBuf.length
decreasing_by
  have := (respParse_parsed _h).1
  simp_wf
  omega

/-- `handle_client_read` after `recv` returned `r`. -/
def handleClientRead (store : Hashtable) (c : Client) (r : RecvResult) (clk : Nat → Nat → Int) :
    ReadResult :=
  match r with
  | .bytes data =>
    if data.length = 0 then ⟨store, clientClose c, [], []⟩
    else drainLoop store { c with readBuf := c.readBuf ++ data } clk 0
  | .wouldBlock => ⟨store, c, [], []⟩
  | .failed => ⟨store, clientClose c, [], []⟩

/-- `handle_client_write` after `send` returned `r`: the slot afterwards and the bytes `send`
took. -/
def handleClientWrite (c : Client) (r : SendResult) : Client × Bytes :=
  if c.writeBuf.length = 0 then (c, [])
  else
    match r with
    | .sent n => ({ c with writeBuf := c.writeBuf.drop n }, c.writeBuf.take n)
    | .wouldBlock => (c, [])
    | .failed => (clientClose c, [])

end MiniRedis
