import MiniRedis.Server.Chunks

/-!
# The event loop

`main` polls the listening socket and every open slot. An accepted socket takes the first free
slot. A slot that `poll` reports is handled in the order of the loop body: hangup or error
closes it; readable runs `handle_client_read`, and a slot that this closed is skipped;
writable runs `handle_client_write`. A run is any sequence of such handlings, which covers
every order in which `poll` can report the slots.

A run also records what a client of the server observes: each accept, the bytes each read
passed to `client_write_append`, and the bytes each `send` took. `runServer_writeBuf` shows
that while a slot is open, what `send` took since the slot was accepted, followed by the write
buffer, is exactly what was appended since then: no byte is lost, duplicated or reordered by
partial sends. The drain loop of a read closes an open slot only on a malformed frame, right
after appending the protocol error (`drainLoop_close`): `runServer_protocolError` shows a run where
the slot is closed with the reply to an earlier request and the protocol error still unsent.
-/

namespace MiniRedis

/-- `MAX_CLIENTS`. -/
def maxClients : Nat := 1024

/-- The keyspace and the connection slots. -/
structure Server where
  store : Hashtable
  clients : List Client

/-- The server after `ht_create` and `client_init` on every slot. -/
def serverInit : Server := ⟨htCreate, List.replicate maxClients clientInit⟩

/-- What happens in one step of the loop. -/
inductive Event where
  /-- `accept` returned the socket `fd`. -/
  | accept (fd : Nat)
  /-- `poll` reported slot `i`: with hangup or error, readable with `recv` returning `recv`,
  writable with `send` returning `send`; the dispatches of the read take the readings `clk`. -/
  | ready (i : Nat) (hangup : Bool) (recv : Option RecvResult) (send : Option SendResult)
      (clk : Nat → Nat → Int)

/-- What a client of the server can observe. -/
inductive Obs where
  | accepted (i : Nat)
  | appended (i : Nat) (data : Bytes)
  | sent (i : Nat) (data : Bytes)

/-- Slot `i`, free when out of range. -/
def Server.client (s : Server) (i : Nat) : Client := s.clients.getD i clientInit

/-- The readable and writable part of the loop body for an open slot, after no hangup. -/
def serveSlot (store : Hashtable) (c : Client) (i : Nat) (recv : Option RecvResult)
    (send : Option SendResult) (clk : Nat → Nat → Int) : Hashtable × Client × List Obs :=
  let (store, c, obs) : Hashtable × Client × List Obs :=
    match recv with
    | none => (store, c, [])
    | some r =>
      let rr := handleClientRead store c r clk
      (rr.store, rr.client, [.appended i rr.appended])
  if c.fd < 0 then (store, c, obs)
  else
    match send with
    | none => (store, c, obs)
    | some w =>
      let (c, taken) := handleClientWrite c w
      (store, c, obs ++ [.sent i taken])

/-- One step of the loop. -/
def Server.step (s : Server) : Event → Server × List Obs
  | .accept fd =>
    match s.clients.findIdx? (·.fd = -1) with
    | some i => ({ s with clients := s.clients.set i { clientInit with fd := fd } }, [.accepted i])
    | none => (s, [])
  | .ready i hangup recv send clk =>
    if (s.client i).fd < 0 then (s, [])
    else if hangup then ({ s with clients := s.clients.set i (clientClose (s.client i)) }, [])
    else
      let (store, c, obs) := serveSlot s.store (s.client i) i recv send clk
      (⟨store, s.clients.set i c⟩, obs)

/-- A run: the server after the events, and what was observed, in order. -/
def runServer (s : Server) : List Event → Server × List Obs
  | [] => (s, [])
  | e :: es =>
    let (s', obs) := s.step e
    let (s'', obs') := runServer s' es
    (s'', obs ++ obs')

/-- One observation's effect on the bytes appended to slot `i` since its last accept. -/
def Obs.appendedTo (i : Nat) (acc : Bytes) : Obs → Bytes
  | .accepted j => if j = i then [] else acc
  | .appended j data => if j = i then acc ++ data else acc
  | .sent _ _ => acc

/-- One observation's effect on the bytes `send` took from slot `i` since its last accept. -/
def Obs.sentFrom (i : Nat) (acc : Bytes) : Obs → Bytes
  | .accepted j => if j = i then [] else acc
  | .appended _ _ => acc
  | .sent j data => if j = i then acc ++ data else acc

/-- The bytes appended to slot `i` since it was last accepted. -/
def appendedSince (i : Nat) (obs : List Obs) : Bytes := obs.foldl (Obs.appendedTo i) []

/-- The bytes `send` took from slot `i` since it was last accepted. -/
def sentSince (i : Nat) (obs : List Obs) : Bytes := obs.foldl (Obs.sentFrom i) []

/-! ## Buffers of one slot -/

/-- `client_write_append` appends to the write buffer. -/
@[simp] theorem clientWriteAppend_writeBuf (c : Client) (data : Bytes) :
    (clientWriteAppend c data).writeBuf = c.writeBuf ++ data := by
  unfold clientWriteAppend
  split_ifs with h
  · rw [List.eq_nil_of_length_eq_zero h, List.append_nil]
  · rfl

/-- A closed slot is free. -/
@[simp] theorem clientClose_fd (c : Client) : (clientClose c).fd = -1 := rfl

/-- While the slot stays open, the drain loop only appends to the write buffer. -/
theorem drainLoop_writeBuf (store : Hashtable) (c : Client) (clk : Nat → Nat → Int) (k : Nat)
    (hopen : 0 ≤ (drainLoop store c clk k).client.fd) :
    (drainLoop store c clk k).client.writeBuf = c.writeBuf ++ (drainLoop store c clk k).appended := by
  induction store, c, clk, k using drainLoop.induct with
  | case1 store c clk k h hp => rw [drainLoop_needMore _ _ _ _ h.1 h.2 hp, List.append_nil]
  | case2 store c clk k h hp =>
    rw [drainLoop_malformed _ _ _ _ h.1 h.2 hp] at hopen
    exact absurd hopen (by simp)
  | case3 store c clk k h cmd consumed hp store' reply hd ih =>
    rw [drainLoop_parsed _ _ _ _ h.1 h.2 hp, hd] at hopen ⊢
    have := ih hopen
    simp only [ReadResult.cons] at this ⊢
    rw [this, clientWriteAppend_writeBuf, List.append_assoc]
  | case4 store c clk k h => rw [drainLoop_stop _ _ _ _ h, List.append_nil]

/-- The drain loop closes an open slot only on a malformed frame: the slot is reset, and the
last bytes appended, now discarded with the write buffer, are the protocol error. -/
theorem drainLoop_close (store : Hashtable) (c : Client) (clk : Nat → Nat → Int) (k : Nat)
    (hfd : 0 ≤ c.fd) (hclosed : (drainLoop store c clk k).client.fd < 0) :
    (drainLoop store c clk k).client = clientInit ∧ protocolError <:+ (drainLoop store c clk k).appended := by
  induction store, c, clk, k using drainLoop.induct with
  | case1 store c clk k h hp =>
    rw [drainLoop_needMore _ _ _ _ h.1 h.2 hp] at hclosed; exact absurd h.2 (not_le.2 hclosed)
  | case2 store c clk k h hp => rw [drainLoop_malformed _ _ _ _ h.1 h.2 hp]; exact ⟨rfl, List.suffix_refl _⟩
  | case3 store c clk k h cmd consumed hp store' reply hd ih =>
    rw [drainLoop_parsed _ _ _ _ h.1 h.2 hp, hd] at hclosed ⊢
    obtain ⟨hc, hs⟩ := ih (by simpa using hfd) hclosed
    exact ⟨hc, hs.trans (List.suffix_append _ _)⟩
  | case4 store c clk k h => rw [drainLoop_stop _ _ _ _ h] at hclosed; exact absurd hfd (not_le.2 hclosed)

/-- While the slot stays open, a read only appends to the write buffer. -/
theorem handleClientRead_writeBuf (store : Hashtable) (c : Client) (r : RecvResult)
    (clk : Nat → Nat → Int) (hopen : 0 ≤ (handleClientRead store c r clk).client.fd) :
    (handleClientRead store c r clk).client.writeBuf =
      c.writeBuf ++ (handleClientRead store c r clk).appended := by
  cases r with
  | bytes data =>
    by_cases h : data.length = 0
    · simp [handleClientRead, h] at hopen
    · rw [handleClientRead, if_neg h] at hopen ⊢
      exact drainLoop_writeBuf _ _ _ _ hopen
  | wouldBlock => exact (List.append_nil _).symm
  | failed => simp [handleClientRead] at hopen

/-- While the slot stays open, a write hands `send` a prefix of the write buffer and keeps
the rest. -/
theorem handleClientWrite_writeBuf (c : Client) (w : SendResult)
    (hopen : 0 ≤ (handleClientWrite c w).1.fd) :
    (handleClientWrite c w).2 ++ (handleClientWrite c w).1.writeBuf = c.writeBuf := by
  unfold handleClientWrite at hopen ⊢
  split_ifs at hopen ⊢
  · exact List.nil_append _
  · cases w with
    | sent n => exact List.take_append_drop _ _
    | wouldBlock => exact List.nil_append _
    | failed => simp at hopen

/-! ## Every run -/

/-- The slot an observation is about. -/
def Obs.slot : Obs → Nat
  | .accepted i => i
  | .appended i _ => i
  | .sent i _ => i

/-- Observations about other slots leave the bytes of slot `i` as they are. -/
theorem foldl_of_slot_ne {i : Nat} {obs : List Obs} (h : ∀ o ∈ obs, o.slot ≠ i) (a s : Bytes) :
    obs.foldl (Obs.appendedTo i) a = a ∧ obs.foldl (Obs.sentFrom i) s = s := by
  induction obs generalizing a s with
  | nil => exact ⟨rfl, rfl⟩
  | cons o obs ih =>
    have ho := h o (List.mem_cons_self _ _)
    have hrest := ih (fun o' ho' => h o' (List.mem_cons_of_mem _ ho'))
    cases o <;> simp only [Obs.slot] at ho <;>
      simp only [List.foldl_cons, Obs.appendedTo, Obs.sentFrom, if_neg ho] <;> exact hrest a s

/-- The loop body for an open slot observes only that slot, and keeps its write buffer equal
to what was appended minus what `send` took. -/
theorem serveSlot_conserves (store : Hashtable) (c : Client) (i : Nat) (recv : Option RecvResult)
    (send : Option SendResult) (clk : Nat → Nat → Int) :
    (∀ o ∈ (serveSlot store c i recv send clk).2.2, o.slot = i) ∧
      ∀ {S A : Bytes}, S ++ c.writeBuf = A → 0 ≤ (serveSlot store c i recv send clk).2.1.fd →
        (serveSlot store c i recv send clk).2.2.foldl (Obs.sentFrom i) S ++
            (serveSlot store c i recv send clk).2.1.writeBuf =
          (serveSlot store c i recv send clk).2.2.foldl (Obs.appendedTo i) A := by
  cases recv <;> cases send <;> simp only [serveSlot] <;> split_ifs <;>
    simp [Obs.slot, Obs.appendedTo, Obs.sentFrom] <;> intro hopen
  · exact handleClientWrite_writeBuf _ _ hopen
  all_goals first
    | exact handleClientRead_writeBuf _ _ _ _ hopen
    | rw [handleClientWrite_writeBuf _ _ hopen]
      exact handleClientRead_writeBuf _ _ _ _ (by omega)

/-- Slot `i` after slot `j` is replaced by `c`. -/
theorem Server.client_set (st : Hashtable) (s : Server) (j : Nat) (c : Client) (i : Nat) :
    (⟨st, s.clients.set j c⟩ : Server).client i =
      if j = i ∧ j < s.clients.length then c else s.client i := by
  unfold Server.client
  rw [List.getD_eq_getElem?_getD, List.getD_eq_getElem?_getD, List.getElem?_set]
  by_cases hji : j = i
  · subst hji
    by_cases hl : j < s.clients.length
    · simp [hl]
    · simp [hl, List.getElem?_eq_none (Nat.le_of_not_lt hl)]
  · simp [hji]

/-- Every open slot's write buffer is what was appended to it since its accept, less what
`send` took since then. -/
def Server.Conserves (s : Server) (obs : List Obs) : Prop :=
  ∀ i, 0 ≤ (s.client i).fd → sentSince i obs ++ (s.client i).writeBuf = appendedSince i obs

/-- The bytes sent since the accept, over more observations. -/
theorem sentSince_append (i : Nat) (obs new : List Obs) :
    sentSince i (obs ++ new) = new.foldl (Obs.sentFrom i) (sentSince i obs) :=
  List.foldl_append _ _ _ _

/-- The bytes appended since the accept, over more observations. -/
theorem appendedSince_append (i : Nat) (obs new : List Obs) :
    appendedSince i (obs ++ new) = new.foldl (Obs.appendedTo i) (appendedSince i obs) :=
  List.foldl_append _ _ _ _

/-- Replacing slot `j` keeps the buffers conserved when the new observations are about `j`
only and account for the new slot's write buffer. -/
theorem Server.conserves_set {s : Server} {obs new : List Obs} {j : Nat} {c : Client}
    (st : Hashtable) (h : s.Conserves obs) (hslot : ∀ o ∈ new, o.slot = j)
    (hc : 0 ≤ c.fd → new.foldl (Obs.sentFrom j) (sentSince j obs) ++ c.writeBuf =
      new.foldl (Obs.appendedTo j) (appendedSince j obs)) :
    (⟨st, s.clients.set j c⟩ : Server).Conserves (obs ++ new) := by
  intro i hi
  rw [Server.client_set] at hi ⊢
  rw [sentSince_append, appendedSince_append]
  split_ifs at hi ⊢ with hji
  · exact hji.1 ▸ hc hi
  · by_cases hj : j = i
    · subst hj
      have hout : s.clients.length ≤ j := Nat.le_of_not_lt fun hl => hji ⟨rfl, hl⟩
      simp [Server.client, List.getElem?_eq_none hout, clientInit] at hi
    · obtain ⟨ha, hs⟩ := foldl_of_slot_ne (fun o ho => (hslot o ho).symm ▸ hj) (appendedSince i obs)
        (sentSince i obs)
      rw [ha, hs]
      exact h i hi

/-- The step lemma: every step of the loop keeps the write buffers conserved. -/
theorem Server.step_conserves {s : Server} {obs : List Obs} (h : s.Conserves obs) :
    ∀ e : Event, (s.step e).1.Conserves (obs ++ (s.step e).2)
  | .accept fd => by
    simp only [Server.step]
    split
    · refine Server.conserves_set _ h (by simp [Obs.slot]) fun _ => ?_
      simp [Obs.sentFrom, Obs.appendedTo, clientInit]
    · simpa using h
  | .ready j hangup recv send clk => by
    simp only [Server.step]
    split_ifs with hclosed hhang
    · simpa using h
    · exact Server.conserves_set _ h (by simp) fun hfd => absurd hfd (by simp)
    · exact Server.conserves_set _ h (serveSlot_conserves _ _ _ _ _ _).1
        ((serveSlot_conserves _ _ _ _ _ _).2 (h j (by omega)))

/-- The run lemma. -/
theorem runServer_conserves {s : Server} {obs : List Obs} (h : s.Conserves obs) :
    ∀ es : List Event, (runServer s es).1.Conserves (obs ++ (runServer s es).2)
  | [] => by simpa [runServer] using h
  | e :: es => by
    have := runServer_conserves (s.step_conserves h e) es
    simpa [runServer, List.append_assoc] using this

/-- In every run of the loop, while a slot is open, the bytes `send` took from it since it was
accepted, followed by its write buffer, are exactly the bytes appended to it since then. -/
theorem runServer_writeBuf (es : List Event) (i : Nat)
    (hopen : 0 ≤ ((runServer serverInit es).1.client i).fd) :
    sentSince i (runServer serverInit es).2 ++ ((runServer serverInit es).1.client i).writeBuf =
      appendedSince i (runServer serverInit es).2 := by
  have hinit : serverInit.Conserves [] := fun i hi => by
    simp [Server.client, serverInit, List.getD_eq_getElem?_getD, clientInit] at hi
  simpa using runServer_conserves hinit es i hopen

/-- A slot accepted and then sent a `PING` followed by a malformed byte: the read appends the
reply and the protocol error and closes the slot, so `send` takes neither, even when the slot
is writable in the same round. -/
theorem runServer_protocolError (clk : Nat → Nat → Int) :
    runServer serverInit [.accept 7,
        .ready 0 false (some (.bytes (ascii "*1\r\n$4\r\nPING\r\n!"))) (some (.sent 1024)) clk] =
      (⟨htCreate, (serverInit.clients.set 0 { clientInit with fd := 7 }).set 0 clientInit⟩,
        [.accepted 0, .appended 0 (ascii "+PONG\r\n-ERR Protocol error\r\n")]) := by
  have hp : respParse (ascii "*1\r\n$4\r\nPING\r\n!") =
      .parsed (.array [.bulkString (ascii "PING")]) 14 := rfl
  have hping : dispatchCommand htCreate (.array [.bulkString (ascii "PING")]) (clk 0) =
      (htCreate, ascii "+PONG\r\n") := rfl
  have hread : handleClientRead htCreate { clientInit with fd := 7 }
      (.bytes (ascii "*1\r\n$4\r\nPING\r\n!")) clk =
      ⟨htCreate, clientInit, ascii "+PONG\r\n-ERR Protocol error\r\n",
        [.array [.bulkString (ascii "PING")]]⟩ := by
    rw [handleClientRead_bytes _ _ _ (by decide), drainLoop_parsed _ _ _ _ (by decide) (by decide) hp,
      hping, drainLoop_malformed _ _ _ _ (by decide) (by decide) (by rfl)]
    rfl
  have hready : (Server.step ⟨htCreate, serverInit.clients.set 0 { clientInit with fd := 7 }⟩
      (.ready 0 false (some (.bytes (ascii "*1\r\n$4\r\nPING\r\n!"))) (some (.sent 1024)) clk)) =
      (⟨htCreate, (serverInit.clients.set 0 { clientInit with fd := 7 }).set 0 clientInit⟩,
        [.appended 0 (ascii "+PONG\r\n-ERR Protocol error\r\n")]) := by
    simp only [Server.step]
    rw [show Server.client ⟨htCreate, serverInit.clients.set 0 { clientInit with fd := 7 }⟩ 0 =
      { clientInit with fd := 7 } from rfl]
    simp only [serveSlot, hread]
    rfl
  have hacc : serverInit.step (.accept 7) =
      (⟨htCreate, serverInit.clients.set 0 { clientInit with fd := 7 }⟩, [.accepted 0]) := rfl
  simp only [runServer, hacc, hready]
  rfl

end MiniRedis
