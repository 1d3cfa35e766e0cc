import MiniRedis.Server.Loop
import MiniRedis.Command.Invariant
import MiniRedis.Command.Laws

/-!
# The server over the abstract keyspace

The event loop reaches the store only through `dispatch_command`. So the table invariant holds
after every run from the initial server, whatever the events and the clock readings
(`runServer_inv`).

`AbsServer` is the same event loop with the table replaced by the abstract keyspace and each
dispatch by `AbsDispatch` at the instant the dispatch reads. `runServer_refines` shows that
every run of the server in which each dispatch reads one instant, and the instants never
decrease, is observed by the clients (accepts, appended replies, bytes sent) as a run of the
abstract server: hashing, probing, tombstones, resizing and lazy expiry are invisible at the
sockets. The step lemmas follow the loop: the drain loop (`drainLoop_refines`), one read, one
slot, one event, then the run. Along the same drain loop, a read changes the keyspace only at the
keys its requests name (`handleClientRead_unnamed`).
-/

namespace MiniRedis

/-! ## The table invariant over every run -/

/-- The drain loop keeps the table invariant, whatever the requests and the readings. -/
theorem drainLoop_inv (store : Hashtable) (c : Client) (clk : Nat → Nat → Int) (k : Nat)
    (hinv : store.Inv) : (drainLoop store c clk k).store.Inv := by
  induction store, c, clk, k using drainLoop.induct with
  | case1 store c clk k h hp => rw [drainLoop_needMore _ _ _ _ h.1 h.2 hp]; exact hinv
  | case2 store c clk k h hp => rw [drainLoop_malformed _ _ _ _ h.1 h.2 hp]; exact hinv
  | case3 store c clk k h cmd consumed hp store' reply hd ih =>
    have hinv' := dispatchCommand_inv hinv cmd (clk k)
    rw [hd] at hinv'
    rw [drainLoop_parsed _ _ _ _ h.1 h.2 hp, hd]
    exact ih hinv'
  | case4 store c clk k h => rw [drainLoop_stop _ _ _ _ h]; exact hinv

/-- `handle_client_read` keeps the table invariant. -/
theorem handleClientRead_inv {store : Hashtable} (hinv : store.Inv) (c : Client) (r : RecvResult)
    (clk : Nat → Nat → Int) : (handleClientRead store c r clk).store.Inv := by
  unfold handleClientRead
  split
  · split_ifs
    · exact hinv
    · exact drainLoop_inv _ _ _ _ hinv
  all_goals exact hinv

/-- The writable part of the loop body, after the read left the slot `c` and the
observations `obs`. -/
def writePhase (c : Client) (i : Nat) (send : Option SendResult) (obs : List Obs) :
    Client × List Obs :=
  if c.fd < 0 then (c, obs)
  else
    match send with
    | none => (c, obs)
    | some w => ((handleClientWrite c w).1, obs ++ [.sent i (handleClientWrite c w).2])

/-- The loop body for an open slot is the read, then `writePhase`. -/
theorem serveSlot_eq (store : Hashtable) (c : Client) (i : Nat) (recv : Option RecvResult)
    (send : Option SendResult) (clk : Nat → Nat → Int) :
    serveSlot store c i recv send clk = match recv with
      | none => (store, writePhase c i send [])
      | some r => ((handleClientRead store c r clk).store,
          writePhase (handleClientRead store c r clk).client i send
            [.appended i (handleClientRead store c r clk).appended]) := by
  cases recv <;> cases send <;> simp only [serveSlot, writePhase] <;> split_ifs <;> rfl

/-- The step lemma of the invariant: no event breaks it. -/
theorem Server.step_inv {s : Server} (hinv : s.store.Inv) : ∀ e : Event, (s.step e).1.store.Inv
  | .accept fd => by
    simp only [Server.step]
    split <;> exact hinv
  | .ready i hangup recv send clk => by
    simp only [Server.step]
    split_ifs
    · exact hinv
    · exact hinv
    · rw [serveSlot_eq]
      cases recv
      · exact hinv
      · exact handleClientRead_inv hinv _ _ _

/-- The run lemma of the table invariant. -/
theorem runServer_inv_of {s : Server} (hinv : s.store.Inv) :
    ∀ es : List Event, (runServer s es).1.store.Inv
  | [] => hinv
  | e :: es => runServer_inv_of (s.step_inv hinv e) es

/-- After every run of the event loop from the start, whatever the events and the clock
readings, the table has its invariant. -/
theorem runServer_inv (es : List Event) : (runServer serverInit es).1.store.Inv :=
  runServer_inv_of htCreate_inv es

/-! ## The abstract server -/

/-- The drain loop of `handle_client_read` over the abstract keyspace: the `k`-th dispatch is
the abstract command at the instant `clk k 0`. The indices are the map, the slot and the bytes
appended at the end. -/
inductive AbsDrain (clk : Nat → Nat → Int) : AbsMap → Client → Nat → AbsMap → Client → Bytes → Prop
  | stop {M c k} : ¬(0 < c.readBuf.length ∧ 0 ≤ c.fd) → AbsDrain clk M c k M c []
  | needMore {M c k} : 0 < c.readBuf.length → 0 ≤ c.fd → respParse c.readBuf = .needMore →
      AbsDrain clk M c k M c []
  | malformed {M c k} : 0 < c.readBuf.length → 0 ≤ c.fd → respParse c.readBuf = .malformed →
      AbsDrain clk M c k M (clientClose (clientWriteAppend c protocolError)) protocolError
  | parsed {M c k cmd consumed reply M₁ M₂ c₂ app} : 0 < c.readBuf.length → 0 ≤ c.fd →
      respParse c.readBuf = .parsed cmd consumed → AbsDispatch (clk k 0) M cmd reply M₁ →
      AbsDrain clk M₁ { clientWriteAppend c reply with readBuf := c.readBuf.drop consumed } (k + 1)
        M₂ c₂ app →
      AbsDrain clk M c k M₂ c₂ (reply ++ app)

/-- `handle_client_read` over the abstract keyspace. -/
def AbsRead (clk : Nat → Nat → Int) (M : AbsMap) (c : Client) :
    RecvResult → AbsMap → Client → Bytes → Prop
  | .bytes data, M', c', app =>
    if data.length = 0 then M' = M ∧ c' = clientClose c ∧ app = []
    else AbsDrain clk M { c with readBuf := c.readBuf ++ data } 0 M' c' app
  | .wouldBlock, M', c', app => M' = M ∧ c' = c ∧ app = []
  | .failed, M', c', app => M' = M ∧ c' = clientClose c ∧ app = []

/-- The loop body for an open slot over the abstract keyspace. -/
def AbsServe (clk : Nat → Nat → Int) (M : AbsMap) (c : Client) (i : Nat)
    (recv : Option RecvResult) (send : Option SendResult) (M' : AbsMap) (c' : Client)
    (obs : List Obs) : Prop :=
  match recv with
  | none => M' = M ∧ (c', obs) = writePhase c i send []
  | some r => ∃ c₁ app, AbsRead clk M c r M' c₁ app ∧ (c', obs) = writePhase c₁ i send [.appended i app]

/-- The abstract keyspace and the connection slots. -/
structure AbsServer where
  keyspace : AbsMap
  clients : List Client

/-- Slot `i`, free when out of range. -/
def AbsServer.client (a : AbsServer) (i : Nat) : Client := a.clients.getD i clientInit

/-- One step of the loop over the abstract keyspace. -/
def AbsServer.Step (a : AbsServer) : Event → AbsServer → List Obs → Prop
  | .accept fd, a', obs =>
    match a.clients.findIdx? (·.fd = -1) with
    | some i => a' = { a with clients := a.clients.set i { clientInit with fd := fd } } ∧
        obs = [.accepted i]
    | none => a' = a ∧ obs = []
  | .ready i hangup recv send clk, a', obs =>
    if (a.client i).fd < 0 then a' = a ∧ obs = []
    else if hangup then a' = { a with clients := a.clients.set i (clientClose (a.client i)) } ∧ obs = []
    else ∃ M' c', AbsServe clk a.keyspace (a.client i) i recv send M' c' obs ∧
      a' = ⟨M', a.clients.set i c'⟩

/-- The runs of the abstract server and what they let the clients observe. -/
inductive AbsServer.Run : AbsServer → List Event → List Obs → Prop
  | nil (a : AbsServer) : AbsServer.Run a [] []
  | cons {a a' : AbsServer} {e : Event} {es : List Event} {obs obs' : List Obs} :
      a.Step e a' obs → AbsServer.Run a' es obs' → AbsServer.Run a (e :: es) (obs ++ obs')

/-! ## Clocks -/

/-- Every dispatch of a read takes one instant; the instants do not decrease and lie in
`[t, t']`. -/
def ReadClock (t t' : Int) (clk : Nat → Nat → Int) : Prop :=
  ∀ k, (∀ j, clk k j = clk k 0) ∧ t ≤ clk k 0 ∧ clk k 0 ≤ clk (k + 1) 0 ∧ clk k 0 ≤ t'

/-- The clock readings of an event lie in `[t, t']`. -/
def Event.Clocked (t t' : Int) : Event → Prop
  | .accept _ => t ≤ t'
  | .ready _ _ _ _ clk => t ≤ t' ∧ ReadClock t t' clk

/-- A run whose events take their clock readings in successive intervals from `t` on. -/
def ClockedRun : Int → List Event → Prop
  | _, [] => True
  | t, e :: es => ∃ t', e.Clocked t t' ∧ ClockedRun t' es

/-! ## The simulation -/

section Simulation

variable {t t' : Int} {clk : Nat → Nat → Int}

/-- The drain loop simulates the abstract one, from a table refining `M` at any instant up to
the next dispatch's; the table it leaves refines the map at the read's last instant `t'`. -/
theorem drainLoop_refines (hclk : ReadClock t t' clk) (store : Hashtable) (c : Client) (k : Nat) :
    ∀ {τ M}, Refines τ store M → τ ≤ clk k 0 →
      ∃ M', AbsDrain clk M c k M' (drainLoop store c clk k).client (drainLoop store c clk k).appended ∧
        Refines t' (drainLoop store c clk k).store M' := by
  induction store, c, clk, k using drainLoop.induct with
  | case1 store c clk k h hp =>
    intro τ M hr hτ
    rw [drainLoop_needMore _ _ _ _ h.1 h.2 hp]
    exact ⟨M, .needMore h.1 h.2 hp, hr.mono (hτ.trans (hclk k).2.2.2)⟩
  | case2 store c clk k h hp =>
    intro τ M hr hτ
    rw [drainLoop_malformed _ _ _ _ h.1 h.2 hp]
    exact ⟨M, .malformed h.1 h.2 hp, hr.mono (hτ.trans (hclk k).2.2.2)⟩
  | case3 store c clk k h cmd consumed hp store' reply hd ih =>
    intro τ M hr hτ
    have hnow : clk k = fun _ => clk k 0 := funext (hclk k).1
    obtain ⟨M₁, hd₁, hr₁⟩ := dispatchCommand_refines (hr.mono hτ) cmd
    rw [← hnow, hd] at hd₁ hr₁
    obtain ⟨M₂, hrest, hr₂⟩ := ih hclk hr₁ (hclk k).2.2.1
    rw [drainLoop_parsed _ _ _ _ h.1 h.2 hp, hd]
    exact ⟨M₂, .parsed h.1 h.2 hp hd₁ hrest, hr₂⟩
  | case4 store c clk k h =>
    intro τ M hr hτ
    rw [drainLoop_stop _ _ _ _ h]
    exact ⟨M, .stop h, hr.mono (hτ.trans (hclk k).2.2.2)⟩

/-- `handle_client_read` with readings in `[t, t']` is an abstract read, and leaves a table
refining its map at `t'`. -/
theorem handleClientRead_refines (hclk : ReadClock t t' clk) {store : Hashtable} {M : AbsMap}
    (hr : Refines t store M) (c : Client) (r : RecvResult) :
    ∃ M', AbsRead clk M c r M' (handleClientRead store c r clk).client
        (handleClientRead store c r clk).appended ∧
      Refines t' (handleClientRead store c r clk).store M' := by
  have htt' : t ≤ t' := ((hclk 0).2.1).trans (hclk 0).2.2.2
  cases r with
  | bytes data =>
    by_cases hd : data.length = 0
    · simp only [handleClientRead, AbsRead, hd, if_true]
      exact ⟨M, by simp, hr.mono htt'⟩
    · simp only [handleClientRead, AbsRead, hd, if_false]
      exact drainLoop_refines hclk _ _ 0 hr (hclk 0).2.1
  | wouldBlock => exact ⟨M, ⟨rfl, rfl, rfl⟩, hr.mono htt'⟩
  | failed => exact ⟨M, ⟨rfl, rfl, rfl⟩, hr.mono htt'⟩

/-- The run lemma of `dispatchCommand_unnamed`: the drain loop changes the keyspace only at the
keys named by the requests it dispatches. -/
theorem drainLoop_unnamed (hclk : ReadClock t t' clk) (store : Hashtable) (c : Client) (k : Nat) :
    ∀ {τ M}, Refines τ store M → τ ≤ clk k 0 →
      ∃ M', Refines t' (drainLoop store c clk k).store M' ∧
        ∀ key, (∀ cmd ∈ (drainLoop store c clk k).dispatched, ∀ entry args,
          routeCommand cmd = .ok (entry, args) → key ∉ args.tail) → M' key = M key := by
  induction store, c, clk, k using drainLoop.induct with
  | case1 store c clk k h hp =>
    intro τ M hr hτ
    rw [drainLoop_needMore _ _ _ _ h.1 h.2 hp]
    exact ⟨M, hr.mono (hτ.trans (hclk k).2.2.2), fun _ _ => rfl⟩
  | case2 store c clk k h hp =>
    intro τ M hr hτ
    rw [drainLoop_malformed _ _ _ _ h.1 h.2 hp]
    exact ⟨M, hr.mono (hτ.trans (hclk k).2.2.2), fun _ _ => rfl⟩
  | case3 store c clk k h cmd consumed hp store' reply hd ih =>
    intro τ M hr hτ
    have hnow : clk k = fun _ => clk k 0 := funext (hclk k).1
    obtain ⟨M₁, hr₁, hM₁⟩ := dispatchCommand_unnamed (hr.mono hτ) cmd
    rw [← hnow, hd] at hr₁
    obtain ⟨M₂, hr₂, hM₂⟩ := ih hclk hr₁ (hclk k).2.2.1
    rw [drainLoop_parsed _ _ _ _ h.1 h.2 hp, hd]
    refine ⟨M₂, hr₂, fun key hkey => ?_⟩
    have hkey := List.forall_mem_cons.mp hkey
    exact (hM₂ key hkey.2).trans (hM₁ key hkey.1)
  | case4 store c clk k h =>
    intro τ M hr hτ
    rw [drainLoop_stop _ _ _ _ h]
    exact ⟨M, hr.mono (hτ.trans (hclk k).2.2.2), fun _ _ => rfl⟩

/-- A read changes the keyspace only at the keys named by the requests it dispatched: every other
key keeps its entry, value and deadline, whatever those requests are and in whatever order. -/
theorem handleClientRead_unnamed (hclk : ReadClock t t' clk) {store : Hashtable} {M : AbsMap}
    (hr : Refines t store M) (c : Client) (r : RecvResult) :
    ∃ M', Refines t' (handleClientRead store c r clk).store M' ∧
      ∀ key, (∀ cmd ∈ (handleClientRead store c r clk).dispatched, ∀ entry args,
        routeCommand cmd = .ok (entry, args) → key ∉ args.tail) → M' key = M key := by
  have htt' : t ≤ t' := ((hclk 0).2.1).trans (hclk 0).2.2.2
  cases r with
  | bytes data =>
    by_cases hd : data.length = 0
    · simp only [handleClientRead, hd, if_true]
      exact ⟨M, hr.mono htt', fun _ _ => rfl⟩
    · simp only [handleClientRead, hd, if_false]
      exact drainLoop_unnamed hclk _ _ 0 hr (hclk 0).2.1
  | wouldBlock => exact ⟨M, hr.mono htt', fun _ _ => rfl⟩
  | failed => exact ⟨M, hr.mono htt', fun _ _ => rfl⟩

/-- A read of `SET k v` on the empty table at `0`. -/
theorem handleClientRead_unnamed_set :
    ReadClock 0 0 (fun _ _ => 0) ∧ Refines 0 htCreate (fun _ => none) ∧
      ∃ M', Refines 0 (handleClientRead htCreate { clientInit with fd := 7 }
          (.bytes (ascii "*3\r\n$3\r\nSET\r\n$1\r\nk\r\n$1\r\nv\r\n")) fun _ _ => 0).store M' ∧
        ∀ key, (∀ cmd ∈ (handleClientRead htCreate { clientInit with fd := 7 }
            (.bytes (ascii "*3\r\n$3\r\nSET\r\n$1\r\nk\r\n$1\r\nv\r\n")) fun _ _ => 0).dispatched,
          ∀ entry args, routeCommand cmd = .ok (entry, args) → key ∉ args.tail) → M' key = none :=
  have hclk : ReadClock 0 0 fun _ _ => 0 := fun _ => ⟨fun _ => rfl, le_rfl, le_rfl, le_rfl⟩
  ⟨hclk, htCreate_refines 0, handleClientRead_unnamed hclk (htCreate_refines 0) _ _⟩

/-- The server and the abstract server agree on the slots, and the table refines the map at
`t`. -/
def Simulates (t : Int) (s : Server) (a : AbsServer) : Prop :=
  Refines t s.store a.keyspace ∧ s.clients = a.clients

/-- The step lemma: an event within `[t, t']` is a step of the abstract server with the same
observations. -/
theorem Server.step_refines {s : Server} {a : AbsServer} (hs : Simulates t s a) :
    ∀ {e : Event}, e.Clocked t t' → ∃ a', a.Step e a' (s.step e).2 ∧ Simulates t' (s.step e).1 a'
  | .accept fd, htt' => by
    simp only [Server.step, AbsServer.Step, hs.2]
    cases a.clients.findIdx? (·.fd = -1) with
    | some i => exact ⟨_, ⟨rfl, rfl⟩, hs.1.mono htt', rfl⟩
    | none => exact ⟨a, ⟨rfl, rfl⟩, hs.1.mono htt', hs.2⟩
  | .ready i hangup recv send clk, ⟨htt', hclk⟩ => by
    have hci : s.client i = a.client i := by rw [Server.client, AbsServer.client, hs.2]
    simp only [Server.step, AbsServer.Step, hci]
    split_ifs
    · exact ⟨a, ⟨rfl, rfl⟩, hs.1.mono htt', hs.2⟩
    · exact ⟨_, ⟨rfl, rfl⟩, hs.1.mono htt', by rw [hs.2]⟩
    · rw [serveSlot_eq]
      cases recv with
      | none => exact ⟨_, ⟨_, _, ⟨rfl, rfl⟩, rfl⟩, hs.1.mono htt', by rw [hs.2]; rfl⟩
      | some r =>
        obtain ⟨M', hread, hr'⟩ := handleClientRead_refines hclk hs.1 (a.client i) r
        exact ⟨_, ⟨_, _, ⟨_, _, hread, rfl⟩, rfl⟩, hr', by rw [hs.2]; rfl⟩

end Simulation

/-- The run lemma. -/
theorem runServer_refines_of : ∀ {t : Int} {s : Server} {a : AbsServer} {es : List Event},
    Simulates t s a → ClockedRun t es → AbsServer.Run a es (runServer s es).2
  | _, _, a, [], _, _ => .nil a
  | _, s, _, _ :: _, hs, ⟨_, he, hes⟩ =>
    have ⟨_, hstep, hs'⟩ := s.step_refines hs he
    .cons hstep (runServer_refines_of hs' hes)

/-- Every run of the server from the start in which each dispatch reads one instant and the
instants never decrease is, to its clients, a run of the abstract server from the empty
keyspace: the same accepts, the same replies appended, the same bytes sent. -/
theorem runServer_refines {t : Int} {es : List Event} (hclk : ClockedRun t es) :
    AbsServer.Run ⟨fun _ => none, serverInit.clients⟩ es (runServer serverInit es).2 :=
  runServer_refines_of ⟨htCreate_refines t, rfl⟩ hclk

/-- A slot accepted at `0`, then sent `SET k v` and written at `5`. -/
theorem runServer_refines_set :
    ClockedRun 0 [.accept 7, .ready 0 false
        (some (.bytes (ascii "*3\r\n$3\r\nSET\r\n$1\r\nk\r\n$1\r\nv\r\n"))) (some (.sent 1024))
        fun _ _ => 5] ∧
      AbsServer.Run ⟨fun _ => none, serverInit.clients⟩ [.accept 7, .ready 0 false
          (some (.bytes (ascii "*3\r\n$3\r\nSET\r\n$1\r\nk\r\n$1\r\nv\r\n"))) (some (.sent 1024))
          fun _ _ => 5]
        (runServer serverInit [.accept 7, .ready 0 false
          (some (.bytes (ascii "*3\r\n$3\r\nSET\r\n$1\r\nk\r\n$1\r\nv\r\n"))) (some (.sent 1024))
          fun _ _ => 5]).2 :=
  have hclk : ClockedRun 0 [.accept 7, .ready 0 false
      (some (.bytes (ascii "*3\r\n$3\r\nSET\r\n$1\r\nk\r\n$1\r\nv\r\n"))) (some (.sent 1024))
      fun _ _ => 5] :=
    ⟨0, le_rfl, 5, ⟨by decide, fun _ => ⟨fun _ => rfl, (by decide : (0 : Int) ≤ 5), le_rfl, le_rfl⟩⟩,
      trivial⟩
  ⟨hclk, runServer_refines hclk⟩

end MiniRedis
