import MiniRedis.Command.Glob
import MiniRedis.Hashtable.Iter
import MiniRedis.Resp.Write

/-!
# The command handlers

Each handler of `command_table` takes the store, the arguments `args[0 .. argc)` (the command
name first) as the payloads of bulk strings, and the clock. It returns the store it leaves and
the bytes it appends to the connection's write buffer. `dispatch_command` calls a handler only
with `argc` inside the handler's bounds; outside them `args[i]` reads as the empty string.

Every table operation reads the clock at most once, in `is_expired`, and so does
`current_time_ms`. A handler is given the readings as a sequence `clk 0, clk 1, …`, taken in
the order its calls are made along the path it runs. The scan of `KEYS` is given one reading.

`DEL` and `EXISTS` are one loop over the keys with a different table operation, and `INCR` and
`DECR` one handler with a different step and limit; each keeps its own definition under the
source's name.
-/

namespace MiniRedis

/-- The clock readings after the first `n`. -/
def clockAfter (clk : Nat → Int) (n : Nat) : Nat → Int := fun i => clk (i + n)

/-- `toupper` in the C locale. -/
def toUpper (b : UInt8) : UInt8 := if 97 ≤ b ∧ b ≤ 122 then b - 32 else b

/-- The digit loop of `parse_int64`. A positive result stops at the first digit that would
take it past `INT64_MAX`; the check meant for a negative one does nothing, so its
`result * 10 + digit` wraps as `int64_t`. -/
def int64DigitLoop (negative : Bool) (result : Int) : Bytes → Option Int
  | [] => some result
  | b :: rest =>
    if b < 48 ∨ 57 < b then none
    else
      let digit : Int := (b.toNat - 48 : Nat)
      if !negative ∧ (int64Max - digit).tdiv 10 < result then none
      else int64DigitLoop negative (int64 (result * 10 + digit)) rest

/-- `parse_int64`: an optional `-` and at least one digit. -/
def parseInt64 : Bytes → Option Int
  | [] => none
  | c :: rest =>
    if c = 45 then
      if rest = [] then none else (int64DigitLoop true 0 rest).map fun result => int64 (-result)
    else int64DigitLoop false 0 (c :: rest)

/-- `args[i].str`. -/
def arg (args : List Bytes) (i : Nat) : Bytes := args.getD i []

/-- The error text of the integer checks. -/
def errNotInteger : Bytes := ascii "ERR value is not an integer or out of range"

/-- `current_time_ms() + seconds * 1000` in `int64_t`. -/
def expireAtFrom (now seconds : Int) : Int := int64 (now + int64 (seconds * 1000))

/-- `cmd_ping`. -/
def cmdPing (store : Hashtable) (args : List Bytes) (_clk : Nat → Int) : Hashtable × Bytes :=
  if args.length = 1 then (store, respWriteSimpleString (ascii "PONG"))
  else (store, respWriteBulkString (arg args 1))

/-- `cmd_echo`. -/
def cmdEcho (store : Hashtable) (args : List Bytes) (_clk : Nat → Int) : Hashtable × Bytes :=
  (store, respWriteBulkString (arg args 1))

/-- The `ex_buf` of `cmd_set`: the two bytes of `args[3]` upper-cased, or the empty C string. -/
def exBuf (option : Bytes) : Bytes := if option.length = 2 then option.map toUpper else []

/-- `cmd_set`: store the value, then with five arguments either give it the deadline
`EX seconds` asks for or delete it again and reply an error. -/
def cmdSet (store : Hashtable) (args : List Bytes) (clk : Nat → Int) : Hashtable × Bytes :=
  let key := arg args 1
  let store := (htSet store key (arg args 2) (clk 0)).1
  if args.length = 5 then
    if cString (exBuf (arg args 3)) = ascii "EX" then
      match (parseInt64 (arg args 4)).filter (0 < ·) with
      | none => ((htDelete store key (clk 1)).1,
          respWriteError (ascii "ERR invalid expire time in 'set' command"))
      | some seconds =>
        (htSetExpire store key (expireAtFrom (clk 1) seconds) (clk 2),
          respWriteSimpleString (ascii "OK"))
    else ((htDelete store key (clk 1)).1, respWriteError (ascii "ERR syntax error"))
  else (store, respWriteSimpleString (ascii "OK"))

/-- `cmd_get`. -/
def cmdGet (store : Hashtable) (args : List Bytes) (clk : Nat → Int) : Hashtable × Bytes :=
  match htGet store (arg args 1) (clk 0) with
  | (store, some val) => (store, respWriteBulkString val)
  | (store, none) => (store, respWriteNullBulkString)

/-- The loop of `cmd_del` and `cmd_exists`: apply `op` to each key in turn, counting the
calls that return true in the `int64_t` `count`. -/
def countKeys (op : Hashtable → Bytes → Int → Hashtable × Bool) (store : Hashtable) :
    List Bytes → (Nat → Int) → Int → Hashtable × Int
  | [], _, count => (store, count)
  | key :: keys, clk, count =>
    match op store key (clk 0) with
    | (store, hit) =>
      countKeys op store keys (clockAfter clk 1) (if hit then int64 (count + 1) else count)

/-- `cmd_del`. -/
def cmdDel (store : Hashtable) (args : List Bytes) (clk : Nat → Int) : Hashtable × Bytes :=
  match countKeys htDelete store args.tail clk 0 with
  | (store, count) => (store, respWriteInteger count)

/-- `cmd_exists`. -/
def cmdExists (store : Hashtable) (args : List Bytes) (clk : Nat → Int) : Hashtable × Bytes :=
  match countKeys htExists store args.tail clk 0 with
  | (store, count) => (store, respWriteInteger count)

/-- `cmd_expire`. -/
def cmdExpire (store : Hashtable) (args : List Bytes) (clk : Nat → Int) : Hashtable × Bytes :=
  match parseInt64 (arg args 2) with
  | none => (store, respWriteError errNotInteger)
  | some seconds =>
    match htExists store (arg args 1) (clk 0) with
    | (store, false) => (store, respWriteInteger 0)
    | (store, true) =>
      (htSetExpire store (arg args 1) (expireAtFrom (clk 1) seconds) (clk 2), respWriteInteger 1)

/-- `cmd_ttl`: `-2` for an absent key, `-1` for one without a deadline, and otherwise the
remaining time rounded up to seconds, deleting the key when none remains. -/
def cmdTtl (store : Hashtable) (args : List Bytes) (clk : Nat → Int) : Hashtable × Bytes :=
  let key := arg args 1
  match htExists store key (clk 0) with
  | (store, false) => (store, respWriteInteger (-2))
  | (store, true) =>
    match htGetExpire store key (clk 1) with
    | (store, expireAt) =>
      if expireAt = -1 then (store, respWriteInteger (-1))
      else
        let remainingMs := int64 (expireAt - clk 2)
        if remainingMs ≤ 0 then ((htDelete store key (clk 3)).1, respWriteInteger (-2))
        else (store, respWriteInteger ((int64 (remainingMs + 999)).tdiv 1000))

/-- The reply of `cmd_keys`: the array header, then each match as a bulk string. -/
def keysReply (keys : List Bytes) : Bytes :=
  respWriteArrayHeader keys.length ++ (keys.map respWriteBulkString).flatten

/-- `cmd_keys`: scan the table and reply the keys the pattern matches, in slot order. The scan's
`is_expired` reads the clock at each occupied slot it checks: `clk s` at slot `s`. -/
def cmdKeys (store : Hashtable) (args : List Bytes) (clk : Nat → Int) : Hashtable × Bytes :=
  match htScanFromAt store 0 clk with
  | (store, entries) =>
    (store, keysReply ((entries.map Prod.fst).filter (globMatch (arg args 1))))

/-- `cmd_type`. -/
def cmdType (store : Hashtable) (args : List Bytes) (clk : Nat → Int) : Hashtable × Bytes :=
  match htExists store (arg args 1) (clk 0) with
  | (store, true) => (store, respWriteSimpleString (ascii "string"))
  | (store, false) => (store, respWriteSimpleString (ascii "none"))

/-- The end of `cmd_incr` and `cmd_decr` once the current value is known: refuse at `limit`,
otherwise store the decimal text of `current + delta`, give back the deadline read before,
and reply the new value. -/
def incrStore (delta limit : Int) (store : Hashtable) (key : Bytes) (current expireAt : Int)
    (clk : Nat → Int) : Hashtable × Bytes :=
  if current = limit then (store, respWriteError errNotInteger)
  else
    let current := current + delta
    let store := (htSet store key (intDecimal current) (clk 0)).1
    let store := if expireAt ≠ -1 then htSetExpire store key expireAt (clk 1) else store
    (store, respWriteInteger current)

/-- `cmd_incr` and `cmd_decr`: read the value and its deadline, parse the value, then
`incrStore`. An absent key counts as `0` with no deadline. `val` points into the slot `ht_get`
found and is dereferenced after `ht_get_expire`, whose probe frees that slot, leaving an empty
value, when the deadline passed in between. -/
def cmdIncrBy (delta limit : Int) (store : Hashtable) (args : List Bytes) (clk : Nat → Int) :
    Hashtable × Bytes :=
  let key := arg args 1
  match htGetRef store key (clk 0) with
  | (store, none) => incrStore delta limit store key 0 (-1) (clockAfter clk 1)
  | (store, some slot) =>
    match htGetExpire store key (clk 1) with
    | (store, expireAt) =>
      match parseInt64 (store.slot slot).value with
      | none => (store, respWriteError errNotInteger)
      | some current => incrStore delta limit store key current expireAt (clockAfter clk 2)

/-- `cmd_incr`. -/
def cmdIncr (store : Hashtable) (args : List Bytes) (clk : Nat → Int) : Hashtable × Bytes :=
  cmdIncrBy 1 int64Max store args clk

/-- `cmd_decr`. -/
def cmdDecr (store : Hashtable) (args : List Bytes) (clk : Nat → Int) : Hashtable × Bytes :=
  cmdIncrBy (-1) int64Min store args clk

end MiniRedis
