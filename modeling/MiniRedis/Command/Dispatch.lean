import MiniRedis.Command.Handlers
import MiniRedis.Resp.RoundTrip

/-!
# Dispatching a request

`dispatch_command` accepts a nonempty array of bulk strings, upper-cases the first 63 bytes of
the command name, finds the row of `command_table` with that name, checks the argument count
against the row's bounds and runs its handler. Every other request gets an error reply.

`dispatchCommand_reply` shows that every reply is what the writers emit for one serializable
value, and so one frame that `resp_parse` reads back whole, with a single exception: the error
for an unknown command echoes the name, and a name holding CRLF ends the error line early.
-/

namespace MiniRedis

/-- A row of `command_table`. -/
structure CommandEntry where
  /-- The upper-case command name. -/
  name : Bytes
  /-- The handler. -/
  handler : Hashtable → List Bytes → (Nat → Int) → Hashtable × Bytes
  /-- The fewest arguments, the name included. -/
  minArgs : Int
  /-- The most arguments, `-1` for no bound. -/
  maxArgs : Int

/-- `command_table`, without its `NULL` sentinel row. -/
def commandTable : List CommandEntry :=
  [⟨ascii "PING", cmdPing, 1, 2⟩, ⟨ascii "ECHO", cmdEcho, 2, 2⟩, ⟨ascii "SET", cmdSet, 3, 5⟩,
    ⟨ascii "GET", cmdGet, 2, 2⟩, ⟨ascii "DEL", cmdDel, 2, -1⟩,
    ⟨ascii "EXISTS", cmdExists, 2, -1⟩, ⟨ascii "EXPIRE", cmdExpire, 3, 3⟩,
    ⟨ascii "TTL", cmdTtl, 2, 2⟩, ⟨ascii "KEYS", cmdKeys, 2, 2⟩, ⟨ascii "TYPE", cmdType, 2, 2⟩,
    ⟨ascii "INCR", cmdIncr, 2, 2⟩, ⟨ascii "DECR", cmdDecr, 2, 2⟩]

/-- The payloads of the elements when every element is a bulk string. -/
def bulkArgs : List RespValue → Option (List Bytes)
  | [] => some []
  | .bulkString str :: elements => (bulkArgs elements).map (str :: ·)
  | _ :: _ => none

/-- `name_buf`: the first 63 bytes of the command name, upper-cased. -/
def nameBuf (name : Bytes) : Bytes := (name.take 63).map toUpper

/-- The error text for a malformed request. -/
def errInvalidFormat : Bytes := ascii "ERR invalid command format"

/-- The error text for an argument count outside a row's bounds. -/
def wrongArgsText (name : Bytes) : Bytes :=
  ascii "ERR wrong number of arguments for '" ++ name ++ ascii "' command"

/-- The error text for an unknown command, with the name as `%s` prints it. -/
def unknownCommandText (name : Bytes) : Bytes := ascii "ERR unknown command '" ++ name ++ ascii "'"

/-- `dispatch_command`: the store and the reply for one parsed request. The formatted error
texts stay below the 128 bytes of `err`, so `snprintf` never cuts them. -/
def dispatchCommand (store : Hashtable) (cmd : RespValue) (clk : Nat → Int) :
    Hashtable × Bytes :=
  match cmd with
  | .array elements =>
    if elements.length = 0 then (store, respWriteError errInvalidFormat)
    else
      match bulkArgs elements with
      | none => (store, respWriteError errInvalidFormat)
      | some args =>
        let name := cString (nameBuf (arg args 0))
        match commandTable.find? (fun entry => decide (entry.name = name)) with
        | some entry =>
          if (args.length : Int) < entry.minArgs ∨
              (entry.maxArgs ≠ -1 ∧ entry.maxArgs < args.length) then
            (store, respWriteError (wrongArgsText entry.name))
          else entry.handler store args clk
        | none => (store, respWriteError (unknownCommandText name))
  | _ => (store, respWriteError errInvalidFormat)

/-! ## Every reply is one value -/

/-- The bytes the writers emit for one serializable value. -/
def IsReply (R : Bytes) : Prop := ∃ v, Serializable v ∧ R = respWriteValue v

/-- A text with no CR holds no CRLF. -/
theorem not_crlf_of_forall_ne {s : Bytes} (h : ∀ b ∈ s, b ≠ 13) : ¬crlf <:+: s := by
  rintro ⟨p, q, rfl⟩
  exact h 13 (by simp [crlf]) rfl

/-- A CRLF in `a ++ b` lies in `a`, in `b`, or across the seam. -/
theorem not_crlf_append {a b : Bytes} (ha : ¬crlf <:+: a) (hb : ¬crlf <:+: b)
    (hseam : a.getLast? ≠ some 13 ∨ b.head? ≠ some 10) : ¬crlf <:+: a ++ b := by
  rintro ⟨p, q, hpq⟩
  rw [List.append_assoc, List.append_eq_append_iff] at hpq
  rcases hpq with ⟨a', rfl, hb'⟩ | ⟨c', rfl, hc'⟩
  · rcases a' with _ | ⟨x, _ | ⟨y, a'⟩⟩
    · exact hb ⟨[], q, by simpa using hb'⟩
    · simp only [crlf, List.singleton_append, List.cons_append, List.cons.injEq] at hb'
      obtain ⟨rfl, rfl⟩ := hb'
      rcases hseam with h | h
      · exact h (by simp)
      · exact h (by simp)
    · simp only [crlf, List.cons_append, List.cons.injEq] at hb'
      obtain ⟨rfl, rfl, -⟩ := hb'
      exact ha ⟨p, a', by simp [crlf]⟩
  · exact hb ⟨c', q, by rw [hc', List.append_assoc]⟩

/-- A C string holds no NUL. -/
theorem not_mem_cString (s : Bytes) : 0 ∉ cString s := fun h => by
  simpa using List.mem_takeWhile_imp h

/-- A simple string with no NUL and no CR is one reply frame. -/
theorem isReply_simpleString {s : Bytes} (h : ∀ b ∈ s, b ≠ 0 ∧ b ≠ 13) :
    IsReply (respWriteSimpleString s) :=
  ⟨.simpleString s, ⟨fun h0 => (h 0 h0).1 rfl, not_crlf_of_forall_ne fun b hb => (h b hb).2⟩, rfl⟩

/-- An error text with no NUL and no CRLF pair is one reply frame. -/
theorem isReply_error {s : Bytes} (h0 : 0 ∉ s) (hc : ¬crlf <:+: s) : IsReply (respWriteError s) :=
  ⟨.error s, ⟨h0, hc⟩, rfl⟩

/-- An error text with no NUL and no CR is one reply frame. -/
theorem isReply_errorText {s : Bytes} (h : ∀ b ∈ s, b ≠ 0 ∧ b ≠ 13) :
    IsReply (respWriteError s) :=
  isReply_error (fun h0 => (h 0 h0).1 rfl) (not_crlf_of_forall_ne fun b hb => (h b hb).2)

/-- An integer within `int64_t` is one reply frame. -/
theorem isReply_integer {i : Int} (h : int64Min ≤ i ∧ i ≤ int64Max) :
    IsReply (respWriteInteger i) :=
  ⟨.integer i, h, rfl⟩

/-- Every bulk string is one reply frame. -/
theorem isReply_bulkString (data : Bytes) : IsReply (respWriteBulkString data) :=
  ⟨.bulkString data, trivial, rfl⟩

/-- The null bulk string is one reply frame. -/
theorem isReply_nullBulkString : IsReply respWriteNullBulkString := ⟨.nullBulkString, trivial, rfl⟩

/-- The reply of `KEYS` is the array of its keys as bulk strings. -/
theorem keysReply_eq (keys : List Bytes) :
    keysReply keys = respWriteValue (.array (keys.map .bulkString)) := by
  rw [keysReply, respWriteValue, List.length_map]
  congr 1
  induction keys with
  | nil => rfl
  | cons k ks ih => rw [List.map_cons, List.map_cons, List.flatten_cons, ih]; rfl

/-- The reply of `KEYS` is one array frame, whatever the keys. -/
theorem isReply_keysReply (keys : List Bytes) : IsReply (keysReply keys) := by
  refine ⟨.array (keys.map .bulkString), ?_, keysReply_eq keys⟩
  induction keys with
  | nil => trivial
  | cons k ks ih => exact ⟨trivial, ih⟩

/-- `0` is an `int64_t`. -/
theorem zero_mem_int64 : int64Min ≤ 0 ∧ (0 : Int) ≤ int64Max := by
  unfold int64Min int64Max; omega

/-- `C` division by `1000` stays in the `int64_t` range. -/
theorem tdiv_mem {x : Int} (h : int64Min ≤ x ∧ x ≤ int64Max) :
    int64Min ≤ x.tdiv 1000 ∧ x.tdiv 1000 ≤ int64Max := by
  unfold int64Min int64Max at *
  rcases le_or_lt 0 x with hx | hx
  · rw [Int.tdiv_eq_ediv hx (by decide)]; omega
  · rw [← neg_neg x, Int.neg_tdiv, Int.tdiv_eq_ediv (by omega) (by decide)]; omega

/-- The digit loop of `parse_int64` returns an `int64_t`. -/
theorem int64DigitLoop_mem (negative : Bool) :
    ∀ {result n : Int} {ds : Bytes}, int64Min ≤ result ∧ result ≤ int64Max →
      int64DigitLoop negative result ds = some n → int64Min ≤ n ∧ n ≤ int64Max
  | _, _, [], h, hn => by cases hn; exact h
  | _, _, b :: ds, _, hn => by
    simp only [int64DigitLoop] at hn
    split_ifs at hn
    exact int64DigitLoop_mem negative (int64_mem _) hn

/-- What `parse_int64` accepts lies in `int64_t`. -/
theorem parseInt64_mem {s : Bytes} {n : Int} (h : parseInt64 s = some n) :
    int64Min ≤ n ∧ n ≤ int64Max := by
  cases s with
  | nil => cases h
  | cons c rest =>
    simp only [parseInt64] at h
    split_ifs at h
    · obtain ⟨r, -, rfl⟩ := Option.map_eq_some'.mp h
      exact int64_mem _
    · exact int64DigitLoop_mem false zero_mem_int64 h

/-- The count of `DEL` and `EXISTS` stays in `int64_t`. -/
theorem countKeys_mem (op : Hashtable → Bytes → Int → Hashtable × Bool) (store : Hashtable) :
    ∀ (keys : List Bytes) (clk : Nat → Int) {count : Int}, int64Min ≤ count ∧ count ≤ int64Max →
      int64Min ≤ (countKeys op store keys clk count).2 ∧
        (countKeys op store keys clk count).2 ≤ int64Max
  | [], _, _, h => h
  | key :: keys, clk, count, h => by
    simp only [countKeys]
    exact countKeys_mem op _ keys _ (by split_ifs; exacts [int64_mem _, h])

/-! ### Each handler -/

section Handlers

variable (store : Hashtable) (args : List Bytes) (clk : Nat → Int)

/-- `PING` replies one frame. -/
theorem cmdPing_reply : IsReply (cmdPing store args clk).2 := by
  unfold cmdPing
  split
  · exact isReply_simpleString (by decide)
  · exact isReply_bulkString _

/-- `ECHO` replies one frame. -/
theorem cmdEcho_reply : IsReply (cmdEcho store args clk).2 := isReply_bulkString _

/-- `SET` replies one frame. -/
theorem cmdSet_reply : IsReply (cmdSet store args clk).2 := by
  unfold cmdSet
  dsimp only
  split_ifs
  · split
    · exact isReply_errorText (by decide)
    · exact isReply_simpleString (by decide)
  · exact isReply_errorText (by decide)
  · exact isReply_simpleString (by decide)

/-- `GET` replies one frame. -/
theorem cmdGet_reply : IsReply (cmdGet store args clk).2 := by
  unfold cmdGet
  split
  · exact isReply_bulkString _
  · exact isReply_nullBulkString

/-- `DEL` replies one frame. -/
theorem cmdDel_reply : IsReply (cmdDel store args clk).2 := by
  unfold cmdDel
  split
  next h =>
    have := countKeys_mem htDelete store args.tail clk zero_mem_int64
    rw [h] at this
    exact isReply_integer this

/-- `EXISTS` replies one frame. -/
theorem cmdExists_reply : IsReply (cmdExists store args clk).2 := by
  unfold cmdExists
  split
  next h =>
    have := countKeys_mem htExists store args.tail clk zero_mem_int64
    rw [h] at this
    exact isReply_integer this

/-- `EXPIRE` replies one frame. -/
theorem cmdExpire_reply : IsReply (cmdExpire store args clk).2 := by
  unfold cmdExpire
  split
  · exact isReply_errorText (by decide)
  · split <;> exact isReply_integer (by unfold int64Min int64Max; omega)

/-- `TTL` replies one frame. -/
theorem cmdTtl_reply : IsReply (cmdTtl store args clk).2 := by
  unfold cmdTtl
  dsimp only
  split
  · exact isReply_integer (by unfold int64Min int64Max; omega)
  · split_ifs
    · exact isReply_integer (by unfold int64Min int64Max; omega)
    · exact isReply_integer (by unfold int64Min int64Max; omega)
    · exact isReply_integer (tdiv_mem (int64_mem _))

/-- `KEYS` replies one frame. -/
theorem cmdKeys_reply : IsReply (cmdKeys store args clk).2 := by
  unfold cmdKeys
  split
  exact isReply_keysReply _

/-- `TYPE` replies one frame. -/
theorem cmdType_reply : IsReply (cmdType store args clk).2 := by
  unfold cmdType
  split
  · exact isReply_simpleString (by decide)
  · exact isReply_simpleString (by decide)

/-- The end of `INCR` and `DECR` replies one frame for a current value in `int64_t`. -/
theorem incrStore_reply {delta limit : Int} {key : Bytes} {current expireAt : Int}
    (hstep : (delta = 1 ∧ limit = int64Max) ∨ (delta = -1 ∧ limit = int64Min))
    (hcur : int64Min ≤ current ∧ current ≤ int64Max) :
    IsReply (incrStore delta limit store key current expireAt clk).2 := by
  unfold incrStore
  split_ifs
  · exact isReply_errorText (by decide)
  all_goals exact isReply_integer (by unfold int64Min int64Max at *; omega)

/-- `INCR` and `DECR` reply one frame. -/
theorem cmdIncrBy_reply {delta limit : Int}
    (hstep : (delta = 1 ∧ limit = int64Max) ∨ (delta = -1 ∧ limit = int64Min)) :
    IsReply (cmdIncrBy delta limit store args clk).2 := by
  unfold cmdIncrBy
  dsimp only
  split
  · exact incrStore_reply _ _ hstep zero_mem_int64
  · split
    · exact isReply_errorText (by decide)
    · next h => exact incrStore_reply _ _ hstep (parseInt64_mem h)

end Handlers

/-- Every handler of the table replies one value, whatever the store, arguments and clock. -/
theorem commandTable_reply : ∀ entry ∈ commandTable, ∀ store args clk,
    IsReply (entry.handler store args clk).2 := by
  simp only [commandTable, List.forall_mem_cons, List.forall_mem_nil, and_true]
  exact ⟨cmdPing_reply, cmdEcho_reply, cmdSet_reply, cmdGet_reply, cmdDel_reply,
    cmdExists_reply, cmdExpire_reply, cmdTtl_reply, cmdKeys_reply, cmdType_reply,
    fun s a c => cmdIncrBy_reply s a c (.inl ⟨rfl, rfl⟩),
    fun s a c => cmdIncrBy_reply s a c (.inr ⟨rfl, rfl⟩), fun _ h => absurd h (List.not_mem_nil _)⟩

/-- The wrong-count error of every row is a plain text. -/
theorem commandTable_wrongArgsText : ∀ entry ∈ commandTable,
    ∀ b ∈ wrongArgsText entry.name, b ≠ 0 ∧ b ≠ 13 := by
  decide

/-- The unknown-command error is one error line when the name holds no CRLF. -/
theorem isReply_unknownCommand {name : Bytes} (h0 : 0 ∉ name) (hc : ¬crlf <:+: name) :
    IsReply (respWriteError (unknownCommandText name)) := by
  refine isReply_error ?_ (not_crlf_append (not_crlf_append
    (not_crlf_of_forall_ne (by decide)) hc (.inl (by decide)))
    (not_crlf_of_forall_ne (by decide)) (.inr (by decide)))
  simp only [unknownCommandText, List.mem_append, not_or]
  exact ⟨⟨by decide, h0⟩, by decide⟩

/-- Every reply of `dispatch_command` is one serializable value, except an unknown-command
error whose echoed name holds a CRLF. -/
theorem dispatchCommand_reply (store : Hashtable) (cmd : RespValue) (clk : Nat → Int) :
    IsReply (dispatchCommand store cmd clk).2 ∨
      ∃ name, crlf <:+: name ∧
        (dispatchCommand store cmd clk).2 = respWriteError (unknownCommandText name) := by
  unfold dispatchCommand
  split
  · split_ifs
    · exact .inl (isReply_errorText (by decide))
    · split
      · exact .inl (isReply_errorText (by decide))
      · next args _ =>
        dsimp only
        split
        · next entry hentry =>
          have hmem := List.mem_of_find?_eq_some hentry
          split_ifs
          · exact .inl (isReply_errorText (commandTable_wrongArgsText entry hmem))
          · exact .inl (commandTable_reply entry hmem _ _ _)
        · by_cases hc : crlf <:+: cString (nameBuf (arg args 0))
          · exact .inr ⟨_, hc, rfl⟩
          · exact .inl (isReply_unknownCommand (not_mem_cString _) hc)
  · exact .inl (isReply_errorText (by decide))

/-- The name `A` CRLF `+OK` is echoed into the unknown-command error, which `resp_parse` reads
as an error line ending inside the name, followed by a second frame `+OK'`. -/
theorem dispatchCommand_crlf_name (store : Hashtable) (clk : Nat → Int) :
    (dispatchCommand store (.array [.bulkString (ascii "A\r\n+OK")]) clk).2 =
        ascii "-ERR unknown command 'A\r\n+OK'\r\n" ∧
      respParse (ascii "-ERR unknown command 'A\r\n+OK'\r\n") =
        .parsed (.error (ascii "ERR unknown command 'A")) 25 ∧
      respParse ((ascii "-ERR unknown command 'A\r\n+OK'\r\n").drop 25) =
        .parsed (.simpleString (ascii "OK'")) 6 :=
  ⟨rfl, rfl, rfl⟩

/-! ## Which handler runs -/

/-- `bulkArgs` succeeds exactly on bulk strings, and returns their payloads. -/
theorem bulkArgs_eq_some : ∀ {elements : List RespValue} {args : List Bytes},
    bulkArgs elements = some args → elements = args.map .bulkString
  | [], _, h => by cases h; rfl
  | .bulkString str :: elements, args, h => by
    obtain ⟨rest, hrest, rfl⟩ := Option.map_eq_some'.mp h
    rw [bulkArgs_eq_some hrest, List.map_cons]
  | .simpleString _ :: _, _, h | .error _ :: _, _, h | .integer _ :: _, _, h
  | .nullBulkString :: _, _, h | .array _ :: _, _, h => nomatch h

/-- Dispatch either runs the handler of the row whose name is the C string of `name_buf`, with an
argument count inside the row's bounds, or leaves the store as it was and replies one error. -/
theorem dispatchCommand_cases (store : Hashtable) (cmd : RespValue) (clk : Nat → Int) :
    (∃ args entry, cmd = .array (args.map .bulkString) ∧ entry ∈ commandTable ∧
      entry.name = cString (nameBuf (arg args 0)) ∧ entry.minArgs ≤ args.length ∧
      (entry.maxArgs = -1 ∨ (args.length : Int) ≤ entry.maxArgs) ∧
      dispatchCommand store cmd clk = entry.handler store args clk) ∨
    ∃ msg, dispatchCommand store cmd clk = (store, respWriteError msg) := by
  unfold dispatchCommand
  split
  · next elements =>
    split
    · exact .inr ⟨_, rfl⟩
    · split
      · exact .inr ⟨_, rfl⟩
      · next args hargs =>
        dsimp only
        split
        · next entry hentry =>
          split_ifs with hbounds
          · exact .inr ⟨_, rfl⟩
          · push_neg at hbounds
            refine .inl ⟨args, entry, by rw [bulkArgs_eq_some hargs], List.mem_of_find?_eq_some hentry,
              by simpa using List.find?_some hentry, hbounds.1, ?_, rfl⟩
            by_cases hmax : entry.maxArgs = -1
            · exact .inl hmax
            · exact .inr (hbounds.2 hmax)
        · exact .inr ⟨_, rfl⟩
  · exact .inr ⟨_, rfl⟩

/-- The verb `GET` NUL `x`, upper-cased, is not the name `GET`, yet `strcmp` stops at the NUL
that `name_buf` holds, and dispatch runs the handler of `GET`. -/
theorem dispatchCommand_nul_name :
    (ascii "GET\x00x").map toUpper ≠ ascii "GET" ∧
      ∀ (store : Hashtable) (key : Bytes) (clk : Nat → Int),
        dispatchCommand store (.array [.bulkString (ascii "GET\x00x"), .bulkString key]) clk =
          cmdGet store [ascii "GET\x00x", key] clk :=
  ⟨by decide, fun _ _ _ => rfl⟩

end MiniRedis
