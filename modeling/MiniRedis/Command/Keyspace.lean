import MiniRedis.Command.Instant

/-!
# The commands over the abstract keyspace

Each handler, with every clock reading at one instant `t`, is a command on the abstract
keyspace of `Hashtable.Refinement`: the map of keys to values and optional deadlines, of which
only the entries present at `t` are seen. `absSet` … `absIncrBy` say what each command does to
that map and replies. They are functions except `KEYS`, which may list the matching keys in any
order. `HandlerRefines` is the step obligation: from a table refining `M`, the handler replies
what the abstract command allows and leaves a table refining the map it leaves. Every row of
`command_table` meets it (`commandTable_refines`), and so does `dispatch_command`, whose routing
reads the request only (`dispatchCommand_eq_route`), against `AbsDispatch`
(`dispatchCommand_refines`).

Hashing, probing, tombstones, resizing and lazy expiry are all below this level: a client that
issues one request at a time, each at one instant, sees the abstract keyspace.
-/

namespace MiniRedis

/-- A command over the abstract keyspace at instant `t`: the arguments, the reply and the map
afterwards it allows, as a relation. -/
abbrev AbsHandler := Int → AbsMap → List Bytes → Bytes → AbsMap → Prop

/-- The relation of a command that is a function. -/
def AbsHandler.ofFun (f : Int → AbsMap → List Bytes → AbsMap × Bytes) : AbsHandler :=
  fun t M args reply M' => f t M args = (M', reply)

/-! ## The abstract commands -/

/-- `PING` on the abstract keyspace. -/
def absPing (_t : Int) (M : AbsMap) (args : List Bytes) : AbsMap × Bytes :=
  (M, if args.length = 1 then respWriteSimpleString (ascii "PONG")
    else respWriteBulkString (arg args 1))

/-- `ECHO` on the abstract keyspace. -/
def absEcho (_t : Int) (M : AbsMap) (args : List Bytes) : AbsMap × Bytes :=
  (M, respWriteBulkString (arg args 1))

/-- `SET` on the abstract keyspace: the key gets the value with no deadline, or with five
arguments the deadline `EX` gives it; a bad option deletes the key. -/
def absSet (t : Int) (M : AbsMap) (args : List Bytes) : AbsMap × Bytes :=
  let key := arg args 1
  if args.length = 5 then
    if cString (exBuf (arg args 3)) = ascii "EX" then
      match (parseInt64 (arg args 4)).filter (0 < ·) with
      | none => (Function.update M key none,
          respWriteError (ascii "ERR invalid expire time in 'set' command"))
      | some seconds =>
        (Function.update M key (some (arg args 2, decodeExpire (expireAtFrom t seconds))),
          respWriteSimpleString (ascii "OK"))
    else (Function.update M key none, respWriteError (ascii "ERR syntax error"))
  else (Function.update M key (some (arg args 2, none)), respWriteSimpleString (ascii "OK"))

/-- `GET` on the abstract keyspace. -/
def absGet (t : Int) (M : AbsMap) (args : List Bytes) : AbsMap × Bytes :=
  (M, match liveAt t (M (arg args 1)) with
    | some (v, _) => respWriteBulkString v
    | none => respWriteNullBulkString)

/-- The loop of `DEL` and `EXISTS` on the abstract keyspace, counting in `int64_t`. -/
def absCountKeys (op : AbsMap → Bytes → AbsMap × Bool) (M : AbsMap) :
    List Bytes → Int → AbsMap × Int
  | [], count => (M, count)
  | key :: keys, count =>
    absCountKeys op (op M key).1 keys (if (op M key).2 then int64 (count + 1) else count)

/-- `ht_delete` on the abstract keyspace at `t`. -/
def absDelete (t : Int) (M : AbsMap) (key : Bytes) : AbsMap × Bool :=
  (Function.update M key none, (liveAt t (M key)).isSome)

/-- `ht_exists` on the abstract keyspace at `t`. -/
def absContains (t : Int) (M : AbsMap) (key : Bytes) : AbsMap × Bool :=
  (M, (liveAt t (M key)).isSome)

/-- `DEL` on the abstract keyspace. -/
def absDel (t : Int) (M : AbsMap) (args : List Bytes) : AbsMap × Bytes :=
  let r := absCountKeys (absDelete t) M args.tail 0
  (r.1, respWriteInteger r.2)

/-- `EXISTS` on the abstract keyspace. -/
def absExists (t : Int) (M : AbsMap) (args : List Bytes) : AbsMap × Bytes :=
  let r := absCountKeys (absContains t) M args.tail 0
  (r.1, respWriteInteger r.2)

/-- `EXPIRE` on the abstract keyspace: a present key keeps its value and gets the deadline
`t + seconds * 1000` computed in `int64_t`. -/
def absExpire (t : Int) (M : AbsMap) (args : List Bytes) : AbsMap × Bytes :=
  let key := arg args 1
  match parseInt64 (arg args 2) with
  | none => (M, respWriteError errNotInteger)
  | some seconds =>
    match liveAt t (M key) with
    | none => (M, respWriteInteger 0)
    | some (v, _) =>
      (Function.update M key (some (v, decodeExpire (expireAtFrom t seconds))),
        respWriteInteger 1)

/-- `TTL` on the abstract keyspace: `-2` for an absent key, `-1` for one with no deadline, and
otherwise the time left rounded up to seconds, in `int64_t`. -/
def absTtl (t : Int) (M : AbsMap) (args : List Bytes) : AbsMap × Bytes :=
  let key := arg args 1
  match liveAt t (M key) with
  | none => (M, respWriteInteger (-2))
  | some (_, none) => (M, respWriteInteger (-1))
  | some (_, some d) =>
    let remainingMs := int64 (d - t)
    if remainingMs ≤ 0 then (Function.update M key none, respWriteInteger (-2))
    else (M, respWriteInteger ((int64 (remainingMs + 999)).tdiv 1000))

/-- `KEYS` on the abstract keyspace: the array of the present keys the pattern matches, each
once, in any order. -/
def absKeys : AbsHandler := fun t M args reply M' =>
  M' = M ∧ ∃ keys : List Bytes, keys.Nodup ∧
    (∀ k, k ∈ keys ↔ (liveAt t (M k)).isSome ∧ globMatch (arg args 1) k) ∧ reply = keysReply keys

/-- `TYPE` on the abstract keyspace. -/
def absType (t : Int) (M : AbsMap) (args : List Bytes) : AbsMap × Bytes :=
  (M, if (liveAt t (M (arg args 1))).isSome then respWriteSimpleString (ascii "string")
    else respWriteSimpleString (ascii "none"))

/-- The end of `INCR` and `DECR` on the abstract keyspace: refuse at `limit`, otherwise store the
text of `current + delta` with the deadline it had. -/
def absIncrStore (delta limit : Int) (M : AbsMap) (key : Bytes) (current : Int)
    (deadline : Option Int) : AbsMap × Bytes :=
  if current = limit then (M, respWriteError errNotInteger)
  else (Function.update M key (some (intDecimal (current + delta), deadline)),
    respWriteInteger (current + delta))

/-- `INCR` and `DECR` on the abstract keyspace; an absent key counts as `0`. -/
def absIncrBy (delta limit : Int) (t : Int) (M : AbsMap) (args : List Bytes) :
    AbsMap × Bytes :=
  let key := arg args 1
  match liveAt t (M key) with
  | none => absIncrStore delta limit M key 0 none
  | some (val, deadline) =>
    match parseInt64 val with
    | none => (M, respWriteError errNotInteger)
    | some current => absIncrStore delta limit M key current deadline

/-- The abstract command of each row of `command_table`, by name. -/
def absCommandTable : List (Bytes × AbsHandler) :=
  [(ascii "PING", .ofFun absPing), (ascii "ECHO", .ofFun absEcho), (ascii "SET", .ofFun absSet),
    (ascii "GET", .ofFun absGet), (ascii "DEL", .ofFun absDel),
    (ascii "EXISTS", .ofFun absExists), (ascii "EXPIRE", .ofFun absExpire),
    (ascii "TTL", .ofFun absTtl), (ascii "KEYS", absKeys), (ascii "TYPE", .ofFun absType),
    (ascii "INCR", .ofFun (absIncrBy 1 int64Max)), (ascii "DECR", .ofFun (absIncrBy (-1) int64Min))]

/-! ## The table operations at one instant -/

section Ops

variable {t : Int} {ht : Hashtable} {M : AbsMap}

/-- Skipping readings of a constant clock leaves it constant. -/
@[simp] theorem clockAfter_const (t : Int) (n : Nat) : clockAfter (fun _ => t) n = fun _ => t :=
  rfl

/-- `-1` decodes to no deadline. -/
@[simp] theorem decodeExpire_neg_one : decodeExpire (-1) = none := rfl

/-- `ht_create` refines the empty keyspace. -/
theorem htCreate_refines (t : Int) : Refines t htCreate fun _ => none :=
  ⟨htCreate_inv, fun k => by rw [Hashtable.view, htCreate_lookup]; rfl⟩

/-- What the map shows at `t` is what the table holds live at `t`. -/
theorem Refines.live (h : Refines t ht M) (k : Bytes) :
    liveAt t (M k) = (ht.liveLookup k t).map fun e => (e.1, decodeExpire e.2) := by
  rw [← h.2 k, liveAt_view]

/-- A deadline present at `t` is never the `-1` that means none. -/
theorem Refines.deadline_ne (h : Refines t ht M) {k v : Bytes} {d : Int}
    (hk : liveAt t (M k) = some (v, some d)) : d ≠ -1 := by
  rw [h.live] at hk
  obtain ⟨⟨v', x⟩, -, he⟩ := Option.map_eq_some'.mp hk
  simp only [Prod.mk.injEq, decodeExpire] at he
  split_ifs at he with hx
  · exact absurd he.2 (by simp)
  · exact (Option.some.inj he.2) ▸ hx

/-- A table whose lookups change only at `key`, to `o`, refines the map updated there. -/
theorem Refines.update (h : Refines t ht M) {ht' : Hashtable} (hinv' : ht'.Inv) {key : Bytes}
    {o : Option (Bytes × Int)} (hl : ∀ k, ht'.lookup k = if k = key then o else ht.lookup k) :
    Refines t ht' (Function.update M key (o.map fun e => (e.1, decodeExpire e.2))) :=
  refines_update h hinv' hl (fun _ hk => Function.update_noteq hk _ _)
    (by rw [Function.update_same])

/-- `ht_get` at `t` returns the value the map shows, and keeps the refinement. -/
theorem Refines.htGet_eq (h : Refines t ht M) (key : Bytes) :
    ∃ ht', htGet ht key t = (ht', (liveAt t (M key)).map Prod.fst) ∧ Refines t ht' M :=
  have ⟨hr, h'⟩ := MapOp.exec_refines h (.get key)
  ⟨_, Prod.ext rfl (MapReply.value.inj hr), h'⟩

/-- `ht_exists` at `t` says whether the map shows the key, and keeps the refinement. -/
theorem Refines.htExists_eq (h : Refines t ht M) (key : Bytes) :
    ∃ ht', htExists ht key t = (ht', (liveAt t (M key)).isSome) ∧ Refines t ht' M :=
  have ⟨hr, h'⟩ := MapOp.exec_refines h (.contains key)
  ⟨_, Prod.ext rfl (MapReply.flag.inj hr), h'⟩

/-- `ht_delete` at `t` does what `absDelete` does to the map. -/
theorem Refines.htDelete_eq (h : Refines t ht M) (key : Bytes) :
    ∃ ht', htDelete ht key t = (ht', (absDelete t M key).2) ∧ Refines t ht' (absDelete t M key).1 :=
  have ⟨hr, h'⟩ := MapOp.exec_refines h (.delete key)
  ⟨_, Prod.ext rfl (MapReply.flag.inj hr), h'⟩

/-- `ht_get_expire` at `t` returns the deadline the map shows, `-1` for none, and keeps the
refinement. -/
theorem Refines.htGetExpire_eq (h : Refines t ht M) (key : Bytes) :
    ∃ ht', htGetExpire ht key t = (ht', match liveAt t (M key) with
      | some (_, some d) => d
      | _ => -1) ∧ Refines t ht' M :=
  have ⟨hr, h'⟩ := MapOp.exec_refines h (.getExpire key)
  ⟨_, Prod.ext rfl (MapReply.expire.inj hr), h'⟩

/-- `ht_set_expire` at `t` on a key present at `t` with value `v`. -/
theorem Refines.htSetExpire_live (h : Refines t ht M) {key v : Bytes} {d : Option Int}
    (hk : liveAt t (M key) = some (v, d)) (x : Int) :
    Refines t (htSetExpire ht key x t) (Function.update M key (some (v, decodeExpire x))) := by
  have h' := (MapOp.exec_refines h (.setExpire key x)).2
  simp only [MapOp.exec, MapOp.absApply, hk] at h'
  exact h'

end Ops

/-! ## Each handler refines its abstract command -/

/-- With every clock reading at one instant `t`, from a table refining `M` the handler replies
what the abstract command allows and leaves a table refining the map it leaves. -/
def HandlerRefines (handler : Hashtable → List Bytes → (Nat → Int) → Hashtable × Bytes)
    (spec : AbsHandler) : Prop :=
  ∀ t ht M args, Refines t ht M →
    ∃ M', spec t M args (handler ht args fun _ => t).2 M' ∧
      Refines t (handler ht args fun _ => t).1 M'

/-- A handler refines a functional abstract command when it gives the command's reply and leaves
a table refining the command's map. -/
theorem HandlerRefines.of_fun {handler : Hashtable → List Bytes → (Nat → Int) → Hashtable × Bytes}
    {f : Int → AbsMap → List Bytes → AbsMap × Bytes}
    (hf : ∀ t ht M args, Refines t ht M →
      (handler ht args fun _ => t).2 = (f t M args).2 ∧
        Refines t (handler ht args fun _ => t).1 (f t M args).1) :
    HandlerRefines handler (.ofFun f) := fun t ht M args h =>
  ⟨_, by rw [AbsHandler.ofFun, (hf t ht M args h).1], (hf t ht M args h).2⟩

/-- `PING` refines `absPing`. -/
theorem cmdPing_refines : HandlerRefines cmdPing (.ofFun absPing) :=
  .of_fun fun _ _ _ args h => by
    unfold cmdPing absPing
    split_ifs <;> exact ⟨by trivial, h⟩

/-- `ECHO` refines `absEcho`. -/
theorem cmdEcho_refines : HandlerRefines cmdEcho (.ofFun absEcho) :=
  .of_fun fun _ _ _ _ h => ⟨rfl, h⟩

/-- `SET` refines `absSet`, on each of its branches. -/
theorem cmdSet_refines : HandlerRefines cmdSet (.ofFun absSet) :=
  .of_fun fun t ht M args h => by
    by_cases hlen : args.length = 5
    · by_cases hex : cString (exBuf (arg args 3)) = ascii "EX"
      · cases hs : (parseInt64 (arg args 4)).filter (0 < ·) with
        | none =>
          obtain ⟨hr, hinv', hl⟩ := cmdSet_rejected h.1 hlen (.inr hs) t
          simp only [absSet, hlen, hex, hs, if_true]
          exact ⟨by rw [hr, if_pos hex], h.update hinv' hl⟩
        | some seconds =>
          obtain ⟨hr, hinv', hl⟩ := cmdSet_ex h.1 hlen hex hs t
          simp only [absSet, hlen, hex, hs, if_true]
          exact ⟨hr, h.update hinv' hl⟩
      · obtain ⟨hr, hinv', hl⟩ := cmdSet_rejected h.1 hlen (.inl hex) t
        simp only [absSet, hlen, hex, if_true, if_false]
        exact ⟨by rw [hr, if_neg hex], h.update hinv' hl⟩
    · obtain ⟨hr, hinv', hl⟩ := cmdSet_plain h.1 hlen t
      simp only [absSet, hlen, if_false]
      exact ⟨hr, by simpa using h.update hinv' hl⟩

/-- `GET` refines `absGet`. -/
theorem cmdGet_refines : HandlerRefines cmdGet (.ofFun absGet) :=
  .of_fun fun t ht M args h => by
    obtain ⟨ht', hg, h'⟩ := h.htGet_eq (arg args 1)
    cases hk : liveAt t (M (arg args 1)) <;> simp only [cmdGet, absGet, hg, hk] <;>
      exact ⟨by trivial, h'⟩

/-- The loop of `DEL` and `EXISTS` refines its abstract counterpart, for any starting count, when
the operation it applies refines the abstract one. -/
theorem countKeys_refines {t : Int} {op : Hashtable → Bytes → Int → Hashtable × Bool}
    {aop : AbsMap → Bytes → AbsMap × Bool}
    (hop : ∀ ht M key, Refines t ht M →
      ∃ ht', op ht key t = (ht', (aop M key).2) ∧ Refines t ht' (aop M key).1) :
    ∀ (keys : List Bytes) {ht : Hashtable} {M : AbsMap} (count : Int), Refines t ht M →
      ∃ ht', countKeys op ht keys (fun _ => t) count = (ht', (absCountKeys aop M keys count).2) ∧
        Refines t ht' (absCountKeys aop M keys count).1
  | [], _, _, _, h => ⟨_, rfl, h⟩
  | key :: keys, ht, M, count, h => by
    obtain ⟨ht₁, hop₁, h₁⟩ := hop ht M key h
    simp only [countKeys, absCountKeys, hop₁, clockAfter_const]
    exact countKeys_refines hop keys _ h₁

/-- `DEL` refines `absDel`. -/
theorem cmdDel_refines : HandlerRefines cmdDel (.ofFun absDel) :=
  .of_fun fun _ _ _ args h => by
    obtain ⟨ht', hc, h'⟩ := countKeys_refines (fun _ _ key h => h.htDelete_eq key) args.tail 0 h
    simp only [cmdDel, absDel, hc]
    exact ⟨by trivial, h'⟩

/-- `EXISTS` refines `absExists`. -/
theorem cmdExists_refines : HandlerRefines cmdExists (.ofFun absExists) :=
  .of_fun fun _ _ _ args h => by
    obtain ⟨ht', hc, h'⟩ := @countKeys_refines _ htExists (absContains _)
      (fun _ _ key h => h.htExists_eq key) args.tail _ _ 0 h
    simp only [cmdExists, absExists, hc]
    exact ⟨by trivial, h'⟩

/-- `EXPIRE` refines `absExpire`. -/
theorem cmdExpire_refines : HandlerRefines cmdExpire (.ofFun absExpire) :=
  .of_fun fun t ht M args h => by
    cases hs : parseInt64 (arg args 2) with
    | none => simp only [cmdExpire, absExpire, hs]; exact ⟨by trivial, h⟩
    | some seconds =>
      obtain ⟨ht', he, h'⟩ := h.htExists_eq (arg args 1)
      cases hk : liveAt t (M (arg args 1)) with
      | none =>
        simp only [cmdExpire, absExpire, hs, he, hk, Option.isSome_none]
        exact ⟨by trivial, h'⟩
      | some e =>
        simp only [cmdExpire, absExpire, hs, he, hk, Option.isSome_some]
        exact ⟨by trivial, h'.htSetExpire_live hk _⟩

/-- `TTL` refines `absTtl`. -/
theorem cmdTtl_refines : HandlerRefines cmdTtl (.ofFun absTtl) :=
  .of_fun fun t ht M args h => by
    obtain ⟨ht₁, he, h₁⟩ := h.htExists_eq (arg args 1)
    obtain ⟨ht₂, hx, h₂⟩ := h₁.htGetExpire_eq (arg args 1)
    rcases hk : liveAt t (M (arg args 1)) with _ | ⟨v, _ | d⟩
    · simp only [cmdTtl, absTtl, he, hk, Option.isSome_none]; exact ⟨by trivial, h₁⟩
    · simp only [cmdTtl, absTtl, he, hx, hk, Option.isSome_some, if_true]; exact ⟨by trivial, h₂⟩
    · simp only [cmdTtl, absTtl, he, hx, hk, Option.isSome_some, h.deadline_ne hk, if_false]
      split_ifs
      · obtain ⟨ht₃, hd, h₃⟩ := h₂.htDelete_eq (arg args 1)
        rw [hd]
        exact ⟨by trivial, h₃⟩
      · exact ⟨by trivial, h₂⟩

/-- `KEYS` at one instant replies the live keys its pattern matches, each once, and keeps the
map. -/
theorem cmdKeys_refines : HandlerRefines cmdKeys absKeys := fun t ht M args h => by
  obtain ⟨⟨l, hl, hnodup, hmem⟩, h'⟩ := MapOp.exec_refines h .scan
  cases MapReply.entries.inj hl
  rw [cmdKeys_const]
  refine ⟨M, ⟨rfl, _, hnodup.filter _, fun k => ?_, rfl⟩, h'⟩
  simp only [List.mem_filter, List.mem_map, Prod.exists, exists_and_right, exists_eq_right,
    hmem, Option.isSome_iff_exists, Option.map_eq_some', Prod.exists]

/-- `TYPE` refines `absType`. -/
theorem cmdType_refines : HandlerRefines cmdType (.ofFun absType) :=
  .of_fun fun t ht M args h => by
    obtain ⟨ht', he, h'⟩ := h.htExists_eq (arg args 1)
    cases hk : (liveAt t (M (arg args 1))).isSome <;> simp only [cmdType, absType, he, hk] <;>
      exact ⟨by trivial, h'⟩

/-- `INCR` and `DECR` refine `absIncrBy` for a bound other than `0`. -/
theorem cmdIncrBy_refines {delta limit : Int} (hlimit : limit ≠ 0) :
    HandlerRefines (cmdIncrBy delta limit) (.ofFun (absIncrBy delta limit)) :=
  .of_fun fun t ht M args h => by
    have hk := h.live (arg args 1)
    cases hl : ht.liveLookup (arg args 1) t with
    | none =>
      rw [hl, Option.map_none'] at hk
      obtain ⟨hr, hinv', hl'⟩ := cmdIncrBy_absent h.1 hlimit hl
      simp only [absIncrBy, absIncrStore, hk, hlimit.symm, if_false, zero_add]
      exact ⟨hr, by simpa using h.update hinv' hl'⟩
    | some e =>
      obtain ⟨val, x⟩ := e
      rw [hl, Option.map_some'] at hk
      cases hp : parseInt64 val with
      | none =>
        rw [cmdIncrBy_refused h.1 hl (.inl hp)]
        simp only [absIncrBy, hk, hp]
        exact ⟨by trivial, h⟩
      | some n =>
        by_cases hn : n = limit
        · rw [cmdIncrBy_refused h.1 hl (.inr (hn ▸ hp))]
          simp only [absIncrBy, absIncrStore, hk, hp, hn, if_true]
          exact ⟨by trivial, h⟩
        · obtain ⟨hr, hinv', hl'⟩ := cmdIncrBy_parsed h.1 hl hp hn
          simp only [absIncrBy, absIncrStore, hk, hp, hn, if_false]
          exact ⟨hr, h.update hinv' hl'⟩

/-- Every row of `command_table` refines the abstract command of its name. -/
theorem commandTable_refines : ∀ entry ∈ commandTable,
    ∃ spec, absCommandTable.lookup entry.name = some spec ∧ HandlerRefines entry.handler spec := by
  intro entry hentry
  simp only [commandTable, List.mem_cons, List.mem_singleton, List.not_mem_nil, or_false] at hentry
  rcases hentry with rfl | rfl | rfl | rfl | rfl | rfl | rfl | rfl | rfl | rfl | rfl | rfl
  exacts [⟨_, rfl, cmdPing_refines⟩, ⟨_, rfl, cmdEcho_refines⟩, ⟨_, rfl, cmdSet_refines⟩,
    ⟨_, rfl, cmdGet_refines⟩, ⟨_, rfl, cmdDel_refines⟩, ⟨_, rfl, cmdExists_refines⟩,
    ⟨_, rfl, cmdExpire_refines⟩, ⟨_, rfl, cmdTtl_refines⟩, ⟨_, rfl, cmdKeys_refines⟩,
    ⟨_, rfl, cmdType_refines⟩, ⟨_, rfl, cmdIncrBy_refines (by decide)⟩,
    ⟨_, rfl, cmdIncrBy_refines (by decide)⟩]

/-! ## Dispatch -/

/-- The routing half of `dispatch_command`: the row and the arguments it runs, or the text of the
error it replies. -/
def routeCommand (cmd : RespValue) : Except Bytes (CommandEntry × List Bytes) :=
  match cmd with
  | .array elements =>
    if elements.length = 0 then .error errInvalidFormat
    else
      match bulkArgs elements with
      | none => .error errInvalidFormat
      | some args =>
        let name := cString (nameBuf (arg args 0))
        match commandTable.find? (fun entry => decide (entry.name = name)) with
        | some entry =>
          if (args.length : Int) < entry.minArgs ∨
              (entry.maxArgs ≠ -1 ∧ entry.maxArgs < args.length) then
            .error (wrongArgsText entry.name)
          else .ok (entry, args)
        | none => .error (unknownCommandText name)
  | _ => .error errInvalidFormat

/-- `dispatch_command` routes on the request alone, then runs the row's handler or replies the
error with the store untouched. -/
theorem dispatchCommand_eq_route (store : Hashtable) (cmd : RespValue) (clk : Nat → Int) :
    dispatchCommand store cmd clk = match routeCommand cmd with
      | .ok (entry, args) => entry.handler store args clk
      | .error msg => (store, respWriteError msg) := by
  unfold dispatchCommand routeCommand
  cases cmd with
  | array elements =>
    dsimp only
    split_ifs
    · rfl
    · cases bulkArgs elements with
      | none => rfl
      | some args =>
        dsimp only
        cases commandTable.find? fun entry => decide (entry.name = cString (nameBuf (arg args 0))) with
        | none => rfl
        | some entry => dsimp only; split_ifs <;> rfl
  | _ => rfl

/-- A routed row is a row of `command_table`. -/
theorem routeCommand_mem {cmd : RespValue} {entry : CommandEntry} {args : List Bytes}
    (h : routeCommand cmd = .ok (entry, args)) : entry ∈ commandTable := by
  unfold routeCommand at h
  split at h
  · split_ifs at h
    split at h
    · cases h
    · dsimp only at h
      split at h
      · next hfind =>
        split_ifs at h
        cases h
        exact List.mem_of_find?_eq_some hfind
      · cases h
  · cases h

/-- `dispatch_command` over the abstract keyspace at `t`: the abstract command of the row the
request is routed to, or the error reply with the map unchanged. -/
def AbsDispatch (t : Int) (M : AbsMap) (cmd : RespValue) (reply : Bytes) (M' : AbsMap) : Prop :=
  match routeCommand cmd with
  | .ok (entry, args) =>
    match absCommandTable.lookup entry.name with
    | some spec => spec t M args reply M'
    | none => False
  | .error msg => reply = respWriteError msg ∧ M' = M

/-- With every clock reading at `t`, `dispatch_command` on a table refining `M` replies what the
abstract keyspace allows for the request, and leaves a table refining the map it leaves. -/
theorem dispatchCommand_refines {t : Int} {store : Hashtable} {M : AbsMap} (h : Refines t store M)
    (cmd : RespValue) :
    ∃ M', AbsDispatch t M cmd (dispatchCommand store cmd fun _ => t).2 M' ∧
      Refines t (dispatchCommand store cmd fun _ => t).1 M' := by
  rw [dispatchCommand_eq_route]
  unfold AbsDispatch
  rcases hr : routeCommand cmd with msg | ⟨entry, args⟩
  · exact ⟨M, ⟨rfl, rfl⟩, h⟩
  · obtain ⟨spec, hspec, href⟩ := commandTable_refines entry (routeCommand_mem hr)
    simp only [hspec]
    exact href t store M args h

/-- `SET k v` on the empty table at `0`. -/
theorem dispatchCommand_refines_set :
    Refines 0 htCreate (fun _ => none) ∧
      ∃ M', AbsDispatch 0 (fun _ => none)
          (.array [.bulkString (ascii "SET"), .bulkString (ascii "k"), .bulkString (ascii "v")])
          (dispatchCommand htCreate
            (.array [.bulkString (ascii "SET"), .bulkString (ascii "k"), .bulkString (ascii "v")])
            fun _ => 0).2 M' ∧
        Refines 0 (dispatchCommand htCreate
          (.array [.bulkString (ascii "SET"), .bulkString (ascii "k"), .bulkString (ascii "v")])
          fun _ => 0).1 M' :=
  ⟨htCreate_refines 0, dispatchCommand_refines (htCreate_refines 0) _⟩

end MiniRedis
