import MiniRedis.Command.Dispatch
import MiniRedis.Command.ParseInt
import MiniRedis.Hashtable.Refinement

/-!
# The writing commands at one instant

With every clock reading at one instant `now`, a probe that finds a live entry leaves the table
as it is (`probe_of_liveLookup`), and `ht_set` followed by `ht_set_expire` of the same key gives
the key the value and the deadline (`htSetExpire_htSet`). From these, each writing handler is
described by what it does to `lookup` and what it replies.

`INCR` and `DECR` store the decimal text of the new value and keep the key's deadline; they
refuse, leaving the table exactly as it was, a value that `parse_int64` rejects or that is at
the bound.
-/

namespace MiniRedis

/-- With every reading at one instant, `KEYS` scans the table as `htScan` does. -/
theorem cmdKeys_const (ht : Hashtable) (args : List Bytes) (now : Int) :
    cmdKeys ht args (fun _ => now) =
      ((htScan ht now).1,
        keysReply (((htScan ht now).2.map Prod.fst).filter (globMatch (arg args 1)))) := by
  rw [cmdKeys, htScanFromAt_const]
  rfl

section Instant

variable {ht : Hashtable} (hinv : ht.Inv)
include hinv

/-- A probe that finds a live entry changes nothing. -/
theorem probe_of_liveLookup {key : Bytes} {now : Int} {e : Bytes × Int}
    (hl : ht.liveLookup key now = some e) : (probe ht key now).1 = ht := by
  rcases probe_spec hinv key now with ⟨v, x, s, -, -, hp⟩ | ⟨hl', -⟩
  · rw [hp]
  · rw [hl] at hl'; cases hl'

/-- `ht_set` then `ht_set_expire` of the same key at one instant: the key holds the value with
that expiry, and every other key is unchanged. -/
theorem htSetExpire_htSet (key v : Bytes) (x now : Int) :
    (htSetExpire (htSet ht key v now).1 key x now).Inv ∧
      ∀ k, (htSetExpire (htSet ht key v now).1 key x now).lookup k =
        if k = key then some (v, x) else ht.lookup k := by
  obtain ⟨hinv₁, hl₁, -⟩ := htSet_spec hinv key v now
  obtain ⟨hinv₂, hl₂, -⟩ := htSetExpire_spec hinv₁ key x now
  refine ⟨hinv₂, fun k => ?_⟩
  rw [hl₂]
  split_ifs with hk
  · simp [Hashtable.liveLookup, hl₁, isExpired]
  · rw [hl₁, if_neg hk]

/-- `INCR` and `DECR` on a key with no live entry store the text of `delta` with no deadline,
and reply `delta`. -/
theorem cmdIncrBy_absent {delta limit : Int} (hlimit : limit ≠ 0) {args : List Bytes} {now : Int}
    (hl : ht.liveLookup (arg args 1) now = none) :
    (cmdIncrBy delta limit ht args fun _ => now).2 = respWriteInteger delta ∧
      (cmdIncrBy delta limit ht args fun _ => now).1.Inv ∧
      ∀ k, (cmdIncrBy delta limit ht args fun _ => now).1.lookup k =
        if k = arg args 1 then some (intDecimal delta, -1) else ht.lookup k := by
  obtain ⟨hinv₁, -, -, hl₁⟩ := probe_fst hinv (arg args 1) now
  obtain ⟨hinv₂, hl₂, -⟩ := htSet_spec hinv₁ (arg args 1) (intDecimal delta) now
  simp only [cmdIncrBy, htGetRef_absent hinv hl, incrStore, hlimit.symm, if_false, zero_add,
    ne_eq, not_true_eq_false, clockAfter]
  refine ⟨trivial, hinv₂, fun k => ?_⟩
  rw [hl₂, hl₁]
  split_ifs with hk <;> rfl

/-- `INCR` and `DECR` on a live value that parses to `n`, short of the bound: they store the
text of `n + delta` with the key's deadline, and reply `n + delta`. -/
theorem cmdIncrBy_parsed {delta limit : Int} {args : List Bytes} {now : Int} {val : Bytes}
    {x n : Int} (hl : ht.liveLookup (arg args 1) now = some (val, x))
    (hp : parseInt64 val = some n) (hn : n ≠ limit) :
    (cmdIncrBy delta limit ht args fun _ => now).2 = respWriteInteger (n + delta) ∧
      (cmdIncrBy delta limit ht args fun _ => now).1.Inv ∧
      ∀ k, (cmdIncrBy delta limit ht args fun _ => now).1.lookup k =
        if k = arg args 1 then some (intDecimal (n + delta), x) else ht.lookup k := by
  obtain ⟨s, hg, hs⟩ := htGetRef_live hinv hl
  have hprobe := probe_of_liveLookup hinv hl
  simp only [cmdIncrBy, hg, htGetExpire_spec hinv, hprobe, hl, hs, Entry.value, hp,
    Option.map_some', Option.getD_some, incrStore, hn, if_false, clockAfter]
  refine ⟨trivial, ?_⟩
  by_cases hx : x = -1
  · obtain ⟨hinv', hl', -⟩ := htSet_spec hinv (arg args 1) (intDecimal (n + delta)) now
    simp only [hx, ne_eq, not_true_eq_false, if_false]
    exact ⟨hinv', hl'⟩
  · simp only [hx, ne_eq, not_false_eq_true, if_true]
    exact htSetExpire_htSet hinv _ _ _ now

/-- `INCR` and `DECR` refuse a live value that `parse_int64` rejects or that is at the bound,
and leave the table exactly as it was. -/
theorem cmdIncrBy_refused {delta limit : Int} {args : List Bytes} {now : Int} {val : Bytes}
    {x : Int} (hl : ht.liveLookup (arg args 1) now = some (val, x))
    (hp : parseInt64 val = none ∨ parseInt64 val = some limit) :
    (cmdIncrBy delta limit ht args fun _ => now) = (ht, respWriteError errNotInteger) := by
  obtain ⟨s, hg, hs⟩ := htGetRef_live hinv hl
  have hprobe := probe_of_liveLookup hinv hl
  rcases hp with hp | hp <;>
    simp [cmdIncrBy, hg, htGetExpire_spec hinv, hprobe, hl, hs, Entry.value, hp, incrStore]

/-- `SET` without five arguments stores the value with no deadline and replies `OK`, whatever
`args[3]` holds. -/
theorem cmdSet_plain {args : List Bytes} (hlen : args.length ≠ 5) (now : Int) :
    (cmdSet ht args fun _ => now).2 = respWriteSimpleString (ascii "OK") ∧
      (cmdSet ht args fun _ => now).1.Inv ∧
      ∀ k, (cmdSet ht args fun _ => now).1.lookup k =
        if k = arg args 1 then some (arg args 2, -1) else ht.lookup k := by
  obtain ⟨hinv', hl, -⟩ := htSet_spec hinv (arg args 1) (arg args 2) now
  simp only [cmdSet, hlen, if_false]
  exact ⟨trivial, hinv', hl⟩

/-- `SET k v EX s` with `s` a positive `int64_t` stores the value with the deadline
`now + s * 1000` computed in `int64_t`, and replies `OK`. -/
theorem cmdSet_ex {args : List Bytes} (hlen : args.length = 5)
    (hex : cString (exBuf (arg args 3)) = ascii "EX") {seconds : Int}
    (hs : (parseInt64 (arg args 4)).filter (0 < ·) = some seconds) (now : Int) :
    (cmdSet ht args fun _ => now).2 = respWriteSimpleString (ascii "OK") ∧
      (cmdSet ht args fun _ => now).1.Inv ∧
      ∀ k, (cmdSet ht args fun _ => now).1.lookup k =
        if k = arg args 1 then some (arg args 2, expireAtFrom now seconds) else ht.lookup k := by
  simp only [cmdSet, hlen, hex, hs, if_true]
  exact ⟨trivial, htSetExpire_htSet hinv _ _ _ now⟩

/-- `SET` with five arguments and no valid `EX seconds` replies an error and deletes the key it
has just stored: whatever the key held before is gone. -/
theorem cmdSet_rejected {args : List Bytes} (hlen : args.length = 5)
    (hbad : cString (exBuf (arg args 3)) ≠ ascii "EX" ∨
      (parseInt64 (arg args 4)).filter (0 < ·) = none) (now : Int) :
    (cmdSet ht args fun _ => now).2 =
        respWriteError (if cString (exBuf (arg args 3)) = ascii "EX" then
          ascii "ERR invalid expire time in 'set' command" else ascii "ERR syntax error") ∧
      (cmdSet ht args fun _ => now).1.Inv ∧
      ∀ k, (cmdSet ht args fun _ => now).1.lookup k =
        if k = arg args 1 then none else ht.lookup k := by
  obtain ⟨hinv₁, hl₁, -⟩ := htSet_spec hinv (arg args 1) (arg args 2) now
  obtain ⟨hinv₂, hl₂, -⟩ := htDelete_spec hinv₁ (arg args 1) now
  have hlook : ∀ k, (htDelete (htSet ht (arg args 1) (arg args 2) now).1 (arg args 1) now).1.lookup k =
      if k = arg args 1 then none else ht.lookup k := fun k => by
    rw [hl₂, hl₁]; split_ifs <;> rfl
  by_cases hex : cString (exBuf (arg args 3)) = ascii "EX"
  · have hs := hbad.resolve_left (not_not.mpr hex)
    simp only [cmdSet, hlen, hex, hs, if_true]
    exact ⟨trivial, hinv₂, hlook⟩
  · simp only [cmdSet, hlen, hex, if_true, if_false]
    exact ⟨trivial, hinv₂, hlook⟩

/-- `EXPIRE` on a live key with a parsed `seconds` gives it the deadline `now + seconds * 1000`
computed in `int64_t`, keeps its value, and replies `1`. -/
theorem cmdExpire_live {args : List Bytes} {now : Int} {v : Bytes} {x : Int}
    (hl : ht.liveLookup (arg args 1) now = some (v, x)) {seconds : Int}
    (hs : parseInt64 (arg args 2) = some seconds) :
    (cmdExpire ht args fun _ => now).2 = respWriteInteger 1 ∧
      (cmdExpire ht args fun _ => now).1.Inv ∧
      ∀ k, (cmdExpire ht args fun _ => now).1.lookup k =
        if k = arg args 1 then some (v, expireAtFrom now seconds) else ht.lookup k := by
  obtain ⟨hinv', hl', -⟩ := htSetExpire_spec hinv (arg args 1) (expireAtFrom now seconds) now
  simp only [cmdExpire, hs, htExists_spec hinv, probe_of_liveLookup hinv hl, hl, Option.isSome_some]
  refine ⟨trivial, hinv', fun k => ?_⟩
  rw [hl', hl]
  rfl

/-- A full scan at one instant yields every live key once with its value and nothing else. It
keeps the invariant and turns only expired entries into tombstones, so the table still refines
every map it refined. `KEYS` replies the array of the live keys its pattern matches, each once. -/
theorem htScan_keys (now : Int) :
    (∀ k v, (k, v) ∈ (htScan ht now).2 ↔ ∃ x, ht.liveLookup k now = some (v, x)) ∧
      ((htScan ht now).2.map Prod.fst).Nodup ∧
      (htScan ht now).1.Inv ∧ ht.Pruned now (htScan ht now).1 ∧
      (∀ M, Refines now ht M → Refines now (htScan ht now).1 M) ∧
      ∀ args : List Bytes, ∃ keys : List Bytes,
        cmdKeys ht args (fun _ => now) =
          ((htScan ht now).1, respWriteValue (.array (keys.map .bulkString))) ∧
        keys.Nodup ∧ ∀ k, k ∈ keys ↔ (ht.liveLookup k now).isSome ∧ globMatch (arg args 1) k := by
  refine ⟨htScan_mem_iff hinv, htScan_nodup hinv, htScanFrom_inv hinv 0,
    (htScanFrom_spec ht 0 now).1, fun M h => (MapOp.exec_refines h .scan).2, fun args => ?_⟩
  refine ⟨_, by rw [cmdKeys_const, ← keysReply_eq], (htScan_nodup hinv).filter _, fun k => ?_⟩
  simp only [List.mem_filter, List.mem_map, Prod.exists, exists_and_right, exists_eq_right,
    htScan_mem_iff hinv, Option.isSome_iff_exists, Prod.exists]

end Instant

/-- The scan and `KEYS` on a store holding one key. -/
theorem htScan_keys_one :
    let ht := (htSet htCreate (ascii "k") (ascii "v") 0).1
    ht.Inv ∧
      (∀ k v, (k, v) ∈ (htScan ht 0).2 ↔ ∃ x, ht.liveLookup k 0 = some (v, x)) ∧
      ((htScan ht 0).2.map Prod.fst).Nodup ∧
      (htScan ht 0).1.Inv ∧ ht.Pruned 0 (htScan ht 0).1 ∧
      (∀ M, Refines 0 ht M → Refines 0 (htScan ht 0).1 M) ∧
      ∀ args : List Bytes, ∃ keys : List Bytes,
        cmdKeys ht args (fun _ => 0) =
          ((htScan ht 0).1, respWriteValue (.array (keys.map .bulkString))) ∧
        keys.Nodup ∧ ∀ k, k ∈ keys ↔ (ht.liveLookup k 0).isSome ∧ globMatch (arg args 1) k :=
  have hinv := (htSet_spec htCreate_inv (ascii "k") (ascii "v") 0).1
  ⟨hinv, htScan_keys hinv 0⟩

/-- `DECR` on a key holding the text of `INT64_MIN - 1`, which is no `int64_t`: instead of the
error, it stores the text of `INT64_MAX - 1` and replies it. -/
theorem cmdDecr_below_min (now : Int) :
    (cmdDecr (htSet htCreate (ascii "k") (ascii "-9223372036854775809") now).1
        [ascii "DECR", ascii "k"] fun _ => now).2 = respWriteInteger 9223372036854775806 ∧
      (cmdDecr (htSet htCreate (ascii "k") (ascii "-9223372036854775809") now).1
          [ascii "DECR", ascii "k"] fun _ => now).1.lookup (ascii "k") =
        some (intDecimal 9223372036854775806, -1) ∧
      ∀ n, ¬IntField (ascii "-9223372036854775809") n := by
  obtain ⟨hinv, hl, -⟩ := htSet_spec htCreate_inv (ascii "k") (ascii "-9223372036854775809") now
  have hlive : (htSet htCreate (ascii "k") (ascii "-9223372036854775809") now).1.liveLookup
      (arg [ascii "DECR", ascii "k"] 1) now = some (ascii "-9223372036854775809", -1) := by
    simp [Hashtable.liveLookup, arg, hl, isExpired]
  obtain ⟨hr, -, hk⟩ := @cmdIncrBy_parsed _ hinv (-1) int64Min _ _ _ _ _ hlive parseInt64_below_min
    (by decide)
  refine ⟨hr.trans (by rfl), (hk _).trans (by simp [arg]; rfl), not_intField_below_min⟩

/-- `EXPIRE k -1` at `999` on a live key computes the deadline `999 - 1000 = -1`, the value that
means no deadline, so the key stays present at every instant after. `SET k v EX 9223372036854776`
at `0` computes `seconds * 1000`, past `INT64_MAX`, in `int64_t`: the deadline wraps below `0`
and the key is absent at once. Both commands reply success. -/
theorem cmdExpire_deadline_wraps :
    (cmdExpire (htSet htCreate (ascii "k") (ascii "v") 999).1
        [ascii "EXPIRE", ascii "k", ascii "-1"] fun _ => 999).2 = respWriteInteger 1 ∧
      (∀ t, ((cmdExpire (htSet htCreate (ascii "k") (ascii "v") 999).1
        [ascii "EXPIRE", ascii "k", ascii "-1"] fun _ => 999).1.liveLookup (ascii "k") t).isSome) ∧
      (cmdSet htCreate [ascii "SET", ascii "k", ascii "v", ascii "EX", ascii "9223372036854776"]
        fun _ => 0).2 = respWriteSimpleString (ascii "OK") ∧
      ((cmdSet htCreate [ascii "SET", ascii "k", ascii "v", ascii "EX", ascii "9223372036854776"]
        fun _ => 0).1.liveLookup (ascii "k") 0).isNone := by
  obtain ⟨hinv, hl, -⟩ := htSet_spec htCreate_inv (ascii "k") (ascii "v") 999
  have hlive : (htSet htCreate (ascii "k") (ascii "v") 999).1.liveLookup
      (arg [ascii "EXPIRE", ascii "k", ascii "-1"] 1) 999 = some (ascii "v", -1) := by
    simp [Hashtable.liveLookup, arg, hl, isExpired]
  obtain ⟨hr, -, hk⟩ := cmdExpire_live hinv hlive
    (by decide : parseInt64 (arg [ascii "EXPIRE", ascii "k", ascii "-1"] 2) = some (-1))
  have hex : cString (exBuf (arg [ascii "SET", ascii "k", ascii "v", ascii "EX",
      ascii "9223372036854776"] 3)) = ascii "EX" := by decide
  have hs : (parseInt64 (arg [ascii "SET", ascii "k", ascii "v", ascii "EX",
      ascii "9223372036854776"] 4)).filter (0 < ·) = some 9223372036854776 := by decide
  obtain ⟨hr', -, hk'⟩ := cmdSet_ex htCreate_inv (by rfl) hex hs 0
  refine ⟨hr, fun t => ?_, hr', ?_⟩
  · simp [Hashtable.liveLookup, hk, arg, Option.filter, isExpired,
      show expireAtFrom 999 (-1) = -1 by decide]
  · simp [Hashtable.liveLookup, hk', arg, Option.filter, isExpired,
      show expireAtFrom 0 9223372036854776 = -9223372036854775616 by decide]

/-- Four arguments pass dispatch's bounds for `SET`, and `SET k v EX` stores `v` and replies
`OK`. With five, `SET k v NX 1` on a key holding `old` replies an error and deletes the key. -/
theorem cmdSet_option_rejected (now : Int) :
    (dispatchCommand (htSet htCreate (ascii "k") (ascii "old") now).1
        (.array [.bulkString (ascii "SET"), .bulkString (ascii "k"), .bulkString (ascii "v"),
          .bulkString (ascii "EX")]) fun _ => now).2 = respWriteSimpleString (ascii "OK") ∧
      (htSet htCreate (ascii "k") (ascii "old") now).1.lookup (ascii "k") = some (ascii "old", -1) ∧
      (dispatchCommand (htSet htCreate (ascii "k") (ascii "old") now).1
          (.array [.bulkString (ascii "SET"), .bulkString (ascii "k"), .bulkString (ascii "v"),
            .bulkString (ascii "NX"), .bulkString (ascii "1")]) fun _ => now).2 =
        respWriteError (ascii "ERR syntax error") ∧
      (dispatchCommand (htSet htCreate (ascii "k") (ascii "old") now).1
          (.array [.bulkString (ascii "SET"), .bulkString (ascii "k"), .bulkString (ascii "v"),
            .bulkString (ascii "NX"), .bulkString (ascii "1")]) fun _ => now).1.lookup
          (ascii "k") = none := by
  have hd₄ : ∀ st : Hashtable, dispatchCommand st (.array [.bulkString (ascii "SET"),
      .bulkString (ascii "k"), .bulkString (ascii "v"), .bulkString (ascii "EX")]) (fun _ => now) =
      cmdSet st [ascii "SET", ascii "k", ascii "v", ascii "EX"] fun _ => now := fun _ => rfl
  have hd₅ : ∀ st : Hashtable, dispatchCommand st (.array [.bulkString (ascii "SET"),
      .bulkString (ascii "k"), .bulkString (ascii "v"), .bulkString (ascii "NX"),
      .bulkString (ascii "1")]) (fun _ => now) =
      cmdSet st [ascii "SET", ascii "k", ascii "v", ascii "NX", ascii "1"] fun _ => now :=
    fun _ => rfl
  rw [hd₄, hd₅]
  obtain ⟨hinv, hl, -⟩ := htSet_spec htCreate_inv (ascii "k") (ascii "old") now
  have hnx : cString (exBuf (arg [ascii "SET", ascii "k", ascii "v", ascii "NX", ascii "1"] 3)) ≠
      ascii "EX" := by decide
  obtain ⟨hr, -, hk⟩ := cmdSet_rejected hinv (by rfl) (.inl hnx) now
  have h4 : [ascii "SET", ascii "k", ascii "v", ascii "EX"].length ≠ 5 := by decide
  refine ⟨(cmdSet_plain hinv h4 now).1,
    (hl _).trans (if_pos rfl), hr.trans (by rw [if_neg hnx]), (hk _).trans (if_pos rfl)⟩

end MiniRedis
