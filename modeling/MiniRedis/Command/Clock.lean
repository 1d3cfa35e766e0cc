import MiniRedis.Command.Dispatch
import MiniRedis.Hashtable.Run

/-!
# Handlers under a moving clock

A handler reads the clock once per table operation and once per `current_time_ms` call, so a
deadline can pass between two readings of one command. At one fixed instant `TTL` replies
`-1` exactly for a live key without a deadline (`cmdTtl_const_eq_neg_one`). Under a moving
clock it also replies `-1` for a key that is live with a deadline at its first reading and
expired at its second (`cmdTtl_skew`).

`INCR` and `DECR` keep the pointer `ht_get` returns and read through it after
`ht_get_expire`. When the deadline passes between the two readings, `ht_get_expire` frees the
very slot the pointer names, and the command reads the emptied value: it replies the
not-an-integer error and leaves the key deleted (`cmdIncrBy_skew`).
-/

namespace MiniRedis

/-- Distinct `int64_t` values have distinct integer replies. -/
theorem respWriteInteger_inj {a b : Int} (ha : int64Min ≤ a ∧ a ≤ int64Max)
    (hb : int64Min ≤ b ∧ b ≤ int64Max) (h : respWriteInteger a = respWriteInteger b) : a = b := by
  have hab : intDecimal a = intDecimal b := by
    simpa [respWriteInteger] using h
  have := parseIntegerValue_field (intField_intDecimal ha.1 ha.2)
  rw [hab, parseIntegerValue_field (intField_intDecimal hb.1 hb.2)] at this
  exact (Option.some_injective _ this).symm

/-- `C` division by `1000` gives `-1` only on `-1999 .. -1000`. -/
theorem tdiv_thousand_eq_neg_one {y : Int} (h : y.tdiv 1000 = -1) : -1999 ≤ y ∧ y ≤ -1000 := by
  rcases le_or_lt 0 y with hy | hy
  · rw [Int.tdiv_eq_ediv hy (by decide)] at h; omega
  · obtain ⟨z, rfl⟩ : ∃ z, y = -z := ⟨-y, (neg_neg y).symm⟩
    rw [Int.neg_tdiv, Int.tdiv_eq_ediv (by omega) (by decide)] at h; omega

/-- The seconds `TTL` replies for a positive remaining time are never `-1`, even when
`remaining_ms + 999` wraps. -/
theorem ttlSeconds_ne {r : Int} (hr : 0 < r ∧ r ≤ int64Max) : (int64 (r + 999)).tdiv 1000 ≠ -1 :=
  fun h => by
    have := tdiv_thousand_eq_neg_one h
    unfold int64 Int.bmod int64Max at *
    dsimp only at this
    split at this <;> omega

section Fixed

variable {store : Hashtable} (hinv : store.Inv) (args : List Bytes) (t : Int)
include hinv

/-- At one fixed instant, the probe of `TTL`'s existence test keeps the key's live entry. -/
theorem liveLookup_probe_self :
    (probe store (arg args 1) t).1.liveLookup (arg args 1) t = store.liveLookup (arg args 1) t := by
  rw [Hashtable.liveLookup, (probe_fst hinv (arg args 1) t).2.2.2, if_pos rfl,
    Hashtable.liveLookup]
  cases store.lookup (arg args 1) with
  | none => rfl
  | some e => by_cases h : isExpired e.2 t <;> simp [Option.filter, h]

/-- At one fixed instant, `TTL` replies `-1` exactly when the key is live without a
deadline. -/
theorem cmdTtl_const_eq_neg_one :
    (cmdTtl store args fun _ => t).2 = respWriteInteger (-1) ↔
      ∃ v, store.liveLookup (arg args 1) t = some (v, -1) := by
  have hneg : respWriteInteger (-2) ≠ respWriteInteger (-1) := by decide
  have hge := htGetExpire_spec (probe_fst hinv (arg args 1) t).1 (arg args 1) t
  rw [liveLookup_probe_self hinv] at hge
  cases hl : store.liveLookup (arg args 1) t with
  | none => simpa [cmdTtl, htExists_spec hinv, hl] using hneg
  | some e =>
    obtain ⟨v, x⟩ := e
    simp only [cmdTtl, htExists_spec hinv, hl, hge, Option.isSome_some, Option.map_some',
      Option.getD_some, Option.some.injEq, Prod.mk.injEq, exists_and_right, exists_eq, true_and]
    by_cases hx : x = -1
    · simp [hx]
    · simp only [hx, if_false, and_false, iff_false]
      split_ifs with hr
      · exact hneg
      · intro h
        have hr' : 0 < int64 (x - t) ∧ int64 (x - t) ≤ int64Max := ⟨by omega, (int64_mem _).2⟩
        exact ttlSeconds_ne hr' (respWriteInteger_inj (tdiv_mem (int64_mem _)) (by decide) h)

end Fixed

/-- `TTL` on a key that is live with a deadline at the first reading, and expired at the
second, replies `-1`. -/
theorem cmdTtl_skew {store : Hashtable} (hinv : store.Inv) (args : List Bytes) {v : Bytes}
    {d : Int} {clk : Nat → Int} (hlive : store.liveLookup (arg args 1) (clk 0) = some (v, d))
    (hd : d ≠ -1) (hexp : d ≤ clk 1) :
    (cmdTtl store args clk).2 = respWriteInteger (-1) := by
  obtain ⟨hinv', -, -, hl⟩ := probe_fst hinv (arg args 1) (clk 0)
  have hgone : (probe store (arg args 1) (clk 0)).1.liveLookup (arg args 1) (clk 1) = none := by
    rw [Hashtable.liveLookup, hl, if_pos rfl, hlive]
    simp [isExpired, hd, hexp]
  simp [cmdTtl, htExists_spec hinv, hlive, htGetExpire_spec hinv', hgone]

/-- A key set at `0` with the deadline `10`: `TTL` reading the clock at `9` and then at `10`
replies `-1`, a reply it gives at no single instant. -/
theorem cmdTtl_clock_skew :
    (cmdTtl (htSetExpire (htSet htCreate (ascii "k") (ascii "v") 0).1 (ascii "k") 10 0)
        [ascii "TTL", ascii "k"] fun i => if i = 0 then 9 else 10).2 = respWriteInteger (-1) ∧
      ∀ t, (cmdTtl (htSetExpire (htSet htCreate (ascii "k") (ascii "v") 0).1 (ascii "k") 10 0)
        [ascii "TTL", ascii "k"] fun _ => t).2 ≠ respWriteInteger (-1) := by
  set store := htSetExpire (htSet htCreate (ascii "k") (ascii "v") 0).1 (ascii "k") 10 0
  have hinv : store.Inv := (htSetExpire_spec (htSet_spec htCreate_inv _ _ 0).1 _ 10 0).1
  have hlook : store.lookup (ascii "k") = some (ascii "v", 10) := by decide
  refine ⟨cmdTtl_skew hinv _ (v := ascii "v") (d := 10) (by decide) (by decide) le_rfl,
    fun t h => ?_⟩
  obtain ⟨v, hv⟩ := (cmdTtl_const_eq_neg_one hinv _ t).mp h
  rw [show arg [ascii "TTL", ascii "k"] 1 = ascii "k" from rfl, Hashtable.liveLookup, hlook] at hv
  by_cases hx : isExpired 10 t <;> simp [Option.filter, hx] at hv

/-- `INCR` and `DECR` on a key that is live at `ht_get`'s reading and expired at
`ht_get_expire`'s: the slot `val` points into is freed before `parse_int64` reads it, so the
command replies the not-an-integer error, whatever the key held, and the key is deleted. -/
theorem cmdIncrBy_skew {store : Hashtable} (hinv : store.Inv) (delta limit : Int)
    (args : List Bytes) (clk : Nat → Int) {v : Bytes} {d : Int}
    (hlive : store.liveLookup (arg args 1) (clk 0) = some (v, d))
    (hexp : isExpired d (clk 1) = true) :
    (cmdIncrBy delta limit store args clk).2 = respWriteError errNotInteger ∧
      (cmdIncrBy delta limit store args clk).1.Inv ∧
      ∀ k, (cmdIncrBy delta limit store args clk).1.lookup k =
        if k = arg args 1 then none else store.lookup k := by
  obtain ⟨s, hg, hs⟩ := htGetRef_live hinv hlive
  have hfree : (store.freeSlot s).slot s = .tombstone := by
    rw [store.freeSlot_slot (Hashtable.Inv.slot_lt hs), if_pos rfl]
  simp only [cmdIncrBy, hg, htGetExpire_expired hinv hs hexp, hfree, Entry.value, parseInt64]
  refine ⟨trivial, hinv.freeSlot hs,
    fun k => lookup_eq_of_holds_iff (hinv.freeSlot hs).keys_unique fun v' x' => ?_⟩
  rw [hinv.holds_freeSlot hs]
  split_ifs with hk
  · simp [hk]
  · simp [hk, lookup_eq_some_iff hinv.keys_unique]

/-- `INCR` on a key holding `1` with the deadline `10`, reading the clock at `9` and then at
`10`: the error reply, and the key is gone. -/
theorem cmdIncr_clock_skew :
    (htSetExpire (htSet htCreate (ascii "k") (ascii "1") 0).1 (ascii "k") 10 0).liveLookup
        (ascii "k") 9 = some (ascii "1", 10) ∧ isExpired 10 10 = true ∧
      (cmdIncr (htSetExpire (htSet htCreate (ascii "k") (ascii "1") 0).1 (ascii "k") 10 0)
          [ascii "INCR", ascii "k"] fun i => if i = 0 then 9 else 10).2 =
        respWriteError errNotInteger ∧
      (cmdIncr (htSetExpire (htSet htCreate (ascii "k") (ascii "1") 0).1 (ascii "k") 10 0)
          [ascii "INCR", ascii "k"] fun i => if i = 0 then 9 else 10).1.lookup (ascii "k") =
        none := by
  have hinv := (htSetExpire_spec (htSet_spec htCreate_inv (ascii "k") (ascii "1") 0).1
    (ascii "k") 10 0).1
  have hlive : (htSetExpire (htSet htCreate (ascii "k") (ascii "1") 0).1 (ascii "k") 10
      0).liveLookup (ascii "k") 9 = some (ascii "1", 10) := by decide
  have h := cmdIncrBy_skew hinv 1 int64Max [ascii "INCR", ascii "k"]
    (fun i => if i = 0 then 9 else 10) hlive rfl
  exact ⟨hlive, rfl, h.1, (h.2.2 _).trans (if_pos rfl)⟩

end MiniRedis
