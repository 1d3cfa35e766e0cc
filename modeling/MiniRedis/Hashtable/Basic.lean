import MiniRedis.Basic

/-!
# The keyspace table

`hashtable_t` is an open-addressed table with linear probing. A slot is empty, occupied by a
key, a value and an expiry time (`-1` for none), or a tombstone. Empty and tombstone slots own
nothing: `calloc` and `entry_free` leave their key and value empty and their expiry at `-1`,
which is what the field accessors below return for them.

Every operation reads the clock through `is_expired`; the model passes the reading `now` of
`current_time_ms` as an argument, one reading per operation. `probe` and `ht_iter_next` expire
entries lazily: an expired entry they meet becomes a tombstone and `count` drops by one.

The resize test `(double)used >= (double)capacity * HT_LOAD_FACTOR` is read exactly: the
double nearest `0.7` is `6305039478318694 / 2^53`, a power-of-two capacity times it is exact,
and so is `(double)used` below `2^53`.
-/

namespace MiniRedis

/-- `ht_entry_t`, with its `state` as the constructor. -/
inductive Entry where
  | empty
  | occupied (key value : Bytes) (expireAt : Int)
  | tombstone
  deriving DecidableEq, Repr

namespace Entry

/-- The `key` field: empty unless occupied. -/
def key : Entry → Bytes
  | occupied key _ _ => key
  | _ => []

/-- The `value` field: empty unless occupied. -/
def value : Entry → Bytes
  | occupied _ value _ => value
  | _ => []

/-- The `expire_at` field: `-1` unless occupied. -/
def expireAt : Entry → Int
  | occupied _ _ expireAt => expireAt
  | _ => -1

/-- An occupied slot is not empty. -/
theorem occupied_ne_empty (k v : Bytes) (x : Int) : occupied k v x ≠ empty := fun h => nomatch h

/-- `state == ENTRY_OCCUPIED`. -/
def isOccupied : Entry → Bool
  | occupied .. => true
  | _ => false

/-- `state != ENTRY_EMPTY`: occupied or tombstone, what `used` counts. -/
def isUsed : Entry → Bool
  | empty => false
  | _ => true

/-- The stored value and expiry of `k`, if this slot holds `k`. -/
def find (k : Bytes) : Entry → Option (Bytes × Int)
  | occupied key value expireAt => if key = k then some (value, expireAt) else none
  | _ => none

/-- `entries[slot].expire_at = expire_at_ms` on an occupied slot. -/
def withExpire (x : Int) : Entry → Entry
  | occupied key value _ => occupied key value x
  | e => e

end Entry

/-- `hashtable_t`: the slots, the capacity, the occupied count and the used count. -/
structure Hashtable where
  entries : List Entry
  capacity : Nat
  count : Nat
  used : Nat
  deriving DecidableEq, Repr

/-- `HT_INITIAL_CAPACITY`. -/
def htInitialCapacity : Nat := 64

/-- `fnv1a_hash`: 32-bit FNV-1a over the key bytes. -/
def fnv1aHash (data : Bytes) : UInt32 :=
  data.foldl (fun hash b => (hash ^^^ b.toUInt32) * 16777619) 2166136261

/-- `is_expired`: an expiry other than `-1` that the clock has reached. -/
def isExpired (expireAt now : Int) : Bool := if expireAt = -1 then false else now ≥ expireAt

/-- Writing slot `i` changes slot `i` only. -/
theorem getD_set_of_lt {l : List Entry} {i : Nat} (hi : i < l.length) (e : Entry) (j : Nat) :
    (l.set i e).getD j .empty = if i = j then e else l.getD j .empty := by
  simp only [List.getD_eq_getElem?_getD, List.getElem?_set, hi, if_true]
  split <;> simp_all

/-- How writing slot `i` changes a count of the slots. -/
theorem countP_set_getD (p : Entry → Bool) {l : List Entry} {i : Nat} (hi : i < l.length)
    (e : Entry) :
    (l.set i e).countP p + (if p (l.getD i .empty) then 1 else 0) =
      l.countP p + (if p e then 1 else 0) := by
  have hget : l.getD i .empty = l[i] := by simp [hi]
  have := List.boole_getElem_le_countP p l i hi
  rw [List.countP_set p l i e hi, hget]
  split_ifs at this ⊢ <;> omega

/-- A non-empty entry is in the slot list iff some slot holds it. -/
theorem mem_iff_exists_getD {l : List Entry} {e : Entry} (he : e ≠ .empty) :
    e ∈ l ↔ ∃ s, l.getD s .empty = e := by
  simp only [List.mem_iff_getElem?, List.getD_eq_getElem?_getD]
  refine exists_congr fun s => ⟨fun h => by rw [h]; rfl, fun h => ?_⟩
  cases hs : l[s]? with
  | none => rw [hs] at h; exact absurd h.symm he
  | some a => rw [hs] at h; exact congrArg some h

namespace Hashtable

/-- `ht->entries[i]`. -/
def slot (ht : Hashtable) (i : Nat) : Entry := ht.entries.getD i .empty

/-- The slot `ht_set`, `probe` and `ht_resize` start from: `hash & (capacity - 1)`. -/
def homeIndex (ht : Hashtable) (key : Bytes) : Nat := (fnv1aHash key).toNat &&& (ht.capacity - 1)

/-- `entry_free` on slot `i` followed by `ht->count--`. -/
def freeSlot (ht : Hashtable) (i : Nat) : Hashtable :=
  { ht with entries := ht.entries.set i .tombstone, count := ht.count - 1 }

/-- A slot holding something lies inside the table. -/
theorem lt_of_slot_ne_empty {ht : Hashtable} {i : Nat} (h : ht.slot i ≠ .empty) :
    i < ht.entries.length := by
  by_contra hi
  exact h (by rw [slot, List.getD_eq_getElem?_getD, List.getElem?_eq_none (by omega)]; rfl)

/-- Freeing a slot keeps the capacity. -/
@[simp] theorem freeSlot_capacity (ht : Hashtable) (i : Nat) :
    (ht.freeSlot i).capacity = ht.capacity := rfl

/-- Freeing a slot decrements `count`. -/
@[simp] theorem freeSlot_count (ht : Hashtable) (i : Nat) :
    (ht.freeSlot i).count = ht.count - 1 := rfl

/-- Freeing a slot keeps `used`: a tombstone still counts. -/
@[simp] theorem freeSlot_used (ht : Hashtable) (i : Nat) : (ht.freeSlot i).used = ht.used := rfl

/-- Freeing a slot keeps the number of slots. -/
@[simp] theorem freeSlot_length (ht : Hashtable) (i : Nat) :
    (ht.freeSlot i).entries.length = ht.entries.length := List.length_set ..

/-- Freeing slot `i` makes it a tombstone and changes no other slot. -/
theorem freeSlot_slot (ht : Hashtable) {i : Nat} (hi : i < ht.entries.length) (j : Nat) :
    (ht.freeSlot i).slot j = if i = j then .tombstone else ht.slot j :=
  getD_set_of_lt hi _ j

end Hashtable

/-- The loop of `probe`, at step `i` with `n` steps left; `firstTombstone` is the first
tombstone met so far. -/
def probeLoop (key : Bytes) (now : Int) (idx : Nat) (ht : Hashtable)
    (firstTombstone : Option Nat) : Nat → Nat → Hashtable × Bool × Nat
  | _, 0 => (ht, false, firstTombstone.getD 0)
  | i, n + 1 =>
    let slot := (idx + i) &&& (ht.capacity - 1)
    match ht.slot slot with
    | .empty => (ht, false, firstTombstone.getD slot)
    | .tombstone => probeLoop key now idx ht (some (firstTombstone.getD slot)) (i + 1) n
    | .occupied k _ expireAt =>
      if k = key then
        if isExpired expireAt now then (ht.freeSlot slot, false, firstTombstone.getD slot)
        else (ht, true, slot)
      else probeLoop key now idx ht firstTombstone (i + 1) n

/-- `probe`: the table after lazy expiry, whether `key` was found live, and the slot found or
the slot to insert into. -/
def probe (ht : Hashtable) (key : Bytes) (now : Int) : Hashtable × Bool × Nat :=
  probeLoop key now (ht.homeIndex key) ht none 0 ht.capacity

/-- The rehash loop of `ht_resize`: from `idx`, the first slot that is not occupied. The source
loops forever when there is none; `htResize` never gets there. -/
def rehashSlot (entries : List Entry) (mask idx : Nat) : Nat → Option Nat
  | 0 => none
  | n + 1 =>
    match entries.getD idx .empty with
    | .occupied .. => rehashSlot entries mask ((idx + 1) &&& mask) n
    | _ => some idx

/-- One step of `ht_resize`'s copy loop: an occupied old slot moves to the new table. -/
def rehashEntry (newCap : Nat) (entries : List Entry) : Entry → List Entry
  | .occupied key value expireAt =>
    match rehashSlot entries (newCap - 1) ((fnv1aHash key).toNat &&& (newCap - 1)) newCap with
    | some idx => entries.set idx (.occupied key value expireAt)
    | none => entries
  | _ => entries

/-- `ht_resize`: twice the capacity, every occupied slot rehashed, tombstones dropped. -/
def htResize (ht : Hashtable) : Hashtable :=
  let newCap := ht.capacity * 2
  { entries := ht.entries.foldl (rehashEntry newCap) (List.replicate newCap .empty)
    capacity := newCap
    count := ht.count
    used := ht.count }

/-- `ht_create`. -/
def htCreate : Hashtable :=
  { entries := List.replicate htInitialCapacity .empty
    capacity := htInitialCapacity
    count := 0
    used := 0 }

/-- `(double)ht->used >= (double)ht->capacity * HT_LOAD_FACTOR`. -/
def needsResize (ht : Hashtable) : Bool :=
  ht.capacity * 6305039478318694 ≤ ht.used * 9007199254740992

/-- `ht_set`: overwrite a live key in place, or insert into the slot `probe` returned;
returns whether the key is new. -/
def htSet (ht : Hashtable) (key value : Bytes) (now : Int) : Hashtable × Bool :=
  let ht := if needsResize ht then htResize ht else ht
  match probe ht key now with
  | (ht, true, slot) =>
    ({ ht with entries := ht.entries.set slot (.occupied key value (-1)) }, false)
  | (ht, false, slot) =>
    ({ ht with
        entries := ht.entries.set slot (.occupied key value (-1))
        count := ht.count + 1
        used := if ht.slot slot = .empty then ht.used + 1 else ht.used }, true)

/-- `ht_get`: the live value of `key`. -/
def htGet (ht : Hashtable) (key : Bytes) (now : Int) : Hashtable × Option Bytes :=
  match probe ht key now with
  | (ht, true, slot) => (ht, some (ht.slot slot).value)
  | (ht, false, _) => (ht, none)

/-- `ht_get` as the pointer it returns: the slot whose `value` field the caller dereferences
later, or `NULL`. -/
def htGetRef (ht : Hashtable) (key : Bytes) (now : Int) : Hashtable × Option Nat :=
  match probe ht key now with
  | (ht, true, slot) => (ht, some slot)
  | (ht, false, _) => (ht, none)

/-- `ht_delete`: turn the key's slot into a tombstone; returns whether it was live. -/
def htDelete (ht : Hashtable) (key : Bytes) (now : Int) : Hashtable × Bool :=
  match probe ht key now with
  | (ht, true, slot) => (ht.freeSlot slot, true)
  | (ht, false, _) => (ht, false)

/-- `ht_exists`. -/
def htExists (ht : Hashtable) (key : Bytes) (now : Int) : Hashtable × Bool :=
  match probe ht key now with
  | (ht, found, _) => (ht, found)

/-- `ht_set_expire`: write the expiry of a live key. -/
def htSetExpire (ht : Hashtable) (key : Bytes) (expireAtMs now : Int) : Hashtable :=
  match probe ht key now with
  | (ht, true, slot) =>
    { ht with entries := ht.entries.set slot ((ht.slot slot).withExpire expireAtMs) }
  | (ht, false, _) => ht

/-- `ht_get_expire`: the expiry of a live key, `-1` for none or absent. -/
def htGetExpire (ht : Hashtable) (key : Bytes) (now : Int) : Hashtable × Int :=
  match probe ht key now with
  | (ht, true, slot) => (ht, (ht.slot slot).expireAt)
  | (ht, false, _) => (ht, -1)

/-- `ht_count`. -/
def htCount (ht : Hashtable) : Nat := ht.count

/-- `ht_iter_next` from slot `index`: skip non-occupied slots, expire expired ones, and return
the next live key and value with the index after it. -/
def htIterNext (ht : Hashtable) (index : Nat) (now : Int) :
    Hashtable × Nat × Option (Bytes × Bytes) :=
  if _h : index < ht.capacity then
    match ht.slot index with
    | .occupied key value expireAt =>
      if isExpired expireAt now then htIterNext (ht.freeSlot index) (index + 1) now
      else (ht, index + 1, some (key, value))
    | _ => htIterNext ht (index + 1) now
  else (ht, index, none)
termination_by ht.capacity - index
decreasing_by all_goals simp_wf; omega

/-- `ht_iter_next` with `is_expired` reading the clock at each occupied slot it checks: `clk s`
is the reading at slot `s`. `htIterNext` takes one reading for the whole call. -/
def htIterNextAt (ht : Hashtable) (index : Nat) (clk : Nat → Int) :
    Hashtable × Nat × Option (Bytes × Bytes) :=
  if _h : index < ht.capacity then
    match ht.slot index with
    | .occupied key value expireAt =>
      if isExpired expireAt (clk index) then htIterNextAt (ht.freeSlot index) (index + 1) clk
      else (ht, index + 1, some (key, value))
    | _ => htIterNextAt ht (index + 1) clk
  else (ht, index, none)
termination_by ht.capacity - index
decreasing_by all_goals simp_wf; omega

end MiniRedis
