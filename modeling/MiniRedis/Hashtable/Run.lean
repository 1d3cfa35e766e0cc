import MiniRedis.Hashtable.Iter

/-!
# Runs of the table

A run is any sequence of calls of the table's interface, each with its own clock reading,
from `ht_create`. `TableOp.apply_inv` is the step lemma: every call keeps the representation
invariant. `runTable_inv` is the run lemma: every table a run reaches has it, and so has an
empty slot, at which every probe stops before its loop runs out.
-/

namespace MiniRedis

/-- One call of the table's interface, with its arguments. -/
inductive TableOp where
  /-- `ht_set(ht, key, value)`. -/
  | set (key value : Bytes)
  /-- `ht_get(ht, key)`. -/
  | get (key : Bytes)
  /-- `ht_exists(ht, key)`. -/
  | contains (key : Bytes)
  /-- `ht_delete(ht, key)`. -/
  | delete (key : Bytes)
  /-- `ht_set_expire(ht, key, expire_at_ms)`. -/
  | setExpire (key : Bytes) (expireAtMs : Int)
  /-- `ht_get_expire(ht, key)`. -/
  | getExpire (key : Bytes)
  /-- `ht_iter_next` on an iterator whose cursor is `index`. -/
  | iterNext (index : Nat)
  deriving Repr

/-- The table after one call made at clock reading `now`. -/
def TableOp.apply (now : Int) (ht : Hashtable) : TableOp → Hashtable
  | .set key value => (htSet ht key value now).1
  | .get key => (htGet ht key now).1
  | .contains key => (htExists ht key now).1
  | .delete key => (htDelete ht key now).1
  | .setExpire key expireAtMs => htSetExpire ht key expireAtMs now
  | .getExpire key => (htGetExpire ht key now).1
  | .iterNext index => (htIterNext ht index now).1

/-- The table after a sequence of calls, each with its clock reading. -/
def runTable (ht : Hashtable) : List (TableOp × Int) → Hashtable
  | [] => ht
  | (op, now) :: ops => runTable (op.apply now ht) ops

/-- Running two lists of operations is running them one after the other. -/
theorem runTable_append (ht : Hashtable) (ops ops' : List (TableOp × Int)) :
    runTable ht (ops ++ ops') = runTable (runTable ht ops) ops' := by
  induction ops generalizing ht with
  | nil => rfl
  | cons op ops ih => exact ih _

/-- `ht_create` has the invariant. -/
theorem htCreate_inv : htCreate.Inv where
  capacity_pow := ⟨6, rfl⟩
  capacity_ge := le_rfl
  length_eq := List.length_replicate _ _
  count_eq := (countP_replicate_empty _ rfl _).symm
  used_eq := (countP_replicate_empty _ rfl _).symm
  used_lt := by decide
  keys_unique := (rehashed_replicate htInitialCapacity).keys_unique
  chain := (rehashed_replicate htInitialCapacity).chain

/-- Every call keeps the invariant, whatever the clock reads. -/
theorem TableOp.apply_inv {ht : Hashtable} (hinv : ht.Inv) (now : Int) :
    ∀ op : TableOp, (op.apply now ht).Inv
  | .set key value => (htSet_spec hinv key value now).1
  | .get key => by rw [apply, htGet_spec hinv]; exact (probe_fst hinv key now).1
  | .contains key => by rw [apply, htExists_spec hinv]; exact (probe_fst hinv key now).1
  | .delete key => (htDelete_spec hinv key now).1
  | .setExpire key expireAtMs => (htSetExpire_spec hinv key expireAtMs now).1
  | .getExpire key => by rw [apply, htGetExpire_spec hinv]; exact (probe_fst hinv key now).1
  | .iterNext index => htIterNext_inv ht index now hinv

/-- The run lemma: every run from a table with the invariant keeps it. -/
theorem runTable_inv_of {ht : Hashtable} (hinv : ht.Inv) :
    ∀ ops : List (TableOp × Int), (runTable ht ops).Inv
  | [] => hinv
  | (op, now) :: ops => runTable_inv_of (op.apply_inv hinv now) ops

/-- Every table reachable from `ht_create` by any calls at any clock readings has the
representation invariant, and an empty slot. -/
theorem runTable_inv (ops : List (TableOp × Int)) :
    (runTable htCreate ops).Inv ∧
      ∃ s < (runTable htCreate ops).capacity, (runTable htCreate ops).slot s = .empty :=
  ⟨runTable_inv_of htCreate_inv ops, (runTable_inv_of htCreate_inv ops).exists_empty⟩

end MiniRedis
