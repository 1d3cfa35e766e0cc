import MiniRedis.Hashtable.Run

/-!
# The table refines a finite map with deadlines

The abstract keyspace maps a key to a value and an optional deadline; a key is present at time
`t` when it has a value and no deadline or a deadline after `t`. `Refines t ht M` says that the
table has the invariant and agrees with `M` on every key present at `t`; since a key absent at
`t` stays absent later, the relation survives the clock moving forward (`Refines.mono`).
`MapOp.exec_refines` is the step lemma: each operation at `t` returns what the abstract map
allows and leaves tables that refine the abstract result. `execRun_refines` is the run lemma
from `ht_create`, for any run whose clock readings do not decrease: resizes, tombstone reuse
and lazy expiry are all inside it.
-/

namespace MiniRedis

/-- The abstract keyspace: the value and optional deadline of each key. -/
abbrev AbsMap := Bytes → Option (Bytes × Option Int)

/-- The deadline an `expire_at` field stands for: none for `-1`. -/
def decodeExpire (x : Int) : Option Int := if x = -1 then none else some x

/-- An entry as present at time `t`: kept if it has no deadline or a deadline after `t`. -/
def liveAt (t : Int) (o : Option (Bytes × Option Int)) : Option (Bytes × Option Int) :=
  o.filter fun e => e.2.all (t < ·)

/-- What the table stores under `k`, as an abstract entry. -/
def Hashtable.view (ht : Hashtable) (k : Bytes) : Option (Bytes × Option Int) :=
  (ht.lookup k).map fun e => (e.1, decodeExpire e.2)

/-- The table has the invariant and agrees with `M` on what is present at `t`. -/
def Refines (t : Int) (ht : Hashtable) (M : AbsMap) : Prop :=
  ht.Inv ∧ ∀ k, liveAt t (ht.view k) = liveAt t (M k)

section Live

variable {t t' : Int}

/-- A deadline in the map lies after `t` exactly when `is_expired` is false at `t`. -/
theorem decodeExpire_all (x t : Int) : (decodeExpire x).all (t < ·) = !isExpired x t := by
  unfold decodeExpire isExpired
  split_ifs <;> simp_all [← decide_not]

/-- What is present at a later time was present before. -/
theorem liveAt_liveAt (h : t ≤ t') (o : Option (Bytes × Option Int)) :
    liveAt t' (liveAt t o) = liveAt t' o := by
  rcases o with _ | ⟨v, _ | d⟩
  · rfl
  · simp [liveAt, Option.filter]
  · by_cases h' : t < d
    · simp [liveAt, Option.filter, h', show t' < d ∨ ¬t' < d from em _]
    · have : ¬t' < d := by omega
      simp [liveAt, Option.filter, h', this]

/-- What the table's view shows at `t` is its live lookup at `t`. -/
theorem liveAt_view (ht : Hashtable) (k : Bytes) (t : Int) :
    liveAt t (ht.view k) = (ht.liveLookup k t).map fun e => (e.1, decodeExpire e.2) := by
  unfold liveAt Hashtable.view Hashtable.liveLookup
  cases ht.lookup k with
  | none => rfl
  | some e => simp only [Option.map_some', Option.filter, decodeExpire_all]; split <;> rfl

/-- A refinement at `t` holds at every later instant: time expires the same keys on both sides. -/
theorem Refines.mono {ht : Hashtable} {M : AbsMap} (h : Refines t ht M) (ht' : t ≤ t') :
    Refines t' ht M :=
  ⟨h.1, fun k => by rw [← liveAt_liveAt ht', h.2 k, liveAt_liveAt ht']⟩

end Live

/-- One operation of the keyspace interface that a client of the abstract map sees; a scan is
`ht_iter_init` followed by `ht_iter_next` until it returns false. -/
inductive MapOp where
  /-- `ht_set(ht, key, value)`. -/
  | set (key value : Bytes)
  /-- `ht_get(ht, key)`. -/
  | get (key : Bytes)
  /-- `ht_exists(ht, key)`. -/
  | contains (key : Bytes)
  /-- `ht_delete(ht, key)`. -/
  | delete (key : Bytes)
  /-- `ht_set_expire(ht, key, expire_at_ms)`. -/
  | setExpire (key : Bytes) (expireAtMs : Int)
  /-- `ht_get_expire(ht, key)`. -/
  | getExpire (key : Bytes)
  /-- A full scan with the iterator. -/
  | scan

/-- What an operation returns. -/
inductive MapReply where
  | flag (b : Bool)
  | value (v : Option Bytes)
  | expire (x : Int)
  | entries (l : List (Bytes × Bytes))
  | done

/-- One operation on the table at clock reading `now`. -/
def MapOp.exec (now : Int) (ht : Hashtable) : MapOp → Hashtable × MapReply
  | .set key value => ((htSet ht key value now).1, .flag (htSet ht key value now).2)
  | .get key => ((htGet ht key now).1, .value (htGet ht key now).2)
  | .contains key => ((htExists ht key now).1, .flag (htExists ht key now).2)
  | .delete key => ((htDelete ht key now).1, .flag (htDelete ht key now).2)
  | .setExpire key expireAtMs => (htSetExpire ht key expireAtMs now, .done)
  | .getExpire key => ((htGetExpire ht key now).1, .expire (htGetExpire ht key now).2)
  | .scan => ((htScan ht now).1, .entries (htScan ht now).2)

/-- The operations in turn, each at its clock reading: the last table and the replies. -/
def execRun (ht : Hashtable) : List (MapOp × Int) → Hashtable × List MapReply
  | [] => (ht, [])
  | (op, now) :: ops =>
    let r := op.exec now ht
    ((execRun r.1 ops).1, r.2 :: (execRun r.1 ops).2)

/-- The abstract map after an operation at time `t`. -/
def MapOp.absApply (t : Int) (M : AbsMap) : MapOp → AbsMap
  | .set key value => Function.update M key (some (value, none))
  | .delete key => Function.update M key none
  | .setExpire key expireAtMs =>
    match liveAt t (M key) with
    | some (v, _) => Function.update M key (some (v, decodeExpire expireAtMs))
    | none => M
  | _ => M

/-- The replies the abstract map allows for an operation at time `t`: a scan may list the
present keys in any order, each once. -/
def MapOp.Allows (t : Int) (M : AbsMap) : MapOp → MapReply → Prop
  | .set key _, r => r = .flag (liveAt t (M key)).isNone
  | .get key, r => r = .value ((liveAt t (M key)).map Prod.fst)
  | .contains key, r => r = .flag (liveAt t (M key)).isSome
  | .delete key, r => r = .flag (liveAt t (M key)).isSome
  | .setExpire _ _, r => r = .done
  | .getExpire key, r => r = .expire
      (match liveAt t (M key) with
       | some (_, some d) => d
       | _ => -1)
  | .scan, r => ∃ l, r = .entries l ∧ (l.map Prod.fst).Nodup ∧
      ∀ k v, (k, v) ∈ l ↔ (liveAt t (M k)).map Prod.fst = some v

/-- The abstract runs: each reply allowed, each map the result of the one before. -/
inductive AbsRun : AbsMap → List (MapOp × Int) → List MapReply → Prop
  | nil (M : AbsMap) : AbsRun M [] []
  | cons {M : AbsMap} {op : MapOp} {t : Int} {ops : List (MapOp × Int)} {r : MapReply}
      {rs : List MapReply} :
      op.Allows t M r → AbsRun (op.absApply t M) ops rs → AbsRun M ((op, t) :: ops) (r :: rs)

section Step

variable {t : Int} {ht : Hashtable} {M : AbsMap}

/-- A table whose lookups change only at `key` refines the updated map when it agrees with it
at `key`. -/
theorem refines_update (h : Refines t ht M) {ht' : Hashtable} (hinv' : ht'.Inv) {key : Bytes}
    {o : Option (Bytes × Int)} (hl : ∀ k, ht'.lookup k = if k = key then o else ht.lookup k)
    {M' : AbsMap} (hM : ∀ k, k ≠ key → M' k = M k)
    (hkey : liveAt t ((o.map fun e => (e.1, decodeExpire e.2))) = liveAt t (M' key)) :
    Refines t ht' M' := by
  refine ⟨hinv', fun k => ?_⟩
  by_cases hk : k = key
  · subst hk; rw [Hashtable.view, hl, if_pos rfl, hkey]
  · rw [Hashtable.view, hl, if_neg hk, hM k hk, ← h.2 k]; rfl

/-- The table a probe leaves refines the same map. -/
theorem Refines.probe (h : Refines t ht M) (key : Bytes) : Refines t (probe ht key t).1 M := by
  obtain ⟨hinv', -, -, hl⟩ := probe_fst h.1 key t
  refine refines_update h hinv' hl (fun _ _ => rfl) ?_
  rw [← h.2 key, liveAt_view, ← liveAt_view, liveAt_liveAt le_rfl]

/-- The step lemma: each operation at `t` returns what the abstract map allows, and the table
it leaves refines the abstract result. -/
theorem MapOp.exec_refines (h : Refines t ht M) :
    ∀ op : MapOp, op.Allows t M (op.exec t ht).2 ∧ Refines t (op.exec t ht).1 (op.absApply t M)
  | .set key value => by
    obtain ⟨hinv', hl, hr⟩ := htSet_spec h.1 key value t
    refine ⟨by rw [Allows, exec, hr, ← h.2 key, liveAt_view]; cases ht.liveLookup key t <;> rfl, ?_⟩
    refine refines_update h hinv' hl (fun k hk => Function.update_noteq hk _ _) ?_
    simp [absApply, liveAt, Option.filter, decodeExpire]
  | .get key => by
    refine ⟨?_, by rw [exec, htGet_spec h.1]; exact h.probe key⟩
    rw [Allows, exec, htGet_spec h.1, ← h.2 key, liveAt_view, Option.map_map]
    rfl
  | .contains key => by
    refine ⟨?_, by rw [exec, htExists_spec h.1]; exact h.probe key⟩
    rw [Allows, exec, htExists_spec h.1, ← h.2 key, liveAt_view]
    cases ht.liveLookup key t <;> rfl
  | .delete key => by
    obtain ⟨hinv', hl, hr, -⟩ := htDelete_spec h.1 key t
    refine ⟨by rw [Allows, exec, hr, ← h.2 key, liveAt_view]; cases ht.liveLookup key t <;> rfl, ?_⟩
    exact refines_update h hinv' hl (fun k hk => Function.update_noteq hk _ _)
      (by simp [absApply, liveAt])
  | .setExpire key expireAtMs => by
    obtain ⟨hinv', hl, -⟩ := htSetExpire_spec h.1 key expireAtMs t
    refine ⟨rfl, ?_⟩
    have hkey := h.2 key
    rw [liveAt_view] at hkey
    simp only [absApply, exec]
    cases hlive : ht.liveLookup key t with
    | none =>
      rw [hlive, Option.map_none'] at hkey
      rw [← hkey]
      exact refines_update h hinv' (by simpa [hlive] using hl) (fun _ _ => rfl) (by rw [← hkey]; rfl)
    | some e =>
      rw [hlive, Option.map_some'] at hkey
      rw [← hkey]
      exact refines_update h hinv' (by simpa [hlive] using hl)
        (fun k hk => Function.update_noteq hk _ _) (by simp)
  | .getExpire key => by
    refine ⟨?_, by rw [exec, htGetExpire_spec h.1]; exact h.probe key⟩
    rw [Allows, exec, htGetExpire_spec h.1, ← h.2 key, liveAt_view]
    cases ht.liveLookup key t with
    | none => rfl
    | some e =>
      obtain ⟨v, x⟩ := e
      by_cases hx : x = -1 <;> simp [decodeExpire, hx]
  | .scan => by
    have hp : ht.Pruned t (htScan ht t).1 := (htScanFrom_spec ht 0 t).1
    have hinv' : (htScan ht t).1.Inv := htScanFrom_inv h.1 0
    refine ⟨⟨_, rfl, htScan_nodup h.1, fun k v => ?_⟩, hinv', fun k => ?_⟩
    · rw [htScan_mem_iff h.1, ← h.2 k, liveAt_view, Option.map_map]
      constructor
      · rintro ⟨x, hx⟩; simp [hx]
      · intro hv
        obtain ⟨⟨v', x⟩, he, hv'⟩ := Option.map_eq_some'.mp hv
        cases hv'
        exact ⟨x, he⟩
    · show liveAt t ((htScan ht t).1.view k) = liveAt t (M k)
      rw [← h.2 k, liveAt_view, liveAt_view, hp.liveLookup_eq h.1.keys_unique hinv'.keys_unique]

end Step

/-- `ht_create` holds no key. -/
theorem htCreate_lookup (k : Bytes) : htCreate.lookup k = none :=
  (lookup_eq_none_iff htCreate_inv.keys_unique).mpr fun _ _ ⟨s, hs⟩ => by
    simp [Hashtable.slot, htCreate] at hs

/-- The run lemma: from a table refining `M` at `t`, a run whose clock readings start at or
after `t` and never decrease is an abstract run of `M`. -/
theorem execRun_refines_of {t : Int} {ht : Hashtable} {M : AbsMap} (h : Refines t ht M) :
    ∀ ops : List (MapOp × Int), (ops.map Prod.snd).Chain (· ≤ ·) t →
      AbsRun M ops (execRun ht ops).2
  | [], _ => .nil M
  | (op, t') :: ops, hc => by
    rw [List.map_cons, List.chain_cons] at hc
    obtain ⟨hallow, hrest⟩ := op.exec_refines (h.mono hc.1)
    exact .cons hallow (execRun_refines_of hrest ops hc.2)

/-- From `ht_create`, every run whose clock readings never decrease returns what the abstract
map allows, operation by operation. -/
theorem execRun_refines (ops : List (MapOp × Int)) (hclock : (ops.map Prod.snd).Chain' (· ≤ ·)) :
    AbsRun (fun _ => none) ops (execRun htCreate ops).2 := by
  cases ops with
  | nil => exact .nil _
  | cons op ops =>
    have hcreate : Refines op.2 htCreate fun _ => none := ⟨htCreate_inv, fun k => by
      rw [Hashtable.view, htCreate_lookup]; rfl⟩
    exact execRun_refines_of hcreate _ (List.Chain.cons le_rfl hclock)

/-- A key set, given a deadline, read before it and scanned after it. -/
theorem execRun_refines_expiry :
    let ops : List (MapOp × Int) :=
      [(.set [107] [118], 0), (.setExpire [107] 10, 1), (.get [107], 5), (.scan, 20)]
    (ops.map Prod.snd).Chain' (· ≤ ·) ∧ AbsRun (fun _ => none) ops (execRun htCreate ops).2 :=
  ⟨by simp, execRun_refines _ (by simp)⟩

end MiniRedis
