import MiniRedis.Hashtable.Run

/-!
# Capacity under churn

`ht_set` resizes when `used`, which counts tombstones as well as keys, reaches the load
threshold, and `ht_resize` always doubles the capacity. So setting and deleting fresh keys grows
the table although it never holds more than one key: `churn_run` is that run for any fresh keys
whose home slots differ, and `churn_capacity` one such run that ends at 128 slots. What does bound
the capacity is the number of `ht_set` calls (`runTable_capacity_le`): `used` grows by at most one
per call, and a resize doubles a capacity at most `3 / 2` times `used`.
-/

namespace MiniRedis

/-- Whether a call is `ht_set`. -/
def TableOp.isSet : TableOp → Bool
  | .set .. => true
  | _ => false

/-! ## The number of `ht_set` calls bounds the capacity -/

/-- Every call but `ht_set` keeps the capacity and `used`. -/
theorem TableOp.apply_load {ht : Hashtable} (hinv : ht.Inv) (now : Int) :
    ∀ op : TableOp, op.isSet = false →
      (op.apply now ht).capacity = ht.capacity ∧ (op.apply now ht).used = ht.used
  | .set .., h => nomatch h
  | .get key, _ => by
    rw [apply, htGet_spec hinv]; exact ⟨(probe_fst hinv key now).2.1, (probe_fst hinv key now).2.2.1⟩
  | .contains key, _ => by
    rw [apply, htExists_spec hinv]
    exact ⟨(probe_fst hinv key now).2.1, (probe_fst hinv key now).2.2.1⟩
  | .delete key, _ => (htDelete_spec hinv key now).2.2.2
  | .setExpire key expireAtMs, _ => (htSetExpire_spec hinv key expireAtMs now).2.2
  | .getExpire key, _ => by
    rw [apply, htGetExpire_spec hinv]
    exact ⟨(probe_fst hinv key now).2.1, (probe_fst hinv key now).2.2.1⟩
  | .iterNext index, _ =>
    ⟨(htIterNext_pruned ht index now rfl).1.capacity_eq, (htIterNext_pruned ht index now rfl).1.used_eq⟩

/-- Over a run, `used` grows by at most the number of `ht_set` calls, and the capacity stays
within three times the bound on `used`. -/
theorem runTable_load {ht : Hashtable} (hinv : ht.Inv) {S : Nat} (hused : ht.used ≤ S)
    (hcap : ht.capacity ≤ max 64 (3 * S)) : ∀ ops : List (TableOp × Int),
      (runTable ht ops).used ≤ S + ops.countP (fun o => o.1.isSet) ∧
      (runTable ht ops).capacity ≤ max 64 (3 * (S + ops.countP (fun o => o.1.isSet)))
  | [] => ⟨hused, hcap⟩
  | (op, now) :: ops => by
    cases hs : op.isSet
    · obtain ⟨hc, hu⟩ := op.apply_load hinv now hs
      have := runTable_load (op.apply_inv hinv now) (hu ▸ hused) (hc ▸ hcap) ops
      simpa [runTable, List.countP_cons, hs] using this
    · cases op with
      | set key value =>
        obtain ⟨hu, hc⟩ := htSet_load hinv key value now
        have hu' : (htSet ht key value now).1.used ≤ S + 1 := by omega
        have hc' : (htSet ht key value now).1.capacity ≤ max 64 (3 * (S + 1)) := by omega
        have := runTable_load (TableOp.apply_inv hinv now (.set key value)) hu' hc' ops
        simp only [runTable, List.countP_cons, hs, ↓reduceIte, TableOp.apply] at this ⊢
        omega
      | _ => cases hs

/-- From `ht_create`, the capacity never exceeds 64 or three times the number of `ht_set`
calls. -/
theorem runTable_capacity_le (ops : List (TableOp × Int)) :
    (runTable htCreate ops).capacity ≤ max 64 (3 * ops.countP fun o => o.1.isSet) := by
  simpa using (runTable_load htCreate_inv (show htCreate.used ≤ 0 from le_rfl)
    (show htCreate.capacity ≤ max 64 (3 * 0) from le_rfl) ops).2

/-! ## Churn grows the table -/

/-- The tables a run passes through, from the first to the last. -/
def runTrace (ht : Hashtable) : List (TableOp × Int) → List Hashtable
  | [] => [ht]
  | (op, now) :: ops => ht :: runTrace (op.apply now ht) ops

/-- The number of keys present at `now`: occupied slots whose entry has not expired. -/
def Hashtable.liveCount (ht : Hashtable) (now : Int) : Nat :=
  ht.entries.countP fun e => (e.liveAt now).isSome

/-- `ht_set(k, "")` then `ht_delete(k)` for each key in turn, at clock reading `now`. -/
def churn (now : Int) : List Bytes → List (TableOp × Int)
  | [] => []
  | k :: ks => (.set k [], now) :: (.delete k, now) :: churn now ks

/-- The live keys are at most the occupied slots. -/
theorem Hashtable.Inv.liveCount_le {ht : Hashtable} (hinv : ht.Inv) (now : Int) :
    ht.liveCount now ≤ ht.count := by
  rw [hinv.count_eq]
  exact List.countP_mono_left fun e _ h => by
    cases e <;> simp_all [Entry.liveAt, Entry.isOccupied]

/-- Every table along a run keeps the invariant. -/
theorem runTrace_inv {ht : Hashtable} (hinv : ht.Inv) :
    ∀ ops : List (TableOp × Int), ∀ ht' ∈ runTrace ht ops, ht'.Inv
  | [], _, h => by rw [List.mem_singleton.mp h]; exact hinv
  | (op, now) :: ops, ht', h => by
    rcases List.mem_cons.mp h with rfl | h
    · exact hinv
    · exact runTrace_inv (op.apply_inv hinv now) ops ht' h

/-- The tables along two runs in a row are those of the first and those of the second from where
the first ended. -/
theorem mem_runTrace_append {ht ht' : Hashtable} (ops ops' : List (TableOp × Int)) :
    ht' ∈ runTrace ht (ops ++ ops') ↔
      ht' ∈ runTrace ht ops ∨ ht' ∈ runTrace (runTable ht ops) ops' := by
  induction ops generalizing ht with
  | nil =>
    have : ht ∈ runTrace ht ops' := by cases ops' <;> simp [runTrace]
    simp only [List.nil_append, runTrace, runTable, List.mem_singleton]
    exact ⟨.inr, fun h => h.elim (· ▸ this) id⟩
  | cons op ops ih =>
    rw [List.cons_append, runTrace, runTrace, runTable, List.mem_cons, List.mem_cons, ih, or_assoc]

section Home

variable {ht ht₁ : Hashtable} {key : Bytes}

/-- The first probe is the home slot. -/
theorem probeSlot_zero {cap : Nat} (hpos : 0 < cap) : probeSlot cap key 0 = home cap key := by
  rw [probeSlot, Nat.add_zero, Nat.mod_eq_of_lt (home_lt key hpos)]

/-- `ht_set` of a key whose home slot, after the resize check, is empty inserts it there. -/
theorem htSet_of_home_empty (h₁ : (if needsResize ht then htResize ht else ht) = ht₁)
    (hcap : ∃ p, ht₁.capacity = 2 ^ p) (he : ht₁.slot (home ht₁.capacity key) = .empty)
    (value : Bytes) (now : Int) :
    htSet ht key value now =
      ({ ht₁ with
          entries := ht₁.entries.set (home ht₁.capacity key) (.occupied key value (-1))
          count := ht₁.count + 1
          used := ht₁.used + 1 }, true) := by
  have hpos : 0 < ht₁.capacity := by obtain ⟨p, hp⟩ := hcap; rw [hp]; exact Nat.two_pow_pos p
  have he' : ht₁.slot (probeSlot ht₁.capacity key 0) = .empty := by rwa [probeSlot_zero hpos]
  have h : probeLoop key now (ht₁.homeIndex key) ht₁ none 0 ht₁.capacity = _ :=
    probeLoop_empty hcap hpos he' none
  unfold htSet
  dsimp only
  rw [h₁, probe, h]
  simp only [Option.getD_none, probeSlot_zero hpos, he, ↓reduceIte]

/-- `ht_delete` of a key live in its home slot frees that slot. -/
theorem htDelete_of_home_live {v : Bytes} {x : Int} {now : Int}
    (hs : ht.slot (home ht.capacity key) = .occupied key v x) (hcap : ∃ p, ht.capacity = 2 ^ p)
    (hx : isExpired x now = false) :
    htDelete ht key now = (ht.freeSlot (home ht.capacity key), true) := by
  have hpos : 0 < ht.capacity := by obtain ⟨p, hp⟩ := hcap; rw [hp]; exact Nat.two_pow_pos p
  have hs' : ht.slot (probeSlot ht.capacity key 0) = .occupied key v x := by
    rwa [probeSlot_zero hpos]
  have h : probeLoop key now (ht.homeIndex key) ht none 0 ht.capacity = _ :=
    probeLoop_live hcap hpos hs' hx none
  unfold htDelete
  rw [probe, h, probeSlot_zero hpos]

end Home

/-- A table of 64 slots after churning keys with home slots `homes`: a tombstone at each, no
key, and every other slot empty. -/
structure Churned (homes : List Nat) (ht : Hashtable) : Prop where
  capacity_eq : ht.capacity = 64
  length_eq : ht.entries.length = 64
  count_eq : ht.count = 0
  used_eq : ht.used = homes.length
  slot_eq : ∀ s, ht.slot s = if s ∈ homes then .tombstone else .empty

/-- The empty table has churned no keys. -/
theorem churned_htCreate : Churned [] htCreate where
  capacity_eq := rfl
  length_eq := List.length_replicate _ _
  count_eq := rfl
  used_eq := rfl
  slot_eq s := by simp [Hashtable.slot, htCreate]

/-- One set-then-delete of a key with a fresh home slot, below the resize threshold: the set
leaves one key, the delete leaves one tombstone more. -/
theorem Churned.step {homes : List Nat} {ht : Hashtable} (hc : Churned homes ht) {k : Bytes}
    (hk : home 64 k ∉ homes) (hlen : homes.length ≤ 44) (now : Int) :
    (htSet ht k [] now).1.count = 1 ∧
      Churned (homes ++ [home 64 k]) (htDelete (htSet ht k [] now).1 k now).1 := by
  have hnr : needsResize ht = false := by
    rw [needsResize, decide_eq_false_iff_not, hc.capacity_eq, hc.used_eq]; omega
  have he : ht.slot (home ht.capacity k) = .empty := by rw [hc.slot_eq, hc.capacity_eq, if_neg hk]
  rw [htSet_of_home_empty (by rw [hnr]; rfl) ⟨6, hc.capacity_eq⟩ he]
  dsimp only
  have hlt : home ht.capacity k < ht.entries.length := by
    rw [hc.length_eq, hc.capacity_eq]; exact home_lt k (by decide)
  have hg := getD_set_of_lt hlt (.occupied k [] (-1))
  set ht₁ : Hashtable := { ht with
    entries := ht.entries.set (home ht.capacity k) (.occupied k [] (-1))
    count := ht.count + 1
    used := ht.used + 1 }
  have hs : ht₁.slot (home ht₁.capacity k) = .occupied k [] (-1) := by
    show (ht.entries.set _ _).getD (home ht.capacity k) _ = _
    rw [hg, if_pos rfl]
  refine ⟨by show ht.count + 1 = 1; rw [hc.count_eq], ?_⟩
  rw [htDelete_of_home_live hs ⟨6, hc.capacity_eq⟩ rfl]
  refine ⟨hc.capacity_eq, by simp [ht₁, hc.length_eq], by simp [ht₁, hc.count_eq],
    by simp [ht₁, hc.used_eq], fun s => ?_⟩
  rw [Hashtable.freeSlot_slot _ (by simpa [ht₁] using hlt)]
  show _ = (if s ∈ homes ++ [home 64 k] then _ else _)
  by_cases hs' : home ht.capacity k = s
  · rw [if_pos hs', if_pos (by rw [← hs', hc.capacity_eq]; simp)]
  · rw [if_neg hs']
    show (ht.entries.set _ _).getD _ _ = _
    rw [hg, if_neg hs', ← Hashtable.slot, hc.slot_eq]
    rw [hc.capacity_eq] at hs'
    simp [Ne.symm hs']

/-- Churning keys with pairwise distinct fresh home slots, up to 45 tombstones: every table on
the way holds at most one key, and the last holds a tombstone at each home slot. -/
theorem churn_run {homes : List Nat} {ht : Hashtable} (hc : Churned homes ht) (now : Int) :
    ∀ ks : List Bytes, (homes ++ ks.map (home 64)).Nodup → homes.length + ks.length ≤ 45 →
      Churned (homes ++ ks.map (home 64)) (runTable ht (churn now ks)) ∧
        ∀ ht' ∈ runTrace ht (churn now ks), ht'.count ≤ 1
  | [], _, _ => ⟨by simpa using hc, fun ht' h => by
      rw [List.mem_singleton.mp h, hc.count_eq]; omega⟩
  | k :: ks, hnd, hlen => by
    rw [List.map_cons, List.append_cons] at hnd
    have hk : home 64 k ∉ homes := fun hm =>
      List.disjoint_of_nodup_append (List.nodup_append.mp hnd).1 hm (List.mem_singleton_self _)
    obtain ⟨hset, hdel⟩ := hc.step hk (by simp at hlen; omega) now
    obtain ⟨hend, htrace⟩ := churn_run hdel now ks hnd (by simp at hlen ⊢; omega)
    refine ⟨?_, fun ht' h => ?_⟩
    · rw [List.map_cons, List.append_cons, churn, runTable, runTable, TableOp.apply, TableOp.apply]
      exact hend
    simp only [churn, runTrace, TableOp.apply, List.mem_cons] at h
    rcases h with rfl | rfl | h
    · rw [hc.count_eq]; omega
    · rw [hset]
    · exact htrace ht' h

/-- A resized table that held no key is all empty. -/
theorem htResize_slot_of_count_zero {ht : Hashtable} (hinv : ht.Inv) (h0 : ht.count = 0)
    (s : Nat) : (htResize ht).slot s = .empty := by
  obtain ⟨hres, hcnt, -⟩ := htResize_fold hinv
  have := hres.no_tombstone s
  cases he : (htResize ht).slot s with
  | empty => rfl
  | tombstone => exact absurd he this
  | occupied k v x =>
    have hmem := (mem_iff_exists_getD (Entry.occupied_ne_empty k v x)).mpr ⟨s, he⟩
    have : 0 < (htResize ht).entries.countP Entry.isOccupied := List.countP_pos_iff.mpr ⟨_, hmem, rfl⟩
    omega

/-- Forty-five set-then-delete pairs on one-byte keys, then one more set: no table on the way
holds more than one key, and the last has 128 slots, over `max 64 (4 * 1)`. -/
theorem churn_capacity :
    let ops := churn 0 ((List.range 45).map fun n => [n.toUInt8]) ++ [(.set [45] [], 0)]
    (∀ ht ∈ runTrace htCreate ops, ht.liveCount 0 ≤ 1) ∧
      max 64 (4 * 1) < (runTable htCreate ops).capacity := by
  intro ops
  obtain ⟨h45, htrace⟩ := churn_run churned_htCreate 0
    ((List.range 45).map fun n => [n.toUInt8]) (by decide) (by simp)
  have hinv45 := runTable_inv_of htCreate_inv (churn 0 ((List.range 45).map fun n => [n.toUInt8]))
  generalize hht45 : runTable htCreate (churn 0 ((List.range 45).map fun n => [n.toUInt8])) = ht45
    at h45 hinv45 htrace
  have hres : needsResize ht45 = true := by
    rw [needsResize, decide_eq_true_eq, h45.capacity_eq, h45.used_eq]; simp
  have hcap : ∃ p, (htResize ht45).capacity = 2 ^ p := ⟨7, by simp [htResize, h45.capacity_eq]⟩
  have hfinal := htSet_of_home_empty (by rw [hres]; rfl) hcap
    (htResize_slot_of_count_zero hinv45 h45.count_eq (home _ [45])) [] 0
  have hrun : runTable htCreate ops = (htSet ht45 [45] [] 0).1 := by
    rw [runTable_append, hht45]; rfl
  refine ⟨fun ht h => ((runTrace_inv htCreate_inv ops ht h).liveCount_le 0).trans ?_, ?_⟩
  · rcases (mem_runTrace_append _ _).mp h with h | h
    · exact htrace ht h
    · rw [hht45] at h
      simp only [runTrace, TableOp.apply, List.mem_cons, List.mem_singleton,
        List.not_mem_nil, or_false] at h
      rcases h with rfl | rfl
      · rw [h45.count_eq]; omega
      · rw [hfinal]; simp [htResize, h45.count_eq]
  · rw [hrun, hfinal]; simp [htResize, h45.capacity_eq]

end MiniRedis
