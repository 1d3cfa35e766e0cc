import MiniRedis.Hashtable.Ops

/-!
# Iteration

`ht_iter_next` walks the slots from the cursor, turns every expired entry it meets into a
tombstone, and stops after the next live entry. What it leaves is `Pruned`: the same table but
for entries that had expired. A full scan (`ht_iter_init`, then `ht_iter_next` until it returns
false, as `cmd_keys` does) yields the live entries of the slots in slot order
(`htScanFrom_spec`), hence every live key exactly once with its value (`htScan_mem_iff`,
`htScan_nodup`).
-/

namespace MiniRedis

/-- What a slot gives a scan at `now`: its key and value, if it is occupied and not expired. -/
def Entry.liveAt (now : Int) : Entry → Option (Bytes × Bytes)
  | .occupied k v x => if isExpired x now then none else some (k, v)
  | _ => none

/-- `ht'` is `ht` with some of the entries that had expired at `now` turned into tombstones. -/
structure Hashtable.Pruned (now : Int) (ht ht' : Hashtable) : Prop where
  capacity_eq : ht'.capacity = ht.capacity
  used_eq : ht'.used = ht.used
  slot_eq : ∀ s, ht'.slot s = ht.slot s ∨
    (ht'.slot s = .tombstone ∧ (ht.slot s).isOccupied ∧ (ht.slot s).liveAt now = none)

namespace Hashtable.Pruned

variable {now : Int} {ht ht₁ ht₂ : Hashtable}

/-- Every table is pruned from itself. -/
theorem refl (now : Int) (ht : Hashtable) : Pruned now ht ht := ⟨rfl, rfl, fun _ => .inl rfl⟩

/-- Pruning twice is pruning. -/
theorem trans (h₁ : Pruned now ht ht₁) (h₂ : Pruned now ht₁ ht₂) : Pruned now ht ht₂ := by
  refine ⟨h₂.capacity_eq.trans h₁.capacity_eq, h₂.used_eq.trans h₁.used_eq, fun s => ?_⟩
  rcases h₁.slot_eq s with e₁ | ⟨t₁, o₁, l₁⟩ <;> rcases h₂.slot_eq s with e₂ | ⟨t₂, o₂, l₂⟩
  · exact .inl (e₂.trans e₁)
  · exact .inr ⟨t₂, e₁ ▸ o₂, e₁ ▸ l₂⟩
  · exact .inr ⟨e₂.trans t₁, o₁, l₁⟩
  · rw [t₁] at o₂; cases o₂

/-- Freeing an expired entry prunes the table. -/
theorem freeSlot {s : Nat} {k v : Bytes} {x : Int} (hs : ht.slot s = .occupied k v x)
    (hx : isExpired x now = true) : Pruned now ht (ht.freeSlot s) := by
  refine ⟨rfl, rfl, fun j => ?_⟩
  rw [ht.freeSlot_slot (Inv.slot_lt hs)]
  split_ifs with h
  · subst h; exact .inr ⟨rfl, by rw [hs]; rfl, by simp [hs, Entry.liveAt, hx]⟩
  · exact .inl rfl

/-- Pruning changes no slot's live entry. -/
theorem liveAt_eq (h : Pruned now ht ht') (s : Nat) :
    (ht'.slot s).liveAt now = (ht.slot s).liveAt now := by
  rcases h.slot_eq s with e | ⟨e, -, l⟩
  · rw [e]
  · rw [e, l]; rfl

/-- Pruning changes no key's live entry. -/
theorem liveLookup_eq (h : Pruned now ht ht') (hu : KeysUnique ht.slot)
    (hu' : KeysUnique ht'.slot) (k : Bytes) : ht'.liveLookup k now = ht.liveLookup k now := by
  refine Option.ext fun ⟨v, x⟩ => ?_
  rw [Option.mem_def, Option.mem_def, liveLookup_eq_some_iff hu', liveLookup_eq_some_iff hu]
  constructor
  · rintro ⟨⟨s, hs⟩, hx⟩
    rcases h.slot_eq s with e | ⟨e, -⟩
    · exact ⟨⟨s, e ▸ hs⟩, hx⟩
    · rw [e] at hs; cases hs
  · rintro ⟨⟨s, hs⟩, hx⟩
    rcases h.slot_eq s with e | ⟨-, -, l⟩
    · exact ⟨⟨s, e.trans hs⟩, hx⟩
    · simp [hs, Entry.liveAt, hx] at l

end Hashtable.Pruned

section Next

variable {ht : Hashtable} {index : Nat} {now : Int}

/-- At an expired entry, `ht_iter_next` frees it and goes on. -/
theorem htIterNext_expired (hi : index < ht.capacity) {k v : Bytes} {x : Int}
    (hs : ht.slot index = .occupied k v x) (hx : isExpired x now = true) :
    htIterNext ht index now = htIterNext (ht.freeSlot index) (index + 1) now := by
  rw [htIterNext, dif_pos hi]
  simp only [hs, hx, ↓reduceIte]

/-- At a live entry, `ht_iter_next` returns it with the next cursor. -/
theorem htIterNext_live (hi : index < ht.capacity) {k v : Bytes} {x : Int}
    (hs : ht.slot index = .occupied k v x) (hx : ¬isExpired x now = true) :
    htIterNext ht index now = (ht, index + 1, some (k, v)) := by
  rw [htIterNext, dif_pos hi]
  simp only [hs, hx, Bool.false_eq_true, ↓reduceIte]

/-- At an empty slot or a tombstone, `ht_iter_next` goes on. -/
theorem htIterNext_skip (hi : index < ht.capacity)
    (hs : ∀ k v x, ht.slot index = .occupied k v x → False) :
    htIterNext ht index now = htIterNext ht (index + 1) now := by
  rw [htIterNext, dif_pos hi]
  split
  · exact absurd ‹_› (hs _ _ _)
  · rfl

/-- At the end of the table, `ht_iter_next` returns false. -/
theorem htIterNext_end (hi : ¬index < ht.capacity) : htIterNext ht index now = (ht, index, none) := by
  rw [htIterNext, dif_neg hi]

/-- What one call of `ht_iter_next` from the cursor `index` does when it returns `(ht', i', r)`:
it prunes the table; it returns the entry of the slot before the new cursor, the first live one
from the old cursor; or, having found none up to the end, it returns false. -/
structure IterStep (now : Int) (ht : Hashtable) (index : Nat) (ht' : Hashtable) (i' : Nat)
    (r : Option (Bytes × Bytes)) : Prop where
  pruned : ht.Pruned now ht'
  found : ∀ kv, r = some kv → index < i' ∧ i' ≤ ht.capacity ∧
    (∀ s, index ≤ s → s + 1 < i' → (ht.slot s).liveAt now = none) ∧
    (ht.slot (i' - 1)).liveAt now = some kv
  done : r = none → ∀ s, index ≤ s → s < ht.capacity → (ht.slot s).liveAt now = none

/-- Past a slot with no live entry, pruned or left as it is, the call goes on from the next
cursor. -/
theorem IterStep.of_dead {ht₀ ht' : Hashtable} {i' : Nat} {r : Option (Bytes × Bytes)}
    (hp₀ : ht.Pruned now ht₀) (hnil : (ht.slot index).liveAt now = none)
    (h : IterStep now ht₀ (index + 1) ht' i' r) : IterStep now ht index ht' i' r := by
  have hdead : ∀ s, index ≤ s → (index + 1 ≤ s → (ht₀.slot s).liveAt now = none) →
      (ht.slot s).liveAt now = none := fun s hs₁ hrest => by
    rcases Nat.eq_or_lt_of_le hs₁ with rfl | hlt
    · exact hnil
    · rw [← hp₀.liveAt_eq]; exact hrest hlt
  refine ⟨hp₀.trans h.pruned, fun kv hr => ?_, fun hr s hs₁ hs₂ =>
    hdead s hs₁ fun hlt => h.done hr s hlt (by rw [hp₀.capacity_eq]; exact hs₂)⟩
  obtain ⟨h₁, h₂, h₃, h₄⟩ := h.found kv hr
  exact ⟨by omega, hp₀.capacity_eq ▸ h₂, fun s hs₁ hs₂ => hdead s hs₁ fun hlt => h₃ s hlt hs₂,
    by rw [← hp₀.liveAt_eq]; exact h₄⟩

/-- One call of `ht_iter_next`, by the slot at the cursor: an expired entry is freed and passed,
a live one is returned, any other slot is passed, and the end of the table returns false. -/
theorem htIterNext_pruned : ∀ (ht : Hashtable) (index : Nat) (now : Int) {ht' i' r},
    htIterNext ht index now = (ht', i', r) → IterStep now ht index ht' i' r := by
  intro ht index now
  induction ht, index, now using htIterNext.induct with
  | case1 ht index now hi k v x hs hx ih =>
    intro ht' i' r h
    rw [htIterNext_expired hi hs hx] at h
    exact (ih h).of_dead (Hashtable.Pruned.freeSlot hs hx) (by simp [hs, Entry.liveAt, hx])
  | case2 ht index now hi k v x hs hx =>
    intro ht' i' r h
    rw [htIterNext_live hi hs hx] at h
    cases h
    refine ⟨.refl now ht, fun kv hr => ?_, fun hr => (nomatch hr)⟩
    cases hr
    exact ⟨by omega, hi, fun s _ _ => by omega, by simp [hs, Entry.liveAt, hx]⟩
  | case3 ht index now hi hs ih =>
    intro ht' i' r h
    rw [htIterNext_skip hi hs] at h
    refine (ih h).of_dead (.refl now ht) ?_
    cases he : ht.slot index with
    | occupied k v x => exact (hs k v x he).elim
    | _ => rfl
  | case4 ht index now hi =>
    intro ht' i' r h
    rw [htIterNext_end hi] at h
    cases h
    exact ⟨.refl now ht, fun kv hr => (nomatch hr), fun _ s hs₁ hs₂ => by omega⟩

/-- `ht_iter_next` keeps the invariant. -/
theorem htIterNext_inv : ∀ (ht : Hashtable) (index : Nat) (now : Int),
    ht.Inv → (htIterNext ht index now).1.Inv := by
  intro ht index now
  induction ht, index, now using htIterNext.induct with
  | case1 ht index now hi k v x hs hx ih =>
    intro hinv
    rw [htIterNext_expired hi hs hx]
    exact ih (hinv.freeSlot hs)
  | case2 ht index now hi k v x hs hx => intro hinv; rw [htIterNext_live hi hs hx]; exact hinv
  | case3 ht index now hi hs ih => intro hinv; rw [htIterNext_skip hi hs]; exact ih hinv
  | case4 ht index now hi => intro hinv; rw [htIterNext_end hi]; exact hinv

end Next

/-! ## One reading per slot -/

section NextAt

variable {ht : Hashtable} {index : Nat} {clk : Nat → Int}

/-- At an entry expired at the slot's reading, `htIterNextAt` frees it and goes on. -/
theorem htIterNextAt_expired (hi : index < ht.capacity) {k v : Bytes} {x : Int}
    (hs : ht.slot index = .occupied k v x) (hx : isExpired x (clk index) = true) :
    htIterNextAt ht index clk = htIterNextAt (ht.freeSlot index) (index + 1) clk := by
  rw [htIterNextAt, dif_pos hi]
  simp only [hs, hx, ↓reduceIte]

/-- At an entry live at the slot's reading, `htIterNextAt` returns it with the next cursor. -/
theorem htIterNextAt_live (hi : index < ht.capacity) {k v : Bytes} {x : Int}
    (hs : ht.slot index = .occupied k v x) (hx : ¬isExpired x (clk index) = true) :
    htIterNextAt ht index clk = (ht, index + 1, some (k, v)) := by
  rw [htIterNextAt, dif_pos hi]
  simp only [hs, hx, Bool.false_eq_true, ↓reduceIte]

/-- At an empty slot or a tombstone, `htIterNextAt` goes on. -/
theorem htIterNextAt_skip (hi : index < ht.capacity)
    (hs : ∀ k v x, ht.slot index = .occupied k v x → False) :
    htIterNextAt ht index clk = htIterNextAt ht (index + 1) clk := by
  rw [htIterNextAt, dif_pos hi]
  split
  · exact absurd ‹_› (hs _ _ _)
  · rfl

/-- At the end of the table, `htIterNextAt` returns false. -/
theorem htIterNextAt_end (hi : ¬index < ht.capacity) : htIterNextAt ht index clk = (ht, index, none) := by
  rw [htIterNextAt, dif_neg hi]

end NextAt

/-- With one reading at every slot, `htIterNextAt` is `htIterNext` at that reading. -/
theorem htIterNextAt_const (ht : Hashtable) (index : Nat) (now : Int) :
    htIterNextAt ht index (fun _ => now) = htIterNext ht index now := by
  induction ht, index, now using htIterNext.induct with
  | case1 ht index now hi k v x hs hx ih =>
    rw [htIterNext_expired hi hs hx, ← ih, htIterNextAt_expired hi hs hx]
  | case2 ht index now hi k v x hs hx => rw [htIterNext_live hi hs hx, htIterNextAt_live hi hs hx]
  | case3 ht index now hi hs ih => rw [htIterNext_skip hi hs, ← ih, htIterNextAt_skip hi hs]
  | case4 ht index now hi => rw [htIterNext_end hi, htIterNextAt_end hi]

/-- `htIterNextAt` keeps the capacity, and a call that returns an entry started inside the
table and moved the cursor forward. -/
theorem htIterNextAt_advance (ht : Hashtable) (index : Nat) (clk : Nat → Int) :
    (htIterNextAt ht index clk).1.capacity = ht.capacity ∧
      ((htIterNextAt ht index clk).2.2.isSome →
        index < (htIterNextAt ht index clk).2.1 ∧ index < ht.capacity) := by
  induction ht, index, clk using htIterNextAt.induct with
  | case1 ht index clk hi k v x hs hx ih =>
    rw [htIterNextAt_expired hi hs hx]
    rw [Hashtable.freeSlot_capacity] at ih
    exact ⟨ih.1, fun h => ⟨by have := (ih.2 h).1; omega, hi⟩⟩
  | case2 ht index clk hi k v x hs hx =>
    rw [htIterNextAt_live hi hs hx]
    exact ⟨rfl, fun _ => ⟨Nat.lt_succ_self _, hi⟩⟩
  | case3 ht index clk hi hs ih =>
    rw [htIterNextAt_skip hi hs]
    exact ⟨ih.1, fun h => ⟨by have := (ih.2 h).1; omega, hi⟩⟩
  | case4 ht index clk hi =>
    rw [htIterNextAt_end hi]
    exact ⟨rfl, fun h => nomatch h⟩

/-- `htIterNextAt` keeps the invariant, whatever the readings. -/
theorem htIterNextAt_inv : ∀ (ht : Hashtable) (index : Nat) (clk : Nat → Int),
    ht.Inv → (htIterNextAt ht index clk).1.Inv := by
  intro ht index clk
  induction ht, index, clk using htIterNextAt.induct with
  | case1 ht index clk hi k v x hs hx ih =>
    intro hinv
    rw [htIterNextAt_expired hi hs hx]
    exact ih (hinv.freeSlot hs)
  | case2 ht index clk hi k v x hs hx => intro hinv; rw [htIterNextAt_live hi hs hx]; exact hinv
  | case3 ht index clk hi hs ih => intro hinv; rw [htIterNextAt_skip hi hs]; exact ih hinv
  | case4 ht index clk hi => intro hinv; rw [htIterNextAt_end hi]; exact hinv

/-- `ht_iter_next` called until it returns false, from the cursor `index`: the table it leaves
and the entries it yields, in order. -/
def htScanFrom (ht : Hashtable) (index : Nat) (now : Int) : Hashtable × List (Bytes × Bytes) :=
  match _hnext : htIterNext ht index now with
  | (ht', index', some kv) =>
    let rest := htScanFrom ht' index' now
    (rest.1, kv :: rest.2)
  | (ht', _, none) => (ht', [])
termination_by ht.capacity - index
decreasing_by
  all_goals
    obtain ⟨hp, hsome, -⟩ := htIterNext_pruned ht index now _hnext
    obtain ⟨h₁, h₂, -⟩ := hsome kv rfl
    rw [hp.capacity_eq]
    omega

/-- A full scan: `ht_iter_init`, then `ht_iter_next` until it returns false. -/
def htScan (ht : Hashtable) (now : Int) : Hashtable × List (Bytes × Bytes) := htScanFrom ht 0 now

/-- `ht_iter_next` called until it returns false, from the cursor `index`, with the reading
`clk s` at slot `s`: the loop of `cmd_keys`. -/
def htScanFromAt (ht : Hashtable) (index : Nat) (clk : Nat → Int) :
    Hashtable × List (Bytes × Bytes) :=
  match _hnext : htIterNextAt ht index clk with
  | (ht', index', some kv) =>
    let rest := htScanFromAt ht' index' clk
    (rest.1, kv :: rest.2)
  | (ht', _, none) => (ht', [])
termination_by ht.capacity - index
decreasing_by
  all_goals
    obtain ⟨hcap, hsome⟩ := htIterNextAt_advance ht index clk
    rw [_hnext] at hcap hsome
    obtain ⟨h₁, h₂⟩ := hsome rfl
    simp only at hcap h₁ ⊢
    rw [hcap]
    omega

/-- With one reading at every slot, the scan of `cmd_keys` is the full scan at that reading. -/
theorem htScanFromAt_const (ht : Hashtable) (index : Nat) (now : Int) :
    htScanFromAt ht index (fun _ => now) = htScanFrom ht index now := by
  induction' hm : ht.capacity - index using Nat.strong_induction_on with m ih generalizing ht index
  rw [htScanFromAt, htScanFrom]
  split <;> rename_i h <;> rw [htIterNextAt_const] at h <;> split <;> rename_i h' <;>
    rw [h] at h' <;> cases h'
  · rename_i ht' i' kv
    obtain ⟨hp, hsome, -⟩ := htIterNext_pruned ht index now h
    obtain ⟨h₁, h₂, -⟩ := hsome kv rfl
    rw [ih (ht'.capacity - i') (by rw [hp.capacity_eq]; omega) ht' i' rfl]
  · rfl

/-- A run of slots that give nothing gives nothing. -/
theorem filterMap_range'_eq_nil {β : Type} {g : Nat → Option β} :
    ∀ {i n : Nat}, (∀ s, i ≤ s → s < i + n → g s = none) → (List.range' i n).filterMap g = []
  | _, 0, _ => rfl
  | i, n + 1, h => by
    rw [List.range'_succ, List.filterMap_cons, h i le_rfl (by omega)]
    exact filterMap_range'_eq_nil fun s h₁ h₂ => h s (by omega) (by omega)

/-- Cutting a range of slots at `b`. -/
theorem range'_eq_append_cons {a b c : Nat} (hab : a ≤ b) (hbc : b < c) :
    List.range' a (c - a) = List.range' a (b - a) ++ b :: List.range' (b + 1) (c - (b + 1)) := by
  obtain ⟨d, rfl⟩ := Nat.exists_eq_add_of_le hab
  obtain ⟨e, rfl⟩ := Nat.exists_eq_add_of_lt hbc
  rw [show a + d + e + 1 - a = e + 1 + d by omega, show a + d - a = d by omega,
    show a + d + e + 1 - (a + d + 1) = e by omega, ← List.range'_append a d (e + 1) 1,
    List.range'_succ, Nat.one_mul]

/-- A full scan from the cursor `index` prunes the table and yields the live entries of the
slots from `index` on, in slot order. -/
theorem htScanFrom_spec (ht : Hashtable) (index : Nat) (now : Int) :
    ht.Pruned now (htScanFrom ht index now).1 ∧
      (htScanFrom ht index now).2 =
        (List.range' index (ht.capacity - index)).filterMap fun s => (ht.slot s).liveAt now := by
  induction' hm : ht.capacity - index using Nat.strong_induction_on with m ih generalizing ht index
  rw [htScanFrom]
  split
  · rename_i ht' i' kv h
    obtain ⟨hp, hsome, -⟩ := htIterNext_pruned ht index now h
    obtain ⟨h₁, h₂, h₃, h₄⟩ := hsome kv rfl
    obtain ⟨j, rfl⟩ : ∃ j, i' = j + 1 := ⟨i' - 1, by omega⟩
    rw [Nat.add_sub_cancel] at h₄
    obtain ⟨hp', hl⟩ := ih (ht'.capacity - (j + 1)) (by rw [hp.capacity_eq]; omega) ht' (j + 1) rfl
    refine ⟨hp.trans hp', ?_⟩
    dsimp only
    rw [hl, hp.capacity_eq, ← hm, range'_eq_append_cons (by omega : index ≤ j)
      (by omega : j < ht.capacity), List.filterMap_append, List.filterMap_cons, h₄,
      filterMap_range'_eq_nil fun s hs₁ hs₂ => h₃ s hs₁ (by omega), List.nil_append]
    congr 1
    exact List.filterMap_congr fun s _ => hp.liveAt_eq s
  · rename_i ht' i' h
    obtain ⟨hp, -, hnone⟩ := htIterNext_pruned ht index now h
    exact ⟨hp, (filterMap_range'_eq_nil fun s hs₁ hs₂ => hnone rfl s hs₁ (by omega)).symm⟩

section Scan

variable {ht : Hashtable} {now : Int}

/-- A full scan keeps the invariant. -/
theorem htScanFrom_inv (hinv : ht.Inv) (index : Nat) : (htScanFrom ht index now).1.Inv := by
  induction' hm : ht.capacity - index using Nat.strong_induction_on with m ih generalizing ht index
  rw [htScanFrom]
  split
  · rename_i ht' i' kv h
    obtain ⟨hp, hsome, -⟩ := htIterNext_pruned ht index now h
    obtain ⟨h₁, h₂, -⟩ := hsome kv rfl
    have hinv' : ht'.Inv := by simpa [h] using htIterNext_inv ht index now hinv
    exact ih (ht'.capacity - i') (by rw [hp.capacity_eq]; omega) hinv' i' rfl
  · rename_i ht' i' h
    simpa [h] using htIterNext_inv ht index now hinv

/-- The scan of `cmd_keys` keeps the invariant, whatever the readings. -/
theorem htScanFromAt_inv {clk : Nat → Int} (hinv : ht.Inv) (index : Nat) :
    (htScanFromAt ht index clk).1.Inv := by
  induction' hm : ht.capacity - index using Nat.strong_induction_on with m ih generalizing ht index
  rw [htScanFromAt]
  split
  · rename_i ht' i' kv h
    obtain ⟨hcap, hsome⟩ := htIterNextAt_advance ht index clk
    have hinv' := htIterNextAt_inv ht index clk hinv
    rw [h] at hcap hsome hinv'
    obtain ⟨h₁, h₂⟩ := hsome rfl
    exact ih (ht'.capacity - i') (by simp only at hcap h₁; rw [hcap]; omega) hinv' i' rfl
  · rename_i ht' i' h
    simpa [h] using htIterNextAt_inv ht index clk hinv

/-- A full scan yields `k ↦ v` iff `k` is live with value `v`. -/
theorem htScan_mem_iff (hinv : ht.Inv) (k v : Bytes) :
    (k, v) ∈ (htScan ht now).2 ↔ ∃ x, ht.liveLookup k now = some (v, x) := by
  rw [htScan, (htScanFrom_spec ht 0 now).2, List.mem_filterMap]
  simp only [List.mem_range'_1, Nat.zero_le, true_and, Nat.zero_add, Nat.sub_zero,
    liveLookup_eq_some_iff hinv.keys_unique]
  constructor
  · rintro ⟨s, -, hs⟩
    cases he : ht.slot s with
    | occupied k' v' x =>
      rw [he, Entry.liveAt] at hs
      split_ifs at hs with hx
      cases hs
      exact ⟨x, ⟨s, he⟩, by simpa using hx⟩
    | _ => rw [he] at hs; cases hs
  · rintro ⟨x, ⟨s, hs⟩, hx⟩
    exact ⟨s, hinv.length_eq ▸ Hashtable.Inv.slot_lt hs, by simp [hs, Entry.liveAt, hx]⟩

/-- A full scan yields each key at most once. -/
theorem htScan_nodup (hinv : ht.Inv) : ((htScan ht now).2.map Prod.fst).Nodup := by
  rw [htScan, (htScanFrom_spec ht 0 now).2, List.map_filterMap]
  refine (List.nodup_range' 0 _).filterMap fun s s' k hk hk' => ?_
  simp only [Option.mem_def, Option.map_eq_some'] at hk hk'
  obtain ⟨⟨k₁, v₁⟩, h₁, rfl⟩ := hk
  obtain ⟨⟨k₂, v₂⟩, h₂, hk₂⟩ := hk'
  dsimp only at hk₂
  subst hk₂
  cases e₁ : ht.slot s <;> cases e₂ : ht.slot s' <;> simp only [e₁, e₂, Entry.liveAt] at h₁ h₂ <;>
    try cases h₁
  all_goals try cases h₂
  split_ifs at h₁ h₂
  cases h₁
  cases h₂
  exact hinv.keys_unique e₁ e₂

end Scan

end MiniRedis
