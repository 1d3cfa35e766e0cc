import MiniRedis.Hashtable.Resize

/-!
# The table operations

What a table holds is `Holds`: which slot holds which key, value and expiry. A table with the
invariant holds each key at most once, so `lookup`, the first slot holding a key, reads it back
(`lookup_eq_some_iff`). Each operation of `hashtable.c` is stated once here: it keeps the
invariant, changes what the table holds only at the key it was given, and returns what
`liveLookup`, the entry of the key unless it has expired, says it returns. The three slot
writes the operations make (a tombstone, an overwrite in place, an insertion into a free slot
of the chain) are proved first; `probe_spec` is the probe as the operations see it.
-/

namespace MiniRedis

namespace Hashtable

/-- Some slot holds `k ↦ v` with expiry `x`. -/
def Holds (ht : Hashtable) (k v : Bytes) (x : Int) : Prop := ∃ s, ht.slot s = .occupied k v x

/-- The value and expiry stored under `k`, read from the first slot holding `k`. -/
def lookup (ht : Hashtable) (k : Bytes) : Option (Bytes × Int) :=
  ht.entries.findSome? (Entry.find k)

/-- The entry of `k`, unless it has expired at `now`. -/
def liveLookup (ht : Hashtable) (k : Bytes) (now : Int) : Option (Bytes × Int) :=
  (ht.lookup k).filter fun e => !isExpired e.2 now

end Hashtable

/-- A slot holds `k` with `v` and `x` exactly when it is that occupied entry. -/
theorem Entry.find_eq_some {e : Entry} {k v : Bytes} {x : Int} :
    e.find k = some (v, x) ↔ e = .occupied k v x := by
  cases e with
  | occupied k' v' x' => by_cases h : k' = k <;> simp [Entry.find, h]
  | _ => simp [Entry.find]

section Lookup

variable {ht : Hashtable} {k v : Bytes} {x : Int}

/-- With distinct keys, `lookup` reads back what the table holds. -/
theorem lookup_eq_some_iff (hu : KeysUnique ht.slot) :
    ht.lookup k = some (v, x) ↔ ht.Holds k v x := by
  have hholds : ∀ {v x}, ht.lookup k = some (v, x) → ht.Holds k v x := fun h => by
    obtain ⟨e, he, hfind⟩ := List.exists_of_findSome?_eq_some h
    rw [Entry.find_eq_some] at hfind
    subst hfind
    exact (mem_iff_exists_getD (Entry.occupied_ne_empty _ _ _)).mp he
  refine ⟨hholds, fun ⟨s, hs⟩ => ?_⟩
  cases h : ht.lookup k with
  | none =>
    rw [Hashtable.lookup, List.findSome?_eq_none_iff] at h
    have hmem := (mem_iff_exists_getD (Entry.occupied_ne_empty _ _ _)).mpr ⟨s, hs⟩
    simpa [Entry.find] using h _ hmem
  | some e =>
    obtain ⟨s', hs'⟩ := hholds h
    obtain rfl := hu hs hs'
    rw [hs] at hs'
    cases hs'
    rfl

/-- A table whose holdings under `k` are those of `o` looks `k` up as `o`. -/
theorem lookup_eq_of_holds_iff (hu : KeysUnique ht.slot) {o : Option (Bytes × Int)}
    (h : ∀ v x, ht.Holds k v x ↔ o = some (v, x)) : ht.lookup k = o :=
  Option.ext fun ⟨v, x⟩ => (lookup_eq_some_iff hu).trans (h v x)

/-- With unique keys, `lookup` finds nothing exactly when no slot holds the key. -/
theorem lookup_eq_none_iff (hu : KeysUnique ht.slot) :
    ht.lookup k = none ↔ ∀ v x, ¬ht.Holds k v x := by
  refine ⟨fun h v x hh => (by rw [(lookup_eq_some_iff hu).mpr hh] at h; cases h), fun h => ?_⟩
  exact lookup_eq_of_holds_iff hu fun v x => ⟨fun hh => absurd hh (h v x), fun h => nomatch h⟩

/-- With unique keys, the live lookup finds `(v, x)` exactly when a slot holds them and `x` has
not passed. -/
theorem liveLookup_eq_some_iff (hu : KeysUnique ht.slot) {now : Int} :
    ht.liveLookup k now = some (v, x) ↔ ht.Holds k v x ∧ isExpired x now = false := by
  rw [Hashtable.liveLookup, Option.filter_eq_some, Option.mem_def, lookup_eq_some_iff hu,
    Bool.not_eq_true']

end Lookup

/-! ## Writing one slot -/

section Write

variable {f g : Nat → Entry} {t : Nat} {e : Entry} {k v : Bytes} {x : Int}

/-- After writing `e` at slot `t`, an entry is in some slot iff it is `e` or was in another slot
before. -/
theorem exists_write_iff (hg : ∀ j, g j = if t = j then e else f j) :
    (∃ s, g s = .occupied k v x) ↔ e = .occupied k v x ∨ ∃ s, s ≠ t ∧ f s = .occupied k v x := by
  constructor
  · rintro ⟨s, hs⟩
    rw [hg] at hs
    split_ifs at hs with h
    · exact .inl hs
    · exact .inr ⟨s, Ne.symm h, hs⟩
  · rintro (h | ⟨s, hne, hs⟩)
    · exact ⟨t, by rw [hg, if_pos rfl, h]⟩
    · exact ⟨s, by rw [hg, if_neg (Ne.symm hne), hs]⟩

/-- The other slots of a key's own slot hold every other key and nothing of it. -/
theorem exists_ne_iff_of_occupied (hu : KeysUnique f) {k₀ v₀ : Bytes} {x₀ : Int}
    (ht : f t = .occupied k₀ v₀ x₀) :
    (∃ s, s ≠ t ∧ f s = .occupied k v x) ↔ k ≠ k₀ ∧ ∃ s, f s = .occupied k v x := by
  constructor
  · rintro ⟨s, hne, hs⟩
    exact ⟨fun hk => hne (hu hs (hk ▸ ht)), s, hs⟩
  · rintro ⟨hk, s, hs⟩
    exact ⟨s, fun hst => hk (by rw [hst, ht] at hs; cases hs; rfl), hs⟩

/-- A slot holding no key is not needed to hold any. -/
theorem exists_ne_iff_of_free (ht : ∀ k v x, f t ≠ .occupied k v x) :
    (∃ s, s ≠ t ∧ f s = .occupied k v x) ↔ ∃ s, f s = .occupied k v x :=
  ⟨fun ⟨s, _, hs⟩ => ⟨s, hs⟩, fun ⟨s, hs⟩ => ⟨s, fun hst => ht k v x (hst ▸ hs), hs⟩⟩

end Write

namespace Hashtable.Inv

variable {ht : Hashtable} (hinv : ht.Inv)
include hinv

omit hinv in
/-- An occupied slot lies within the entries. -/
theorem slot_lt {s : Nat} {k v : Bytes} {x : Int} (hs : ht.slot s = .occupied k v x) :
    s < ht.entries.length :=
  lt_of_slot_ne_empty (by rw [hs]; exact Entry.occupied_ne_empty _ _ _)

/-- The occupied slots are at most the used ones. -/
theorem count_le_used : ht.count ≤ ht.used := by
  rw [hinv.count_eq, hinv.used_eq]
  exact List.countP_mono_left fun e _ h => by cases e <;> simp_all [Entry.isOccupied, Entry.isUsed]

/-- `entry_free` and `count--` on an occupied slot keep the invariant. -/
theorem freeSlot {s : Nat} {k v : Bytes} {x : Int} (hs : ht.slot s = .occupied k v x) :
    (ht.freeSlot s).Inv := by
  have hlt := Inv.slot_lt hs
  have hg := ht.freeSlot_slot hlt
  have hocc := countP_set_getD Entry.isOccupied hlt .tombstone
  have hused := countP_set_getD Entry.isUsed hlt .tombstone
  simp only [Hashtable.slot] at hs
  simp only [hs, Entry.isOccupied, Entry.isUsed, ↓reduceIte, Bool.false_eq_true] at hocc hused
  have := hinv.count_eq
  have := hinv.used_eq
  exact {
    capacity_pow := hinv.capacity_pow
    capacity_ge := hinv.capacity_ge
    length_eq := by simp [hinv.length_eq]
    count_eq := by show ht.count - 1 = (ht.entries.set s _).countP _; omega
    used_eq := by show ht.used = (ht.entries.set s _).countP _; omega
    used_lt := hinv.used_lt
    keys_unique := KeysUnique.write hinv.keys_unique hg fun h => nomatch h
    chain := ChainsOk.write hinv.chain hg (fun h => nomatch h) fun h => nomatch h }

/-- Freeing the slot of `k` removes `k` and keeps every other key. -/
theorem holds_freeSlot {s : Nat} {k v : Bytes} {x : Int} (hs : ht.slot s = .occupied k v x)
    {k' v' : Bytes} {x' : Int} : (ht.freeSlot s).Holds k' v' x' ↔ k' ≠ k ∧ ht.Holds k' v' x' := by
  rw [Hashtable.Holds, exists_write_iff (ht.freeSlot_slot (Inv.slot_lt hs)),
    exists_ne_iff_of_occupied hinv.keys_unique hs]
  simp [Hashtable.Holds]

/-- Writing a key's own slot with the key and a new value and expiry keeps the invariant. -/
theorem overwrite {s : Nat} {k v : Bytes} {x : Int} (hs : ht.slot s = .occupied k v x)
    (v' : Bytes) (x' : Int) :
    ({ ht with entries := ht.entries.set s (.occupied k v' x') } : Hashtable).Inv := by
  have hlt := Inv.slot_lt hs
  have hg := getD_set_of_lt hlt (.occupied k v' x')
  have hocc := countP_set_getD Entry.isOccupied hlt (.occupied k v' x')
  have hused := countP_set_getD Entry.isUsed hlt (.occupied k v' x')
  simp only [Hashtable.slot] at hs
  simp only [hs, Entry.isOccupied, Entry.isUsed, ↓reduceIte] at hocc hused
  have := hinv.count_eq
  have := hinv.used_eq
  exact {
    capacity_pow := hinv.capacity_pow
    capacity_ge := hinv.capacity_ge
    length_eq := by simp [hinv.length_eq]
    count_eq := by show ht.count = (ht.entries.set s _).countP _; omega
    used_eq := by show ht.used = (ht.entries.set s _).countP _; omega
    used_lt := hinv.used_lt
    keys_unique := KeysUnique.write hinv.keys_unique hg fun h s _ _ hs' => by
      cases h; exact hinv.keys_unique hs' hs
    chain := ChainsOk.write hinv.chain hg (fun h => nomatch h) fun h => by
      cases h; exact hinv.chain hs }

/-- Overwriting the entry of `k` changes only what `k` holds. -/
theorem holds_overwrite {s : Nat} {k v : Bytes} {x : Int} (hs : ht.slot s = .occupied k v x)
    (v' : Bytes) (x' : Int) {k'' v'' : Bytes} {x'' : Int} :
    ({ ht with entries := ht.entries.set s (.occupied k v' x') } : Hashtable).Holds k'' v'' x'' ↔
      (k'' = k ∧ v'' = v' ∧ x'' = x') ∨ (k'' ≠ k ∧ ht.Holds k'' v'' x'') := by
  have hg : ∀ j, ({ ht with entries := ht.entries.set s (.occupied k v' x') } : Hashtable).slot j =
      if s = j then .occupied k v' x' else ht.slot j := getD_set_of_lt (Inv.slot_lt hs) _
  rw [Hashtable.Holds, exists_write_iff hg, exists_ne_iff_of_occupied hinv.keys_unique hs]
  simp only [Entry.occupied.injEq, Hashtable.Holds]
  constructor
  · rintro (⟨rfl, rfl, rfl⟩ | h)
    · exact .inl ⟨rfl, rfl, rfl⟩
    · exact .inr h
  · rintro (⟨rfl, rfl, rfl⟩ | h)
    · exact .inl ⟨rfl, rfl, rfl⟩
    · exact .inr h

/-- Inserting an absent key into a free slot of its chain keeps the invariant, when the load
was below the resize threshold. -/
theorem insert {key : Bytes} {t : Nat} (hroom : 10 * ht.used < 7 * ht.capacity)
    (habsent : ∀ v x, ¬ht.Holds key v x) (hfree : ht.FreeOnChain key t) (value : Bytes) :
    ({ ht with
        entries := ht.entries.set t (.occupied key value (-1))
        count := ht.count + 1
        used := if ht.slot t = .empty then ht.used + 1 else ht.used } : Hashtable).Inv := by
  have hlt : t < ht.entries.length := hinv.length_eq ▸ hfree.lt
  have hg := getD_set_of_lt hlt (.occupied key value (-1))
  have hocc := countP_set_getD Entry.isOccupied hlt (.occupied key value (-1))
  have hused := countP_set_getD Entry.isUsed hlt (.occupied key value (-1))
  have := hinv.count_eq
  have := hinv.used_eq
  exact {
    capacity_pow := hinv.capacity_pow
    capacity_ge := hinv.capacity_ge
    length_eq := by simp [hinv.length_eq]
    count_eq := by
      show ht.count + 1 = (ht.entries.set t _).countP _
      rcases hfree.free with h | h <;>
      · simp only [Hashtable.slot] at h
        simp only [h, Entry.isOccupied, Bool.false_eq_true, ↓reduceIte] at hocc
        omega
    used_eq := by
      show (if ht.slot t = .empty then ht.used + 1 else ht.used) = (ht.entries.set t _).countP _
      rcases hfree.free with h | h <;>
      · simp only [Hashtable.slot] at h ⊢
        simp only [h, Entry.isUsed, Bool.false_eq_true, ↓reduceIte, reduceCtorEq] at hused ⊢
        omega
    used_lt := by
      show 10 * (if ht.slot t = .empty then ht.used + 1 else ht.used) < 7 * ht.capacity + 10
      split <;> omega
    keys_unique := KeysUnique.write hinv.keys_unique hg fun h s _ _ hs => by
      cases h; exact absurd ⟨s, hs⟩ (habsent _ _)
    chain := ChainsOk.write hinv.chain hg (fun h => nomatch h) fun h => by
      cases h; exact hfree.chain }

/-- Inserting an absent key into a free slot on its chain adds it and keeps every other key. -/
theorem holds_insert {key : Bytes} {t : Nat} (habsent : ∀ v x, ¬ht.Holds key v x)
    (hfree : ht.FreeOnChain key t) (value : Bytes) (c u : Nat) {k v : Bytes} {x : Int} :
    ({ ht with entries := ht.entries.set t (.occupied key value (-1)), count := c, used := u } :
      Hashtable).Holds k v x ↔ (k = key ∧ v = value ∧ x = -1) ∨ (k ≠ key ∧ ht.Holds k v x) := by
  have hlt : t < ht.entries.length := hinv.length_eq ▸ hfree.lt
  have hnot : ∀ k v x, ht.slot t ≠ .occupied k v x := fun k v x h => by
    rcases hfree.free with h' | h' <;> rw [h'] at h <;> cases h
  have hg : ∀ j,
      ({ ht with entries := ht.entries.set t (.occupied key value (-1)), count := c, used := u } :
        Hashtable).slot j = if t = j then .occupied key value (-1) else ht.slot j :=
    getD_set_of_lt hlt _
  rw [Hashtable.Holds, exists_write_iff hg, exists_ne_iff_of_free hnot]
  simp only [Entry.occupied.injEq]
  constructor
  · rintro (⟨rfl, rfl, rfl⟩ | h)
    · exact .inl ⟨rfl, rfl, rfl⟩
    · exact .inr ⟨fun hk => habsent v x (hk ▸ h), h⟩
  · rintro (⟨rfl, rfl, rfl⟩ | ⟨-, h⟩)
    · exact .inl ⟨rfl, rfl, rfl⟩
    · exact .inr h

end Hashtable.Inv

/-! ## The probe as the operations see it -/

section Probe

variable {ht : Hashtable}

/-- A probe finds the live entry of `key` where it is, or finds none and returns a table that
differs only in no longer holding `key`, with a free slot of `key`'s chain. -/
theorem probe_spec (hinv : ht.Inv) (key : Bytes) (now : Int) :
    (∃ v x s, ht.liveLookup key now = some (v, x) ∧ ht.slot s = .occupied key v x ∧
      probe ht key now = (ht, true, s)) ∨
    (ht.liveLookup key now = none ∧ ∃ ht' s', probe ht key now = (ht', false, s') ∧ ht'.Inv ∧
      ht'.FreeOnChain key s' ∧ ht'.capacity = ht.capacity ∧ ht'.used = ht.used ∧
      ∀ k v x, ht'.Holds k v x ↔ k ≠ key ∧ ht.Holds k v x) := by
  rcases probe_cases hinv key now with
    ⟨s, v, x, hs, hx, hp⟩ | ⟨s, v, x, hs, hx, s', hp, hfree⟩ | ⟨habsent, s', hp, hfree⟩
  · exact .inl ⟨v, x, s, (liveLookup_eq_some_iff hinv.keys_unique).mpr ⟨⟨s, hs⟩, hx⟩, hs, hp⟩
  · refine .inr ⟨?_, _, s', hp, hinv.freeSlot hs, hfree, rfl, rfl, fun k v x =>
      hinv.holds_freeSlot hs⟩
    rw [Hashtable.liveLookup, (lookup_eq_some_iff hinv.keys_unique).mpr ⟨s, hs⟩]
    simp [hx]
  · have hnone : ht.lookup key = none := (lookup_eq_none_iff hinv.keys_unique).mpr
      fun v x ⟨s, hs⟩ => by simpa [hs, Entry.find] using habsent s
    refine .inr ⟨by rw [Hashtable.liveLookup, hnone]; rfl, ht, s', hp, hinv, hfree, rfl, rfl,
      fun k v x => ⟨fun h => ⟨?_, h⟩, fun h => h.2⟩⟩
    rintro rfl
    rw [(lookup_eq_some_iff hinv.keys_unique).mpr h] at hnone
    cases hnone

/-- The table a probe leaves: the invariant, the same capacity and `used`, and the same
entries but an expired one of `key`. -/
theorem probe_fst (hinv : ht.Inv) (key : Bytes) (now : Int) :
    (probe ht key now).1.Inv ∧ (probe ht key now).1.capacity = ht.capacity ∧
      (probe ht key now).1.used = ht.used ∧
      ∀ k, (probe ht key now).1.lookup k =
        if k = key then ht.liveLookup key now else ht.lookup k := by
  rcases probe_spec hinv key now with ⟨v, x, s, hl, -, hp⟩ | ⟨hl, ht', s', hp, hinv', -, hc, hu, hh⟩
  · refine ⟨by rw [hp]; exact hinv, by rw [hp], by rw [hp], fun k => ?_⟩
    rw [hp]
    split_ifs with hk
    · subst hk
      rw [hl]
      exact (lookup_eq_some_iff hinv.keys_unique).mpr
        ((liveLookup_eq_some_iff hinv.keys_unique).mp hl).1
    · rfl
  · rw [hp]
    refine ⟨hinv', hc, hu, fun k => lookup_eq_of_holds_iff hinv'.keys_unique fun v x => ?_⟩
    rw [hh]
    split_ifs with hk
    · simp [hk, hl]
    · simp [hk, lookup_eq_some_iff hinv.keys_unique]

end Probe

/-! ## The operations -/

/-- `ht_get` as a pointer leaves the table its probe leaves. -/
theorem htGetRef_fst (ht : Hashtable) (key : Bytes) (now : Int) :
    (htGetRef ht key now).1 = (probe ht key now).1 := by
  unfold htGetRef
  split <;> simp_all

section Ops

variable {ht : Hashtable} (hinv : ht.Inv)
include hinv

/-- The table before `ht_set` probes: resized when the load has reached the threshold. It has
the invariant, holds the same entries, and its load is below the threshold. -/
theorem resize_before_set :
    let ht₁ := if needsResize ht then htResize ht else ht
    ht₁.Inv ∧ 10 * ht₁.used < 7 * ht₁.capacity ∧ (∀ k, ht₁.lookup k = ht.lookup k) ∧
      ht₁.used ≤ ht.used ∧
      (ht₁.capacity = ht.capacity ∨ (ht₁.capacity = 2 * ht.capacity ∧ 2 * ht.capacity ≤ 3 * ht.used)) := by
  have := hinv.used_lt
  have := hinv.capacity_ge
  have := hinv.count_le_used
  by_cases h : needsResize ht
  · have hinv' := htResize_inv hinv
    simp only [h, ↓reduceIte]
    refine ⟨hinv', ?_, fun k => lookup_eq_of_holds_iff hinv'.keys_unique fun v x => ?_, ?_, ?_⟩
    · simp only [htResize]; omega
    · rw [lookup_eq_some_iff hinv.keys_unique]
      exact htResize_slot_iff hinv k v x
    · simp only [htResize]; omega
    · simp only [needsResize, decide_eq_true_eq] at h
      right; simp only [htResize]; omega
  · dsimp only
    rw [if_neg h]
    simp only [needsResize, decide_eq_true_eq, not_le] at h
    exact ⟨hinv, by omega, fun _ => rfl, le_rfl, .inl rfl⟩

/-- `ht_set`: the invariant is kept, `key` now holds `value` with no expiry, every other key is
unchanged, and the result says whether `key` was absent or expired. -/
theorem htSet_spec (key value : Bytes) (now : Int) :
    (htSet ht key value now).1.Inv ∧
      (∀ k, (htSet ht key value now).1.lookup k =
        if k = key then some (value, -1) else ht.lookup k) ∧
      (htSet ht key value now).2 = (ht.liveLookup key now).isNone := by
  obtain ⟨hinv₁, hroom, hlook, -⟩ := resize_before_set hinv
  have hlive : ∀ ht₁ : Hashtable, ht₁.Inv → (∀ k, ht₁.lookup k = ht.lookup k) →
      ht₁.liveLookup key now = ht.liveLookup key now := fun _ _ h => by
    simp only [Hashtable.liveLookup, h]
  unfold htSet
  dsimp only
  generalize (if needsResize ht then htResize ht else ht) = ht₁ at hinv₁ hroom hlook ⊢
  rcases probe_spec hinv₁ key now with ⟨v, x, s, hl, hs, hp⟩ | ⟨hl, ht', s', hp, hinv', hfree, hc, hu, hh⟩
  · rw [hp]
    have hinv₂ := hinv₁.overwrite hs value (-1)
    refine ⟨hinv₂, fun k => lookup_eq_of_holds_iff hinv₂.keys_unique fun v' x' => ?_, ?_⟩
    · rw [hinv₁.holds_overwrite hs, ← lookup_eq_some_iff hinv₁.keys_unique, hlook]
      split_ifs with hk <;> simp [hk, eq_comm]
    · rw [← hlive ht₁ hinv₁ hlook, hl]; rfl
  · rw [hp]
    have hinv₂ := hinv'.insert (by rw [hc, hu]; exact hroom)
      (fun v x h => ((hh key v x).mp h).1 rfl) hfree value
    refine ⟨hinv₂, fun k => lookup_eq_of_holds_iff hinv₂.keys_unique fun v' x' => ?_, ?_⟩
    · rw [hinv'.holds_insert (fun v x h => ((hh key v x).mp h).1 rfl) hfree, hh,
        ← lookup_eq_some_iff hinv₁.keys_unique, hlook]
      split_ifs with hk <;> simp [hk, eq_comm]
    · rw [← hlive ht₁ hinv₁ hlook, hl]; rfl

/-- `ht_set` grows the table only at the resize threshold, and adds at most one used slot. -/
theorem htSet_load (key value : Bytes) (now : Int) :
    (htSet ht key value now).1.used ≤ ht.used + 1 ∧
      ((htSet ht key value now).1.capacity = ht.capacity ∨
        ((htSet ht key value now).1.capacity = 2 * ht.capacity ∧
          2 * ht.capacity ≤ 3 * ht.used)) := by
  obtain ⟨hinv₁, -, -, hused, hcap⟩ := resize_before_set hinv
  unfold htSet
  dsimp only
  generalize (if needsResize ht then htResize ht else ht) = ht₁ at hinv₁ hused hcap ⊢
  rcases probe_spec hinv₁ key now with ⟨v, x, s, -, -, hp⟩ | ⟨-, ht', s', hp, -, -, hc, hu, -⟩
  · rw [hp]; exact ⟨by dsimp only; omega, hcap⟩
  · rw [hp]
    refine ⟨?_, by dsimp only; rw [hc]; exact hcap⟩
    dsimp only
    split <;> omega

/-- `ht_get`: the table the probe leaves, and the live value of `key`. -/
theorem htGet_spec (key : Bytes) (now : Int) :
    htGet ht key now = ((probe ht key now).1, (ht.liveLookup key now).map Prod.fst) := by
  rcases probe_spec hinv key now with ⟨v, x, s, hl, hs, hp⟩ | ⟨hl, ht', s', hp, -⟩
  · simp [htGet, hp, hs, hl, Entry.value]
  · simp [htGet, hp, hl]

/-- `ht_get` as a pointer, at a live key: the probe changes nothing and returns the key's
slot. -/
theorem htGetRef_live {key v : Bytes} {now x : Int} (hl : ht.liveLookup key now = some (v, x)) :
    ∃ s, htGetRef ht key now = (ht, some s) ∧ ht.slot s = .occupied key v x := by
  rcases probe_spec hinv key now with ⟨v', x', s, hl', hs, hp⟩ | ⟨hl', -⟩ <;> rw [hl] at hl'
  · cases hl'
    exact ⟨s, by simp [htGetRef, hp], hs⟩
  · cases hl'

/-- `ht_get` as a pointer, at a key with no live entry: `NULL`, after the probe's lazy
expiry. -/
theorem htGetRef_absent {key : Bytes} {now : Int} (hl : ht.liveLookup key now = none) :
    htGetRef ht key now = ((probe ht key now).1, none) := by
  rcases probe_spec hinv key now with ⟨v, x, s, hl', -, -⟩ | ⟨-, ht', s', hp, -⟩
  · rw [hl] at hl'; cases hl'
  · simp [htGetRef, hp]

/-- `ht_exists`: the table the probe leaves, and whether `key` is live. -/
theorem htExists_spec (key : Bytes) (now : Int) :
    htExists ht key now = ((probe ht key now).1, (ht.liveLookup key now).isSome) := by
  rcases probe_spec hinv key now with ⟨v, x, s, hl, -, hp⟩ | ⟨hl, ht', s', hp, -⟩
  · simp [htExists, hp, hl]
  · simp [htExists, hp, hl]

/-- `ht_get_expire`: the table the probe leaves, and the expiry of a live `key`, `-1` if
there is none. -/
theorem htGetExpire_spec (key : Bytes) (now : Int) :
    htGetExpire ht key now =
      ((probe ht key now).1, ((ht.liveLookup key now).map Prod.snd).getD (-1)) := by
  rcases probe_spec hinv key now with ⟨v, x, s, hl, hs, hp⟩ | ⟨hl, ht', s', hp, -⟩
  · simp [htGetExpire, hp, hs, hl, Entry.expireAt]
  · simp [htGetExpire, hp, hl]

/-- `ht_get_expire` after the entry in slot `s` has expired: it frees exactly that slot, the
one a pointer from an earlier `ht_get` points into, and returns `-1`. -/
theorem htGetExpire_expired {key v : Bytes} {x now : Int} {s : Nat}
    (hs : ht.slot s = .occupied key v x) (hx : isExpired x now = true) :
    htGetExpire ht key now = (ht.freeSlot s, -1) := by
  rcases probe_cases hinv key now with ⟨s', v', x', hs', hx', -⟩ |
      ⟨s', v', x', hs', -, s'', hp, -⟩ | ⟨hnone, -⟩
  · cases hinv.keys_unique hs hs'
    rw [hs] at hs'
    cases hs'
    rw [hx] at hx'
    cases hx'
  · cases hinv.keys_unique hs hs'
    simp [htGetExpire, hp]
  · simpa [hs, Entry.find] using hnone s

/-- `ht_delete`: the invariant is kept, `key` is gone, every other key is unchanged, and the
result says whether `key` was live. -/
theorem htDelete_spec (key : Bytes) (now : Int) :
    (htDelete ht key now).1.Inv ∧
      (∀ k, (htDelete ht key now).1.lookup k = if k = key then none else ht.lookup k) ∧
      (htDelete ht key now).2 = (ht.liveLookup key now).isSome ∧
      (htDelete ht key now).1.capacity = ht.capacity ∧ (htDelete ht key now).1.used = ht.used := by
  rcases probe_spec hinv key now with ⟨v, x, s, hl, hs, hp⟩ | ⟨hl, ht', s', hp, hinv', -, hc, hu, hh⟩
  · simp only [htDelete, hp, hl, Option.isSome_some]
    have hinv' := hinv.freeSlot hs
    refine ⟨hinv', fun k => lookup_eq_of_holds_iff hinv'.keys_unique fun v' x' => ?_, trivial, rfl, rfl⟩
    rw [hinv.holds_freeSlot hs, ← lookup_eq_some_iff hinv.keys_unique]
    split_ifs with hk <;> simp [hk]
  · simp only [htDelete, hp, hl, Option.isSome_none]
    refine ⟨hinv', fun k => lookup_eq_of_holds_iff hinv'.keys_unique fun v' x' => ?_, trivial, hc, hu⟩
    rw [hh, ← lookup_eq_some_iff hinv.keys_unique]
    split_ifs with hk <;> simp [hk]

/-- `ht_set_expire`: the invariant is kept, a live `key` gets the expiry `expireAtMs` and keeps
its value, an expired `key` is gone, and every other key is unchanged. -/
theorem htSetExpire_spec (key : Bytes) (expireAtMs now : Int) :
    (htSetExpire ht key expireAtMs now).Inv ∧
      (∀ k, (htSetExpire ht key expireAtMs now).lookup k = if k = key then
        (ht.liveLookup key now).map (fun e => (e.1, expireAtMs)) else ht.lookup k) ∧
      (htSetExpire ht key expireAtMs now).capacity = ht.capacity ∧
      (htSetExpire ht key expireAtMs now).used = ht.used := by
  rcases probe_spec hinv key now with ⟨v, x, s, hl, hs, hp⟩ | ⟨hl, ht', s', hp, hinv', -, hc, hu, hh⟩
  · simp only [htSetExpire, hp, hs, Entry.withExpire, hl, Option.map_some']
    have hinv' := hinv.overwrite hs v expireAtMs
    refine ⟨hinv', fun k => lookup_eq_of_holds_iff hinv'.keys_unique fun v' x' => ?_, trivial, trivial⟩
    rw [hinv.holds_overwrite hs, ← lookup_eq_some_iff hinv.keys_unique]
    split_ifs with hk <;> simp [hk, eq_comm]
  · simp only [htSetExpire, hp, hl, Option.map_none']
    refine ⟨hinv', fun k => lookup_eq_of_holds_iff hinv'.keys_unique fun v' x' => ?_, hc, hu⟩
    rw [hh, ← lookup_eq_some_iff hinv.keys_unique]
    split_ifs with hk <;> simp [hk]

end Ops

end MiniRedis
