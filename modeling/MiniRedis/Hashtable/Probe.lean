import MiniRedis.Hashtable.Basic

/-!
# Probing

With a power-of-two capacity, `hash & (capacity - 1)` is the hash modulo the capacity and the
probe visits the slots `(home + j) % capacity` for `j = 0, 1, ...`. The probe loop passes over
tombstones and slots holding other keys, remembering the first tombstone, and stops at an
empty slot or at the key. `probe_cases` says once what a probe can return on a table whose
chains have no gaps; the operations' lemmas use it and never unfold the loop.
-/

namespace MiniRedis

/-- The home slot of `key` in a table of capacity `cap`: its hash modulo `cap`. -/
def home (cap : Nat) (key : Bytes) : Nat := (fnv1aHash key).toNat % cap

/-- The slot `j` steps along `key`'s probe chain. -/
def probeSlot (cap : Nat) (key : Bytes) (j : Nat) : Nat := (home cap key + j) % cap

/-- How many steps along `key`'s chain the slot `s` is. -/
def dist (cap : Nat) (key : Bytes) (s : Nat) : Nat := (s + cap - home cap key) % cap

/-- The first tombstone among the first `j` slots of `key`'s chain. -/
def Hashtable.firstTombstone (ht : Hashtable) (key : Bytes) : Nat → Option Nat
  | 0 => none
  | j + 1 =>
    match ht.firstTombstone key j with
    | some t => some t
    | none =>
      if ht.slot (probeSlot ht.capacity key j) = .tombstone then some (probeSlot ht.capacity key j)
      else none

/-- A slot a probe passes over: a tombstone or another key. -/
def Entry.Passes (key : Bytes) : Entry → Prop
  | .tombstone => True
  | .occupied k _ _ => k ≠ key
  | .empty => False

/-- A slot that is not empty and does not hold `key` is passed over. -/
theorem Entry.passes_of {e : Entry} {key : Bytes} (he : e ≠ .empty)
    (hk : ∀ v x, e ≠ .occupied key v x) : e.Passes key := by
  cases e with
  | empty => exact he rfl
  | tombstone => trivial
  | occupied k v x => rintro rfl; exact hk v x rfl

/-! ## Slot arithmetic -/

section Arith

variable {cap : Nat} (key : Bytes)

/-- Masking with `2^p - 1` is reduction modulo `2^p`. -/
theorem and_pred_eq_mod {x : Nat} (hcap : ∃ p, cap = 2 ^ p) : x &&& (cap - 1) = x % cap := by
  obtain ⟨p, rfl⟩ := hcap
  exact Nat.and_pow_two_sub_one_eq_mod x p

/-- The masked start plus `i`, masked again, is the `i`-th slot of the chain. -/
theorem mask_add_eq_probeSlot {ht : Hashtable} (hcap : ∃ p, ht.capacity = 2 ^ p) (i : Nat) :
    (ht.homeIndex key + i) &&& (ht.capacity - 1) = probeSlot ht.capacity key i := by
  rw [Hashtable.homeIndex, and_pred_eq_mod hcap, and_pred_eq_mod hcap, probeSlot, home]

/-- The home slot lies in the table. -/
theorem home_lt (hpos : 0 < cap) : home cap key < cap := Nat.mod_lt _ hpos

/-- Every probe slot lies in the table. -/
theorem probeSlot_lt (hpos : 0 < cap) (j : Nat) : probeSlot cap key j < cap := Nat.mod_lt _ hpos

/-- The probe distance of a slot is below the capacity. -/
theorem dist_lt (hpos : 0 < cap) (s : Nat) : dist cap key s < cap := Nat.mod_lt _ hpos

/-- A slot is its own distance along the chain from home. -/
theorem probeSlot_dist (hpos : 0 < cap) {s : Nat} (hs : s < cap) :
    probeSlot cap key (dist cap key s) = s := by
  have := home_lt key hpos
  unfold probeSlot dist
  rw [Nat.add_mod_mod, Nat.add_sub_cancel' (by omega), Nat.add_mod_right, Nat.mod_eq_of_lt hs]

/-- Within one turn, the distance of the `j`-th slot is `j`. -/
theorem dist_probeSlot (hpos : 0 < cap) {j : Nat} (hj : j < cap) :
    dist cap key (probeSlot cap key j) = j := by
  have := home_lt key hpos
  unfold probeSlot dist
  by_cases hlt : home cap key + j < cap
  · rw [Nat.mod_eq_of_lt hlt, show home cap key + j + cap - home cap key = j + cap by omega,
      Nat.add_mod_right, Nat.mod_eq_of_lt hj]
  · have hq : (home cap key + j) % cap = home cap key + j - cap := by
      rw [Nat.mod_eq_sub_mod (by omega), Nat.mod_eq_of_lt (by omega)]
    rw [hq, show home cap key + j - cap + cap - home cap key = j by omega, Nat.mod_eq_of_lt hj]

/-- Distinct steps within one turn reach distinct slots. -/
theorem probeSlot_inj (hpos : 0 < cap) {i j : Nat} (hi : i < cap) (hj : j < cap)
    (h : probeSlot cap key i = probeSlot cap key j) : i = j := by
  rw [← dist_probeSlot key hpos hi, ← dist_probeSlot key hpos hj, h]

end Arith

/-! ## The probe loop -/

section Loop

variable {ht : Hashtable} {key : Bytes} {now : Int}

/-- The first tombstone found lies earlier on the chain and is a tombstone. -/
theorem firstTombstone_spec {j t : Nat} (h : ht.firstTombstone key j = some t) :
    ∃ j' < j, t = probeSlot ht.capacity key j' ∧ ht.slot t = .tombstone := by
  induction j with
  | zero => cases h
  | succ j ih =>
    simp only [Hashtable.firstTombstone] at h
    split at h
    · obtain ⟨j', hj', rfl, ht'⟩ := ih (by simp_all)
      exact ⟨j', by omega, rfl, ht'⟩
    · split at h
      · cases h; exact ⟨j, by omega, rfl, by assumption⟩
      · cases h

/-- The probe loop passes over the slots of the chain a probe passes. -/
theorem probeLoop_skip (hcap : ∃ p, ht.capacity = 2 ^ p) {i d : Nat} (hid : i ≤ d)
    (hd : d < ht.capacity)
    (hpass : ∀ j, i ≤ j → j < d → (ht.slot (probeSlot ht.capacity key j)).Passes key) :
    probeLoop key now (ht.homeIndex key) ht (ht.firstTombstone key i) i (ht.capacity - i) =
      probeLoop key now (ht.homeIndex key) ht (ht.firstTombstone key d) d (ht.capacity - d) := by
  induction' hm : d - i with m ih generalizing i
  · obtain rfl : i = d := by omega
    rfl
  · obtain ⟨n, hn⟩ : ∃ n, ht.capacity - i = n + 1 := ⟨ht.capacity - i - 1, by omega⟩
    have hp := hpass i le_rfl (by omega)
    rw [← ih (i := i + 1) (by omega) (fun j hj hjd => hpass j (by omega) hjd) (by omega), hn,
      probeLoop,
      show n = ht.capacity - (i + 1) by omega]
    simp only [mask_add_eq_probeSlot key hcap, Hashtable.firstTombstone]
    cases he : ht.slot (probeSlot ht.capacity key i) with
    | empty => rw [he] at hp; exact hp.elim
    | tombstone => cases ht.firstTombstone key i <;> simp
    | occupied k v x =>
      rw [he] at hp
      simp only [Entry.Passes] at hp
      simp only [hp, if_false]
      cases ht.firstTombstone key i <;> rfl

/-- Reaching an empty slot ends the probe: not found, insert at the first tombstone or here. -/
theorem probeLoop_empty (hcap : ∃ p, ht.capacity = 2 ^ p) {d : Nat} (hd : d < ht.capacity)
    (he : ht.slot (probeSlot ht.capacity key d) = .empty) (ft : Option Nat) :
    probeLoop key now (ht.homeIndex key) ht ft d (ht.capacity - d) =
      (ht, false, ft.getD (probeSlot ht.capacity key d)) := by
  obtain ⟨n, hn⟩ : ∃ n, ht.capacity - d = n + 1 := ⟨ht.capacity - d - 1, by omega⟩
  rw [hn, probeLoop]
  simp only [mask_add_eq_probeSlot key hcap, he]

/-- Reaching the key, live, ends the probe: found here. -/
theorem probeLoop_live (hcap : ∃ p, ht.capacity = 2 ^ p) {d : Nat} (hd : d < ht.capacity)
    {v : Bytes} {x : Int} (he : ht.slot (probeSlot ht.capacity key d) = .occupied key v x)
    (hx : isExpired x now = false) (ft : Option Nat) :
    probeLoop key now (ht.homeIndex key) ht ft d (ht.capacity - d) =
      (ht, true, probeSlot ht.capacity key d) := by
  obtain ⟨n, hn⟩ : ∃ n, ht.capacity - d = n + 1 := ⟨ht.capacity - d - 1, by omega⟩
  rw [hn, probeLoop]
  simp only [mask_add_eq_probeSlot key hcap, he, hx, if_true]
  rfl

/-- Reaching the key, expired, frees its slot and ends the probe: not found. -/
theorem probeLoop_expired (hcap : ∃ p, ht.capacity = 2 ^ p) {d : Nat} (hd : d < ht.capacity)
    {v : Bytes} {x : Int} (he : ht.slot (probeSlot ht.capacity key d) = .occupied key v x)
    (hx : isExpired x now = true) (ft : Option Nat) :
    probeLoop key now (ht.homeIndex key) ht ft d (ht.capacity - d) =
      (ht.freeSlot (probeSlot ht.capacity key d), false, ft.getD (probeSlot ht.capacity key d)) := by
  obtain ⟨n, hn⟩ : ∃ n, ht.capacity - d = n + 1 := ⟨ht.capacity - d - 1, by omega⟩
  rw [hn, probeLoop]
  simp only [mask_add_eq_probeSlot key hcap, he, hx, if_true]

end Loop

/-! ## Keys and chains of a slot map -/

/-- No two slots hold the same key. -/
def KeysUnique (f : Nat → Entry) : Prop :=
  ∀ {s₁ s₂ k v₁ v₂ x₁ x₂}, f s₁ = .occupied k v₁ x₁ → f s₂ = .occupied k v₂ x₂ → s₁ = s₂

/-- Every key is reached from its home slot without meeting an empty slot. -/
def ChainsOk (cap : Nat) (f : Nat → Entry) : Prop :=
  ∀ {s k v x}, f s = .occupied k v x → ∀ j < dist cap k s, f (probeSlot cap k j) ≠ .empty

section Write

variable {cap t : Nat} {f g : Nat → Entry} {e : Entry}

/-- Writing a key that no other slot holds keeps keys unique. -/
theorem KeysUnique.write (hf : KeysUnique f) (hg : ∀ j, g j = if t = j then e else f j)
    (hown : ∀ {k v x}, e = .occupied k v x → ∀ {s v' x'}, f s = .occupied k v' x' → s = t) :
    KeysUnique g := by
  intro s₁ s₂ k v₁ v₂ x₁ x₂ h₁ h₂
  rw [hg] at h₁ h₂
  split_ifs at h₁ h₂ with ht₁ ht₂ ht₂
  · exact ht₁.symm.trans ht₂
  · exact absurd (hown h₁ h₂).symm ht₂
  · exact absurd (hown h₂ h₁).symm ht₁
  · exact hf h₁ h₂

/-- Writing a non-empty entry, whose own key (if any) is reached without an empty slot, keeps
every chain. -/
theorem ChainsOk.write (hf : ChainsOk cap f) (hg : ∀ j, g j = if t = j then e else f j)
    (he : e ≠ .empty)
    (hown : ∀ {k v x}, e = .occupied k v x → ∀ j < dist cap k t, f (probeSlot cap k j) ≠ .empty) :
    ChainsOk cap g := by
  intro s k v x hs j hj
  rw [hg]
  split_ifs with htj
  · exact he
  · rw [hg] at hs
    split_ifs at hs with hts
    · subst hts; exact hown hs j hj
    · exact hf hs j hj

end Write

/-! ## The representation invariant -/

/-- The representation invariant: a power-of-two capacity of at least 64 slots, exact
counters, a load that leaves an empty slot, distinct keys, and no empty slot on any key's chain
before the key. -/
structure Hashtable.Inv (ht : Hashtable) : Prop where
  capacity_pow : ∃ p, ht.capacity = 2 ^ p
  capacity_ge : 64 ≤ ht.capacity
  length_eq : ht.entries.length = ht.capacity
  count_eq : ht.count = ht.entries.countP Entry.isOccupied
  used_eq : ht.used = ht.entries.countP Entry.isUsed
  used_lt : 10 * ht.used < 7 * ht.capacity + 10
  keys_unique : KeysUnique ht.slot
  chain : ChainsOk ht.capacity ht.slot

/-- A slot a probe that missed `key` returns: inside the table, free, and reached along `key`'s
chain without an empty slot. -/
structure Hashtable.FreeOnChain (ht : Hashtable) (key : Bytes) (s : Nat) : Prop where
  lt : s < ht.capacity
  free : ht.slot s = .empty ∨ ht.slot s = .tombstone
  chain : ∀ j < dist ht.capacity key s, ht.slot (probeSlot ht.capacity key j) ≠ .empty

namespace Hashtable.Inv

variable {ht : Hashtable} (hinv : ht.Inv)
include hinv

/-- A table with the invariant has slots. -/
theorem pos : 0 < ht.capacity := by have := hinv.capacity_ge; omega

/-- A slot that is not empty lies in the table. -/
theorem lt_of_ne_empty {s : Nat} (h : ht.slot s ≠ .empty) : s < ht.capacity :=
  hinv.length_eq ▸ lt_of_slot_ne_empty h

/-- The load bound leaves an empty slot. -/
theorem exists_empty : ∃ s < ht.capacity, ht.slot s = .empty := by
  have hlt : ht.entries.countP Entry.isUsed < ht.entries.length := by
    have := hinv.used_lt; have := hinv.capacity_ge
    rw [← hinv.used_eq, hinv.length_eq]; omega
  have : ¬∀ e ∈ ht.entries, e.isUsed := fun h => by
    rw [← List.countP_eq_length.mpr h] at hlt; exact lt_irrefl _ hlt
  push_neg at this
  obtain ⟨e, he, hu⟩ := this
  obtain ⟨i, hi, rfl⟩ := List.mem_iff_getElem.mp he
  refine ⟨i, hinv.length_eq ▸ hi, ?_⟩
  cases hc : ht.entries[i] <;> simp_all [slot, Entry.isUsed]

end Hashtable.Inv

section Probe

variable {ht : Hashtable} {key : Bytes} {now : Int}

/-- The insertion slot a missed probe returns is free on the chain, in any table that agrees
with the probed one on the slots passed. -/
theorem freeOnChain_firstTombstone {ht' : Hashtable} (hcap : ht'.capacity = ht.capacity)
    (hpos : 0 < ht.capacity) {d : Nat} (hd : d < ht.capacity)
    (hagree : ∀ j < d,
      ht'.slot (probeSlot ht.capacity key j) = ht.slot (probeSlot ht.capacity key j))
    (hchain : ∀ j < d, ht.slot (probeSlot ht.capacity key j) ≠ .empty)
    (hfree : ht'.slot (probeSlot ht.capacity key d) = .empty ∨
      ht'.slot (probeSlot ht.capacity key d) = .tombstone) :
    ht'.FreeOnChain key ((ht.firstTombstone key d).getD (probeSlot ht.capacity key d)) := by
  cases h : ht.firstTombstone key d with
  | none =>
    refine ⟨hcap ▸ probeSlot_lt key hpos d, hfree, ?_⟩
    rw [hcap, Option.getD_none, dist_probeSlot key hpos hd]
    exact fun j hj => hagree j hj ▸ hchain j hj
  | some t =>
    obtain ⟨j', hj', rfl, htomb⟩ := firstTombstone_spec h
    refine ⟨hcap ▸ probeSlot_lt key hpos j', .inr (hagree j' hj' ▸ htomb), ?_⟩
    rw [hcap, Option.getD_some, dist_probeSlot key hpos (by omega)]
    exact fun j hj => hagree j (by omega) ▸ hchain j (by omega)

/-- What a probe can return on a table with the invariant: the key's live slot; or, for an
expired key, its slot freed and a free slot on the chain; or, for an absent key, the table
unchanged and a free slot on the chain. -/
theorem probe_cases (hinv : ht.Inv) (key : Bytes) (now : Int) :
    (∃ s v x, ht.slot s = .occupied key v x ∧ isExpired x now = false ∧
      probe ht key now = (ht, true, s)) ∨
    (∃ s v x, ht.slot s = .occupied key v x ∧ isExpired x now = true ∧
      ∃ s', probe ht key now = (ht.freeSlot s, false, s') ∧ (ht.freeSlot s).FreeOnChain key s') ∨
    ((∀ s, (ht.slot s).find key = none) ∧
      ∃ s', probe ht key now = (ht, false, s') ∧ ht.FreeOnChain key s') := by
  have hpos := hinv.pos
  have hcap := hinv.capacity_pow
  have hprobe : ∀ {d}, d < ht.capacity →
      (∀ j < d, (ht.slot (probeSlot ht.capacity key j)).Passes key) →
      probe ht key now = probeLoop key now (ht.homeIndex key) ht (ht.firstTombstone key d) d
        (ht.capacity - d) := fun hd hpass =>
    probeLoop_skip hcap (Nat.zero_le _) hd fun j _ hj => hpass j hj
  by_cases hk : ∃ s v x, ht.slot s = .occupied key v x
  · obtain ⟨s, v, x, hs⟩ := hk
    obtain ⟨d, hd, rfl⟩ : ∃ d < ht.capacity, probeSlot ht.capacity key d = s :=
      ⟨_, dist_lt key hpos s, probeSlot_dist key hpos
        (hinv.lt_of_ne_empty (by rw [hs]; exact fun h => nomatch h))⟩
    have hchain : ∀ j < d, ht.slot (probeSlot ht.capacity key j) ≠ .empty :=
      fun j hj => hinv.chain hs j (by rwa [dist_probeSlot key hpos hd])
    have hpass : ∀ j < d, (ht.slot (probeSlot ht.capacity key j)).Passes key := fun j hj =>
      Entry.passes_of (hchain j hj) fun _ _ he => by
        have := probeSlot_inj key hpos (by omega) hd (hinv.keys_unique he hs)
        omega
    rw [hprobe hd hpass]
    cases hx : isExpired x now
    · exact .inl ⟨_, v, x, hs, hx, probeLoop_live hcap hd hs hx _⟩
    · refine .inr (.inl ⟨_, v, x, hs, hx, _, probeLoop_expired hcap hd hs hx _, ?_⟩)
      have hlen : probeSlot ht.capacity key d < ht.entries.length := by
        rw [hinv.length_eq]; exact probeSlot_lt key hpos d
      refine freeOnChain_firstTombstone (ht.freeSlot_capacity _) hpos hd (fun j hj => ?_) hchain
        (.inr ?_)
      · rw [ht.freeSlot_slot hlen, if_neg]
        exact fun h => by have := probeSlot_inj key hpos hd (by omega) h; omega
      · rw [ht.freeSlot_slot hlen, if_pos rfl]
  · push_neg at hk
    have habsent : ∀ s, (ht.slot s).find key = none := fun s => by
      cases he : ht.slot s with
      | occupied k v x =>
        simp only [Entry.find]
        split
        · subst k; exact absurd he (hk s v x)
        · rfl
      | _ => rfl
    have hex : ∃ j, ht.slot (probeSlot ht.capacity key j) = .empty := by
      obtain ⟨s, hs, he⟩ := hinv.exists_empty
      exact ⟨dist ht.capacity key s, by rw [probeSlot_dist key hpos hs, he]⟩
    classical
    let d := Nat.find hex
    have hdspec : ht.slot (probeSlot ht.capacity key d) = .empty := Nat.find_spec hex
    have hdlt : d < ht.capacity := by
      obtain ⟨s, hs, he⟩ := hinv.exists_empty
      have := Nat.find_min' hex (show ht.slot (probeSlot ht.capacity key (dist ht.capacity key s))
        = .empty by rw [probeSlot_dist key hpos hs, he])
      have := dist_lt key hpos s
      omega
    have hne : ∀ j < d, ht.slot (probeSlot ht.capacity key j) ≠ .empty :=
      fun j hj => Nat.find_min hex hj
    have hpass : ∀ j < d, (ht.slot (probeSlot ht.capacity key j)).Passes key := fun j hj =>
      Entry.passes_of (hne j hj) (hk _)
    refine .inr (.inr ⟨habsent, _, by rw [hprobe hdlt hpass, probeLoop_empty hcap hdlt hdspec], ?_⟩)
    exact freeOnChain_firstTombstone rfl hpos hdlt (fun _ _ => rfl) hne (.inl hdspec)

end Probe

end MiniRedis
