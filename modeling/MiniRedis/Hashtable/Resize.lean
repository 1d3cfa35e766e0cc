import MiniRedis.Hashtable.Probe

/-!
# Resizing

`ht_resize` copies every occupied slot into a fresh table of twice the capacity, each at the
first slot of its chain there that is not occupied. The fresh table has no tombstone, so that
slot is empty and the key's chain reaches it without a gap. The copy loop is a fold over the old
slots; `Rehashed` is what each step keeps of the new slots, and `foldl_rehashEntry` carries it
over the whole loop. `htResize_inv` is the invariant of the resized table and
`htResize_slot_iff` says that it holds the same entries.
-/

namespace MiniRedis

/-- Two slots that hold the same key. -/
def Entry.SameKey : Entry → Entry → Prop
  | .occupied k _ _, .occupied k' _ _ => k = k'
  | _, _ => False

/-- What the copy loop keeps of the new slots: their number, no tombstone, distinct keys, and
chains without gaps. -/
structure Rehashed (cap : Nat) (l : List Entry) : Prop where
  length_eq : l.length = cap
  no_tombstone : ∀ s, l.getD s .empty ≠ .tombstone
  keys_unique : KeysUnique (l.getD · .empty)
  chain : ChainsOk cap (l.getD · .empty)

/-- An empty table counts nothing for a predicate false on empty slots. -/
@[simp] theorem countP_replicate_empty (p : Entry → Bool) (hp : p .empty = false) (n : Nat) :
    (List.replicate n Entry.empty).countP p = 0 := by
  simp [List.countP_replicate, hp]

/-- Every slot of an empty table is empty. -/
@[simp] theorem getD_replicate_empty (n s : Nat) :
    (List.replicate n Entry.empty).getD s .empty = .empty := by
  simp only [List.getD_eq_getElem?_getD, List.getElem?_replicate]
  split <;> rfl

/-- The fresh table of `ht_resize`, all empty. -/
theorem rehashed_replicate (cap : Nat) : Rehashed cap (List.replicate cap .empty) where
  length_eq := List.length_replicate _ _
  no_tombstone s := by simp
  keys_unique h _ := by simp at h
  chain h _ := by simp at h

/-- The slots that hold some entry after a write of an occupied entry into an empty slot. -/
theorem exists_getD_set_iff {l : List Entry} {t : Nat} (ht : t < l.length)
    (hempty : l.getD t .empty = .empty) (e : Entry) {k : Bytes} {v : Bytes} {x : Int} :
    (∃ s, (l.set t e).getD s .empty = .occupied k v x) ↔
      (∃ s, l.getD s .empty = .occupied k v x) ∨ e = .occupied k v x := by
  simp only [getD_set_of_lt ht]
  constructor
  · rintro ⟨s, hs⟩
    split_ifs at hs
    · exact .inr hs
    · exact .inl ⟨s, hs⟩
  · rintro (⟨s, hs⟩ | rfl)
    · refine ⟨s, ?_⟩
      rw [if_neg (by rintro rfl; rw [hempty] at hs; cases hs), hs]
    · exact ⟨t, if_pos rfl⟩

section Rehash

variable {cap : Nat} {k : Bytes}

/-- One step of the rehash loop moves one slot along the chain. -/
theorem mask_succ_probeSlot (hcap : ∃ p, cap = 2 ^ p) (j : Nat) :
    (probeSlot cap k j + 1) &&& (cap - 1) = probeSlot cap k (j + 1) := by
  rw [and_pred_eq_mod hcap, probeSlot, probeSlot, Nat.mod_add_mod, Nat.add_assoc]

/-- The rehash loop starts at the key's home slot. -/
theorem mask_hash_eq_probeSlot (hcap : ∃ p, cap = 2 ^ p) :
    (fnv1aHash k).toNat &&& (cap - 1) = probeSlot cap k 0 := by
  rw [and_pred_eq_mod hcap, probeSlot, home, Nat.add_zero, Nat.mod_mod]

/-- The rehash loop stops at the first slot of the chain that is not occupied. -/
theorem rehashSlot_probeSlot {l : List Entry} (hcap : ∃ p, cap = 2 ^ p) {i d : Nat}
    (hid : i ≤ d) (hd : d < cap)
    (hocc : ∀ j, i ≤ j → j < d → (l.getD (probeSlot cap k j) .empty).isOccupied)
    (hfree : (l.getD (probeSlot cap k d) .empty).isOccupied = false) :
    rehashSlot l (cap - 1) (probeSlot cap k i) (cap - i) = some (probeSlot cap k d) := by
  induction' hm : d - i with m ih generalizing i
  · obtain rfl : i = d := by omega
    obtain ⟨n, hn⟩ : ∃ n, cap - i = n + 1 := ⟨cap - i - 1, by omega⟩
    rw [hn, rehashSlot]
    cases he : l.getD (probeSlot cap k i) .empty with
    | occupied => rw [he] at hfree; cases hfree
    | _ => rfl
  · obtain ⟨n, hn⟩ : ∃ n, cap - i = n + 1 := ⟨cap - i - 1, by omega⟩
    have hi := hocc i le_rfl (by omega)
    rw [hn, rehashSlot]
    cases he : l.getD (probeSlot cap k i) .empty with
    | occupied =>
      rw [mask_succ_probeSlot hcap, show n = cap - (i + 1) by omega]
      exact ih (by omega) (fun j hj hjd => hocc j (by omega) hjd) (by omega)
    | _ => rw [he] at hi; cases hi

/-- One step of the copy loop: an occupied entry whose key the new slots do not hold goes to
an empty slot on its chain, reached without a gap. -/
theorem Rehashed.rehashEntry {l : List Entry} (hcap : ∃ p, cap = 2 ^ p) (hl : Rehashed cap l)
    (hroom : l.countP Entry.isOccupied < cap)
    (habsent : ∀ s v' x', l.getD s .empty ≠ .occupied k v' x') (v : Bytes) (x : Int) :
    ∃ t < cap, l.getD t .empty = .empty ∧
      rehashEntry cap l (.occupied k v x) = l.set t (.occupied k v x) ∧
      Rehashed cap (l.set t (.occupied k v x)) := by
  have hpos : 0 < cap := by omega
  have hlen := hl.length_eq
  obtain ⟨j₀, hj₀, hfree₀⟩ : ∃ j < cap, (l.getD (probeSlot cap k j) .empty).isOccupied = false := by
    have : ¬∀ e ∈ l, e.isOccupied := fun h => by
      rw [List.countP_eq_length.mpr h, hlen] at hroom; exact lt_irrefl _ hroom
    push_neg at this
    obtain ⟨e, he, hocc⟩ := this
    obtain ⟨s, hs, rfl⟩ := List.mem_iff_getElem.mp he
    refine ⟨dist cap k s, dist_lt k hpos s, ?_⟩
    rw [probeSlot_dist k hpos (by omega)]
    simpa [hs] using hocc
  have hex : ∃ j, (l.getD (probeSlot cap k j) .empty).isOccupied = false := ⟨j₀, hfree₀⟩
  classical
  have hfree := Nat.find_spec hex
  have hd : Nat.find hex < cap := (Nat.find_min' hex hfree₀).trans_lt hj₀
  have hocc : ∀ j < Nat.find hex, (l.getD (probeSlot cap k j) .empty).isOccupied := fun j hj =>
    Bool.not_eq_false _ ▸ Nat.find_min hex hj
  have hlt : probeSlot cap k (Nat.find hex) < l.length := by
    have := probeSlot_lt k hpos (Nat.find hex); omega
  have hempty : l.getD (probeSlot cap k (Nat.find hex)) .empty = .empty := by
    have htomb := hl.no_tombstone (probeSlot cap k (Nat.find hex))
    revert hfree htomb
    cases l.getD (probeSlot cap k (Nat.find hex)) .empty <;> simp [Entry.isOccupied]
  have hslot := rehashSlot_probeSlot hcap (Nat.zero_le _) hd (fun j _ hj => hocc j hj) hfree
  rw [Nat.sub_zero] at hslot
  refine ⟨_, probeSlot_lt k hpos _, hempty, by
    simp only [MiniRedis.rehashEntry, mask_hash_eq_probeSlot hcap, hslot], ?_⟩
  have hg := getD_set_of_lt hlt (.occupied k v x)
  refine ⟨by rw [List.length_set, hlen], fun s => ?_, KeysUnique.write hl.keys_unique hg ?_,
    ChainsOk.write hl.chain hg (fun h => nomatch h) ?_⟩
  · rw [hg]; split_ifs
    · exact fun h => nomatch h
    · exact hl.no_tombstone s
  · rintro k' v' x' ⟨⟩ s v'' x'' hs
    exact absurd hs (habsent s v'' x'')
  · rintro k' v' x' ⟨⟩ j hj
    rw [dist_probeSlot k hpos hd] at hj
    intro h
    have := hocc j hj
    rw [show l.getD (probeSlot cap k j) .empty = .empty from h] at this
    cases this

/-- The copy loop over the slots still to copy: the new slots stay `Rehashed`, gain one
occupied slot for each occupied slot copied, and hold exactly the entries they held plus the
occupied entries copied. -/
theorem foldl_rehashEntry (hcap : ∃ p, cap = 2 ^ p) :
    ∀ (rest : List Entry) {acc : List Entry}, Rehashed cap acc →
      rest.Pairwise (fun a b => ¬a.SameKey b) →
      (∀ e ∈ rest, ∀ s, ¬(acc.getD s .empty).SameKey e) →
      acc.countP Entry.isOccupied + rest.countP Entry.isOccupied ≤ cap →
      Rehashed cap (rest.foldl (rehashEntry cap) acc) ∧
      (rest.foldl (rehashEntry cap) acc).countP Entry.isOccupied =
        acc.countP Entry.isOccupied + rest.countP Entry.isOccupied ∧
      ∀ k v x, (∃ s, (rest.foldl (rehashEntry cap) acc).getD s .empty = .occupied k v x) ↔
        (∃ s, acc.getD s .empty = .occupied k v x) ∨ .occupied k v x ∈ rest
  | [], acc, hacc, _, _, _ => ⟨hacc, rfl, fun _ _ _ => by simp⟩
  | e :: rest, acc, hacc, hpw, hdisj, hroom => by
    rw [List.pairwise_cons] at hpw
    have hdisj' : ∀ e' ∈ rest, ∀ s, ¬(acc.getD s .empty).SameKey e' :=
      fun e' he' => hdisj e' (List.mem_cons_of_mem e he')
    cases e with
    | occupied k v x =>
      have habsent : ∀ s v' x', acc.getD s .empty ≠ .occupied k v' x' := fun s v' x' h =>
        hdisj _ (List.mem_cons_self _ _) s (by rw [h]; rfl)
      rw [List.countP_cons_of_pos _ _ rfl] at hroom
      obtain ⟨t, ht, hempty, hstep, hset⟩ := hacc.rehashEntry hcap (by omega) habsent v x
      have hlt : t < acc.length := hacc.length_eq ▸ ht
      have hcount := countP_set_getD Entry.isOccupied hlt (.occupied k v x)
      rw [hempty] at hcount
      simp only [Entry.isOccupied, Bool.false_eq_true, ↓reduceIte, Nat.add_zero] at hcount
      obtain ⟨hres, hcnt, hmem⟩ := foldl_rehashEntry hcap rest hset hpw.2
        (fun e' he' s => by
          rw [getD_set_of_lt hlt]
          split_ifs
          · exact hpw.1 e' he'
          · exact hdisj' e' he' s)
        (by omega)
      rw [List.foldl_cons, hstep, hcnt, List.countP_cons_of_pos _ _ rfl]
      refine ⟨hres, by omega, fun k' v' x' => ?_⟩
      rw [hmem, exists_getD_set_iff hlt hempty, List.mem_cons]
      constructor
      · rintro ((h | h) | h)
        · exact .inl h
        · exact .inr (.inl h.symm)
        · exact .inr (.inr h)
      · rintro (h | h | h)
        · exact .inl (.inl h)
        · exact .inl (.inr h.symm)
        · exact .inr h
    | _ =>
      rw [List.countP_cons_of_neg _ _ (by simp [Entry.isOccupied])] at hroom ⊢
      obtain ⟨hres, hcnt, hmem⟩ := foldl_rehashEntry hcap rest hacc hpw.2 hdisj' hroom
      exact ⟨hres, hcnt, fun k v x => by simpa using hmem k v x⟩

end Rehash

section Resize

variable {ht : Hashtable}

/-- Without tombstones the used slots are the occupied ones. -/
theorem Rehashed.countP_isUsed {cap : Nat} {l : List Entry} (hl : Rehashed cap l) :
    l.countP Entry.isUsed = l.countP Entry.isOccupied := by
  refine List.countP_congr fun e he => ?_
  obtain ⟨s, hs, rfl⟩ := List.mem_iff_getElem.mp he
  have := hl.no_tombstone s
  simp only [List.getD_eq_getElem?_getD, List.getElem?_eq_getElem hs, Option.getD_some] at this
  cases h : l[s] <;> simp_all [Entry.isUsed, Entry.isOccupied]

/-- The slots of a table with the invariant hold pairwise distinct keys. -/
theorem Hashtable.Inv.pairwise_entries (hinv : ht.Inv) :
    ht.entries.Pairwise (fun a b => ¬a.SameKey b) := by
  rw [List.pairwise_iff_getElem]
  intro i j hi hj hij hsame
  have hslot : ∀ s (hs : s < ht.entries.length), ht.slot s = ht.entries[s] := fun s hs => by
    simp [Hashtable.slot, hs]
  revert hsame
  cases hei : ht.entries[i] <;> cases hej : ht.entries[j] <;> simp only [Entry.SameKey] <;>
    try exact id
  rintro rfl
  have := hinv.keys_unique ((hslot i hi).trans hei) ((hslot j hj).trans hej)
  omega

/-- The copy loop of `ht_resize` on a table with the invariant. -/
theorem htResize_fold (hinv : ht.Inv) :
    Rehashed (ht.capacity * 2) (htResize ht).entries ∧
      (htResize ht).entries.countP Entry.isOccupied = ht.count ∧
      ∀ k v x, (∃ s, (htResize ht).slot s = .occupied k v x) ↔
        ∃ s, ht.slot s = .occupied k v x := by
  obtain ⟨p, hp⟩ := hinv.capacity_pow
  have hfold := foldl_rehashEntry ⟨p + 1, by rw [hp, pow_succ]⟩ ht.entries
    (rehashed_replicate (ht.capacity * 2)) hinv.pairwise_entries (fun _ _ s => by simp [Entry.SameKey])
    (by
      have : ht.entries.countP Entry.isOccupied ≤ ht.entries.length := List.countP_le_length _
      rw [countP_replicate_empty _ rfl]; rw [hinv.length_eq] at this; omega)
  obtain ⟨hres, hcnt, hmem⟩ := hfold
  refine ⟨hres, by rw [htResize, hcnt, countP_replicate_empty _ rfl, Nat.zero_add, hinv.count_eq],
    fun k v x => ?_⟩
  simp only [Hashtable.slot, htResize]
  rw [hmem k v x, mem_iff_exists_getD (show Entry.occupied k v x ≠ .empty from fun h => nomatch h)]
  simp

/-- The resized table has the invariant. -/
theorem htResize_inv (hinv : ht.Inv) : (htResize ht).Inv := by
  obtain ⟨hres, hcnt, -⟩ := htResize_fold hinv
  obtain ⟨p, hp⟩ := hinv.capacity_pow
  have hcu : ht.count ≤ ht.used := by
    rw [hinv.count_eq, hinv.used_eq]
    exact List.countP_mono_left fun e _ h => by cases e <;> simp_all [Entry.isOccupied, Entry.isUsed]
  have := hinv.used_lt
  have := hinv.capacity_ge
  exact {
    capacity_pow := ⟨p + 1, by rw [htResize, hp, pow_succ]⟩
    capacity_ge := by simp only [htResize]; omega
    length_eq := hres.length_eq
    count_eq := hcnt.symm
    used_eq := by rw [hres.countP_isUsed, hcnt]; rfl
    used_lt := by simp only [htResize]; omega
    keys_unique := hres.keys_unique
    chain := hres.chain }

/-- The resized table holds the same entries. -/
theorem htResize_slot_iff (hinv : ht.Inv) (k v : Bytes) (x : Int) :
    (∃ s, (htResize ht).slot s = .occupied k v x) ↔ ∃ s, ht.slot s = .occupied k v x :=
  (htResize_fold hinv).2.2 k v x

end Resize

end MiniRedis
