import MiniRedis.Command.Keyspace

/-!
# What the commands do at one instant

Consequences of `dispatchCommand_refines` that a client of the server relies on, each stated on
the handlers themselves for a table refining an abstract keyspace `M`:

* `DEL` counts each present key once, however often it is named, and removes every key it
  names (`cmdDel_count`); `EXISTS` counts every argument that is present, repeats included
  (`cmdExists_count`). Both hold while the count fits `int64_t`.
* A deadline set by `EXPIRE` is the one `TTL` counts down, in seconds rounded up, until the key
  is gone (`cmdTtl_cmdExpire`).
* The commands that only read never change the keyspace a client sees, although their probes and
  scans turn expired entries into tombstones (`readOnly_refines`).
* A request changes the keyspace only at the keys among its arguments (`dispatchCommand_unnamed`).
-/

namespace MiniRedis

section Count

variable (t : Int)

/-- An absent key is absent at every instant. -/
@[simp] theorem liveAt_none : liveAt t none = none := rfl

/-- Deleting `key` in the map removes it and changes no other key. -/
theorem liveAt_update_none (M : AbsMap) (key k : Bytes) :
    liveAt t (Function.update M key none k) = if k = key then none else liveAt t (M k) := by
  by_cases hk : k = key
  · subst hk; simp
  · simp [hk]

/-- The present keys among `S` once `key` is deleted. -/
theorem filter_live_update_none (M : AbsMap) (key : Bytes) (S : Finset Bytes) :
    S.filter (fun k => (liveAt t (Function.update M key none k)).isSome) =
      (S.filter fun k => (liveAt t (M k)).isSome).erase key := by
  ext k
  by_cases hk : k = key <;> simp [liveAt_update_none, hk]

/-- One more key in the count of distinct present keys: it adds one exactly when it is present
and was not counted before. -/
theorem card_filter_insert (p : Bytes → Bool) (key : Bytes) (S : Finset Bytes) :
    (((insert key S).filter fun k => p k).card : Int) =
      (if p key then 1 else 0) + ((S.filter fun k => p k).erase key).card := by
  rw [Finset.filter_insert, Finset.card_erase_eq_ite]
  by_cases hp : p key
  · have hpos : key ∈ S.filter (fun k => p k) → 0 < (S.filter fun k => p k).card :=
      fun hm => Finset.card_pos.mpr ⟨key, hm⟩
    simp only [hp, if_true, Finset.card_insert_eq_ite]
    split_ifs with hm
    · push_cast [Nat.cast_sub (hpos hm)]; omega
    · push_cast; omega
  · have hm : key ∉ S.filter (fun k => p k) := by simp [hp]
    simp [hp, hm]

/-- A step of the `int64_t` count does not wrap while the count stays below the bound. -/
theorem int64_count_step {count : Int} (b : Bool) (h0 : 0 ≤ count) (hfit : count + 1 ≤ int64Max) :
    (if b then int64 (count + 1) else count) = count + if b then 1 else 0 := by
  cases b
  · exact (add_zero count).symm
  · exact int64_of_mem (by unfold int64Min; omega) hfit

/-- `DEL`'s loop on the abstract keyspace, while the count stays within `int64_t`: every key it
names is absent afterwards, every other key keeps its entry, and the count grows by the number of
distinct named keys present before. -/
theorem absCountKeys_absDelete : ∀ (keys : List Bytes) (M : AbsMap) (count : Int),
    0 ≤ count → count + keys.length ≤ int64Max →
      absCountKeys (absDelete t) M keys count =
        (fun k => if k ∈ keys then none else M k,
          count + ((keys.toFinset.filter fun k => (liveAt t (M k)).isSome).card : Int))
  | [], M, count, _, _ => by simp [absCountKeys]
  | key :: keys, M, count, h0, hlen => by
    rw [List.length_cons, Nat.cast_succ] at hlen
    rw [absCountKeys, int64_count_step _ h0 (by omega),
      absCountKeys_absDelete keys _ _ (by split_ifs <;> omega) (by split_ifs <;> omega)]
    refine Prod.ext (funext fun k => ?_) ?_
    · by_cases hk : k = key
      · simp [hk, absDelete]
      · simp [hk, absDelete, Function.update_noteq]
    · simp only [absDelete, List.toFinset_cons]
      rw [filter_live_update_none, card_filter_insert]
      ring

/-- `EXISTS`'s loop on the abstract keyspace, while the count stays within `int64_t`: the map is
unchanged and the count grows by the number of named keys present, repeats included. -/
theorem absCountKeys_absContains : ∀ (keys : List Bytes) (M : AbsMap) (count : Int),
    0 ≤ count → count + keys.length ≤ int64Max →
      absCountKeys (absContains t) M keys count =
        (M, count + (keys.countP fun k => (liveAt t (M k)).isSome))
  | [], M, count, _, _ => by simp [absCountKeys]
  | key :: keys, M, count, h0, hlen => by
    rw [List.length_cons, Nat.cast_succ] at hlen
    rw [absCountKeys, int64_count_step _ h0 (by omega),
      absCountKeys_absContains keys _ _ (by split_ifs <;> omega) (by split_ifs <;> omega),
      List.countP_cons]
    simp only [absContains, Prod.mk.injEq, true_and]
    split_ifs <;> push_cast <;> ring

/-- `EXISTS`'s loop leaves the abstract keyspace as it was, whatever the count. -/
theorem absCountKeys_absContains_fst : ∀ (keys : List Bytes) (M : AbsMap) (count : Int),
    (absCountKeys (absContains t) M keys count).1 = M
  | [], _, _ => rfl
  | _ :: keys, M, _ => absCountKeys_absContains_fst keys M _

end Count

/-- A handler whose abstract command keeps the keyspace leaves a table refining the same map. -/
theorem HandlerRefines.keeps {handler : Hashtable → List Bytes → (Nat → Int) → Hashtable × Bytes}
    {f : Int → AbsMap → List Bytes → AbsMap × Bytes} (href : HandlerRefines handler (.ofFun f))
    (hf : ∀ t M args, (f t M args).1 = M) {t : Int} {store : Hashtable} {M : AbsMap}
    (h : Refines t store M) (args : List Bytes) : Refines t (handler store args fun _ => t).1 M := by
  obtain ⟨M', hspec, hr⟩ := href t store M args h
  have hM : M' = M := by rw [← hf t M args, hspec]
  exact hM ▸ hr

/-- The deadline `EXPIRE` and `SET EX` compute is exact when the clock is not negative and the
sum fits `int64_t`. -/
theorem expireAtFrom_exact {t seconds : Int} (h0 : 0 ≤ t) (hpos : 0 < seconds)
    (hfit : t + seconds * 1000 ≤ int64Max) : expireAtFrom t seconds = t + seconds * 1000 := by
  rw [expireAtFrom, @int64_of_mem (seconds * 1000) (by unfold int64Min; omega) (by omega),
    int64_of_mem (by unfold int64Min; omega) hfit]

/-- One key stored in the empty table at `0`. -/
theorem htSet_htCreate_refines (key value : Bytes) :
    Refines 0 (htSet htCreate key value 0).1
      (Function.update (fun _ => none) key (some (value, none))) :=
  (MapOp.exec_refines (htCreate_refines 0) (.set key value)).2

section Instant

variable {t : Int} {store : Hashtable} {M : AbsMap} (h : Refines t store M)
include h

/-- `DEL` at one instant replies the number of distinct keys it names that are present, each
counted once however often it is named, and leaves every key it names absent and every other
key as it was, as long as the count fits `int64_t`. -/
theorem cmdDel_count {args : List Bytes} (hlen : (args.length : Int) ≤ int64Max) :
    (cmdDel store args fun _ => t).2 =
        respWriteInteger ((args.tail.toFinset.filter fun k => (liveAt t (M k)).isSome).card) ∧
      Refines t (cmdDel store args fun _ => t).1 fun k => if k ∈ args.tail then none else M k := by
  obtain ⟨M', hspec, hr⟩ := cmdDel_refines t store M args h
  have htail : (0 : Int) + args.tail.length ≤ int64Max := by
    rw [List.length_tail]; omega
  rw [AbsHandler.ofFun, absDel, absCountKeys_absDelete t _ _ _ le_rfl htail, zero_add,
    Prod.mk.injEq] at hspec
  obtain ⟨rfl, hreply⟩ := hspec
  exact ⟨hreply.symm, hr⟩

omit h in
/-- `DEL k k` on a table holding `k`. -/
theorem cmdDel_count_repeat :
    Refines 0 (htSet htCreate (ascii "k") (ascii "v") 0).1
        (Function.update (fun _ => none) (ascii "k") (some (ascii "v", none))) ∧
      ([ascii "DEL", ascii "k", ascii "k"].length : Int) ≤ int64Max ∧
      (cmdDel (htSet htCreate (ascii "k") (ascii "v") 0).1 [ascii "DEL", ascii "k", ascii "k"]
          fun _ => 0).2 =
        respWriteInteger (([ascii "DEL", ascii "k", ascii "k"].tail.toFinset.filter fun k =>
          (liveAt 0 (Function.update (fun _ => none) (ascii "k") (some (ascii "v", none)) k)).isSome).card) ∧
      Refines 0 (cmdDel (htSet htCreate (ascii "k") (ascii "v") 0).1
          [ascii "DEL", ascii "k", ascii "k"] fun _ => 0).1
        fun k => if k ∈ [ascii "DEL", ascii "k", ascii "k"].tail then none
          else Function.update (fun _ => none) (ascii "k") (some (ascii "v", none)) k :=
  ⟨htSet_htCreate_refines _ _, by decide,
    cmdDel_count (htSet_htCreate_refines (ascii "k") (ascii "v")) (by decide)⟩

/-- `EXISTS` at one instant replies the number of its arguments that are present, repeats
included, and leaves the keyspace as it was, as long as the count fits `int64_t`. -/
theorem cmdExists_count {args : List Bytes} (hlen : (args.length : Int) ≤ int64Max) :
    (cmdExists store args fun _ => t).2 =
        respWriteInteger (args.tail.countP fun k => (liveAt t (M k)).isSome) ∧
      Refines t (cmdExists store args fun _ => t).1 M := by
  obtain ⟨M', hspec, hr⟩ := cmdExists_refines t store M args h
  have htail : (0 : Int) + args.tail.length ≤ int64Max := by
    rw [List.length_tail]; omega
  rw [AbsHandler.ofFun, absExists, absCountKeys_absContains t _ _ _ le_rfl htail, zero_add,
    Prod.mk.injEq] at hspec
  obtain ⟨rfl, hreply⟩ := hspec
  exact ⟨hreply.symm, hr⟩

omit h in
/-- `EXISTS k k` on a table holding `k`. -/
theorem cmdExists_count_repeat :
    Refines 0 (htSet htCreate (ascii "k") (ascii "v") 0).1
        (Function.update (fun _ => none) (ascii "k") (some (ascii "v", none))) ∧
      ([ascii "EXISTS", ascii "k", ascii "k"].length : Int) ≤ int64Max ∧
      (cmdExists (htSet htCreate (ascii "k") (ascii "v") 0).1 [ascii "EXISTS", ascii "k", ascii "k"]
          fun _ => 0).2 =
        respWriteInteger ([ascii "EXISTS", ascii "k", ascii "k"].tail.countP fun k =>
          (liveAt 0 (Function.update (fun _ => none) (ascii "k") (some (ascii "v", none)) k)).isSome) ∧
      Refines 0 (cmdExists (htSet htCreate (ascii "k") (ascii "v") 0).1
          [ascii "EXISTS", ascii "k", ascii "k"] fun _ => 0).1
        (Function.update (fun _ => none) (ascii "k") (some (ascii "v", none))) :=
  ⟨htSet_htCreate_refines _ _, by decide,
    cmdExists_count (htSet_htCreate_refines (ascii "k") (ascii "v")) (by decide)⟩

/-- `EXPIRE k s` at `t` on a present key, then `TTL k` at any later `t'`: the reply counts down
the seconds left to the deadline `t + s * 1000`, rounded up, and is `-2` from the deadline on. -/
theorem cmdTtl_cmdExpire {key text : Bytes} {seconds t' : Int} (hlive : (liveAt t (M key)).isSome)
    (hs : parseInt64 text = some seconds) (hpos : 0 < seconds) (h0 : 0 ≤ t) (htt' : t ≤ t')
    (hfit : t + seconds * 1000 + 999 ≤ int64Max) :
    (cmdExpire store [ascii "EXPIRE", key, text] fun _ => t).2 = respWriteInteger 1 ∧
      (cmdTtl (cmdExpire store [ascii "EXPIRE", key, text] fun _ => t).1 [ascii "TTL", key]
          fun _ => t').2 =
        respWriteInteger (if t' < t + seconds * 1000 then (t + seconds * 1000 - t' + 999) / 1000
          else -2) := by
  obtain ⟨⟨v, d⟩, hk⟩ := Option.isSome_iff_exists.mp hlive
  obtain ⟨M₁, hspec₁, hr₁⟩ := cmdExpire_refines t store M [ascii "EXPIRE", key, text] h
  simp only [AbsHandler.ofFun, absExpire, arg, List.getD_cons_succ, List.getD_cons_zero, hs, hk,
    expireAtFrom_exact h0 hpos (by omega : t + seconds * 1000 ≤ int64Max), Prod.mk.injEq] at hspec₁
  obtain ⟨rfl, hreply₁⟩ := hspec₁
  refine ⟨hreply₁.symm, ?_⟩
  obtain ⟨M₂, hspec₂, -⟩ := cmdTtl_refines t' _ _ [ascii "TTL", key] (hr₁.mono htt')
  rw [AbsHandler.ofFun] at hspec₂
  rw [← congrArg Prod.snd hspec₂]
  have hne : t + seconds * 1000 ≠ -1 := by omega
  simp only [absTtl, arg, List.getD_cons_succ, List.getD_cons_zero, Function.update_same,
    decodeExpire, hne, if_false]
  by_cases hlt : t' < t + seconds * 1000
  · have hrem : int64 (t + seconds * 1000 - t') = t + seconds * 1000 - t' :=
      int64_of_mem (by unfold int64Min; omega) (by omega)
    have hround : int64 (t + seconds * 1000 - t' + 999) = t + seconds * 1000 - t' + 999 :=
      int64_of_mem (by unfold int64Min; omega) (by omega)
    have hdiv := Int.tdiv_eq_ediv (by omega : 0 ≤ t + seconds * 1000 - t' + 999)
      (by norm_num : (0 : Int) ≤ 1000)
    simp [liveAt, Option.filter, hlt, not_le.mpr hlt, hrem, hround, hdiv]
  · simp [liveAt, Option.filter, hlt]

omit h in
/-- `EXPIRE k 10` at `0` on a table holding `k`, then `TTL k` at `2500`. -/
theorem cmdTtl_cmdExpire_countdown :
    Refines 0 (htSet htCreate (ascii "k") (ascii "v") 0).1
        (Function.update (fun _ => none) (ascii "k") (some (ascii "v", none))) ∧
      (cmdExpire (htSet htCreate (ascii "k") (ascii "v") 0).1 [ascii "EXPIRE", ascii "k", ascii "10"]
          fun _ => 0).2 = respWriteInteger 1 ∧
      (cmdTtl (cmdExpire (htSet htCreate (ascii "k") (ascii "v") 0).1
          [ascii "EXPIRE", ascii "k", ascii "10"] fun _ => 0).1 [ascii "TTL", ascii "k"]
          fun _ => 2500).2 =
        respWriteInteger (if (2500 : Int) < 0 + 10 * 1000 then (0 + 10 * 1000 - 2500 + 999) / 1000
          else -2) :=
  have hr := htSet_htCreate_refines (ascii "k") (ascii "v")
  ⟨hr, cmdTtl_cmdExpire hr (by decide) (by decide) (by decide) le_rfl (by decide)
    (by unfold int64Max; norm_num)⟩

/-- `SET k v`, then `GET k` at any later instant, replies `v`: the stored value is read back, and
any deadline the key had before is gone. -/
theorem cmdGet_cmdSet {key value : Bytes} {t' : Int} (htt' : t ≤ t') :
    (cmdGet (cmdSet store [ascii "SET", key, value] fun _ => t).1 [ascii "GET", key]
      fun _ => t').2 = respWriteBulkString value := by
  obtain ⟨M₁, hspec₁, hr₁⟩ := cmdSet_refines t store M [ascii "SET", key, value] h
  obtain ⟨M₂, hspec₂, -⟩ := cmdGet_refines t' _ _ [ascii "GET", key] (hr₁.mono htt')
  rw [AbsHandler.ofFun] at hspec₁ hspec₂
  obtain rfl : (absSet t M [ascii "SET", key, value]).1 = M₁ := congrArg Prod.fst hspec₁
  rw [← congrArg Prod.snd hspec₂]
  simp [absGet, absSet, arg, liveAt, Option.filter]

omit h in
/-- `SET k v` on a table where `k` has a deadline at `1`, then `GET k` at `5`. -/
theorem cmdGet_cmdSet_after_deadline :
    Refines 0 (htSetExpire (htSet htCreate (ascii "k") (ascii "old") 0).1 (ascii "k") 1 0)
        (Function.update (fun _ => none) (ascii "k") (some (ascii "old", some 1))) ∧
      (0 : Int) ≤ 5 ∧
      (cmdGet (cmdSet (htSetExpire (htSet htCreate (ascii "k") (ascii "old") 0).1 (ascii "k") 1 0)
          [ascii "SET", ascii "k", ascii "v"] fun _ => 0).1 [ascii "GET", ascii "k"]
          fun _ => 5).2 = respWriteBulkString (ascii "v") :=
  have hr : Refines 0 (htSetExpire (htSet htCreate (ascii "k") (ascii "old") 0).1 (ascii "k") 1 0)
      (Function.update (fun _ => none) (ascii "k") (some (ascii "old", some 1))) := by
    have h₁ := (htSet_htCreate_refines (ascii "k") (ascii "old")).htSetExpire_live
      (show liveAt 0 (Function.update (fun _ => none) (ascii "k") (some (ascii "old", none))
        (ascii "k")) = some (ascii "old", none) by simp [liveAt, Option.filter]) 1
    rwa [Function.update_idem] at h₁
  ⟨hr, by decide, cmdGet_cmdSet hr (by decide)⟩

/-- The commands that only read, `PING`, `ECHO`, `GET`, `EXISTS`, `KEYS` and `TYPE`, leave a table
refining the same keyspace, whatever their arguments, although their probes and scans turn
expired entries into tombstones. -/
theorem readOnly_refines (args : List Bytes) :
    Refines t (cmdPing store args fun _ => t).1 M ∧ Refines t (cmdEcho store args fun _ => t).1 M ∧
      Refines t (cmdGet store args fun _ => t).1 M ∧
      Refines t (cmdExists store args fun _ => t).1 M ∧
      Refines t (cmdKeys store args fun _ => t).1 M ∧ Refines t (cmdType store args fun _ => t).1 M :=
  ⟨cmdPing_refines.keeps (fun _ _ _ => rfl) h args, cmdEcho_refines.keeps (fun _ _ _ => rfl) h args,
    cmdGet_refines.keeps (fun _ _ _ => rfl) h args,
    cmdExists_refines.keeps (fun t M args => absCountKeys_absContains_fst t args.tail M 0) h args,
    have ⟨_, ⟨hM, _⟩, hr⟩ := cmdKeys_refines t store M args h
    hM ▸ hr,
    cmdType_refines.keeps (fun _ _ _ => rfl) h args⟩

omit h in
/-- `GET k` and the other reading commands on a table holding `k`. -/
theorem readOnly_refines_get :
    Refines 0 (htSet htCreate (ascii "k") (ascii "v") 0).1
        (Function.update (fun _ => none) (ascii "k") (some (ascii "v", none))) ∧
      Refines 0 (cmdPing (htSet htCreate (ascii "k") (ascii "v") 0).1 [ascii "GET", ascii "k"]
        fun _ => 0).1 (Function.update (fun _ => none) (ascii "k") (some (ascii "v", none))) ∧
      Refines 0 (cmdEcho (htSet htCreate (ascii "k") (ascii "v") 0).1 [ascii "GET", ascii "k"]
        fun _ => 0).1 (Function.update (fun _ => none) (ascii "k") (some (ascii "v", none))) ∧
      Refines 0 (cmdGet (htSet htCreate (ascii "k") (ascii "v") 0).1 [ascii "GET", ascii "k"]
        fun _ => 0).1 (Function.update (fun _ => none) (ascii "k") (some (ascii "v", none))) ∧
      Refines 0 (cmdExists (htSet htCreate (ascii "k") (ascii "v") 0).1 [ascii "GET", ascii "k"]
        fun _ => 0).1 (Function.update (fun _ => none) (ascii "k") (some (ascii "v", none))) ∧
      Refines 0 (cmdKeys (htSet htCreate (ascii "k") (ascii "v") 0).1 [ascii "GET", ascii "k"]
        fun _ => 0).1 (Function.update (fun _ => none) (ascii "k") (some (ascii "v", none))) ∧
      Refines 0 (cmdType (htSet htCreate (ascii "k") (ascii "v") 0).1 [ascii "GET", ascii "k"]
        fun _ => 0).1 (Function.update (fun _ => none) (ascii "k") (some (ascii "v", none))) :=
  ⟨htSet_htCreate_refines _ _,
    readOnly_refines (htSet_htCreate_refines (ascii "k") (ascii "v")) [ascii "GET", ascii "k"]⟩

end Instant

/-! ## Every request -/

/-- What `List.lookup` finds is in the list under the name looked up. -/
theorem lookup_mem {β : Type} {name : Bytes} {b : β} :
    ∀ {l : List (Bytes × β)}, l.lookup name = some b → (name, b) ∈ l
  | [], h => nomatch h
  | (k, b') :: l, h => by
    simp only [List.lookup] at h
    split at h
    · next heq => cases h; rw [eq_of_beq heq]; exact List.mem_cons_self _ _
    · exact List.mem_cons_of_mem _ (lookup_mem h)

/-- An integer reply is never an error reply. -/
theorem respWriteInteger_ne_error (i : Int) (msg : Bytes) : respWriteInteger i ≠ respWriteError msg :=
  fun h => by simp [respWriteInteger, respWriteError] at h

/-- A simple-string reply is never an error reply. -/
theorem respWriteSimpleString_ne_error (s msg : Bytes) :
    respWriteSimpleString s ≠ respWriteError msg :=
  fun h => by simp [respWriteSimpleString, respWriteError] at h

/-- What an abstract command does to the map when it replies an error: `SET`, which has already
stored the value when it rejects its options, deletes its key; every other command leaves the map
as it was. -/
theorem absCommandTable_error : ∀ p ∈ absCommandTable, ∀ t M args msg M',
    p.2 t M args (respWriteError msg) M' →
      M' = if p.1 = ascii "SET" then Function.update M (arg args 1) none else M := by
  have keeps : ∀ {f : Int → AbsMap → List Bytes → AbsMap × Bytes}, (∀ t M args, (f t M args).1 = M) →
      ∀ t M args msg M', AbsHandler.ofFun f t M args (respWriteError msg) M' → M' = M :=
    fun hf t M args _ _ h => (congrArg Prod.fst h).symm.trans (hf t M args)
  intro p hp t M args msg M' h
  simp only [absCommandTable, List.mem_cons, List.mem_singleton, List.not_mem_nil, or_false] at hp
  rcases hp with rfl | rfl | rfl | rfl | rfl | rfl | rfl | rfl | rfl | rfl | rfl | rfl
  · rw [if_neg (by decide)]; exact keeps (fun _ _ _ => rfl) _ _ _ _ _ h
  · rw [if_neg (by decide)]; exact keeps (fun _ _ _ => rfl) _ _ _ _ _ h
  · -- `SET`: an error deletes the key
    rw [if_pos rfl]
    simp only [AbsHandler.ofFun, absSet] at h
    split_ifs at h
    · split at h <;> simp only [Prod.mk.injEq] at h
      · exact h.1.symm
      · exact (respWriteSimpleString_ne_error _ _ h.2).elim
    · simp only [Prod.mk.injEq] at h; exact h.1.symm
    · simp only [Prod.mk.injEq] at h; exact (respWriteSimpleString_ne_error _ _ h.2).elim
  · rw [if_neg (by decide)]; exact keeps (fun _ _ _ => rfl) _ _ _ _ _ h
  · -- `DEL` replies an integer
    exact (respWriteInteger_ne_error _ _ (congrArg Prod.snd h)).elim
  · rw [if_neg (by decide)]
    exact keeps (fun t M args => absCountKeys_absContains_fst t args.tail M 0) _ _ _ _ _ h
  · -- `EXPIRE`
    rw [if_neg (by decide)]
    simp only [AbsHandler.ofFun, absExpire] at h
    split at h
    · exact (congrArg Prod.fst h).symm
    · split at h <;> exact (respWriteInteger_ne_error _ _ (congrArg Prod.snd h)).elim
  · -- `TTL` replies an integer
    simp only [AbsHandler.ofFun, absTtl] at h
    split at h <;> (try split_ifs at h) <;>
      exact (respWriteInteger_ne_error _ _ (congrArg Prod.snd h)).elim
  · rw [if_neg (by decide)]; exact h.1
  · rw [if_neg (by decide)]; exact keeps (fun _ _ _ => rfl) _ _ _ _ _ h
  all_goals
    -- `INCR` and `DECR`
    rw [if_neg (by decide)]
    simp only [AbsHandler.ofFun, absIncrBy, absIncrStore] at h
    split at h
    · split_ifs at h
      · exact (congrArg Prod.fst h).symm
      · exact (respWriteInteger_ne_error _ _ (congrArg Prod.snd h)).elim
    · split at h
      · exact (congrArg Prod.fst h).symm
      · split_ifs at h
        · exact (congrArg Prod.fst h).symm
        · exact (respWriteInteger_ne_error _ _ (congrArg Prod.snd h)).elim

/-- A request answered with an error leaves a table refining the keyspace as it was, with one
exception: a `SET` that rejects its options has already stored the value, and deletes the key. -/
theorem dispatchCommand_error {t : Int} {store : Hashtable} {M : AbsMap} (h : Refines t store M)
    {cmd : RespValue} {msg : Bytes} (herr : (dispatchCommand store cmd fun _ => t).2 = respWriteError msg) :
    (∀ entry args, routeCommand cmd = .ok (entry, args) → entry.name = ascii "SET" →
        Refines t (dispatchCommand store cmd fun _ => t).1 (Function.update M (arg args 1) none)) ∧
      ((∀ entry args, routeCommand cmd = .ok (entry, args) → entry.name ≠ ascii "SET") →
        Refines t (dispatchCommand store cmd fun _ => t).1 M) := by
  obtain ⟨M', hspec, hr⟩ := dispatchCommand_refines h cmd
  rw [herr] at hspec
  unfold AbsDispatch at hspec
  split at hspec
  · next entry args hroute =>
    split at hspec
    · next spec hlookup =>
      have hM := absCommandTable_error _ (lookup_mem hlookup) t M args msg M' hspec
      refine ⟨fun e a he hset => ?_, fun hne => ?_⟩
      · rw [hroute] at he
        cases he
        rwa [hM, if_pos hset] at hr
      · rwa [hM, if_neg (hne entry args hroute)] at hr
    · exact hspec.elim
  · next msg' hroute =>
    refine ⟨fun e a he => ?_, fun _ => hspec.2 ▸ hr⟩
    rw [hroute] at he
    cases he

/-- `SET k v NX 1` on a table holding `k`: the rejected option deletes the key. -/
theorem dispatchCommand_error_set :
    Refines 0 (htSet htCreate (ascii "k") (ascii "old") 0).1
        (Function.update (fun _ => none) (ascii "k") (some (ascii "old", none))) ∧
      (dispatchCommand (htSet htCreate (ascii "k") (ascii "old") 0).1
        (.array [.bulkString (ascii "SET"), .bulkString (ascii "k"), .bulkString (ascii "v"),
          .bulkString (ascii "NX"), .bulkString (ascii "1")]) fun _ => 0).2 =
        respWriteError (ascii "ERR syntax error") ∧
      Refines 0 (dispatchCommand (htSet htCreate (ascii "k") (ascii "old") 0).1
          (.array [.bulkString (ascii "SET"), .bulkString (ascii "k"), .bulkString (ascii "v"),
            .bulkString (ascii "NX"), .bulkString (ascii "1")]) fun _ => 0).1
        (Function.update (Function.update (fun _ => none) (ascii "k") (some (ascii "old", none)))
          (ascii "k") none) :=
  have herr : (dispatchCommand (htSet htCreate (ascii "k") (ascii "old") 0).1
      (.array [.bulkString (ascii "SET"), .bulkString (ascii "k"), .bulkString (ascii "v"),
        .bulkString (ascii "NX"), .bulkString (ascii "1")]) fun _ => 0).2 =
      respWriteError (ascii "ERR syntax error") := rfl
  ⟨htSet_htCreate_refines _ _, herr,
    (dispatchCommand_error (htSet_htCreate_refines _ _) herr).1 _ _ rfl rfl⟩

/-! ## A request changes only the keys it names -/

/-- `dispatch_command` runs a row only with at least the row's fewest arguments. -/
theorem routeCommand_minArgs {cmd : RespValue} {entry : CommandEntry} {args : List Bytes}
    (h : routeCommand cmd = .ok (entry, args)) : entry.minArgs ≤ args.length := by
  unfold routeCommand at h
  split at h
  · split_ifs at h
    split at h
    · cases h
    · dsimp only at h
      split at h
      · split_ifs at h with hargs
        cases h
        exact not_lt.mp (not_or.mp hargs).1
      · cases h
  · cases h

/-- `PING` is the one row that runs with a single argument. -/
theorem commandTable_minArgs_le_one :
    ∀ entry ∈ commandTable, entry.minArgs ≤ 1 → entry.name = ascii "PING" := by
  intro entry hentry hmin
  simp only [commandTable, List.mem_cons, List.mem_singleton, List.not_mem_nil, or_false] at hentry
  rcases hentry with rfl | rfl | rfl | rfl | rfl | rfl | rfl | rfl | rfl | rfl | rfl | rfl
  · rfl
  all_goals exact absurd hmin (by decide)

/-- `DEL`'s loop leaves every key it does not name as it was, whatever the count. -/
theorem absCountKeys_absDelete_unnamed (t : Int) {k : Bytes} :
    ∀ {keys : List Bytes} (M : AbsMap) (count : Int), k ∉ keys →
      (absCountKeys (absDelete t) M keys count).1 k = M k
  | [], _, _, _ => rfl
  | _ :: _, M, _, hk => by
    rw [List.mem_cons, not_or] at hk
    rw [absCountKeys, absCountKeys_absDelete_unnamed t _ _ hk.2]
    exact Function.update_noteq hk.1 _ _

/-- Each abstract command changes the map at most at the keys among its arguments and at
`arg args 1`. -/
theorem absCommandTable_unnamed : ∀ p ∈ absCommandTable, ∀ t M args r M',
    p.2 t M args r M' → ∀ k, k ∉ args.tail → k ≠ arg args 1 → M' k = M k := by
  have ofFun : ∀ {f : Int → AbsMap → List Bytes → AbsMap × Bytes} {t M args r M' k},
      (f t M args).1 k = M k → AbsHandler.ofFun f t M args r M' → M' k = M k :=
    fun hf h => (congrArg (fun x : AbsMap × Bytes => x.1 _) h).symm.trans hf
  intro p hp t M args r M' h k hk hk1
  simp only [absCommandTable, List.mem_cons, List.mem_singleton, List.not_mem_nil, or_false] at hp
  rcases hp with rfl | rfl | rfl | rfl | rfl | rfl | rfl | rfl | rfl | rfl | rfl | rfl
  · exact ofFun rfl h
  · exact ofFun rfl h
  · -- `SET` writes its key
    refine ofFun ?_ h
    unfold absSet
    split_ifs <;> try split
    all_goals exact Function.update_noteq hk1 _ _
  · exact ofFun rfl h
  · exact ofFun (absCountKeys_absDelete_unnamed t M 0 hk) h
  · exact ofFun (congrFun (absCountKeys_absContains_fst t args.tail M 0) k) h
  · -- `EXPIRE` sets its key's deadline
    refine ofFun ?_ h
    unfold absExpire
    dsimp only
    split
    · rfl
    · split
      · rfl
      · exact Function.update_noteq hk1 _ _
  · -- `TTL` deletes its key once the deadline is reached
    refine ofFun ?_ h
    unfold absTtl
    dsimp only
    split
    · rfl
    · rfl
    · split_ifs
      · exact Function.update_noteq hk1 _ _
      · rfl
  · exact h.1 ▸ rfl
  · exact ofFun rfl h
  all_goals
    -- `INCR` and `DECR` write their key
    refine ofFun ?_ h
    unfold absIncrBy absIncrStore
    dsimp only
    split
    · split_ifs
      · rfl
      · exact Function.update_noteq hk1 _ _
    · split
      · rfl
      · split_ifs
        · rfl
        · exact Function.update_noteq hk1 _ _

/-- The abstract dispatch changes the map only at the keys among the request's arguments. -/
theorem AbsDispatch.unnamed {t : Int} {M : AbsMap} {cmd : RespValue} {reply : Bytes}
    {M' : AbsMap} (h : AbsDispatch t M cmd reply M') (k : Bytes)
    (hk : ∀ entry args, routeCommand cmd = .ok (entry, args) → k ∉ args.tail) : M' k = M k := by
  unfold AbsDispatch at h
  split at h
  · next entry args hroute =>
    have hk := hk entry args hroute
    split at h
    · next spec hlookup =>
      by_cases h2 : 2 ≤ args.length
      · have hmem : arg args 1 ∈ args.tail := by
          obtain _ | ⟨_, _ | ⟨a, _⟩⟩ := args
          · simp at h2
          · simp at h2
          · exact List.mem_cons_self a _
        exact absCommandTable_unnamed _ (lookup_mem hlookup) t M args _ M' h k hk
          fun heq => hk (heq ▸ hmem)
      · -- only `PING` runs with one argument
        have hping := commandTable_minArgs_le_one entry (routeCommand_mem hroute)
          (by have := routeCommand_minArgs hroute; omega)
        rw [hping] at hlookup
        obtain rfl : spec = .ofFun absPing := Option.some.inj (hlookup.symm.trans rfl)
        exact congrFun (congrArg Prod.fst h).symm k
    · exact h.elim
  · exact congrFun h.2 k

/-- A request changes the keyspace only at the keys among its arguments: every key it does not
name keeps its entry, value and deadline alike. -/
theorem dispatchCommand_unnamed {t : Int} {store : Hashtable} {M : AbsMap}
    (h : Refines t store M) (cmd : RespValue) :
    ∃ M', Refines t (dispatchCommand store cmd fun _ => t).1 M' ∧
      ∀ k, (∀ entry args, routeCommand cmd = .ok (entry, args) → k ∉ args.tail) → M' k = M k :=
  have ⟨M', hspec, hr⟩ := dispatchCommand_refines h cmd
  ⟨M', hr, hspec.unnamed⟩

/-! ## The table's layout is invisible -/

/-- Two replies a client cannot tell apart, but for the order of a `KEYS` array. -/
def ReplyEquiv (r₁ r₂ : Bytes) : Prop :=
  r₁ = r₂ ∨ ∃ L₁ L₂ : List Bytes, L₁.Perm L₂ ∧ r₁ = keysReply L₁ ∧ r₂ = keysReply L₂

/-- Each abstract command determines the map it leaves, and its reply but for the order of a
`KEYS` array. -/
theorem absCommandTable_determined : ∀ p ∈ absCommandTable, ∀ t M args r₁ M₁ r₂ M₂,
    p.2 t M args r₁ M₁ → p.2 t M args r₂ M₂ → M₁ = M₂ ∧ ReplyEquiv r₁ r₂ := by
  have hfun : ∀ {f : Int → AbsMap → List Bytes → AbsMap × Bytes} {t M args r₁ M₁ r₂ M₂},
      AbsHandler.ofFun f t M args r₁ M₁ → AbsHandler.ofFun f t M args r₂ M₂ →
        M₁ = M₂ ∧ ReplyEquiv r₁ r₂ := fun h₁ h₂ => by
    have h := h₁.symm.trans h₂
    simp only [Prod.mk.injEq] at h
    exact ⟨h.1, .inl h.2⟩
  intro p hp t M args r₁ M₁ r₂ M₂ h₁ h₂
  simp only [absCommandTable, List.mem_cons, List.mem_singleton, List.not_mem_nil, or_false] at hp
  rcases hp with rfl | rfl | rfl | rfl | rfl | rfl | rfl | rfl | rfl | rfl | rfl | rfl
  iterate 8 exact hfun h₁ h₂
  · -- `KEYS`: two arrays of the same keys, each once
    obtain ⟨rfl, L₁, hn₁, hm₁, rfl⟩ := h₁
    obtain ⟨rfl, L₂, hn₂, hm₂, rfl⟩ := h₂
    exact ⟨rfl, .inr ⟨L₁, L₂, (List.perm_ext_iff_of_nodup hn₁ hn₂).mpr fun k =>
      (hm₁ k).trans (hm₂ k).symm, rfl, rfl⟩⟩
  all_goals exact hfun h₁ h₂

/-- The abstract dispatch determines the map it leaves, and its reply but for the order of a
`KEYS` array. -/
theorem AbsDispatch.determined {t : Int} {M : AbsMap} {cmd : RespValue} {r₁ r₂ : Bytes}
    {M₁ M₂ : AbsMap} (h₁ : AbsDispatch t M cmd r₁ M₁) (h₂ : AbsDispatch t M cmd r₂ M₂) :
    M₁ = M₂ ∧ ReplyEquiv r₁ r₂ := by
  unfold AbsDispatch at h₁ h₂
  rcases hr : routeCommand cmd with msg | ⟨entry, args⟩ <;> rw [hr] at h₁ h₂
  · exact ⟨h₁.2.trans h₂.2.symm, .inl (h₁.1.trans h₂.1.symm)⟩
  · dsimp only at h₁ h₂
    cases hl : absCommandTable.lookup entry.name with
    | none => rw [hl] at h₁; exact h₁.elim
    | some spec =>
      rw [hl] at h₁ h₂
      exact absCommandTable_determined _ (lookup_mem hl) t M args r₁ M₁ r₂ M₂ h₁ h₂

/-- Two tables that refine the same keyspace at `t`, whatever their capacities, tombstones and
probe positions, give every request the same reply but for the order of a `KEYS` array, and
leave tables that again refine one same keyspace. -/
theorem dispatchCommand_layout {t : Int} {s₁ s₂ : Hashtable} {M : AbsMap} (h₁ : Refines t s₁ M)
    (h₂ : Refines t s₂ M) (cmd : RespValue) :
    ReplyEquiv (dispatchCommand s₁ cmd fun _ => t).2 (dispatchCommand s₂ cmd fun _ => t).2 ∧
      ∃ M', Refines t (dispatchCommand s₁ cmd fun _ => t).1 M' ∧
        Refines t (dispatchCommand s₂ cmd fun _ => t).1 M' := by
  obtain ⟨M₁, hd₁, hr₁⟩ := dispatchCommand_refines h₁ cmd
  obtain ⟨M₂, hd₂, hr₂⟩ := dispatchCommand_refines h₂ cmd
  obtain ⟨rfl, heq⟩ := hd₁.determined hd₂
  exact ⟨heq, M₁, hr₁, hr₂⟩

/-- `GET k` on a table holding `k`, and on one where `j` was stored and deleted before `k` was
stored, leaving a tombstone. -/
theorem dispatchCommand_layout_tombstone :
    Refines 0 (htSet htCreate (ascii "k") (ascii "v") 0).1
        (Function.update (fun _ => none) (ascii "k") (some (ascii "v", none))) ∧
      Refines 0 (htSet (htDelete (htSet htCreate (ascii "j") (ascii "w") 0).1 (ascii "j") 0).1
          (ascii "k") (ascii "v") 0).1
        (Function.update (fun _ => none) (ascii "k") (some (ascii "v", none))) ∧
      ReplyEquiv
        (dispatchCommand (htSet htCreate (ascii "k") (ascii "v") 0).1
          (.array [.bulkString (ascii "GET"), .bulkString (ascii "k")]) fun _ => 0).2
        (dispatchCommand (htSet (htDelete (htSet htCreate (ascii "j") (ascii "w") 0).1
            (ascii "j") 0).1 (ascii "k") (ascii "v") 0).1
          (.array [.bulkString (ascii "GET"), .bulkString (ascii "k")]) fun _ => 0).2 ∧
      ∃ M', Refines 0 (dispatchCommand (htSet htCreate (ascii "k") (ascii "v") 0).1
          (.array [.bulkString (ascii "GET"), .bulkString (ascii "k")]) fun _ => 0).1 M' ∧
        Refines 0 (dispatchCommand (htSet (htDelete (htSet htCreate (ascii "j") (ascii "w") 0).1
            (ascii "j") 0).1 (ascii "k") (ascii "v") 0).1
          (.array [.bulkString (ascii "GET"), .bulkString (ascii "k")]) fun _ => 0).1 M' :=
  have h₂ : Refines 0 (htSet (htDelete (htSet htCreate (ascii "j") (ascii "w") 0).1
      (ascii "j") 0).1 (ascii "k") (ascii "v") 0).1
      (Function.update (Function.update (Function.update (fun _ => none) (ascii "j")
        (some (ascii "w", none))) (ascii "j") none) (ascii "k") (some (ascii "v", none))) :=
    (MapOp.exec_refines (MapOp.exec_refines (htSet_htCreate_refines (ascii "j") (ascii "w"))
      (.delete (ascii "j"))).2 (.set (ascii "k") (ascii "v"))).2
  have hM : Function.update (Function.update (Function.update (fun _ => none) (ascii "j")
      (some (ascii "w", none))) (ascii "j") none) (ascii "k") (some (ascii "v", none)) =
      Function.update (fun _ => none) (ascii "k") (some (ascii "v", none)) := by
    rw [Function.update_idem, Function.update_eq_self_iff.mpr rfl]
  ⟨htSet_htCreate_refines _ _, hM ▸ h₂,
    dispatchCommand_layout (htSet_htCreate_refines _ _) (hM ▸ h₂) _⟩

end MiniRedis
