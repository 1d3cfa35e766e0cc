import MiniRedis.Command.Dispatch

/-!
# Every command keeps the table invariant

The handlers reach the store only through `ht_set`, `ht_get`, `ht_delete`, `ht_exists`,
`ht_set_expire`, `ht_get_expire` and the iterator, and each of these keeps `Hashtable.Inv`
whatever the clock reads. So does every handler, for any readings of the clock
(`commandTable_inv`), and so does `dispatch_command` (`dispatchCommand_inv`). This is the step
lemma of the store's invariant over runs of the server.
-/

namespace MiniRedis

section Ops

variable {ht : Hashtable} (hinv : ht.Inv) (key : Bytes) (now : Int)
include hinv

/-- `ht_get` keeps the invariant. -/
theorem htGet_inv : (htGet ht key now).1.Inv := by
  rw [htGet_spec hinv]; exact (probe_fst hinv key now).1

/-- `ht_exists` keeps the invariant. -/
theorem htExists_inv : (htExists ht key now).1.Inv := by
  rw [htExists_spec hinv]; exact (probe_fst hinv key now).1

/-- `ht_get_expire` keeps the invariant. -/
theorem htGetExpire_inv : (htGetExpire ht key now).1.Inv := by
  rw [htGetExpire_spec hinv]; exact (probe_fst hinv key now).1

/-- `ht_get`, as a pointer, keeps the invariant. -/
theorem htGetRef_inv : (htGetRef ht key now).1.Inv := by
  rw [htGetRef_fst]; exact (probe_fst hinv key now).1

end Ops

section Handlers

variable {store : Hashtable} (hinv : store.Inv) (args : List Bytes) (clk : Nat → Int)
include hinv

/-- `SET` keeps the invariant, whatever the arguments and the readings. -/
theorem cmdSet_inv : (cmdSet store args clk).1.Inv := by
  have hset := (htSet_spec hinv (arg args 1) (arg args 2) (clk 0)).1
  unfold cmdSet
  dsimp only
  generalize (htSet store _ _ _).1 = st at hset ⊢
  split_ifs
  · split
    · exact (htDelete_spec hset _ _).1
    · exact (htSetExpire_spec hset _ _ _).1
  · exact (htDelete_spec hset _ _).1
  · exact hset

/-- `GET` keeps the invariant. -/
theorem cmdGet_inv : (cmdGet store args clk).1.Inv := by
  have h := htGet_inv hinv (arg args 1) (clk 0)
  unfold cmdGet
  split <;> next _ _ heq => rw [heq] at h; exact h

/-- `EXPIRE` keeps the invariant. -/
theorem cmdExpire_inv : (cmdExpire store args clk).1.Inv := by
  have h := htExists_inv hinv (arg args 1) (clk 0)
  unfold cmdExpire
  split
  · exact hinv
  · split
    · next _ heq => rw [heq] at h; exact h
    · next _ heq => rw [heq] at h; exact (htSetExpire_spec h _ _ _).1

/-- `TTL` keeps the invariant. -/
theorem cmdTtl_inv : (cmdTtl store args clk).1.Inv := by
  have h := htExists_inv hinv (arg args 1) (clk 0)
  unfold cmdTtl
  dsimp only
  split
  · next _ heq => rw [heq] at h; exact h
  · next st heq =>
    rw [heq] at h
    have h' := htGetExpire_inv h (arg args 1) (clk 1)
    split_ifs
    · exact h'
    · exact (htDelete_spec h' _ _).1
    · exact h'

/-- `KEYS` keeps the invariant, whatever the readings of its scan. -/
theorem cmdKeys_inv : (cmdKeys store args clk).1.Inv := by
  have h : (htScanFromAt store 0 clk).1.Inv := htScanFromAt_inv hinv 0
  unfold cmdKeys
  split
  next _ _ heq => rw [heq] at h; exact h

/-- `TYPE` keeps the invariant. -/
theorem cmdType_inv : (cmdType store args clk).1.Inv := by
  have h := htExists_inv hinv (arg args 1) (clk 0)
  unfold cmdType
  split <;> next _ heq => rw [heq] at h; exact h

/-- The end of `INCR` and `DECR` keeps the invariant. -/
theorem incrStore_inv {delta limit : Int} {key : Bytes} {current expireAt : Int} :
    (incrStore delta limit store key current expireAt clk).1.Inv := by
  have hset := (htSet_spec hinv key (intDecimal (current + delta)) (clk 0)).1
  unfold incrStore
  dsimp only
  generalize (htSet store _ _ _).1 = st at hset ⊢
  split_ifs
  · exact hinv
  · exact (htSetExpire_spec hset _ _ _).1
  · exact hset

/-- `INCR` and `DECR` keep the invariant, also when the key's deadline passes between their two
readings. -/
theorem cmdIncrBy_inv {delta limit : Int} : (cmdIncrBy delta limit store args clk).1.Inv := by
  have h := htGetRef_inv hinv (arg args 1) (clk 0)
  unfold cmdIncrBy
  dsimp only
  split
  · next _ heq => rw [heq] at h; exact incrStore_inv h _
  · next _ _ heq =>
    rw [heq] at h
    have h' := htGetExpire_inv h (arg args 1) (clk 1)
    split
    · exact h'
    · exact incrStore_inv h' _

end Handlers

/-- The loop of `DEL` and `EXISTS` keeps the invariant when the operation it applies does. -/
theorem countKeys_inv {op : Hashtable → Bytes → Int → Hashtable × Bool}
    (hop : ∀ st key now, st.Inv → (op st key now).1.Inv) :
    ∀ {store : Hashtable} (keys : List Bytes) (clk : Nat → Int) (count : Int), store.Inv →
      (countKeys op store keys clk count).1.Inv
  | _, [], _, _, hinv => hinv
  | _, key :: keys, clk, _, hinv => countKeys_inv hop keys _ _ (hop _ key (clk 0) hinv)

/-- Every handler of the table keeps the invariant, whatever the arguments and clock readings. -/
theorem commandTable_inv : ∀ entry ∈ commandTable, ∀ store args clk,
    Hashtable.Inv store → (entry.handler store args clk).1.Inv := by
  have hdel : ∀ st key now, Hashtable.Inv st → (htDelete st key now).1.Inv :=
    fun _ _ _ h => (htDelete_spec h _ _).1
  have hex : ∀ st key now, Hashtable.Inv st → (htExists st key now).1.Inv :=
    fun _ _ _ h => htExists_inv h _ _
  intro entry hentry store args clk h
  simp only [commandTable, List.mem_cons, List.mem_singleton, List.not_mem_nil, or_false] at hentry
  rcases hentry with rfl | rfl | rfl | rfl | rfl | rfl | rfl | rfl | rfl | rfl | rfl | rfl
    <;> dsimp only
  · unfold cmdPing; split <;> exact h
  · exact h
  · exact cmdSet_inv h _ _
  · exact cmdGet_inv h _ _
  · have := countKeys_inv hdel args.tail clk 0 h
    unfold cmdDel; split; next heq => rw [heq] at this; exact this
  · have := countKeys_inv hex args.tail clk 0 h
    unfold cmdExists; split; next heq => rw [heq] at this; exact this
  · exact cmdExpire_inv h _ _
  · exact cmdTtl_inv h _ _
  · exact cmdKeys_inv h _ _
  · exact cmdType_inv h _ _
  · exact cmdIncrBy_inv h _ _
  · exact cmdIncrBy_inv h _ _

/-- `dispatch_command` keeps the invariant for every request and every clock reading. -/
theorem dispatchCommand_inv {store : Hashtable} (hinv : store.Inv) (cmd : RespValue)
    (clk : Nat → Int) : (dispatchCommand store cmd clk).1.Inv := by
  rcases dispatchCommand_cases store cmd clk with ⟨args, entry, -, hentry, -, -, -, heq⟩ | ⟨_, heq⟩
  · rw [heq]; exact commandTable_inv entry hentry store args clk hinv
  · rw [heq]; exact hinv

end MiniRedis
