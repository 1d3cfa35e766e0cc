import MiniRedis.Resp.Grammar
import MiniRedis.Resp.Write

/-!
# Writing then parsing

Every value the writers can emit is written as one frame of the grammar, so `resp_parse`
reads it back, with exactly the written byte count, whatever bytes follow. Simple strings and
errors must hold no NUL (the writers stop at it) and no CRLF (the parser would end the line
there); integers are `int64_t` values, `INT64_MIN` included; bulk payloads are arbitrary.
The written frame must fit the `int` that `resp_parse` returns.
-/

namespace MiniRedis

mutual
/-- The values the writers emit unchanged: no NUL or CRLF in a simple string or an error, an
`int64_t` integer, and arrays of such values. -/
def Serializable : RespValue → Prop
  | .simpleString str => 0 ∉ str ∧ ¬crlf <:+: str
  | .error msg => 0 ∉ msg ∧ ¬crlf <:+: msg
  | .integer val => int64Min ≤ val ∧ val ≤ int64Max
  | .bulkString _ => True
  | .nullBulkString => True
  | .array elements => SerializableAll elements

/-- Every value of the list is `Serializable`. -/
def SerializableAll : List RespValue → Prop
  | [] => True
  | v :: vs => Serializable v ∧ SerializableAll vs
end

/-- A C string with no NUL is written whole. -/
theorem cString_of_not_mem {s : Bytes} (h : 0 ∉ s) : cString s = s := by
  induction s with
  | nil => rfl
  | cons a t ih =>
    have ha : a ≠ 0 := fun ha => h (ha ▸ List.mem_cons_self a t)
    simp [cString, List.takeWhile_cons, ha] at ih ⊢
    exact ih fun ht => h (List.mem_cons_of_mem a ht)

/-- `digitsAux` writes the decimal digits of `n` in front of the accumulator, given a fuel
above `n`. -/
theorem digitsAux_digits (fuel n : Nat) (acc : Bytes) (h : n < fuel) :
    ∃ ds, digitsAux fuel n acc = ds ++ acc ∧ ds ≠ [] ∧ (∀ b ∈ ds, IsDigit b) ∧
      digitsValue ds = n := by
  induction fuel generalizing n acc with
  | zero => omega
  | succ fuel ih =>
    have hd : IsDigit (n % 10 + 48).toUInt8 := by
      unfold IsDigit
      rw [show ((n % 10 + 48).toUInt8).toNat = (n % 10 + 48) % 256 from rfl]
      omega
    have hval : ((n % 10 + 48).toUInt8).toNat - 48 = n % 10 := by
      rw [show ((n % 10 + 48).toUInt8).toNat = (n % 10 + 48) % 256 from rfl]
      omega
    simp only [digitsAux]
    split
    · refine ⟨[(n % 10 + 48).toUInt8], rfl, List.cons_ne_nil _ _, by simpa using hd, ?_⟩
      simp only [digitsValue, digitsFrom, List.foldl_cons, List.foldl_nil, hval]
      omega
    · obtain ⟨ds, hds, hne, hdig, hv⟩ := ih (n / 10) ((n % 10 + 48).toUInt8 :: acc) (by omega)
      refine ⟨ds ++ [(n % 10 + 48).toUInt8], by simp [hds], by simp, ?_, ?_⟩
      · intro b hb
        rcases List.mem_append.mp hb with hb | hb
        · exact hdig b hb
        · rw [List.mem_singleton.mp hb]; exact hd
      · simp only [digitsValue, digitsFrom, List.foldl_append, List.foldl_cons, List.foldl_nil,
          hval] at hv ⊢
        rw [hv]
        omega

/-- The decimal text of an `int64_t` is an integer field of its value. -/
theorem intField_intDecimal {i : Int} (lo : int64Min ≤ i) (hi : i ≤ int64Max) :
    IntField (intDecimal i) i := by
  refine ⟨lo, hi, ?_⟩
  unfold intDecimal natDecimal
  split
  · obtain ⟨ds, hds, hne, hdig, hv⟩ := digitsAux_digits (i.natAbs + 1) i.natAbs [] (by omega)
    rw [List.append_nil] at hds
    exact ⟨ds, hne, hdig, .inr ⟨by rw [hds], by omega⟩⟩
  · obtain ⟨ds, hds, hne, hdig, hv⟩ := digitsAux_digits (i.toNat + 1) i.toNat [] (by omega)
    rw [List.append_nil] at hds
    exact ⟨ds, hne, hdig, .inl ⟨hds, by omega⟩⟩

/-- The decimal text of a byte count is an integer field of its value. -/
theorem intField_natDecimal {n : Nat} (h : n ≤ int64Max) : IntField (natDecimal n) n := by
  have := intField_intDecimal (i := n) (by unfold int64Min; omega) h
  simpa [intDecimal] using this

mutual
/-- Each write of a serializable value, within `INT_MAX` bytes, is a frame of that value. -/
theorem respWriteValue_frame : ∀ {v : RespValue}, Serializable v →
    (respWriteValue v).length ≤ intMax → IsFrame (respWriteValue v) v
  | .simpleString str, ⟨h0, hc⟩, _ => by
    rw [respWriteValue, respWriteSimpleString, cString_of_not_mem h0]
    exact .simpleString str hc
  | .error msg, ⟨h0, hc⟩, _ => by
    rw [respWriteValue, respWriteError, cString_of_not_mem h0]
    exact .error msg hc
  | .integer val, ⟨lo, hi⟩, _ => .integer _ _ (intField_intDecimal lo hi)
  | .bulkString data, _, hlen => by
    refine .bulkString _ _ (intField_natDecimal ?_)
    simp only [respWriteValue, respWriteBulkString, List.length_append] at hlen
    unfold intMax at hlen; unfold int64Max; omega
  | .nullBulkString, _, _ =>
    .nullBulkString [45, 49] ⟨by decide, by decide, [49], by simp, by decide, .inr ⟨rfl, rfl⟩⟩
  | .array elements, h, hlen => by
    have hw := respWriteValues_frames h (by
      simp only [respWriteValue, List.length_append] at hlen; omega)
    refine .array _ _ _ (intField_intDecimal (by unfold int64Min; omega) ?_) hw
    have := hw.length_le
    simp only [respWriteValue, List.length_append] at hlen
    unfold intMax at hlen; unfold int64Max; omega

/-- The writes of serializable elements are the frames of the elements. -/
theorem respWriteValues_frames : ∀ {vs : List RespValue}, SerializableAll vs →
    (respWriteValues vs).length ≤ intMax → IsFrames (respWriteValues vs) vs
  | [], _, _ => .nil
  | v :: vs, ⟨hv, hvs⟩, hlen => by
    simp only [respWriteValues, List.length_append] at hlen
    exact .cons _ _ _ _ (respWriteValue_frame hv (by omega)) (respWriteValues_frames hvs (by omega))
end

/-- Parsing what the writers emit for a serializable value gives the value back, with the
written byte count, whatever bytes follow. -/
theorem respParse_respWriteValue (v : RespValue) (R : Bytes) (hv : Serializable v)
    (hlen : (respWriteValue v).length ≤ intMax) :
    respParse (respWriteValue v ++ R) = .parsed v (respWriteValue v).length :=
  respParse_frame (respWriteValue_frame hv hlen) hlen R

/-- `INT64_MIN` and a payload holding CRLF, in an array, are read back before trailing bytes. -/
theorem respParse_respWriteValue_int64Min :
    let v := RespValue.array [.integer int64Min, .bulkString [13, 10, 0]]
    Serializable v ∧ (respWriteValue v).length ≤ intMax ∧
      respParse (respWriteValue v ++ [42]) = .parsed v (respWriteValue v).length :=
  have hv : Serializable (.array [.integer int64Min, .bulkString [13, 10, 0]]) :=
    ⟨⟨le_rfl, by decide⟩, trivial, trivial⟩
  have hlen : (respWriteValue (.array [.integer int64Min, .bulkString [13, 10, 0]])).length ≤
      intMax := by decide
  ⟨hv, hlen, respParse_respWriteValue _ [42] hv hlen⟩

end MiniRedis
