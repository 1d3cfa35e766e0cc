import MiniRedis.Resp.Parse

/-!
# Restartability of the parser

`resp_parse` decides from the bytes it has read: a result other than "need more" on a buffer
is the result on every extension of it. A header is tested only once its CRLF has arrived, a
bulk payload only once all of it has, and array elements left to right, each on the bytes
after the ones before it. This is what lets `handle_client_read` keep the unparsed residue
and parse again when more bytes come.
-/

namespace MiniRedis

/-- A line found in a buffer is found at the same offset in every extension. -/
theorem parseLine_append {l : Bytes} {k : Nat} (S : Bytes) (h : parseLine l = some k) :
    parseLine (l ++ S) = some k := by
  induction l using parseLine.induct generalizing k with
  | case1 a b rest hab => simpa [parseLine, hab] using h
  | case2 a b rest hab ih =>
    simp only [parseLine, hab, if_false, Option.map_eq_some'] at h
    obtain ⟨k', hk', rfl⟩ := h
    have := ih hk'
    simp only [List.cons_append] at this ⊢
    simp [parseLine, hab, this]
  | case3 l hl => cases l with
    | nil => cases h
    | cons a t => cases t with
      | nil => cases h
      | cons b rest => exact absurd rfl (hl a b rest)

/-- A line found in a buffer reads the same bytes in every extension. -/
theorem take_append_of_parseLine {l : Bytes} {k : Nat} (S : Bytes) (h : parseLine l = some k) :
    (l ++ S).take k = l.take k :=
  List.take_append_of_le_length (by have := parseLine_lt h; omega)

/-- `parse_bulk_string` is restartable. -/
theorem parseBulkString_append (rest S : Bytes) :
    parseBulkString rest = .needMore ∨ parseBulkString (rest ++ S) = parseBulkString rest := by
  unfold parseBulkString
  cases hline : parseLine rest with
  | none => exact .inl rfl
  | some lineLen =>
    simp only [parseLine_append S hline, take_append_of_parseLine S hline]
    split
    · exact .inr rfl
    · rename_i slen _
      by_cases h1 : slen = -1
      · simp only [if_pos h1, or_true]
      simp only [if_neg h1]
      by_cases h2 : slen < 0
      · simp only [if_pos h2, or_true]
      simp only [if_neg h2]
      by_cases h3 : rest.length < lineLen + 2 + slen.toNat + 2
      · simp only [if_pos h3, true_or]
      have h4 : ¬(rest ++ S).length < lineLen + 2 + slen.toNat + 2 := by simp; omega
      rw [if_neg h3, if_neg h4, List.drop_append_of_le_length (by omega),
        List.take_append_of_le_length (by simp only [List.length_drop]; omega)]
      exact .inr rfl

/-- The element loop is restartable when its element parser is, on the bytes it reads. -/
theorem parseElements_append (count : Nat) (rem S : Bytes)
    (hchild : ∀ b : Bytes, b.length ≤ rem.length →
      respParse b = .needMore ∨ respParse (b ++ S) = respParse b) :
    parseElements respParse count rem = .needMore ∨
      parseElements respParse count (rem ++ S) = parseElements respParse count rem := by
  induction count generalizing rem with
  | zero => exact .inr rfl
  | succ count ih =>
    cases rem with
    | nil => exact .inl rfl
    | cons a l =>
      rw [List.cons_append, parseElements_succ (List.cons_ne_nil _ _),
        parseElements_succ (List.cons_ne_nil _ _), ← List.cons_append]
      rcases hchild (a :: l) le_rfl with hc | hc
      · exact .inl (by rw [hc]; rfl)
      rw [hc]
      cases hr : respParse (a :: l) with
      | parsed v r =>
        simp only [ParseResult.parsed_andThen]
        rw [List.drop_append_of_le_length (respParse_parsed hr).2]
        rcases ih ((a :: l).drop r) fun b hb => hchild b (hb.trans (by simp)) with ht | ht
        · exact .inl (by rw [ht]; rfl)
        · exact .inr (by rw [ht])
      | _ => exact .inr rfl

/-- `parse_array` is restartable when its element parser is. -/
theorem parseArray_append (rest S : Bytes)
    (hchild : ∀ b : Bytes, b.length ≤ rest.length →
      respParse b = .needMore ∨ respParse (b ++ S) = respParse b) :
    parseArray respParse rest = .needMore ∨
      parseArray respParse (rest ++ S) = parseArray respParse rest := by
  unfold parseArray
  cases hline : parseLine rest with
  | none => exact .inl rfl
  | some lineLen =>
    simp only [parseLine_append S hline, take_append_of_parseLine S hline]
    split
    · exact .inr rfl
    · split_ifs
      · exact .inr rfl
      · exact .inr rfl
      · have hle : lineLen + 2 ≤ rest.length := parseLine_lt hline
        rw [List.drop_append_of_le_length hle]
        rcases parseElements_append _ (rest.drop (lineLen + 2)) S
            (fun b hb => hchild b (hb.trans (by simp))) with he | he
        · exact .inl (by rw [he]; rfl)
        · exact .inr (by rw [he])

/-- `resp_parse` is restartable: on a buffer it either needs more bytes or gives the result
it gives on every extension of that buffer. -/
theorem respParse_append (P S : Bytes) :
    respParse P = .needMore ∨ respParse (P ++ S) = respParse P := by
  induction' hlen : P.length using Nat.strong_induction_on with L ih generalizing P
  rw [respParse_eq P, respParse_eq (P ++ S)]
  cases P with
  | nil => exact .inl rfl
  | cons tag rest =>
    simp only [List.cons_append, respParseStep]
    by_cases h1 : tag = 43 ∨ tag = 45
    · simp only [if_pos h1]
      cases hline : parseLine rest with
      | none => exact .inl rfl
      | some lineLen =>
        simp only [parseLine_append S hline, take_append_of_parseLine S hline, or_true]
    simp only [if_neg h1]
    by_cases h2 : tag = 58
    · simp only [if_pos h2]
      cases hline : parseLine rest with
      | none => exact .inl rfl
      | some lineLen =>
        simp only [parseLine_append S hline, take_append_of_parseLine S hline, or_true]
    simp only [if_neg h2]
    by_cases h3 : tag = 36
    · simp only [if_pos h3]
      exact parseBulkString_append rest S
    simp only [if_neg h3]
    by_cases h4 : tag = 42
    · simp only [if_pos h4]
      exact parseArray_append rest S fun b hb =>
        ih b.length (by simp only [List.length_cons] at hlen; omega) b rfl
    simp only [if_neg h4, or_true]

end MiniRedis
