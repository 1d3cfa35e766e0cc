import MiniRedis.Basic

/-!
# The RESP parser

`resp_parse` reads one frame from the start of a buffer and returns `0` when it needs more
bytes, a negative code when the buffer is malformed, or the number of bytes the frame took.
The recursion of `resp_parse` through `parse_array` is split in two: `respParseStep` is the
body of `resp_parse` with the parser of the array elements as a parameter, and `respParse`
ties the knot. Elements are always parsed from a strict suffix of the buffer, so a fuel of
one more than the buffer length is enough, and `respParse_eq` states the recursion equation
with the fuel gone.

Integer fields are read with `int64_t` arithmetic and no overflow check, and a bulk payload
is not checked to be followed by CRLF: the model keeps both, as the source has them.
-/

namespace MiniRedis

/-- `resp_value_t`: a wire value. An array holds its elements in order. -/
inductive RespValue where
  | simpleString (str : Bytes)
  | error (str : Bytes)
  | integer (integer : Int)
  | bulkString (str : Bytes)
  | nullBulkString
  | array (elements : List RespValue)

/-- The outcome of a parse: `0`, a negative code, or a positive byte count with its value. -/
inductive ParseResult (α : Type) where
  | needMore
  | malformed
  | parsed (value : α) (consumed : Nat)

namespace ParseResult

variable {α β : Type}

/-- `return (int)n` after writing `value`: the sign of the converted count decides the outcome. -/
def ofCInt (value : α) (n : Nat) : ParseResult α :=
  if toCInt n = 0 then .needMore else if toCInt n < 0 then .malformed
  else .parsed value (toCInt n).toNat

/-- `if (r <= 0) return r;` followed by the rest of the computation. -/
def andThen : ParseResult α → (α → Nat → ParseResult β) → ParseResult β
  | .needMore, _ => .needMore
  | .malformed, _ => .malformed
  | .parsed v n, f => f v n

/-- `NeedMore` is passed on. -/
@[simp] theorem needMore_andThen (f : α → Nat → ParseResult β) :
    (needMore : ParseResult α).andThen f = .needMore := rfl

/-- `Malformed` is passed on. -/
@[simp] theorem malformed_andThen (f : α → Nat → ParseResult β) :
    (malformed : ParseResult α).andThen f = .malformed := rfl

/-- A parsed value goes on to the rest of the computation. -/
@[simp] theorem parsed_andThen (v : α) (n : Nat) (f : α → Nat → ParseResult β) :
    (parsed v n).andThen f = f v n := rfl

/-- A parsed result of `andThen` comes from a parsed first step. -/
theorem andThen_eq_parsed {x : ParseResult α} {f : α → Nat → ParseResult β} {v : β} {n : Nat}
    (h : x.andThen f = .parsed v n) : ∃ a m, x = .parsed a m ∧ f a m = .parsed v n := by
  cases x with
  | needMore => cases h
  | malformed => cases h
  | parsed a m => exact ⟨a, m, rfl, h⟩

/-- A count up to `INT_MAX` is returned as it is. -/
theorem ofCInt_of_le (value : α) {n : Nat} (pos : 0 < n) (h : n ≤ intMax) :
    ofCInt value n = .parsed value n := by
  rw [ofCInt, toCInt_of_le h, if_neg (by omega), if_neg (by omega), Int.toNat_ofNat]

/-- A parsed return carries the written value and at most the count it converted. -/
theorem ofCInt_parsed {value v : α} {n m : Nat} (h : ofCInt value n = .parsed v m) :
    v = value ∧ 0 < m ∧ m ≤ n := by
  unfold ofCInt at h
  split at h
  · cases h
  · split at h
    · cases h
    · cases h
      exact ⟨rfl, by omega, toCInt_le (by omega)⟩

end ParseResult

/-- `parse_line`: the offset of the first CRLF in the buffer, if one has arrived. -/
def parseLine : Bytes → Option Nat
  | a :: b :: rest =>
    if a = 13 ∧ b = 10 then some 0 else (parseLine (b :: rest)).map (· + 1)
  | _ => none

/-- The digit loop of `parse_integer_value`: `result = result * 10 + (buf[i] - '0')` in
`int64_t`, stopping with `-1` at a byte outside `'0'..'9'`. -/
def accumulateDigits (result : Int) : Bytes → Option Int
  | [] => some result
  | b :: rest =>
    if b < 48 ∨ 57 < b then none
    else accumulateDigits (int64 (result * 10 + (b.toNat - 48 : Nat))) rest

/-- `parse_integer_value`: an optional `-` and at least one digit, with no overflow check. -/
def parseIntegerValue : Bytes → Option Int
  | [] => none
  | c :: digits =>
    if c = 45 then
      if digits = [] then none
      else (accumulateDigits 0 digits).map fun result => int64 (result * -1)
    else (accumulateDigits 0 (c :: digits)).map fun result => int64 (result * 1)

/-- `parse_bulk_string` on the bytes after `'$'`. The two nested length tests of the source,
`1 + len < total` and `len < line_len + 2 + slen + 2`, are one inequality. -/
def parseBulkString (buf : Bytes) : ParseResult RespValue :=
  match parseLine buf with
  | none => .needMore
  | some lineLen =>
    match parseIntegerValue (buf.take lineLen) with
    | none => .malformed
    | some slen =>
      if slen = -1 then .ofCInt .nullBulkString (1 + lineLen + 2)
      else if slen < 0 then .malformed
      else if buf.length < lineLen + 2 + slen.toNat + 2 then .needMore
      else .ofCInt (.bulkString ((buf.drop (lineLen + 2)).take slen.toNat))
        (1 + lineLen + 2 + slen.toNat + 2)

/-- The element loop of `parse_array`: `count` more elements from `rem`, the bytes after those
already consumed. The loop stops with `0` when `consumed >= len`. -/
def parseElements (parseChild : Bytes → ParseResult RespValue) :
    Nat → Bytes → ParseResult (List RespValue)
  | 0, _ => .parsed [] 0
  | _ + 1, [] => .needMore
  | count + 1, rem =>
    (parseChild rem).andThen fun element r =>
      (parseElements parseChild count (rem.drop r)).andThen fun elements n =>
        .parsed (element :: elements) (r + n)

/-- `parse_array` on the bytes after `'*'`, parsing its elements with `parseChild`. -/
def parseArray (parseChild : Bytes → ParseResult RespValue) (rest : Bytes) :
    ParseResult RespValue :=
  match parseLine rest with
  | none => .needMore
  | some lineLen =>
    match parseIntegerValue (rest.take lineLen) with
    | none => .malformed
    | some count =>
      if count < 0 then .malformed
      else if count = 0 then .ofCInt (.array []) (1 + lineLen + 2)
      else (parseElements parseChild count.toNat (rest.drop (lineLen + 2))).andThen
        fun elements n => .ofCInt (.array elements) (1 + lineLen + 2 + n)

/-- The body of `resp_parse`, dispatching on the tag byte. -/
def respParseStep (parseChild : Bytes → ParseResult RespValue) : Bytes → ParseResult RespValue
  | [] => .needMore
  | tag :: rest =>
    if tag = 43 ∨ tag = 45 then
      match parseLine rest with
      | none => .needMore
      | some lineLen =>
        .ofCInt ((if tag = 43 then RespValue.simpleString else .error) (rest.take lineLen))
          (1 + lineLen + 2)
    else if tag = 58 then
      match parseLine rest with
      | none => .needMore
      | some lineLen =>
        match parseIntegerValue (rest.take lineLen) with
        | none => .malformed
        | some val => .ofCInt (.integer val) (1 + lineLen + 2)
    else if tag = 36 then parseBulkString rest
    else if tag = 42 then parseArray parseChild rest
    else .malformed

/-- `resp_parse` unrolled `fuel` times. -/
def respParseFuel : Nat → Bytes → ParseResult RespValue
  | 0, _ => .needMore
  | fuel + 1, buf => respParseStep (respParseFuel fuel) buf

/-- `resp_parse`. -/
def respParse (buf : Bytes) : ParseResult RespValue := respParseFuel (buf.length + 1) buf

/-! ## The recursion equation -/

/-- A line found in a buffer leaves room for its CRLF. -/
theorem parseLine_lt {l : Bytes} {k : Nat} (h : parseLine l = some k) : k + 2 ≤ l.length := by
  induction l using parseLine.induct generalizing k with
  | case1 a b rest hab => simp [parseLine, hab] at h; simp [← h]
  | case2 a b rest hab ih =>
    simp only [parseLine, hab, if_false, Option.map_eq_some'] at h
    obtain ⟨k', hk', rfl⟩ := h
    have := ih hk'
    simp only [List.length_cons] at this ⊢
    omega
  | case3 l hl => cases l with
    | nil => cases h
    | cons a t => cases t with
      | nil => cases h
      | cons b rest => exact absurd rfl (hl a b rest)

/-- One more element is read when bytes remain. -/
theorem parseElements_succ {f : Bytes → ParseResult RespValue} {count : Nat} {rem : Bytes}
    (h : rem ≠ []) :
    parseElements f (count + 1) rem = (f rem).andThen fun element r =>
      (parseElements f count (rem.drop r)).andThen fun elements n =>
        .parsed (element :: elements) (r + n) := by
  cases rem with
  | nil => exact absurd rfl h
  | cons a l => rfl

/-- The element loop reads its children only from suffixes of `rem`. -/
theorem parseElements_congr {f g : Bytes → ParseResult RespValue} (count : Nat) (rem : Bytes)
    (h : ∀ b : Bytes, b.length ≤ rem.length → f b = g b) :
    parseElements f count rem = parseElements g count rem := by
  induction count generalizing rem with
  | zero => rfl
  | succ count ih =>
    cases rem with
    | nil => rfl
    | cons a l =>
      simp only [parseElements]
      rw [h _ le_rfl]
      cases g (a :: l) with
      | parsed v r =>
        simp only [ParseResult.parsed_andThen]
        rw [ih _ fun b hb => h b (hb.trans (List.length_drop r _ ▸ Nat.sub_le _ _))]
      | _ => rfl

/-- `parse_array` reads the element parser only on buffers no longer than the bytes after the
tag. -/
theorem parseArray_congr {f g : Bytes → ParseResult RespValue} (rest : Bytes)
    (h : ∀ b : Bytes, b.length < rest.length + 1 → f b = g b) :
    parseArray f rest = parseArray g rest := by
  unfold parseArray
  split <;> try rfl
  split <;> try rfl
  split_ifs <;> try rfl
  rw [parseElements_congr _ _ fun b hb => h b (by simp only [List.length_drop] at hb; omega)]

/-- `resp_parse`'s body reads the element parser only on strictly shorter buffers. -/
theorem respParseStep_congr {f g : Bytes → ParseResult RespValue} (buf : Bytes)
    (h : ∀ b : Bytes, b.length < buf.length → f b = g b) :
    respParseStep f buf = respParseStep g buf := by
  cases buf with
  | nil => rfl
  | cons tag rest => simp only [respParseStep, parseArray_congr rest h]

/-- Any fuel beyond the buffer length gives the same parse. -/
theorem respParseFuel_congr (n m : Nat) (buf : Bytes) (hn : buf.length < n) (hm : buf.length < m) :
    respParseFuel n buf = respParseFuel m buf := by
  induction n generalizing m buf with
  | zero => omega
  | succ n ih =>
    obtain ⟨m, rfl⟩ : ∃ m', m = m' + 1 := ⟨m - 1, by omega⟩
    exact respParseStep_congr buf fun b hb => ih m b (by omega) (by omega)

/-- The recursion equation of `resp_parse`: its body with itself as the element parser. -/
theorem respParse_eq (buf : Bytes) : respParse buf = respParseStep respParse buf :=
  respParseStep_congr buf fun b hb => respParseFuel_congr _ _ b (by omega) (by omega)

/-! ## Consumed bytes -/

/-- A child parser on buffers up to length `L` that only reports counts within its input. -/
def ConsumesWithin (parseChild : Bytes → ParseResult RespValue) (L : Nat) : Prop :=
  ∀ b v r, b.length ≤ L → parseChild b = .parsed v r → 0 < r ∧ r ≤ b.length

/-- The element loop consumes at most the bytes it was given. -/
theorem parseElements_parsed {f : Bytes → ParseResult RespValue} {count : Nat} {rem : Bytes}
    {vs : List RespValue} {n : Nat} (hf : ConsumesWithin f rem.length)
    (h : parseElements f count rem = .parsed vs n) : n ≤ rem.length := by
  induction count generalizing rem vs n with
  | zero => cases h; exact Nat.zero_le _
  | succ count ih =>
    cases rem with
    | nil => cases h
    | cons a l =>
      simp only [parseElements] at h
      cases hc : f (a :: l) with
      | parsed v r =>
        rw [hc, ParseResult.parsed_andThen] at h
        have hr := hf _ _ _ le_rfl hc
        cases ht : parseElements f count ((a :: l).drop r) with
        | parsed vs' n' =>
          rw [ht, ParseResult.parsed_andThen] at h
          cases h
          have := ih (fun b v r hb => hf b v r (hb.trans (by simp))) ht
          simp only [List.length_drop] at this
          omega
        | _ => rw [ht] at h; cases h
      | _ => rw [hc] at h; cases h

/-- A parsed bulk string took at least one byte and at most its input and the tag. -/
theorem parseBulkString_parsed {buf : Bytes} {v : RespValue} {n : Nat}
    (h : parseBulkString buf = .parsed v n) : 0 < n ∧ n ≤ buf.length + 1 := by
  unfold parseBulkString at h
  split at h
  · cases h
  · rename_i lineLen hline
    have := parseLine_lt hline
    split at h
    · cases h
    · split_ifs at h with h1 h2 h3
      · have := ParseResult.ofCInt_parsed h; omega
      · have := ParseResult.ofCInt_parsed h; omega

/-- A parsed array took at least one byte and at most its input and the tag. -/
theorem parseArray_parsed {f : Bytes → ParseResult RespValue} {rest : Bytes} {v : RespValue}
    {n : Nat} (hf : ConsumesWithin f rest.length) (h : parseArray f rest = .parsed v n) :
    0 < n ∧ n ≤ rest.length + 1 := by
  unfold parseArray at h
  split at h
  · cases h
  · rename_i lineLen hline
    have := parseLine_lt hline
    split at h
    · cases h
    · split_ifs at h
      · have := ParseResult.ofCInt_parsed h; omega
      · cases he : parseElements f _ (rest.drop (lineLen + 2)) with
        | parsed vs m =>
          rw [he, ParseResult.parsed_andThen] at h
          have hm := parseElements_parsed (fun b v r hb => hf b v r (hb.trans (by simp))) he
          have := ParseResult.ofCInt_parsed h
          simp only [List.length_drop] at hm
          omega
        | _ => rw [he] at h; cases h

/-- A parsed frame took at least one byte and at most the whole buffer. -/
theorem respParse_parsed {buf : Bytes} {v : RespValue} {n : Nat}
    (h : respParse buf = .parsed v n) : 0 < n ∧ n ≤ buf.length := by
  induction' hlen : buf.length using Nat.strong_induction_on with L ih generalizing buf v n
  rw [respParse_eq] at h
  cases buf with
  | nil => cases h
  | cons tag rest =>
    simp only [List.length_cons] at hlen ⊢
    simp only [respParseStep] at h
    by_cases h1 : tag = 43 ∨ tag = 45
    · rw [if_pos h1] at h
      split at h
      · cases h
      · rename_i hline
        have := parseLine_lt hline
        have := ParseResult.ofCInt_parsed h
        omega
    rw [if_neg h1] at h
    by_cases h2 : tag = 58
    · rw [if_pos h2] at h
      split at h
      · cases h
      · rename_i hline
        have := parseLine_lt hline
        split at h
        · cases h
        · have := ParseResult.ofCInt_parsed h
          omega
    rw [if_neg h2] at h
    by_cases h3 : tag = 36
    · rw [if_pos h3] at h
      have := parseBulkString_parsed h
      omega
    rw [if_neg h3] at h
    by_cases h4 : tag = 42
    · rw [if_pos h4] at h
      have := parseArray_parsed (fun b v r hb hp => ih b.length (by omega) hp rfl) h
      omega
    rw [if_neg h4] at h
    cases h

end MiniRedis
