import MiniRedis.Resp.Parse

/-!
# The element buffer of `parse_array`

Before its element loop, `parse_array` asks `malloc` for `(size_t)count * sizeof(resp_value_t)`
bytes, a product taken modulo `2^64` with no overflow check, and the loop then fills
`elements[0]`, `elements[1]`, … in order, one slot per element that parses. The parser of
`MiniRedis.Resp.Parse` keeps the values and forgets the buffer; this module follows the buffer.

`parseArrayAlloc_fits` shows that every filled slot lies inside the allocation whenever the
product does not wrap, and `parseArrayAlloc_wraps` shows a header whose product wraps to `0`
while the loop still fills `elements[0]`.
-/

namespace MiniRedis

/-- `sizeof(resp_value_t)` on an LP64 target: the 4-byte `type` padded to 8, then a 16-byte
union whose largest members, `rstr_t` and the array, are a pointer and an 8-byte field. -/
def respValueSize : Nat := 24

/-- `(size_t)count * sizeof(resp_value_t)`: the byte count `parse_array` passes to `malloc`. -/
def elementsAllocSize (count : Int) : Nat := count.toNat * respValueSize % 2 ^ 64

/-- The element loop of `parse_array` as it fills the buffer: how many slots hold a parsed
element when it stops, with `count` more elements to read from `rem`. -/
def elementsFilled (parseChild : Bytes → ParseResult RespValue) : Nat → Bytes → Nat
  | 0, _ => 0
  | _ + 1, [] => 0
  | count + 1, b :: rem =>
    match parseChild (b :: rem) with
    | .parsed _ r => elementsFilled parseChild count ((b :: rem).drop r) + 1
    | _ => 0

/-- The element buffer of one call of `parse_array`. -/
structure ElementBuffer where
  /-- The count of the array header. -/
  count : Int
  /-- The byte count passed to `malloc`. -/
  size : Nat
  /-- The slots `elements[0 .. filled)` that hold a parsed element when the loop stops. -/
  filled : Nat
  deriving DecidableEq, Repr

/-- `parse_array` on the bytes after `'*'` up to its element loop: the buffer it allocates and
fills, or `none` when it returns before `malloc` (no line yet, a bad count, or `count <= 0`). -/
def parseArrayAlloc (parseChild : Bytes → ParseResult RespValue) (rest : Bytes) :
    Option ElementBuffer :=
  match parseLine rest with
  | none => none
  | some lineLen =>
    match parseIntegerValue (rest.take lineLen) with
    | none => none
    | some count =>
      if count ≤ 0 then none
      else some ⟨count, elementsAllocSize count,
        elementsFilled parseChild count.toNat (rest.drop (lineLen + 2))⟩

/-- The loop fills at most the `count` slots it was sized for. -/
theorem elementsFilled_le (f : Bytes → ParseResult RespValue) :
    ∀ (count : Nat) (rem : Bytes), elementsFilled f count rem ≤ count
  | 0, _ => le_rfl
  | _ + 1, [] => Nat.zero_le _
  | count + 1, b :: rem => by
    rw [elementsFilled]
    split
    · exact Nat.succ_le_succ (elementsFilled_le f count _)
    · exact Nat.zero_le _

/-- When the element loop returns, it has read `count` elements and filled every slot. -/
theorem elementsFilled_of_parsed {f : Bytes → ParseResult RespValue} :
    ∀ {count : Nat} {rem : Bytes} {elements : List RespValue} {n : Nat},
      parseElements f count rem = .parsed elements n →
        elementsFilled f count rem = count ∧ elements.length = count
  | 0, _, _, _, h => by cases h; exact ⟨rfl, rfl⟩
  | _ + 1, [], _, _, h => nomatch h
  | count + 1, b :: rem, _, _, h => by
    rw [parseElements_succ (List.cons_ne_nil b rem)] at h
    obtain ⟨element, r, hr, h⟩ := ParseResult.andThen_eq_parsed h
    obtain ⟨elements, n, hrest, h⟩ := ParseResult.andThen_eq_parsed h
    cases h
    obtain ⟨hfilled, hlen⟩ := elementsFilled_of_parsed hrest
    simp only [elementsFilled, hr, hfilled, hlen, List.length_cons, and_self]

/-- Every slot the loop fills lies inside the allocation when `count * sizeof(resp_value_t)`
does not wrap. -/
theorem parseArrayAlloc_fits {f : Bytes → ParseResult RespValue} {rest : Bytes}
    {b : ElementBuffer} (h : parseArrayAlloc f rest = some b)
    (hwrap : b.count.toNat * respValueSize < 2 ^ 64) : b.filled * respValueSize ≤ b.size := by
  unfold parseArrayAlloc at h
  split at h
  · nomatch h
  split at h
  · nomatch h
  split at h
  · nomatch h
  cases h
  rw [elementsAllocSize, Nat.mod_eq_of_lt hwrap]
  exact Nat.mul_le_mul_right _ (elementsFilled_le _ _ _)

set_option maxRecDepth 10000 in
/-- The header count `2^61` passes every check of `parse_array`, `2^61 * 24 = 3 * 2^64` wraps
to a `malloc(0)`, and the loop still fills `elements[0]` with the integer that follows, before
the parse returns `0` for more bytes. -/
theorem parseArrayAlloc_wraps :
    parseArrayAlloc respParse (ascii "2305843009213693952\r\n:1\r\n") = some ⟨2 ^ 61, 0, 1⟩ ∧
      respParse (ascii "*2305843009213693952\r\n:1\r\n") = .needMore :=
  ⟨by rfl, rfl⟩

end MiniRedis
