import MiniRedis.Command.Handlers
import MiniRedis.Resp.RoundTrip

/-!
# Parsing `int64_t` arguments

`parse_int64` reads an optional `-` and then digits into `result = result * 10 + digit`. With no
sign, the loop stops before `result` passes `INT64_MAX`, so it accepts exactly the digit
strings of at most `INT64_MAX` (`int64DigitLoop_false`). After a `-`, the overflow check is an
empty block: the loop is the unchecked digit loop of `parse_integer_value`
(`int64DigitLoop_true`), and its `int64_t` arithmetic wraps on long digit strings.
`parseInt64_eq_some_iff` says what it accepts and returns. Every integer field, in particular
the decimal text `snprintf` writes for an `int64_t`, parses back to its value
(`parseInt64_intDecimal`), and so does a digit string of any length after a `-`, to the wrong
value.
-/

namespace MiniRedis

/-- One more digit in the accumulated decimal value. -/
theorem digitsFrom_cons (r : Nat) (b : UInt8) (ds : Bytes) :
    digitsFrom r (b :: ds) = digitsFrom (r * 10 + (b.toNat - 48)) ds := rfl

/-- More digits never make a smaller value. -/
theorem le_digitsFrom (r : Nat) (ds : Bytes) : r ≤ digitsFrom r ds := by
  induction ds generalizing r with
  | nil => exact le_rfl
  | cons b ds ih => exact (show r ≤ r * 10 + (b.toNat - 48) by omega).trans (ih _)

/-- A byte outside `'0'..'9'` stops a digit loop, and a digit does not. -/
theorem isDigit_iff (b : UInt8) : IsDigit b ↔ ¬(b < 48 ∨ 57 < b) := by
  unfold IsDigit
  constructor
  · rintro ⟨h₁, h₂⟩ (h | h)
    · exact absurd (show b.toNat < 48 from h) (by omega)
    · exact absurd (show 57 < b.toNat from h) (by omega)
  · intro h
    simp only [not_or, UInt8.not_lt] at h
    exact ⟨h.1, h.2⟩

/-- A digit loop that returns has read only digits. -/
theorem int64DigitLoop_digits {negative : Bool} :
    ∀ {r : Int} {ds : Bytes} {n : Int}, int64DigitLoop negative r ds = some n → ∀ b ∈ ds, IsDigit b
  | _, [], _, _ => fun _ h => nomatch h
  | _, b :: ds, _, h => by
    rw [int64DigitLoop] at h
    dsimp only at h
    split_ifs at h with hb
    exact List.forall_mem_cons.mpr ⟨(isDigit_iff b).mpr hb, int64DigitLoop_digits h⟩

/-- After a `-` the loop checks nothing: it is the digit loop of `parse_integer_value`. -/
theorem int64DigitLoop_true (r : Int) (ds : Bytes) :
    int64DigitLoop true r ds = accumulateDigits r ds := by
  induction ds generalizing r with
  | nil => rfl
  | cons b ds ih => simp only [int64DigitLoop, accumulateDigits, ih, Bool.not_true]; rfl

/-- Without a sign the loop refuses exactly when the value would pass `INT64_MAX`: the check
`result > (INT64_MAX - digit) / 10` is `result * 10 + digit > INT64_MAX`. -/
theorem int64DigitLoop_false {ds : Bytes} (hds : ∀ b ∈ ds, IsDigit b) {r : Nat}
    (hr : (r : Int) ≤ int64Max) :
    int64DigitLoop false r ds =
      if (digitsFrom r ds : Int) ≤ int64Max then some (digitsFrom r ds : Int) else none := by
  induction ds generalizing r with
  | nil => simp [int64DigitLoop, digitsFrom, hr]
  | cons b ds ih =>
    obtain ⟨hb, hds⟩ := List.forall_mem_cons.mp hds
    have hd : b.toNat - 48 ≤ 9 := by unfold IsDigit at hb; omega
    have hdiv : (int64Max - ((b.toNat - 48 : Nat) : Int)).tdiv 10 < r ↔
        int64Max < ((r * 10 + (b.toNat - 48) : Nat) : Int) := by
      rw [Int.tdiv_eq_ediv (by unfold int64Max; omega) (by decide)]
      unfold int64Max
      omega
    rw [int64DigitLoop, if_neg ((isDigit_iff b).mp hb), digitsFrom_cons]
    simp only [Bool.not_false, true_and, hdiv]
    by_cases hover : int64Max < ((r * 10 + (b.toNat - 48) : Nat) : Int)
    · rw [if_pos hover, if_neg (not_le.mpr (hover.trans_le (Nat.cast_le.mpr (le_digitsFrom _ _))))]
    · have hfit : int64 ((r : Int) * 10 + ((b.toNat - 48 : Nat) : Int)) =
          ((r * 10 + (b.toNat - 48) : Nat) : Int) :=
        int64_of_mem (by unfold int64Min; omega) (by push_cast at hover ⊢; omega)
      rw [if_neg hover, hfit, ih hds (not_lt.mp hover)]

/-- What `parse_int64` accepts and what it returns: digits of value at most `INT64_MAX`, that
value; or a `-` and digits of any value, that value negated in `int64_t`. -/
theorem parseInt64_eq_some_iff (d : Bytes) (n : Int) :
    parseInt64 d = some n ↔ ∃ ds, ds ≠ [] ∧ (∀ b ∈ ds, IsDigit b) ∧
      ((d = ds ∧ (digitsValue ds : Int) ≤ int64Max ∧ n = digitsValue ds) ∨
        (d = 45 :: ds ∧ n = int64 (-(digitsValue ds : Int)))) := by
  have h0 : (0 : Int) = int64 ((0 : Nat) : Int) := by decide
  have hneg : ∀ x : Int, int64 (-int64 x) = int64 (-x) := fun x => by
    rw [← mul_neg_one, int64_mul, mul_neg_one]
  constructor
  · intro h
    obtain ⟨c, rest, rfl⟩ : ∃ c rest, d = c :: rest := by
      cases d with
      | nil => exact nomatch h
      | cons c rest => exact ⟨c, rest, rfl⟩
    rw [parseInt64] at h
    split_ifs at h with hc hrest
    · obtain ⟨res, hres, rfl⟩ := Option.map_eq_some'.mp h
      have hds := int64DigitLoop_digits hres
      rw [int64DigitLoop_true] at hres
      rw [h0, accumulateDigits_digits 0 rest hds] at hres
      obtain rfl := Option.some.inj hres
      exact ⟨rest, hrest, hds, .inr ⟨hc ▸ rfl, hneg _⟩⟩
    · have hds := int64DigitLoop_digits h
      rw [h0, show int64 ((0 : Nat) : Int) = ((0 : Nat) : Int) from (h0.symm.trans rfl),
        int64DigitLoop_false hds (by decide)] at h
      split_ifs at h with hle
      exact ⟨c :: rest, List.cons_ne_nil _ _, hds, .inl ⟨rfl, hle, (Option.some.inj h).symm⟩⟩
  · rintro ⟨ds, hne, hds, ⟨rfl, hle, rfl⟩ | ⟨rfl, rfl⟩⟩
    · obtain ⟨c, cs, rfl⟩ := List.exists_cons_of_ne_nil hne
      have hc : c ≠ 45 := fun h => absurd (h ▸ hds c (List.mem_cons_self _ _)) (by decide)
      rw [parseInt64, if_neg hc, show (0 : Int) = ((0 : Nat) : Int) from rfl,
        int64DigitLoop_false hds (by decide)]
      exact if_pos hle
    · rw [parseInt64, if_pos rfl, if_neg hne, int64DigitLoop_true, h0,
        accumulateDigits_digits 0 ds hds, Option.map_some', hneg]
      rfl

/-- Every integer field parses to its value. -/
theorem parseInt64_of_intField {d : Bytes} {n : Int} (h : IntField d n) : parseInt64 d = some n := by
  obtain ⟨lo, hi, ds, hne, hds, hf⟩ := h
  refine (parseInt64_eq_some_iff d n).mpr ⟨ds, hne, hds, ?_⟩
  rcases hf with ⟨rfl, rfl⟩ | ⟨rfl, rfl⟩
  · exact .inl ⟨rfl, hi, rfl⟩
  · exact .inr ⟨rfl, (int64_of_mem lo hi).symm⟩

/-- `parse_int64` reads back the text `snprintf` writes for every `int64_t`. -/
theorem parseInt64_intDecimal {n : Int} (lo : int64Min ≤ n) (hi : n ≤ int64Max) :
    parseInt64 (intDecimal n) = some n :=
  parseInt64_of_intField (intField_intDecimal lo hi)

/-- `parse_int64` accepts the text of `INT64_MIN - 1`: `result` wraps to `-INT64_MAX` on the last
digit, and its negation is `INT64_MAX`. -/
theorem parseInt64_below_min : parseInt64 (ascii "-9223372036854775809") = some int64Max := by
  have hdigits : ∀ b ∈ ascii "9223372036854775809", IsDigit b := by decide
  rw [show ascii "-9223372036854775809" = 45 :: ascii "9223372036854775809" from rfl,
    (parseInt64_eq_some_iff _ _).mpr ⟨_, by decide, hdigits, .inr ⟨rfl, rfl⟩⟩]
  decide

/-- The text of `INT64_MIN - 1` is no integer field: its value is below `INT64_MIN`. -/
theorem not_intField_below_min (n : Int) : ¬IntField (ascii "-9223372036854775809") n := by
  have htext : ascii "-9223372036854775809" = 45 :: ascii "9223372036854775809" := rfl
  rintro ⟨lo, -, ds, -, hds, ⟨hf, -⟩ | ⟨hf, rfl⟩⟩
  · exact absurd (hds 45 (hf ▸ htext ▸ List.mem_cons_self _ _)) (by decide)
  · rw [htext, List.cons.injEq] at hf
    rw [← hf.2] at lo
    exact absurd lo (by decide)

/-- A text that is no integer field, accepted by `parse_int64` as `INT64_MAX`. -/
theorem parseInt64_neg_overflow :
    parseInt64 (ascii "-9223372036854775809") = some int64Max ∧
      ∀ n, ¬IntField (ascii "-9223372036854775809") n :=
  ⟨parseInt64_below_min, not_intField_below_min⟩

end MiniRedis
