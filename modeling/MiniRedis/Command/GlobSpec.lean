import MiniRedis.Command.Glob

/-!
# The pattern language of `KEYS`

The glob patterns as the command's documentation describes them. A pattern is read left to
right into tokens: `*` for any run of bytes, `?` for any one byte, a class `[...]` for one byte
in its inclusive ranges (or in none of them after a leading `!` or `^`, a `]` in first position
being an item), and a literal byte for every other byte. A class that no `]` closes makes the
pattern match nothing. `globReference` is that description.

`match_char_class` reads a class as the tokenizer does (`matchCharClass_spec`). The loop of
`glob_match` keeps one saved `*`; from a state whose saved `*` is followed by one-byte tokens
only up to the cursor (`LoopState`), it succeeds exactly when the rest of the pattern matches the
rest of the subject or the saved `*` offers a later start (`globLoop_iff`). So on every subject
with no byte `[`, `glob_match` is the reference (`globMatch_eq_globReference`). It compares a
pattern byte with the subject byte before it looks at whether the pattern byte opens a class, so
a subject byte `[` matches the `[` of a class as a literal (`globMatch_literal_bracket`).
-/

namespace MiniRedis

/-- A token of a glob pattern. -/
inductive GlobToken where
  /-- `*`: any run of bytes, possibly empty. -/
  | star
  /-- `?`: any one byte. -/
  | any
  /-- `[...]`: one byte in one of the inclusive ranges, or in none of them when negated. -/
  | cls (negate : Bool) (ranges : List (UInt8 × UInt8))
  /-- Any other byte: that byte. -/
  | lit (b : UInt8)
  deriving DecidableEq, Repr

/-- Where the tokenizer stands: between tokens, or inside a class with its negation, whether
the next item is the first, and the ranges read so far, last first. -/
inductive TokenizerState where
  | outside
  | inside (negate first : Bool) (ranges : List (UInt8 × UInt8))

/-- The tokens of a pattern read from the state `st`; `none` when a class is never closed.
Inside a class, `lo-hi` is a range unless `hi` is the closing `]`, where `lo` and `-` are
items of their own. -/
def globTokensFrom : TokenizerState → Bytes → Option (List GlobToken)
  | .outside, [] => some []
  | .outside, 42 :: p => (globTokensFrom .outside p).map (.star :: ·)
  | .outside, 63 :: p => (globTokensFrom .outside p).map (.any :: ·)
  | .outside, 91 :: 33 :: p => globTokensFrom (.inside true true []) p
  | .outside, 91 :: 94 :: p => globTokensFrom (.inside true true []) p
  | .outside, 91 :: p => globTokensFrom (.inside false true []) p
  | .outside, b :: p => (globTokensFrom .outside p).map (.lit b :: ·)
  | .inside _ _ _, [] => none
  | .inside negate false ranges, 93 :: p =>
    (globTokensFrom .outside p).map (.cls negate ranges.reverse :: ·)
  | .inside negate _ ranges, lo :: 45 :: hi :: p =>
    if hi = 93 then
      (globTokensFrom .outside p).map (.cls negate ((45, 45) :: (lo, lo) :: ranges).reverse :: ·)
    else globTokensFrom (.inside negate false ((lo, hi) :: ranges)) p
  | .inside negate _ ranges, lo :: p =>
    globTokensFrom (.inside negate false ((lo, lo) :: ranges)) p

/-- The tokens of a pattern; `none` when a class is never closed. -/
def globTokens (pattern : Bytes) : Option (List GlobToken) := globTokensFrom .outside pattern

/-- Whether a one-byte token accepts the byte `c`, compared as `unsigned char`. -/
def GlobToken.accepts (c : UInt8) : GlobToken → Bool
  | .star => false
  | .any => true
  | .cls negate ranges => xor negate (ranges.any fun r => decide (r.1 ≤ c ∧ c ≤ r.2))
  | .lit b => c == b

/-- Whether the tokens match the whole subject: `*` takes any prefix of what is left. -/
def tokensMatch : List GlobToken → Bytes → Bool
  | [], s => s.isEmpty
  | .star :: ts, s => (List.range (s.length + 1)).any fun j => tokensMatch ts (s.drop j)
  | _ :: _, [] => false
  | t :: ts, c :: s => t.accepts c && tokensMatch ts s

/-- The reference matcher: the pattern's tokens match the subject, and a pattern with a class
that is never closed matches nothing. -/
def globReference (pattern str : Bytes) : Bool :=
  match globTokens pattern with
  | some ts => tokensMatch ts str
  | none => false

section Tokenizer

variable (negate : Bool) (ranges : List (UInt8 × UInt8))

/-- A `]` after the first item closes the class. -/
theorem globTokensFrom_close (p : Bytes) :
    globTokensFrom (.inside negate false ranges) (93 :: p) =
      (globTokens p).map (.cls negate ranges.reverse :: ·) := by
  rw [globTokensFrom]; rfl

/-- `lo-hi` with `hi` not `]` is one range. -/
theorem globTokensFrom_range {first : Bool} {lo hi : UInt8} (p : Bytes)
    (hlo : lo ≠ 93 ∨ first = true) (hhi : hi ≠ 93) :
    globTokensFrom (.inside negate first ranges) (lo :: 45 :: hi :: p) =
      globTokensFrom (.inside negate false ((lo, hi) :: ranges)) p := by
  rw [globTokensFrom, if_neg hhi]
  rintro rfl rfl
  simp at hlo

/-- Any other byte is an item of its own; before `-]` so is the `-`, which is what reading it
alone and then the `-` gives. -/
theorem globTokensFrom_single {first : Bool} {lo : UInt8} {p : Bytes}
    (hlo : lo ≠ 93 ∨ first = true) (hp : ∀ hi q, p = 45 :: hi :: q → hi = 93) :
    globTokensFrom (.inside negate first ranges) (lo :: p) =
      globTokensFrom (.inside negate false ((lo, lo) :: ranges)) p := by
  have hfirst : ¬(first = false ∧ lo = 93) := by rintro ⟨rfl, rfl⟩; simp at hlo
  by_cases h : ∃ q, p = 45 :: 93 :: q
  · obtain ⟨q, rfl⟩ := h
    rw [globTokensFrom, if_pos rfl]
    · simp [globTokensFrom, globTokens]
    · exact fun h₁ h₂ => hfirst ⟨h₁, h₂⟩
  · rw [globTokensFrom]
    · simpa using hfirst
    · rintro hi q rfl
      exact h ⟨q, by rw [hp hi q rfl]⟩

end Tokenizer

/-- At `pi` the tokenizer reads a one-byte token `t`, after which the pattern goes on at `pi'`. -/
structure TokenAt (p : Bytes) (pi pi' : Nat) (t : GlobToken) : Prop where
  ne_star : t ≠ .star
  le : pi' ≤ p.length
  tokens : globTokens (p.drop pi) = (globTokens (p.drop pi')).map (t :: ·)

/-- The range loop of `match_char_class` reads the items the tokenizer reads and stops at the `]`
where the tokenizer closes the class, at an index that does not depend on the byte; it reports
whether the byte lies in one of the items read. -/
theorem classLoop_tokens (P : Bytes) (negate : Bool) :
    ∀ i first (ranges : List (UInt8 × UInt8)), ∃ k N,
      (∀ c matched, classLoop P c i first matched =
        (k, matched || N.any fun r => decide (r.1 ≤ c ∧ c ≤ r.2))) ∧
      globTokensFrom (.inside negate first ranges) (P.drop i) =
        if k < P.length then
          (globTokens (P.drop (k + 1))).map (.cls negate (ranges.reverse ++ N) :: ·)
        else none := by
  intro i first
  induction i, first, false using classLoop.induct P 0 with
  | case1 i first _ hcond _ range _ ih =>
    intro ranges
    by_cases hr : i + 2 < P.length ∧ byteAt P (i + 1) = 45 ∧ byteAt P (i + 2) ≠ 93
    · rw [dif_pos (show range from hr)] at ih
      obtain ⟨k, N, hk, htok⟩ := ih ((byteAt P i, byteAt P (i + 2)) :: ranges)
      refine ⟨k, (byteAt P i, byteAt P (i + 2)) :: N, fun c m => ?_, ?_⟩
      · rw [classLoop, if_pos hcond]
        simp only [if_pos hr, hk, List.any_cons, Bool.or_assoc]
      · rw [drop_eq_byteAt_cons hcond.1, drop_eq_byteAt_cons (by omega : i + 1 < P.length),
          hr.2.1, drop_eq_byteAt_cons hr.1, globTokensFrom_range _ _ _ hcond.2 hr.2.2, htok]
        simp
    · rw [dif_neg (show ¬range from hr)] at ih
      obtain ⟨k, N, hk, htok⟩ := ih ((byteAt P i, byteAt P i) :: ranges)
      refine ⟨k, (byteAt P i, byteAt P i) :: N, fun c m => ?_, ?_⟩
      · rw [classLoop, if_pos hcond]
        simp only [if_neg hr, hk, List.any_cons, Bool.or_assoc]
      · rw [drop_eq_byteAt_cons hcond.1, globTokensFrom_single _ _ hcond.2, htok]
        · simp
        · intro hi q hq
          obtain ⟨h₁, h₂, hq⟩ := byteAt_of_drop hq
          obtain ⟨h₃, h₄, -⟩ := byteAt_of_drop hq
          by_contra hne
          exact hr ⟨by omega, h₂, h₄ ▸ hne⟩
  | case2 i first _ hcond =>
    intro ranges
    refine ⟨i, [], fun c m => by rw [classLoop, if_neg hcond]; simp, ?_⟩
    by_cases hi : i < P.length
    · have h93 : byteAt P i = 93 ∧ first = false := by
        simp only [hi, true_and, not_or, not_not, Bool.not_eq_true] at hcond
        exact hcond
      rw [drop_eq_byteAt_cons hi, h93.1, h93.2, globTokensFrom_close, if_pos hi, List.append_nil]
    · rw [List.drop_eq_nil_of_le (by omega), if_neg hi, globTokensFrom]

/-- `match_char_class` on a `[` at `i`. Either the class is never closed, and it rejects every byte,
or the tokenizer reads there a one-byte token that ends at `i'`, and it returns `i'` exactly for
the bytes that token accepts. -/
theorem matchCharClass_spec {P : Bytes} {i : Nat} (hi : i < P.length) (hb : byteAt P i = 91) :
    (globTokens (P.drop i) = none ∧ ∀ c, matchCharClass P i c = none) ∨
      ∃ t i', TokenAt P i i' t ∧
        ∀ c, matchCharClass P i c = if t.accepts c then some i' else none := by
  by_cases hend : P.length ≤ i + 1
  · refine .inl ⟨?_, fun c => by rw [matchCharClass, if_pos hend]⟩
    rw [drop_eq_byteAt_cons hi, hb, List.drop_eq_nil_of_le hend]
    simp [globTokens, globTokensFrom]
  have hstart : globTokens (P.drop i) =
      globTokensFrom (.inside (decide (byteAt P (i + 1) = 33 ∨ byteAt P (i + 1) = 94)) true [])
        (P.drop (if byteAt P (i + 1) = 33 ∨ byteAt P (i + 1) = 94 then i + 2 else i + 1)) := by
    rw [drop_eq_byteAt_cons hi, hb, drop_eq_byteAt_cons (by omega : i + 1 < P.length)]
    by_cases h33 : byteAt P (i + 1) = 33
    · simp [h33, globTokens, globTokensFrom]
    by_cases h94 : byteAt P (i + 1) = 94
    · simp [h94, globTokens, globTokensFrom]
    rw [if_neg (by simp [h33, h94]), drop_eq_byteAt_cons (by omega : i + 1 < P.length), globTokens,
      globTokensFrom] <;> simp [h33, h94]
  obtain ⟨k, N, hk, htok⟩ := classLoop_tokens P
    (decide (byteAt P (i + 1) = 33 ∨ byteAt P (i + 1) = 94))
    (if byteAt P (i + 1) = 33 ∨ byteAt P (i + 1) = 94 then i + 2 else i + 1) true []
  have hmcc : ∀ c, matchCharClass P i c = if P.length ≤ k then none else
      if (if byteAt P (i + 1) = 33 ∨ byteAt P (i + 1) = 94
        then !(N.any fun r => decide (r.1 ≤ c ∧ c ≤ r.2))
        else N.any fun r => decide (r.1 ≤ c ∧ c ≤ r.2))
      then some (k + 1) else none := fun c => by
    rw [matchCharClass, if_neg hend]
    simp only [hk, Bool.false_or]
  rw [htok] at hstart
  by_cases hkP : k < P.length
  · refine .inr ⟨.cls (decide (byteAt P (i + 1) = 33 ∨ byteAt P (i + 1) = 94)) N, k + 1,
      ⟨nofun, hkP, by rw [hstart, if_pos hkP]; rfl⟩, fun c => ?_⟩
    rw [hmcc, if_neg (by omega)]
    by_cases hneg : byteAt P (i + 1) = 33 ∨ byteAt P (i + 1) = 94
    · rw [if_pos hneg, decide_eq_true hneg]; simp only [GlobToken.accepts, Bool.true_bne]
    · rw [if_neg hneg, decide_eq_false hneg]; simp only [GlobToken.accepts, Bool.false_bne]
  · exact .inl ⟨by rw [hstart, if_neg hkP], fun c => by rw [hmcc, if_pos (by omega)]⟩

/-! ## The reference, token by token -/

/-- A token other than `*` takes one byte of the subject. -/
theorem globReference_of_tokens {q q' : Bytes} {t : GlobToken} (hstar : t ≠ .star)
    (h : globTokens q = (globTokens q').map (t :: ·)) (s : Bytes) (k : Nat) :
    globReference q (s.drop k) = true ↔
      k < s.length ∧ t.accepts (byteAt s k) = true ∧
        globReference q' (s.drop (k + 1)) = true := by
  have hcons : ∀ c s' ts,
      tokensMatch (t :: ts) (c :: s') = (t.accepts c && tokensMatch ts s') := by
    cases t <;> first | exact absurd rfl hstar | intros; rfl
  have hnil : ∀ ts, tokensMatch (t :: ts) [] = false := by
    cases t <;> first | exact absurd rfl hstar | intros; rfl
  unfold globReference
  rw [h]
  by_cases hk : k < s.length
  · rw [drop_eq_byteAt_cons hk]
    cases globTokens q' <;> simp [hk, hcons]
  · rw [List.drop_eq_nil_of_le (by omega)]
    cases globTokens q' <;> simp [hk, hnil]

/-- `*` takes any run of what is left of the subject. -/
theorem globReference_star {q s : Bytes} {k : Nat} (hk : k ≤ s.length) :
    globReference (42 :: q) (s.drop k) = true ↔
      ∃ j, k ≤ j ∧ j ≤ s.length ∧ globReference q (s.drop j) = true := by
  have h : globTokens (42 :: q) = (globTokens q).map (.star :: ·) := by
    rw [globTokens, globTokensFrom]; rfl
  unfold globReference
  rw [h]
  cases globTokens q with
  | none => simp
  | some ts =>
    simp only [Option.map_some', tokensMatch, List.any_eq_true, List.mem_range, List.length_drop,
      List.drop_drop]
    constructor
    · rintro ⟨j, hj, hm⟩
      exact ⟨k + j, by omega, by omega, hm⟩
    · rintro ⟨j, hkj, hjs, hm⟩
      exact ⟨j - k, by omega, by rwa [Nat.add_sub_cancel' hkj]⟩

/-- Outside a class, a byte other than `*` and `[` is a one-byte token that accepts `c` when it
is `?` or `c` itself. -/
theorem globTokens_oneByte {b : UInt8} (q : Bytes) (h42 : b ≠ 42) (h91 : b ≠ 91) :
    ∃ t, t ≠ .star ∧ (∀ c, t.accepts c = decide (b = 63 ∨ b = c)) ∧
      globTokens (b :: q) = (globTokens q).map (t :: ·) := by
  by_cases h63 : b = 63
  · subst h63
    refine ⟨.any, nofun, fun c => by simp [GlobToken.accepts], ?_⟩
    rw [globTokens, globTokensFrom]; rfl
  · refine ⟨.lit b, nofun, fun c => ?_, ?_⟩
    · rw [GlobToken.accepts, Bool.eq_iff_iff, beq_iff_eq]
      simp [h63, eq_comm]
    · rw [globTokens, globTokensFrom]
      · rfl
      all_goals simp_all

/-! ## `glob_match` against the reference -/

section Loop

variable {p s : Bytes}

/-- What a one-byte token matches: a subject byte it accepts, then the rest of the pattern. -/
theorem TokenAt.reference_iff {pi pi' : Nat} {t : GlobToken} (h : TokenAt p pi pi' t) (k : Nat) :
    globReference (p.drop pi) (s.drop k) = true ↔
      k < s.length ∧ t.accepts (byteAt s k) = true ∧
        globReference (p.drop pi') (s.drop (k + 1)) = true :=
  globReference_of_tokens h.ne_star h.tokens s k

/-- A pattern byte other than `*` at `pi`: a class that is never closed, or the one-byte token
the tokenizer reads there. For a `[` that token ends where `match_char_class` returns, for the
bytes it accepts; any other byte is a token that accepts `c` when the byte is `?` or `c`. -/
theorem tokenAt_cases {pi : Nat} (hpi : pi < p.length) (h42 : byteAt p pi ≠ 42) :
    (byteAt p pi = 91 ∧ globTokens (p.drop pi) = none ∧ ∀ c, matchCharClass p pi c = none) ∨
      ∃ t pi', TokenAt p pi pi' t ∧ ∀ c,
        (if byteAt p pi = 91 then matchCharClass p pi c = if t.accepts c then some pi' else none
          else pi' = pi + 1 ∧ t.accepts c = decide (byteAt p pi = 63 ∨ byteAt p pi = c)) := by
  by_cases h91 : byteAt p pi = 91
  · rcases matchCharClass_spec hpi h91 with ⟨hn, hc⟩ | ⟨t, i', ht, hc⟩
    · exact .inl ⟨h91, hn, hc⟩
    · exact .inr ⟨t, i', ht, fun c => by rw [if_pos h91, hc]⟩
  · obtain ⟨t, hne, hacc, ht⟩ := globTokens_oneByte (p.drop (pi + 1)) h42 h91
    refine .inr ⟨t, pi + 1, ⟨hne, hpi, by rw [drop_eq_byteAt_cons hpi, ht]⟩, fun c => ?_⟩
    rw [if_neg h91]
    exact ⟨rfl, hacc c⟩

/-- Nothing but `*`s matches the empty rest of a subject. -/
theorem globReference_nil_of_ne_star {pi : Nat} (hpi : pi < p.length) (h42 : byteAt p pi ≠ 42) :
    globReference (p.drop pi) [] = false := by
  rcases tokenAt_cases hpi h42 with ⟨-, hn, -⟩ | ⟨t, pi', ht, -⟩
  · rw [globReference, hn]
  · simpa using (@TokenAt.reference_iff p [] _ _ _ ht 0).not.mpr (by simp)

/-- The trailing loop of `glob_match` reaches the end exactly when the rest of the pattern matches
the empty rest of the subject. -/
theorem skipStars_eq_length_iff {pi : Nat} (hpi : pi ≤ p.length) :
    skipStars p pi = p.length ↔ globReference (p.drop pi) [] = true := by
  induction pi using skipStars.induct p with
  | case1 pi hstar ih =>
    have h := @globReference_star (p.drop (pi + 1)) [] 0 le_rfl
    simp only [List.drop_nil] at h
    rw [skipStars, if_pos hstar, ih (by omega), drop_eq_byteAt_cons hstar.1, hstar.2, h]
    simp
  | case2 pi hstar =>
    rw [skipStars, if_neg hstar]
    by_cases hend : pi = p.length
    · subst hend; simp [globReference, globTokens, globTokensFrom, tokensMatch]
    · rw [globReference_nil_of_ne_star (by omega) fun h => hstar ⟨by omega, h⟩]
      simp [hend]

/-- A `*` at `pi` matches from a position when it matches from a later one. -/
theorem globReference_star_mono {pi k k' : Nat} (hstar : pi < p.length ∧ byteAt p pi = 42)
    (hk : k ≤ k') (hk' : k' ≤ s.length)
    (h : globReference (p.drop pi) (s.drop k') = true) :
    globReference (p.drop pi) (s.drop k) = true := by
  rw [drop_eq_byteAt_cons hstar.1, hstar.2, globReference_star hk'] at h
  rw [drop_eq_byteAt_cons hstar.1, hstar.2, globReference_star (hk.trans hk')]
  obtain ⟨j, h₁, h₂, h₃⟩ := h
  exact ⟨j, hk.trans h₁, h₂, h₃⟩

/-- A one-byte token that accepts the subject byte at `si` takes it. -/
theorem TokenAt.reference_iff_of_accepts {pi pi' si : Nat} {t : GlobToken}
    (h : TokenAt p pi pi' t) (hsi : si < s.length) (hacc : t.accepts (byteAt s si) = true) :
    globReference (p.drop pi) (s.drop si) = true ↔
      globReference (p.drop pi') (s.drop (si + 1)) = true := by
  rw [h.reference_iff]
  simp [hsi, hacc]

/-- Where a `*` saved at `sp` with subject position `ss` leads: every match of the pattern after it
from a position `j` passes the cursor `pi` at `j + (si - ss)`, since only one-byte tokens lie
between them. -/
structure SavedStar (p s : Bytes) (pi si sp ss : Nat) : Prop where
  lt : sp < p.length
  star : byteAt p sp = 42
  le : ss ≤ si
  through : ∀ j, j ≤ s.length → globReference (p.drop (sp + 1)) (s.drop j) = true →
    j + (si - ss) ≤ s.length ∧ globReference (p.drop pi) (s.drop (j + (si - ss))) = true

/-- A state of `glob_match`'s loop: both cursors within bounds, and the `*` it saved, if any. -/
structure LoopState (p s : Bytes) (pi si : Nat) (star : Option (Nat × Nat)) : Prop where
  pi_le : pi ≤ p.length
  si_le : si ≤ s.length
  saved : ∀ sp ss, star = some (sp, ss) → SavedStar p s pi si sp ss

/-- What the saved `*` still offers: the pattern after it, matched from a later subject position. -/
def Retry (p s : Bytes) : Option (Nat × Nat) → Prop
  | none => False
  | some (sp, ss) =>
    ∃ j, ss < j ∧ j ≤ s.length ∧ globReference (p.drop (sp + 1)) (s.drop j) = true

/-- Backtracking: a later start for the pattern after the `*` is the next one or one after it. -/
theorem retry_some_iff {sp ss : Nat} (hss : ss < s.length) :
    Retry p s (some (sp, ss)) ↔ globReference (p.drop (sp + 1)) (s.drop (ss + 1)) = true ∨
      Retry p s (some (sp, ss + 1)) := by
  constructor
  · rintro ⟨j, hj, hjs, hm⟩
    by_cases hj' : j = ss + 1
    · exact .inl (hj' ▸ hm)
    · exact .inr ⟨j, by omega, hjs, hm⟩
  · rintro (hm | ⟨j, hj, hjs, hm⟩)
    · exact ⟨ss + 1, by omega, hss, hm⟩
    · exact ⟨j, by omega, hjs, hm⟩

namespace LoopState

variable {pi si : Nat} {star : Option (Nat × Nat)}

/-- What the saved `*` offers goes through the cursor `pi`, at a position past `si`. -/
theorem retry_through (h : LoopState p s pi si star) (hr : Retry p s star) :
    ∃ k, si < k ∧ k ≤ s.length ∧ globReference (p.drop pi) (s.drop k) = true := by
  obtain _ | ⟨sp, ss⟩ := star
  · exact hr.elim
  · obtain ⟨j, hj, hjs, hm⟩ := hr
    have hs := h.saved sp ss rfl
    obtain ⟨hle, hm'⟩ := hs.through j hjs hm
    exact ⟨j + (si - ss), by have := hs.le; omega, hle, hm'⟩

/-- A `*` at the cursor is saved. -/
theorem push (h : LoopState p s pi si star) (hstar : pi < p.length ∧ byteAt p pi = 42) :
    LoopState p s (pi + 1) si (some (pi, si)) :=
  ⟨hstar.1, h.si_le, by
    rintro sp ss ⟨⟩
    exact ⟨hstar.1, hstar.2, le_rfl, fun j hj hm =>
      ⟨by simpa using hj, by simpa using hm⟩⟩⟩

/-- A one-byte token at the cursor takes the subject byte. -/
theorem advance {pi' : Nat} {t : GlobToken} (h : LoopState p s pi si star) (hsi : si < s.length)
    (ht : TokenAt p pi pi' t) : LoopState p s pi' (si + 1) star := by
  refine ⟨ht.le, hsi, fun sp ss hst => ?_⟩
  have hs := h.saved sp ss hst
  refine ⟨hs.lt, hs.star, by have := hs.le; omega, fun j hj hm => ?_⟩
  obtain ⟨-, hm'⟩ := hs.through j hj hm
  obtain ⟨hk, -, hm''⟩ := (ht.reference_iff _).mp hm'
  rw [show j + (si + 1 - ss) = j + (si - ss) + 1 by have := hs.le; omega]
  exact ⟨hk, hm''⟩

/-- On a mismatch the saved `*` takes one more subject byte. -/
theorem retry {sp ss : Nat} (h : LoopState p s pi si (some (sp, ss))) (hsi : si < s.length) :
    LoopState p s (sp + 1) (ss + 1) (some (sp, ss + 1)) := by
  have hs := h.saved sp ss rfl
  exact ⟨hs.lt, by have := hs.le; omega, by
    rintro sp' ss' ⟨⟩
    exact ⟨hs.lt, hs.star, le_rfl, fun j hj hm => ⟨by simpa using hj, by simpa using hm⟩⟩⟩

end LoopState

/-! The branches of the loop, for any saved `*`. -/

/-- At a `*`, the loop records the star and moves on in the pattern. -/
theorem globLoop_push {pi si : Nat} {star : Option (Nat × Nat)} (hsi : si < s.length)
    (hstar : pi < p.length ∧ byteAt p pi = 42) :
    globLoop p s pi si star = globLoop p s (pi + 1) si (some (pi, si)) := by
  obtain _ | ⟨_, _⟩ := star <;> conv_lhs => rw [globLoop, if_pos hsi, if_pos hstar]

/-- At `?` or an equal literal, the loop moves on in the pattern and the subject. -/
theorem globLoop_advance {pi si : Nat} {star : Option (Nat × Nat)} (hsi : si < s.length)
    (hstar : ¬(pi < p.length ∧ byteAt p pi = 42))
    (hlit : pi < p.length ∧ (byteAt p pi = 63 ∨ byteAt p pi = byteAt s si)) :
    globLoop p s pi si star = globLoop p s (pi + 1) (si + 1) star := by
  obtain _ | ⟨_, _⟩ := star <;> conv_lhs => rw [globLoop, if_pos hsi, if_neg hstar, if_pos hlit]

/-- At a class that accepts the byte, the loop moves past the class and the byte. -/
theorem globLoop_class {pi si pi' : Nat} {star : Option (Nat × Nat)} (hsi : si < s.length)
    (hstar : ¬(pi < p.length ∧ byteAt p pi = 42))
    (hlit : ¬(pi < p.length ∧ (byteAt p pi = 63 ∨ byteAt p pi = byteAt s si)))
    (hcls : (if pi < p.length ∧ byteAt p pi = 91 then matchCharClass p pi (byteAt s si)
      else none) = some pi') :
    globLoop p s pi si star = globLoop p s pi' (si + 1) star := by
  obtain _ | ⟨_, _⟩ := star <;>
    conv_lhs => rw [globLoop, if_pos hsi, if_neg hstar, if_neg hlit, hcls]

/-- At the end of the subject, the loop returns its position in the pattern. -/
theorem globLoop_end {pi si : Nat} {star : Option (Nat × Nat)} (hsi : ¬si < s.length) :
    globLoop p s pi si star = some pi := by
  obtain _ | ⟨_, _⟩ := star <;> conv_lhs => rw [globLoop, if_neg hsi]

/-- A `?`, or a byte equal to the subject byte, at the cursor is a one-byte token that accepts
the subject byte: on a subject with no `[`, the byte is no `[`. -/
theorem tokenAt_of_literal {pi si : Nat} (hs : 91 ∉ s) (hsi : si < s.length)
    (hstar : ¬(pi < p.length ∧ byteAt p pi = 42))
    (hlit : pi < p.length ∧ (byteAt p pi = 63 ∨ byteAt p pi = byteAt s si)) :
    ∃ t, TokenAt p pi (pi + 1) t ∧ t.accepts (byteAt s si) = true := by
  have hb91 : byteAt p pi ≠ 91 := fun h91 => by
    rcases hlit.2 with h | h
    · rw [h91] at h; exact absurd h (by decide)
    · exact hs (by rw [← h91, h]; exact byteAt_mem hsi)
  obtain ⟨t, pi', ht, hc⟩ :=
    (tokenAt_cases hlit.1 fun h => hstar ⟨hlit.1, h⟩).resolve_left fun h => hb91 h.1
  have hc := hc (byteAt s si)
  rw [if_neg hb91] at hc
  obtain ⟨rfl, hacc⟩ := hc
  exact ⟨t, ht, by rw [hacc]; exact decide_eq_true hlit.2⟩

/-- A class at the cursor that `match_char_class` passes is a one-byte token that accepts the
subject byte and ends where `match_char_class` returns. -/
theorem tokenAt_of_class {pi si pi' : Nat}
    (hcls : (if pi < p.length ∧ byteAt p pi = 91 then matchCharClass p pi (byteAt s si)
      else none) = some pi') :
    ∃ t, TokenAt p pi pi' t ∧ t.accepts (byteAt s si) = true := by
  have hpi : pi < p.length ∧ byteAt p pi = 91 := by
    by_contra hn
    rw [if_neg hn] at hcls
    cases hcls
  rw [if_pos hpi] at hcls
  rcases tokenAt_cases hpi.1 (by rw [hpi.2]; decide) with ⟨-, -, hn⟩ | ⟨t, pi'', ht, hc⟩
  · rw [hn] at hcls; cases hcls
  · have hc := hc (byteAt s si)
    rw [if_pos hpi.2, hcls] at hc
    cases hacc : t.accepts (byteAt s si)
    · rw [hacc] at hc; cases hc
    · rw [hacc] at hc
      cases hc
      exact ⟨t, ht, hacc⟩

/-- Where `glob_match` finds no way on and backtracks, the reference does not match either. -/
theorem globReference_mismatch {pi si : Nat} (hsi : si < s.length)
    (hstar : ¬(pi < p.length ∧ byteAt p pi = 42))
    (hlit : ¬(pi < p.length ∧ (byteAt p pi = 63 ∨ byteAt p pi = byteAt s si)))
    (hcls : (if pi < p.length ∧ byteAt p pi = 91 then matchCharClass p pi (byteAt s si)
      else none) = none) :
    globReference (p.drop pi) (s.drop si) = false := by
  by_cases hpi : pi < p.length
  · rcases tokenAt_cases hpi fun h => hstar ⟨hpi, h⟩ with ⟨-, hn, -⟩ | ⟨t, pi', ht, hc⟩
    · rw [globReference, hn]
    · have hacc : t.accepts (byteAt s si) = false := by
        have hc := hc (byteAt s si)
        by_cases h91 : byteAt p pi = 91
        · rw [if_pos h91] at hc
          rw [if_pos ⟨hpi, h91⟩, hc] at hcls
          cases hacc : t.accepts (byteAt s si) <;> simp_all
        · rw [if_neg h91] at hc
          rw [hc.2]
          exact decide_eq_false fun h => hlit ⟨hpi, h⟩
      rw [Bool.eq_false_iff]
      exact fun hm => by simp [(ht.reference_iff si).mp hm |>.2.1] at hacc
  · rw [List.drop_eq_nil_of_le (by omega), drop_eq_byteAt_cons hsi]
    rfl

/-- The loop of `glob_match` from a state: it ends with a pattern index from which only `*`s are
left exactly when the rest of the pattern matches the rest of the subject, or the saved `*`
offers a match. -/
theorem globLoop_iff (hs : 91 ∉ s) (pi si : Nat) (star : Option (Nat × Nat))
    (h : LoopState p s pi si star) :
    (∃ e, globLoop p s pi si star = some e ∧ skipStars p e = p.length) ↔
      globReference (p.drop pi) (s.drop si) = true ∨ Retry p s star := by
  induction pi, si, star using globLoop.induct p s with
  | case1 pi si star hsi hstar ih =>
    have hretry : Retry p s star → globReference (p.drop pi) (s.drop si) = true := fun hr => by
      obtain ⟨k, hk, hks, hm⟩ := h.retry_through hr
      exact globReference_star_mono hstar hk.le hks hm
    have hM := @globReference_star (p.drop (pi + 1)) s si h.si_le
    rw [← hstar.2, ← drop_eq_byteAt_cons hstar.1] at hM
    rw [globLoop_push hsi hstar, ih (h.push hstar), or_iff_left_of_imp hretry, hM]
    constructor
    · rintro (hm | ⟨j, hj, hjs, hm⟩)
      · exact ⟨si, le_rfl, h.si_le, hm⟩
      · exact ⟨j, hj.le, hjs, hm⟩
    · rintro ⟨j, hj, hjs, hm⟩
      rcases hj.lt_or_eq with hj | rfl
      · exact .inr ⟨j, hj, hjs, hm⟩
      · exact .inl hm
  | case2 pi si star hsi hstar hlit ih =>
    obtain ⟨t, ht, hacc⟩ := tokenAt_of_literal hs hsi hstar hlit
    rw [globLoop_advance hsi hstar hlit, ih (h.advance hsi ht),
      ht.reference_iff_of_accepts hsi hacc]
  | case3 pi si star hsi hstar hlit pi' hcls ih =>
    rw [dite_eq_ite] at hcls
    obtain ⟨t, ht, hacc⟩ := tokenAt_of_class hcls
    rw [globLoop_class hsi hstar hlit hcls, ih (h.advance hsi ht),
      ht.reference_iff_of_accepts hsi hacc]
  | case4 pi si hsi hstar hlit hcls sp ss ih =>
    rw [dite_eq_ite] at hcls
    rw [globLoop, if_pos hsi, if_neg hstar, if_neg hlit, hcls]
    rw [ih (h.retry hsi), globReference_mismatch hsi hstar hlit hcls,
      @retry_some_iff p s sp ss (by have := (h.saved sp ss rfl).le; omega)]
    simp
  | case5 pi si hsi hstar hlit hcls =>
    rw [dite_eq_ite] at hcls
    rw [globLoop, if_pos hsi, if_neg hstar, if_neg hlit, hcls,
      globReference_mismatch hsi hstar hlit hcls]
    simp [Retry]
  | case6 pi si star hsi =>
    have hend : si = s.length := le_antisymm h.si_le (not_lt.mp hsi)
    have hretry : ¬Retry p s star := fun hr => by
      obtain ⟨k, hk, hks, -⟩ := h.retry_through hr
      omega
    rw [globLoop_end hsi, or_iff_left hretry, hend, List.drop_length,
      ← skipStars_eq_length_iff h.pi_le]
    simp

/-- On a subject with no byte `[`, `glob_match` is the reference matcher. -/
theorem globMatch_eq_globReference {p s : Bytes} (hs : 91 ∉ s) :
    globMatch p s = globReference p s := by
  have h := @globLoop_iff p s hs 0 0 none ⟨Nat.zero_le _, Nat.zero_le _, nofun⟩
  simp only [List.drop_zero, Retry, or_false] at h
  rw [globMatch, Bool.eq_iff_iff, ← h]
  cases globLoop p s 0 0 none <;> simp

end Loop

/-- The pattern `a*[b-d]?` on the subject `axcz`, with a backtrack past the star. -/
theorem globMatch_eq_globReference_class :
    91 ∉ ascii "axcz" ∧
      globMatch (ascii "a*[b-d]?") (ascii "axcz") = globReference (ascii "a*[b-d]?") (ascii "axcz") :=
  ⟨by decide, globMatch_eq_globReference (by decide)⟩

/-- A class pattern matches its own text: `glob_match` takes the `[` for a literal byte, then
`a` and `]`, where the class `[a]` accepts one byte only. -/
theorem globMatch_literal_bracket :
    globMatch (ascii "[a]") (ascii "[a]") = true ∧
      globReference (ascii "[a]") (ascii "[a]") = false := by
  rw [show ascii "[a]" = [91, 97, 93] from rfl]
  exact ⟨by simp [globMatch, globLoop, skipStars, byteAt], by decide⟩

end MiniRedis
