import MiniRedis.Basic

/-!
# Glob patterns

`glob_match` walks the subject byte by byte. `*` records a backtracking point, `?` and a
literal byte advance both cursors, and `[` opens a class read by `match_char_class`. On a
mismatch the walk resumes one subject byte further after the last `*`, and fails if there is
none. Both loops are translated with the cursors as arguments; the backtracking loop ends
because each step either advances a cursor or moves the saved subject position forward.
-/

namespace MiniRedis

/-- The byte at index `i`, as `pattern[i]` reads it within bounds. -/
def byteAt (s : Bytes) (i : Nat) : UInt8 := s.getD i 0

/-- Within bounds, the byte at `i` heads what follows it. -/
theorem drop_eq_byteAt_cons {l : Bytes} {i : Nat} (h : i < l.length) :
    l.drop i = byteAt l i :: l.drop (i + 1) := by
  rw [byteAt, List.getD_eq_getElem _ _ h]
  exact List.drop_eq_getElem_cons h

/-- The byte met after dropping `i` bytes is `byteAt l i`, and the rest follows it. -/
theorem byteAt_of_drop {l q : Bytes} {i : Nat} {b : UInt8} (h : l.drop i = b :: q) :
    i < l.length ∧ byteAt l i = b ∧ l.drop (i + 1) = q := by
  have hi : i < l.length := by
    by_contra hi
    rw [List.drop_eq_nil_of_le (by omega)] at h
    cases h
  rw [drop_eq_byteAt_cons hi, List.cons.injEq] at h
  exact ⟨hi, h⟩

/-- A byte read inside the buffer is one of its bytes. -/
theorem byteAt_mem {l : Bytes} {i : Nat} (h : i < l.length) : byteAt l i ∈ l := by
  rw [byteAt, List.getD_eq_getElem _ _ h]
  exact List.getElem_mem h

/-- The range loop of `match_char_class`, from index `i` until a `]` that is not in first
position or the end of the pattern: the index reached, and whether `c` fell in a range
`lo-hi` (a single byte being the range `lo-lo`), compared as `unsigned char`. -/
def classLoop (pattern : Bytes) (c : UInt8) (i : Nat) (first matched : Bool) : Nat × Bool :=
  if i < pattern.length ∧ (byteAt pattern i ≠ 93 ∨ first = true) then
    let lo := byteAt pattern i
    let range := i + 2 < pattern.length ∧ byteAt pattern (i + 1) = 45 ∧
      byteAt pattern (i + 2) ≠ 93
    let hi := if range then byteAt pattern (i + 2) else lo
    classLoop pattern c (if range then i + 3 else i + 1) false
      (matched || decide (lo ≤ c ∧ c ≤ hi))
  else (i, matched)
termination_by pattern.length - i
decreasing_by all_goals split <;> omega

/-- `match_char_class` on the class whose `[` is at `pi`, against the subject byte `c`: the
index after its `]` when the class accepts `c`, and `none` when it rejects `c` or is not
closed (the caller then restores `pi`). A leading `!` or `^` negates the class. -/
def matchCharClass (pattern : Bytes) (pi : Nat) (c : UInt8) : Option Nat :=
  if pattern.length ≤ pi + 1 then none
  else
    let negate := byteAt pattern (pi + 1) = 33 ∨ byteAt pattern (pi + 1) = 94
    match classLoop pattern c (if negate then pi + 2 else pi + 1) true false with
    | (i, matched) =>
      if pattern.length ≤ i then none
      else if (if negate then !matched else matched) then some (i + 1) else none

/-- The main loop of `glob_match` while `si < slen`: `star` holds `(star_pi, star_si)` once a
`*` was seen. It returns `none` for `return false` and the pattern index at loop exit
otherwise. The saved subject index never passes `si`; the measure takes the smaller of the two
so that it decreases on every state. -/
def globLoop (pattern str : Bytes) (pi si : Nat) (star : Option (Nat × Nat)) : Option Nat :=
  if si < str.length then
    if pi < pattern.length ∧ byteAt pattern pi = 42 then
      globLoop pattern str (pi + 1) si (some (pi, si))
    else if pi < pattern.length ∧
        (byteAt pattern pi = 63 ∨ byteAt pattern pi = byteAt str si) then
      globLoop pattern str (pi + 1) (si + 1) star
    else
      match (if pi < pattern.length ∧ byteAt pattern pi = 91 then
          matchCharClass pattern pi (byteAt str si) else none) with
      | some pi' => globLoop pattern str pi' (si + 1) star
      | none =>
        match star with
        | some (starPi, starSi) =>
          globLoop pattern str (starPi + 1) (starSi + 1) (some (starPi, starSi + 1))
        | none => none
  else some pi
termination_by
  ((str.length + 1 - star.elim (0 : Nat) (fun p : Nat × Nat => min p.2 si + 1) : Nat),
    str.length - si, pattern.length - pi)
decreasing_by
  all_goals
    (try rcases star with _ | ⟨_, _⟩) <;> simp only [Prod.lex_def, Option.elim, true_and] <;> omega

/-- The trailing loop of `glob_match`: skip the `*`s after the pattern index. -/
def skipStars (pattern : Bytes) (pi : Nat) : Nat :=
  if pi < pattern.length ∧ byteAt pattern pi = 42 then skipStars pattern (pi + 1) else pi
termination_by pattern.length - pi

/-- `glob_match(pattern, plen, str, slen)`. -/
def globMatch (pattern str : Bytes) : Bool :=
  match globLoop pattern str 0 0 none with
  | none => false
  | some pi => skipStars pattern pi = pattern.length

end MiniRedis
