import MiniRedis.Resp.Prefix

/-!
# The wire grammar

A frame is a tag byte, a line ended by CRLF and, for bulk strings and arrays, a body: a
payload of exactly the declared length followed by CRLF, or the declared number of frames.
Integer fields are `-?[0-9]+` with a value in the `int64_t` range. `IsFrame F v` says that the
bytes `F` are one frame decoding to `v`.

`resp_parse` parses every complete frame at the start of a buffer, and gives "need more" on
every proper prefix of a frame, so it reports a buffer malformed only when no frame can start
with it. It tests a line only once the line's CRLF has arrived: until then it asks for more
bytes even when the line already holds a byte no frame can have there.
-/

namespace MiniRedis

/-- A decimal digit, `'0'..'9'`. -/
def IsDigit (b : UInt8) : Prop := 48 ≤ b.toNat ∧ b.toNat ≤ 57

instance : DecidablePred IsDigit := fun b =>
  inferInstanceAs (Decidable (48 ≤ b.toNat ∧ b.toNat ≤ 57))

/-- `digitsFrom r ds`: the value of the digits `ds` read after a prefix of value `r`. -/
def digitsFrom (r : Nat) (ds : Bytes) : Nat := ds.foldl (fun acc b => acc * 10 + (b.toNat - 48)) r

/-- The value of decimal digits, most significant first. -/
def digitsValue (ds : Bytes) : Nat := digitsFrom 0 ds

/-- An integer field `-?[0-9]+` whose value `n` lies in the `int64_t` range. -/
def IntField (f : Bytes) (n : Int) : Prop :=
  int64Min ≤ n ∧ n ≤ int64Max ∧ ∃ ds, ds ≠ [] ∧ (∀ b ∈ ds, IsDigit b) ∧
    ((f = ds ∧ n = digitsValue ds) ∨ (f = 45 :: ds ∧ n = -(digitsValue ds : Int)))

mutual
/-- `IsFrame F v`: the bytes `F` are exactly one frame, and it decodes to `v`. -/
inductive IsFrame : Bytes → RespValue → Prop
  | simpleString (text : Bytes) : ¬crlf <:+: text →
      IsFrame ([43] ++ text ++ crlf) (.simpleString text)
  | error (text : Bytes) : ¬crlf <:+: text → IsFrame ([45] ++ text ++ crlf) (.error text)
  | integer (f : Bytes) (n : Int) : IntField f n → IsFrame ([58] ++ f ++ crlf) (.integer n)
  | bulkString (f payload : Bytes) : IntField f payload.length →
      IsFrame ([36] ++ f ++ crlf ++ payload ++ crlf) (.bulkString payload)
  | nullBulkString (f : Bytes) : IntField f (-1) → IsFrame ([36] ++ f ++ crlf) .nullBulkString
  | array (f parts : Bytes) (elements : List RespValue) : IntField f elements.length →
      IsFrames parts elements → IsFrame ([42] ++ f ++ crlf ++ parts) (.array elements)

/-- `IsFrames parts vs`: the bytes `parts` are the frames of `vs`, one after another. -/
inductive IsFrames : Bytes → List RespValue → Prop
  | nil : IsFrames [] []
  | cons (a b : Bytes) (v : RespValue) (vs : List RespValue) :
      IsFrame a v → IsFrames b vs → IsFrames (a ++ b) (v :: vs)
end

/-- Every frame starts with its tag byte. -/
theorem IsFrame.ne_nil {F : Bytes} {v : RespValue} (h : IsFrame F v) : F ≠ [] := by
  cases h <;> simp

/-- A run of frames has at least one byte per frame. -/
theorem IsFrames.length_le {parts : Bytes} {vs : List RespValue} (h : IsFrames parts vs) :
    vs.length ≤ parts.length := by
  induction vs generalizing parts with
  | nil => exact Nat.zero_le _
  | cons v vs ih =>
    cases h with
    | cons a b _ _ ha hb =>
      have := List.length_pos.mpr ha.ne_nil
      simp only [List.length_cons, List.length_append]
      have := ih hb
      omega

/-! ## Lines and integer fields -/

/-- A line without CRLF is found whole before its terminator. -/
theorem parseLine_line {text : Bytes} (R : Bytes) (h : ¬crlf <:+: text) :
    parseLine (text ++ (crlf ++ R)) = some text.length := by
  induction text with
  | nil => rfl
  | cons a t ih =>
    have ht : ¬crlf <:+: t := fun hi => h (hi.trans (List.suffix_cons a t).isInfix)
    cases t with
    | nil => simp [parseLine, crlf]
    | cons b t' =>
      have hab : ¬(a = 13 ∧ b = 10) := by
        rintro ⟨rfl, rfl⟩
        exact h (List.prefix_append crlf t').isInfix
      simp only [List.cons_append] at ih ⊢
      simp [parseLine, hab, ih ht]

/-- A field of digits and signs holds no CRLF. -/
theorem IntField.not_crlf {f : Bytes} {n : Int} (h : IntField f n) : ¬crlf <:+: f := by
  obtain ⟨-, -, ds, -, hds, hf⟩ := h
  have h13 : ∀ b ∈ f, b ≠ 13 := by
    rcases hf with ⟨rfl, -⟩ | ⟨rfl, -⟩
    · exact fun b hb h => by have := (hds b hb).1; subst h; exact absurd this (by decide)
    · intro b hb h
      subst h
      rcases List.mem_cons.mp hb with h | hb
      · cases h
      · exact absurd (hds 13 hb).1 (by decide)
  intro ⟨s, t, hst⟩
  exact h13 13 (hst ▸ by simp [crlf]) rfl

/-- The digit loop reads decimal digits as their value, reduced into `int64_t`. -/
theorem accumulateDigits_digits (r : Nat) (ds : Bytes) (h : ∀ b ∈ ds, IsDigit b) :
    accumulateDigits (int64 r) ds = some (int64 (digitsFrom r ds)) := by
  induction ds generalizing r with
  | nil => rfl
  | cons b ds ih =>
    obtain ⟨hlo, hhi⟩ := h b (List.mem_cons_self b ds)
    have hlt : ¬(b < 48 ∨ 57 < b) := by
      rintro (h' | h')
      · have : b.toNat < 48 := h'
        omega
      · have : 57 < b.toNat := h'
        omega
    simp only [accumulateDigits, hlt, if_false]
    rw [int64_mul_add, ← Nat.cast_ofNat, ← Nat.cast_mul, ← Nat.cast_add,
      ih _ fun b' hb' => h b' (List.mem_cons_of_mem b hb')]
    rfl

/-- `parse_integer_value` reads an integer field as its value. -/
theorem parseIntegerValue_field {f : Bytes} {n : Int} (h : IntField f n) :
    parseIntegerValue f = some n := by
  obtain ⟨lo, hi, ds, hne, hds, hf⟩ := h
  have hacc : accumulateDigits 0 ds = some (int64 (digitsValue ds)) :=
    accumulateDigits_digits 0 ds hds
  rcases hf with ⟨rfl, rfl⟩ | ⟨rfl, rfl⟩
  · obtain ⟨c, cs, rfl⟩ := List.exists_cons_of_ne_nil hne
    have hc : c ≠ 45 := by
      intro h
      have := (hds c (List.mem_cons_self c cs)).1
      rw [h] at this
      exact absurd this (by decide)
    simp only [parseIntegerValue, hc, if_false, hacc, Option.map_some', mul_one, int64_int64]
    rw [int64_of_mem lo hi]
  · simp only [parseIntegerValue, if_true, hne, if_false, hacc, Option.map_some', int64_mul]
    exact congrArg some (by rw [mul_neg_one, int64_of_mem lo hi])

/-! ## Complete frames are parsed -/

/-- The frames of an array body are parsed one after another. -/
theorem parseElements_frames {parts : Bytes} {vs : List RespValue} (h : IsFrames parts vs)
    (R : Bytes) (hchild : ∀ a v, a.length ≤ parts.length → IsFrame a v →
      ∀ R, respParse (a ++ R) = .parsed v a.length) :
    parseElements respParse vs.length (parts ++ R) = .parsed vs parts.length := by
  induction vs generalizing parts with
  | nil => cases h; rfl
  | cons v vs ih =>
    cases h with
    | cons a b _ _ ha hb =>
      have hne : a ++ (b ++ R) ≠ [] := by simp [ha.ne_nil]
      rw [List.length_cons, List.append_assoc, parseElements_succ hne,
        hchild a v (by simp) ha, ParseResult.parsed_andThen, List.drop_left,
        ih hb fun a' v' h' => hchild a' v' (by simp only [List.length_append] at h' ⊢; omega)]
      simp

/-- Every complete frame of at most `INT_MAX` bytes at the start of a buffer is parsed, with
its length, whatever follows it. -/
theorem respParse_frame {F : Bytes} {v : RespValue} (h : IsFrame F v) (hF : F.length ≤ intMax)
    (R : Bytes) : respParse (F ++ R) = .parsed v F.length := by
  induction' hlen : F.length using Nat.strong_induction_on with L ih generalizing F v R
  subst hlen
  rw [respParse_eq]
  cases h with
  | simpleString text hno | error text hno =>
    simp only [List.length_append, List.length_singleton, length_crlf] at hF
    simp [respParseStep, parseLine_line R hno, ParseResult.ofCInt_of_le _
      (by omega : 0 < 1 + text.length + 2) (by omega : 1 + text.length + 2 ≤ intMax)]
    omega
  | integer f n hf =>
    simp only [List.length_append, List.length_singleton, length_crlf] at hF
    simp [respParseStep, parseLine_line R hf.not_crlf, parseIntegerValue_field hf,
      ParseResult.ofCInt_of_le _ (by omega : 0 < 1 + f.length + 2)
        (by omega : 1 + f.length + 2 ≤ intMax)]
    omega
  | bulkString f payload hf =>
    simp only [List.length_append, List.length_singleton, length_crlf] at hF
    simp [respParseStep, parseBulkString, parseLine_line _ hf.not_crlf,
      parseIntegerValue_field hf]
    rw [if_neg (by omega), if_neg (by omega), ParseResult.ofCInt_of_le _ (by omega) hF]
    congr 1
    omega
  | nullBulkString f hf =>
    simp only [List.length_append, List.length_singleton, length_crlf] at hF
    simp [respParseStep, parseBulkString, parseLine_line _ hf.not_crlf,
      parseIntegerValue_field hf, ParseResult.ofCInt_of_le _
        (by omega : 0 < 1 + f.length + 2) (by omega : 1 + f.length + 2 ≤ intMax)]
    omega
  | array f parts elements hf hparts =>
    simp only [List.length_append, List.length_singleton, length_crlf] at hF
    have hchild : ∀ a v, a.length ≤ parts.length → IsFrame a v →
        ∀ R, respParse (a ++ R) = .parsed v a.length := fun a v ha hav R =>
      ih a.length (by simp; omega) hav (by omega) R rfl
    cases elements with
    | nil =>
      cases hparts
      simp [respParseStep, parseArray, parseLine_line _ hf.not_crlf,
        parseIntegerValue_field hf, ParseResult.ofCInt_of_le _
          (by omega : 0 < 1 + f.length + 2) (by omega : 1 + f.length + 2 ≤ intMax)]
      omega
    | cons e es =>
      have he := parseElements_frames hparts R hchild
      simp [respParseStep, parseArray, parseLine_line _ hf.not_crlf,
        parseIntegerValue_field hf]
      rw [if_neg (by omega), if_neg (by omega), ← List.length_cons, he,
        ParseResult.parsed_andThen, ParseResult.ofCInt_of_le _ (by omega) hF]
      congr 1
      omega

/-- A proper prefix of a frame needs more bytes. -/
theorem respParse_prefix_needMore {F : Bytes} {v : RespValue} {P S : Bytes} (h : IsFrame F v)
    (hF : F.length ≤ intMax) (hPS : P ++ S = F) (hS : S ≠ []) : respParse P = .needMore := by
  rcases respParse_append P S with hP | hP
  · exact hP
  · have hfull := respParse_frame h hF []
    rw [List.append_nil, ← hPS, hP] at hfull
    have := (respParse_parsed hfull).2
    simp only [List.length_append] at this
    exact absurd (List.length_eq_zero.mp (by omega)) hS

/-- Until its first line has its CRLF, a buffer with a frame tag asks for more bytes, whatever
the line holds so far. -/
theorem respParse_of_parseLine_none {tag : UInt8} {rest : Bytes} (htag : tag ∈ ascii "+-:$*")
    (h : parseLine rest = none) : respParse (tag :: rest) = .needMore := by
  rw [show ascii "+-:$*" = [43, 45, 58, 36, 42] from rfl] at htag
  simp only [List.mem_cons, List.not_mem_nil, or_false] at htag
  rw [respParse_eq]
  rcases htag with rfl | rfl | rfl | rfl | rfl <;>
    simp [respParseStep, parseBulkString, parseArray, h]

/-- How `resp_parse` classifies a buffer: a complete frame of at most `INT_MAX` bytes at its
start is parsed with its length; a proper prefix of such a frame needs more bytes; so a
malformed verdict goes only to bytes that neither begin nor extend to such a frame; and a
tagged buffer whose first line has not reached its CRLF needs more bytes, valid so far or not. -/
theorem respParse_classifies :
    (∀ F v R, IsFrame F v → F.length ≤ intMax → respParse (F ++ R) = .parsed v F.length) ∧
    (∀ F v P S, IsFrame F v → F.length ≤ intMax → P ++ S = F → S ≠ [] →
      respParse P = .needMore) ∧
    (∀ B, respParse B = .malformed → ∀ F v S, IsFrame F v → F.length ≤ intMax →
      B ++ S ≠ F ∧ F ++ S ≠ B) ∧
    (∀ tag rest, tag ∈ ascii "+-:$*" → parseLine rest = none →
      respParse (tag :: rest) = .needMore) := by
  refine ⟨fun F v R h hF => respParse_frame h hF R,
    fun F v P S h hF hPS hS => respParse_prefix_needMore h hF hPS hS, ?_,
    fun tag rest htag h => respParse_of_parseLine_none htag h⟩
  intro B hB F v S h hF
  constructor
  · rintro hBS
    by_cases hS : S = []
    · subst hS
      rw [List.append_nil] at hBS
      rw [hBS, ← List.append_nil F, respParse_frame h hF []] at hB
      cases hB
    · rw [respParse_prefix_needMore h hF hBS hS] at hB
      cases hB
  · rintro rfl
    rw [respParse_frame h hF S] at hB
    cases hB

/-- `":a"` is answered "need more" though no frame starts with it. -/
theorem respParse_needMore_off_grammar :
    respParse (ascii ":a") = .needMore ∧ ¬∃ F v S, IsFrame F v ∧ ascii ":a" ++ S = F := by
  refine ⟨rfl, ?_⟩
  rintro ⟨F, v, S, hF, hFS⟩
  rw [show ascii ":a" = [58, 97] from rfl] at hFS
  cases hF with
  | integer f n hf =>
    obtain ⟨-, -, ds, hne, hds, hf⟩ := hf
    obtain ⟨d, ds', rfl⟩ := List.exists_cons_of_ne_nil hne
    rcases hf with ⟨rfl, -⟩ | ⟨rfl, -⟩
    · simp only [List.cons_append, List.singleton_append, List.nil_append, List.cons.injEq,
        true_and] at hFS
      have := (hds d (List.mem_cons_self d ds')).2
      rw [← hFS.1] at this
      exact absurd this (by decide)
    · simp at hFS
  | _ => simp at hFS

end MiniRedis
