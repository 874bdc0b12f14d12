/-
Reading a text from left to right. A reading keeps what the characters so far say about the next
one: whether a block comment is open, whether two slashes or a double quote stand on the line, and
the setting of the run of blanks that is being read. Reading is a fold, so two texts that leave the
same reading behind are read on in the same way.

The context rules look back from a position for the last marker of each kind; here they are shown
to be what a reading of the text before that position holds.
-/
import LockMigration.Java.Occurrence
import LockMigration.Proofs.Text.Marks
import Mathlib.Data.List.Induction

namespace LockMigration.Java

open Text

/-- Where a run of blanks stands. -/
inductive Setting where
  | comment
  | quoted
  | code
deriving DecidableEq, Repr

/-- What the text read so far says about the next character. -/
structure Reading where
  /-- The last character, if it is a slash or a star. -/
  last : Option Char
  /-- A block comment is open. -/
  block : Bool
  /-- Two slashes stand on the line. -/
  slashes : Bool
  /-- A double quote stands on the line. -/
  quote : Bool
  /-- The setting of the run of blanks that is being read. -/
  run : Option Setting
deriving DecidableEq, Repr

namespace Reading

/-- The reading before the first character. -/
def start : Reading :=
  ⟨none, false, false, false, none⟩

/-- The setting of a run of blanks that begins with `c`. A line break ends the comment that two
slashes have opened. -/
def setting (r : Reading) (c : Char) : Setting :=
  if r.block || (!isLineBreak c && r.slashes) then .comment
  else if r.quote then .quoted
  else .code

/-- The reading after one more character. -/
def next (r : Reading) (c : Char) : Reading where
  last := if c = '/' ∨ c = '*' then some c else none
  block :=
    if r.last = some '/' ∧ c = '*' then true
    else if r.last = some '*' ∧ c = '/' then false
    else r.block
  slashes := !isLineBreak c && (r.slashes || (r.last == some '/' && c == '/'))
  quote := !isLineBreak c && (r.quote || c == '"')
  run := if isBlank c then some (r.run.getD (r.setting c)) else none

/-- The reading after a text. -/
def read (r : Reading) (t : List Char) : Reading :=
  t.foldl next r

@[simp]
theorem read_nil (r : Reading) : r.read [] = r := rfl

@[simp]
theorem read_cons (r : Reading) (c : Char) (t : List Char) :
    r.read (c :: t) = (r.next c).read t := rfl

@[simp]
theorem read_append (r : Reading) (s t : List Char) : r.read (s ++ t) = (r.read s).read t :=
  List.foldl_append

end Reading

/-! ## What a reading holds -/

/-- The last opener and closer before a bound, one position further. -/
theorem pending_succ {p q : List Char → Bool} {t : List Char} {n : Nat}
    (h : p (t.drop n) = true → q (t.drop n) = false) :
    pending (lastBefore? (n + 1) (marks p t)) (lastBefore? (n + 1) (marks q t)) =
      if n < t.length ∧ p (t.drop n) = true then true
      else if n < t.length ∧ q (t.drop n) = true then false
      else pending (lastBefore? n (marks p t)) (lastBefore? n (marks q t)) := by
  rw [lastBefore?_succ, lastBefore?_succ]
  by_cases hp : n < t.length ∧ p (t.drop n) = true
  · rw [if_pos hp, if_pos hp, if_neg (by simp [h hp.2])]
    rcases hq : lastBefore? n (marks q t) with _ | i
    · rfl
    · simpa [pending] using lt_of_lastBefore? hq
  · rw [if_neg hp, if_neg hp]
    by_cases hq : n < t.length ∧ q (t.drop n) = true
    · rw [if_pos hq, if_pos hq]
      rcases hl : lastBefore? n (marks p t) with _ | i
      · rfl
      · have := lt_of_lastBefore? hl
        simp only [pending, decide_eq_false_iff_not]
        omega
    · rw [if_neg hq, if_neg hq]

theorem last_snoc (r : Reading) (t : List Char) (c : Char) :
    (r.read (t ++ [c])).last = if c = '/' ∨ c = '*' then some c else none := by
  simp [Reading.next]

theorem lastBefore?_positionsOf_succ (p : Char → Bool) (x y : List Char) (c : Char) :
    lastBefore? (x.length + 1) (positionsOf p (x ++ c :: y)) =
      if p c then some x.length else lastBefore? x.length (positionsOf p (x ++ c :: y)) := by
  unfold positionsOf
  rw [lastBefore?_succ]
  simp

theorem lastBefore?_startsOf_succ (u v : Char) (x y : List Char) (a c : Char) :
    lastBefore? (x.length + 1) (startsOf [u, v] (x ++ a :: c :: y)) =
      if a = u ∧ c = v then some x.length
      else lastBefore? x.length (startsOf [u, v] (x ++ a :: c :: y)) := by
  unfold startsOf
  rw [lastBefore?_succ]
  have hp : ([u, v].isPrefixOf (a :: c :: y) = true) ↔ a = u ∧ c = v := by
    simp only [List.isPrefixOf_cons_cons, List.isPrefixOf_nil_left, Bool.and_true, Bool.and_eq_true,
      beq_iff_eq]
    exact ⟨fun h => ⟨h.1.symm, h.2.symm⟩, fun h => ⟨h.1.symm, h.2.symm⟩⟩
  simp only [List.drop_left, hp]
  simp

theorem block_read (x y : List Char) :
    (Reading.start.read x).block =
      pending (lastBefore? (x.length - 1) (startsOf ['/', '*'] (x ++ y)))
        (lastBefore? (x.length - 1) (startsOf ['*', '/'] (x ++ y))) := by
  induction x using List.reverseRecOn generalizing y with
  | nil => simp [Reading.start, lastBefore?_zero, pending]
  | append_singleton x c ih =>
    rcases List.eq_nil_or_concat x with rfl | ⟨x, a, rfl⟩
    · simp [Reading.start, Reading.next, lastBefore?_zero, pending]
    · -- the markers that end with `c` begin with `a`
      have hd : ∀ z : List Char, (x ++ [a] ++ [c] ++ z).drop x.length = a :: c :: z := by simp
      have ih' := ih (c :: y)
      rw [List.append_cons] at ih'
      simp only [List.concat_eq_append, List.length_append, List.length_singleton,
        Nat.add_sub_cancel] at ih' ⊢
      unfold startsOf at ih' ⊢
      rw [pending_succ (by rw [hd]; simp; grind), hd, ← ih', Reading.read_append]
      simp only [Reading.read_cons, Reading.read_nil, Reading.next, last_snoc]
      grind

theorem slashes_read (x y : List Char) :
    (Reading.start.read x).slashes =
      pending (lastBefore? (x.length - 1) (startsOf ['/', '/'] (x ++ y)))
        (lastBefore? x.length (positionsOf isLineBreak (x ++ y))) := by
  induction x using List.reverseRecOn generalizing y with
  | nil => simp [Reading.start, lastBefore?_zero, pending]
  | append_singleton x c ih =>
    have ih' := ih (c :: y)
    rw [Reading.read_append, List.length_append, List.length_singleton, Nat.add_sub_cancel,
      ← List.append_cons, lastBefore?_positionsOf_succ]
    simp only [Reading.read_cons, Reading.read_nil, Reading.next]
    by_cases hb : isLineBreak c = true
    · -- a line break is behind every pair of slashes
      rw [if_pos hb]
      rcases hl : lastBefore? x.length (startsOf ['/', '/'] (x ++ c :: y)) with _ | i
      · simp [hb, pending]
      · have := lt_of_lastBefore? hl
        simp only [hb, pending, Bool.not_true, Bool.false_and]
        exact (decide_eq_false (by omega)).symm
    · rw [if_neg hb, ih']
      rcases List.eq_nil_or_concat x with rfl | ⟨x, a, rfl⟩
      · simp [Reading.start, lastBefore?_zero, pending]
      · simp only [List.concat_eq_append, List.length_append, List.length_singleton,
          Nat.add_sub_cancel, last_snoc]
        rw [← List.append_cons, lastBefore?_startsOf_succ]
        by_cases hs : a = '/' ∧ c = '/'
        · -- the line break before the second slash is before the first one
          obtain ⟨rfl, rfl⟩ := hs
          rw [lastBefore?_positionsOf_succ, if_neg (by decide : ¬ isLineBreak '/' = true)]
          rcases hl : lastBefore? x.length (positionsOf isLineBreak (x ++ '/' :: '/' :: y))
            with _ | i
          · simp [pending, isLineBreak]
          · have := lt_of_lastBefore? hl
            simp [pending, isLineBreak, this]
        · rw [if_neg hs]
          grind

theorem lineStart_succ (t : List Char) (n : Nat) :
    lineStart t (n + 1) = if t[n]?.any isLineBreak then n else lineStart t n := by
  unfold lineStart positionsOf
  rw [lastBefore?_succ, List.head?_drop]
  rcases h : t[n]? with _ | c
  · simp
  · have := (List.getElem?_eq_some_iff.1 h).1
    by_cases hc : isLineBreak c = true <;> simp [this, hc]

theorem lineStart_le (t : List Char) (n : Nat) : lineStart t n ≤ n := by
  unfold lineStart
  rcases h : lastBefore? n (positionsOf isLineBreak t) with _ | i
  · simp
  · have := lt_of_lastBefore? h
    simp only [Option.getD_some]
    omega

theorem afterQuote_iff {t : List Char} {n : Nat} :
    afterQuote t n = true ↔ ∃ q, t[q]? = some '"' ∧ lineStart t n ≤ q ∧ q < n := by
  unfold afterQuote
  simp only [List.any_eq_true, mem_positionsOf, beq_iff_eq, Bool.and_eq_true, decide_eq_true_eq]
  constructor
  · rintro ⟨q, ⟨c, hq, rfl⟩, h⟩
    exact ⟨q, hq, h⟩
  · rintro ⟨q, hq, h⟩
    exact ⟨q, ⟨_, hq, rfl⟩, h⟩

theorem quote_read (x y : List Char) :
    (Reading.start.read x).quote = afterQuote (x ++ y) x.length := by
  induction x using List.reverseRecOn generalizing y with
  | nil => simp [Reading.start, afterQuote]
  | append_singleton x c ih =>
    have ih' := ih (c :: y)
    rw [List.append_cons] at ih'
    have hc : (x ++ [c] ++ y)[x.length]? = some c := by simp
    rw [Reading.read_append, Bool.eq_iff_iff, afterQuote_iff, List.length_append,
      List.length_singleton, lineStart_succ, hc]
    simp only [Reading.read_cons, Reading.read_nil, Reading.next, ih', Bool.and_eq_true,
      Bool.or_eq_true, afterQuote_iff, Option.any_some, Bool.not_eq_true', beq_iff_eq]
    by_cases hb : isLineBreak c = true
    · -- the line now starts at `c`, which is no quote
      simp only [hb, Bool.true_eq_false, false_and, if_true, false_iff]
      rintro ⟨q, hq, h1, h2⟩
      obtain rfl : q = x.length := by omega
      rw [hc] at hq
      cases hq
      simp [isLineBreak] at hb
    · simp only [hb, true_and, Bool.false_eq_true, if_false]
      have := lineStart_le (x ++ [c] ++ y) x.length
      constructor
      · rintro (⟨q, hq, h1, h2⟩ | rfl)
        · exact ⟨q, hq, h1, by omega⟩
        · exact ⟨x.length, hc, this, by omega⟩
      · rintro ⟨q, hq, h1, h2⟩
        rcases Nat.lt_succ_iff_lt_or_eq.1 h2 with h | rfl
        · exact .inl ⟨q, hq, h1, h⟩
        · rw [hc] at hq
          exact .inr (Option.some.inj hq)

/-! ## The context of a character that is no part of a comment marker -/

theorem inBlockComment_eq {x y : List Char} {c : Char} (hs : c ≠ '/') (ht : c ≠ '*') :
    inBlockComment (x ++ c :: y) x.length = (Reading.start.read x).block := by
  -- no marker begins at `c`, and none that ends with `c` begins before it
  have hd : (x ++ c :: y).drop x.length = c :: y := by simp
  unfold inBlockComment
  rw [block_read x (c :: y)]
  unfold startsOf
  rw [pending_succ (by rw [hd]; grind [List.isPrefixOf]), hd]
  rw [if_neg (by grind [List.isPrefixOf]), if_neg (by grind [List.isPrefixOf])]
  rcases List.eq_nil_or_concat x with rfl | ⟨x, a, rfl⟩
  · rfl
  · have ha : (x ++ [a] ++ c :: y).drop x.length = a :: c :: y := by simp
    simp only [List.concat_eq_append, List.length_append, List.length_singleton,
      Nat.add_sub_cancel]
    rw [pending_succ (by rw [ha]; grind [List.isPrefixOf]), ha]
    rw [if_neg (by grind [List.isPrefixOf]), if_neg (by grind [List.isPrefixOf])]

theorem inLineComment_eq {x y : List Char} {c : Char} (hs : c ≠ '/') :
    inLineComment (x ++ c :: y) x.length =
      (!isLineBreak c && (Reading.start.read x).slashes) := by
  have hd : (x ++ c :: y).drop x.length = c :: y := by simp
  have hlt : x.length < (x ++ c :: y).length := by simp
  have hsl : lastBefore? x.length (startsOf ['/', '/'] (x ++ c :: y)) =
      lastBefore? (x.length - 1) (startsOf ['/', '/'] (x ++ c :: y)) := by
    rcases List.eq_nil_or_concat x with rfl | ⟨x, a, rfl⟩
    · rfl
    · have ha : (x ++ [a] ++ c :: y).drop x.length = a :: c :: y := by simp
      simp only [List.concat_eq_append, List.length_append, List.length_singleton,
        Nat.add_sub_cancel]
      unfold startsOf
      rw [lastBefore?_succ, ha, if_neg (by grind [List.isPrefixOf])]
  unfold inLineComment
  rw [slashes_read x (c :: y)]
  unfold positionsOf
  rw [lastBefore?_succ, hd]
  by_cases hb : isLineBreak c = true
  · rw [if_pos ⟨hlt, by simpa using hb⟩]
    rcases hl : lastBefore? x.length (startsOf ['/', '/'] (x ++ c :: y)) with _ | i
    · simp [hb, pending]
    · have := lt_of_lastBefore? hl
      simp only [hb, pending, Bool.not_true, Bool.false_and, decide_eq_false_iff_not]
      omega
  · rw [if_neg (by simp [hb]), hsl]
    simp [hb]

theorem inComment_eq {x y : List Char} {c : Char} (hs : c ≠ '/') (ht : c ≠ '*') :
    inComment (x ++ c :: y) x.length =
      ((Reading.start.read x).block || (!isLineBreak c && (Reading.start.read x).slashes)) := by
  unfold inComment
  rw [inBlockComment_eq hs ht, inLineComment_eq hs]

theorem afterQuote_eq {x y : List Char} :
    afterQuote (x ++ y) x.length = (Reading.start.read x).quote :=
  (quote_read x y).symm

end LockMigration.Java
