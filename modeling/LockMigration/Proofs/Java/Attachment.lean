/-
The comments in front of a member and the place of its fields. Without an annotation the fields go
right behind the previous delimiter, so in front of every comment that belongs to the member. With
one, they go to the line of the first annotation sign, whatever stands above it or before it on
that line. `memberStart_comment` says exactly for which comments the fields come first, and
`memberStart_behind_comment` shows fields between a comment and its method, and inside of one.
-/
import LockMigration.Proofs.Java.Kinds
import LockMigration.Proofs.Java.Member

namespace LockMigration.Java

open Text

attribute [local irreducible] keyword

/-- The first annotation sign between the previous delimiter and the occurrence. -/
def leadingSign (t : List Char) (o : Occurrence) : Option Nat :=
  annotationSign t ((previousDelimiter t o.start).getD 0) o.start

/-- A block comment with its opener at `p` and its closer at `q`, which is the first one that shares
no character with the opener. -/
structure BlockComment (t : List Char) (p q : Nat) : Prop where
  opener : p ∈ startsOf ['/', '*'] t
  closer : q ∈ startsOf ['*', '/'] t
  apart : p + 2 ≤ q
  first : ∀ c ∈ startsOf ['*', '/'] t, p + 2 ≤ c → q ≤ c

/-- The comment lies between the previous delimiter, or the start of the text, and the
occurrence. -/
structure Decorates (t : List Char) (o : Occurrence) (p q : Nat) : Prop extends
    BlockComment t p q where
  behind : ∀ d ∈ previousDelimiter t o.start, d < p
  ahead : q + 2 ≤ o.start

instance (t : List Char) (p q : Nat) : Decidable (BlockComment t p q) :=
  decidable_of_iff (p ∈ startsOf ['/', '*'] t ∧ q ∈ startsOf ['*', '/'] t ∧ p + 2 ≤ q ∧
      ∀ c ∈ startsOf ['*', '/'] t, p + 2 ≤ c → q ≤ c)
    ⟨fun ⟨h1, h2, h3, h4⟩ => ⟨h1, h2, h3, h4⟩, fun ⟨h1, h2, h3, h4⟩ => ⟨h1, h2, h3, h4⟩⟩

instance (t : List Char) (o : Occurrence) (p q : Nat) : Decidable (Decorates t o p q) :=
  decidable_of_iff (BlockComment t p q ∧ (∀ d ∈ previousDelimiter t o.start, d < p) ∧
      q + 2 ≤ o.start)
    ⟨fun ⟨h1, h2, h3⟩ => ⟨h1, h2, h3⟩, fun ⟨h1, h2, h3⟩ => ⟨h1, h2, h3⟩⟩

theorem leadingSign_eq_some {t : List Char} {o : Occurrence} {a : Nat}
    (h : leadingSign t o = some a) : t[a]? = some '@' ∧ inComment t a = false ∧ a ≤ o.start := by
  obtain ⟨⟨hsign, hcode⟩, -, hle⟩ := annotationSign_eq_some h
  exact ⟨hsign, hcode, hle⟩

/-- What lies behind the previous delimiter comes after the fields unless the line of the first
annotation begins after it. -/
theorem memberStart_le_iff {t : List Char} {o : Occurrence} {n : Nat}
    (h : ∀ d ∈ previousDelimiter t o.start, d < n) :
    memberStart t o ≤ n ↔ ∀ a ∈ leadingSign t o, lineStart t a ≤ n := by
  have hdelim : (previousDelimiter t o.start).getD 0 = 0 ∨
      (previousDelimiter t o.start).getD 0 < n := by
    cases hd : previousDelimiter t o.start with
    | none => exact .inl rfl
    | some d => exact .inr (h d hd)
  have hsign : annotationSign t ((previousDelimiter t o.start).getD 0) o.start = leadingSign t o :=
    rfl
  simp only [memberStart, annotationLine, hsign]
  cases hs : leadingSign t o with
  | none =>
    simp only [Option.map_none, Option.getD_none, Nat.zero_min, Nat.max_zero, or_self]
    constructor
    · rintro - a ⟨⟩
    · intro
      split
      · omega
      · omega
  | some a =>
    have hline := lineStart_mono t (leadingSign_eq_some hs).2.2
    simp only [Option.map_some, Option.getD_some, Nat.min_eq_left hline, Option.mem_some_iff,
      forall_eq']
    generalize (previousDelimiter t o.start).getD 0 = d at hdelim ⊢
    split
    · omega
    · omega

/-- A sign in a block comment does not count. A comment whose opener is followed by a slash is not
one for the look-back rules. -/
theorem leadingSign_outside {t : List Char} {o : Occurrence} {p q a : Nat}
    (hc : BlockComment t p q) (hslash : t[p + 2]? ≠ some '/') (ha : leadingSign t o = some a) :
    a < p ∨ q + 2 ≤ a := by
  obtain ⟨hsign, hcode, -⟩ := leadingSign_eq_some ha
  by_contra hin
  have hne {word : List Char} {i j : Nat} (hi : i ∈ startsOf word t) (hj : j < word.length)
      (hword : word[j]? ≠ some '@') : a ≠ i + j := by
    rintro rfl
    rw [getElem?_of_mem_startsOf hi hj] at hsign
    exact hword hsign
  -- the sign stands at none of the four characters of the two markers
  have h0 := hne hc.opener (j := 0) (by decide) (by decide)
  have h1 := hne hc.opener (j := 1) (by decide) (by decide)
  have h2 := hne hc.closer (j := 0) (by decide) (by decide)
  have h3 := hne hc.closer (j := 1) (by decide) (by decide)
  have hopen : inBlockComment t a = true := by
    refine inBlockComment_of_opener hc.opener (by omega) hslash ?_
    intro c hclose hge
    have := hc.first c hclose hge
    omega
  rw [inComment, hopen] at hcode
  cases hcode

/-- Where the fields of an occurrence go, seen from a block comment between the previous delimiter
and the occurrence. They come before the comment unless the line of the first annotation sign begins
after the opener, and they come behind the comment exactly if that line begins behind the closer.
The sign itself is never one in the comment. -/
theorem memberStart_comment {t : List Char} {o : Occurrence} {p q : Nat} (h : Decorates t o p q) :
    (memberStart t o ≤ p ↔ ∀ a ∈ leadingSign t o, lineStart t a ≤ p) ∧
    (q + 2 ≤ memberStart t o ↔ ∃ a ∈ leadingSign t o, q + 2 ≤ lineStart t a) ∧
    (t[p + 2]? ≠ some '/' → ∀ a ∈ leadingSign t o, a < p ∨ q + 2 ≤ a) := by
  refine ⟨memberStart_le_iff h.behind, ?_, ?_⟩
  · have hclose : memberStart t o ≤ q + 1 ↔ ∀ a ∈ leadingSign t o, lineStart t a ≤ q + 1 := by
      refine memberStart_le_iff ?_
      intro d hd
      have := h.behind d hd
      have := h.apart
      omega
    constructor
    · intro hle
      by_contra hno
      have := hclose.2 fun a ha => Nat.le_of_not_lt fun hlt => hno ⟨a, ha, hlt⟩
      omega
    · rintro ⟨a, ha, hle⟩
      by_contra hno
      have := hclose.1 (by omega) a ha
      omega
  · intro hslash a ha
    exact leadingSign_outside h.toBlockComment hslash ha

/-- A comment with a tag in it, and behind it an annotation on the same line. -/
def taggedLine : List Char :=
  "a;\n /* @b */ @C synchronized d()\x7b\x7d".toList

theorem memberStart_comment_taggedLine :
    positions taggedLine none false = .ok [⟨15, 29, .method⟩] ∧
      Decorates taggedLine ⟨15, 29, .method⟩ 4 10 ∧
      leadingSign taggedLine ⟨15, 29, .method⟩ = some 13 ∧
      memberStart taggedLine ⟨15, 29, .method⟩ ≤ 4 := by
  have chars : taggedLine = _ := String.toList_ofList
  have h : positions taggedLine none false = .ok [⟨15, 29, .method⟩] := by
    rewrite [chars]
    with_unfolding_all decide
  have hdec : Decorates taggedLine ⟨15, 29, .method⟩ 4 10 := by rewrite [chars]; decide
  have hsign : leadingSign taggedLine ⟨15, 29, .method⟩ = some 13 := by rewrite [chars]; decide
  refine ⟨h, hdec, hsign, (memberStart_comment hdec).1.2 ?_⟩
  rw [hsign]
  rintro a ⟨⟩
  decide

/-- Two methods with a comment and an annotation each. The annotation of the first one stands below
the comment, the one of the second on the last line of the comment. -/
def documented : List Char :=
  "A\x7b\n/* b */\n@C\n synchronized d()\x7b\x7d/* e\n*/@C synchronized f()\x7b\x7d\x7d".toList

/-- The fields of the first method go between the comment and the method, those of the second one
into the comment. -/
theorem memberStart_behind_comment :
    ∃ d f p q p' q', positions documented none false = .ok [d, f] ∧
      (d.kind = .method ∧ Decorates documented d p q ∧ q + 2 ≤ memberStart documented d) ∧
      (f.kind = .method ∧ Decorates documented f p' q' ∧ p' < memberStart documented f ∧
        memberStart documented f < q' + 2) := by
  have chars : documented = _ := String.toList_ofList
  refine ⟨⟨13, 28, .method⟩, ⟨42, 56, .method⟩, 3, 8, 33, 38, ?_⟩
  rewrite [chars]
  with_unfolding_all decide

end LockMigration.Java
