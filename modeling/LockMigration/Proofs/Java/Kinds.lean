/-
The kind of a keyword and the text around it. A kind is decided at the start of the blanks before
the keyword. For a keyword in a comment, or behind a quote on its line, that makes no difference:
`classify_in_comment` says that it is never taken for code. The other way round it does: the blanks
may begin on a line above, and then it is that line that decides. `kind_at_keyword` says for which
keywords the kind is right where the keyword itself stands, and `kind_from_line_above` shows two
methods for which it is not.
-/
import LockMigration.Proofs.Java.Occurrences
import LockMigration.Proofs.Locker

namespace LockMigration.Java

open Text

attribute [local irreducible] keyword

/-! ## Keywords between blanks -/

/-- A keyword stands at position `k`, with a blank before it and a blank or an opening parenthesis
after it. -/
structure Delimited (t : List Char) (k : Nat) : Prop where
  word : k ∈ startsOf keyword t
  before : 0 < k ∧ t[k - 1]?.any isBlank = true
  after : t[k + keyword.length]?.any (fun c => c == '(' || isBlank c) = true

/-- Every such keyword is a token. -/
theorem Delimited.exists_token {t : List Char} {k : Nat} (h : Delimited t k) :
    ∃ tok ∈ tokens t, tok.keyword = k := by
  obtain ⟨hlt, rest, hrest⟩ := mem_startsOf.1 h.word
  obtain ⟨hpos, hblank⟩ := h.before
  have hentry (s : Setting) : s.entry (t.drop k) = some (s.kind? rest) := by
    have hafter := h.after
    rw [← List.getElem?_drop, ← hrest, List.getElem?_append_right (Nat.le_refl _), Nat.sub_self,
      ← List.head?_eq_getElem?] at hafter
    rw [← hrest, Setting.entry, isSome_keywordLength?, hafter, if_pos rfl, List.drop_left]
  have hrun : (Reading.start.read (t.take k)).run ≠ none := by
    obtain ⟨j, rfl⟩ := Nat.exists_eq_add_one_of_ne_zero (by omega : k ≠ 0)
    obtain ⟨c, hc, hb⟩ := (Option.any_eq_true _ _).1 hblank
    rw [Nat.add_sub_cancel] at hc
    rw [List.take_add_one, hc, Option.toList_some, ne_eq, run_snoc, hb]
    simp
  obtain ⟨s, hs⟩ := Option.ne_none_iff_exists'.1 hrun
  have hmem : (k, s.kind? rest) ∈ roles t := by
    refine mem_rolesFrom.2 ⟨t.take k, t.drop k, (List.take_append_drop k t).symm, ?_, ?_, s, hs, ?_⟩
    · rw [ne_eq, List.drop_eq_nil_iff]
      omega
    · rw [List.length_take]
      simp only
      omega
    · rw [List.append_nil]
      exact hentry s
  rw [← tokens_roles] at hmem
  obtain ⟨tok, htok, heq⟩ := List.mem_map.1 hmem
  exact ⟨tok, htok, congrArg Prod.fst heq⟩

/-! ## Keywords in comments and behind quotes -/

/-- A block comment is opened before position `k` and not closed before it. The closer of a comment
shares no character with its opener. -/
def InOpenBlock (t : List Char) (k : Nat) : Prop :=
  ∃ o ∈ startsOf ['/', '*'] t, o + 2 ≤ k ∧ t[o + 2]? ≠ some '/' ∧
    ∀ c ∈ startsOf ['*', '/'] t, o + 2 ≤ c → k ≤ c

/-- The word stands between the last line break before position `k` and that position. -/
def OnLineBefore (word t : List Char) (k : Nat) : Prop :=
  ∃ j ∈ startsOf word t, j + word.length ≤ k ∧
    ∀ i ∈ positionsOf isLineBreak t, j ≤ i → k ≤ i

/-- Something was opened last if everything that closes comes before it. -/
theorem pending_of_mem {p q : List Char → Bool} {t : List Char} {m n i : Nat} (h : i ∈ marks p t)
    (hi : i < m) (hq : ∀ c ∈ marks q t, c < n → c < i) :
    pending (lastBefore? m (marks p t)) (lastBefore? n (marks q t)) = true := by
  obtain ⟨j, hj, hle⟩ := le_lastBefore? h hi
  rw [hj]
  cases hc : lastBefore? n (marks q t) with
  | none => rfl
  | some c =>
    have := hq c (mem_of_lastBefore? hc) (lt_of_lastBefore? hc)
    simp only [pending, decide_eq_true_eq]
    omega

/-- A block comment is open behind its opener up to the first closer that shares no character with
the opener. -/
theorem inBlockComment_of_opener {t : List Char} {o n : Nat} (ho : o ∈ startsOf ['/', '*'] t)
    (hle : o ≤ n) (hslash : t[o + 2]? ≠ some '/')
    (hclose : ∀ c ∈ startsOf ['*', '/'] t, o + 2 ≤ c → n < c) : inBlockComment t n = true := by
  have hfirst : t[o]? = some '/' := getElem?_of_mem_startsOf ho (j := 0) (by simp)
  refine pending_of_mem ho (by omega) fun c hc hlt => ?_
  have hstar : t[c]? = some '*' := getElem?_of_mem_startsOf hc (j := 0) (by simp)
  have hsecond : t[c + 1]? = some '/' := getElem?_of_mem_startsOf hc (j := 1) (by simp)
  by_contra hge
  -- the closer would begin with a character of the opener, or right behind it
  rcases Nat.lt_or_ge c (o + 2) with hc2 | hc2
  · rcases (by omega : c = o ∨ c = o + 1) with rfl | rfl
    · rw [hfirst] at hstar
      cases hstar
    · exact hslash hsecond
  · have := hclose c hc hc2
    omega

section Token

variable {t : List Char} {k : Token} (hk : k ∈ tokens t)
include hk

/-- A word without blanks that ends before the keyword ends before the blanks of its token. -/
theorem end_le_start {word : List Char} {j : Nat} (hj : j ∈ startsOf word t) {n : Nat} {c : Char}
    (hc : word[n]? = some c) (hblank : isBlank c = false) (hle : j + n < k.keyword) :
    j + n < k.start := by
  have hn : n < word.length := (List.getElem?_eq_some_iff.1 hc).1
  refine lt_start_of_lt_keyword hk (c := c) ?_ hblank hle
  rw [getElem?_of_mem_startsOf hj hn, hc]

theorem inBlockComment_of_inOpenBlock (h : InOpenBlock t k.keyword) :
    inBlockComment t k.start = true := by
  obtain ⟨o, ho, hle, hslash, hclose⟩ := h
  have hstart := start_lt_keyword hk
  have hend := end_le_start hk ho (n := 1) rfl (by decide) (by omega)
  refine inBlockComment_of_opener ho (by omega) hslash fun c hc hge => ?_
  have := hclose c hc hge
  omega

theorem inLineComment_of_onLineBefore (h : OnLineBefore ['/', '/'] t k.keyword) :
    inLineComment t k.start = true := by
  obtain ⟨j, hj, hle, hbreak⟩ := h
  have hstart := start_lt_keyword hk
  have hend := end_le_start hk hj (n := 1) rfl (by decide) (Nat.lt_of_succ_le hle)
  refine pending_of_mem hj (by omega) fun i hi hlt => ?_
  by_contra hge
  have := hbreak i hi (by omega)
  omega

theorem afterQuote_of_onLineBefore (h : OnLineBefore ['"'] t k.keyword) :
    afterQuote t k.start = true := by
  obtain ⟨j, hj, hle, hbreak⟩ := h
  have hstart := start_lt_keyword hk
  have hend := end_le_start hk hj (n := 0) rfl (by decide) (Nat.lt_of_succ_le hle)
  refine afterQuote_iff.2 ⟨j, getElem?_of_mem_startsOf hj (j := 0) (by simp), ?_, hend⟩
  unfold lineStart
  cases hl : lastBefore? k.start (positionsOf isLineBreak t) with
  | none => exact Nat.zero_le j
  | some i =>
    have hlt := lt_of_lastBefore? hl
    simp only [Option.getD_some]
    by_contra hge
    have := hbreak i (mem_of_lastBefore? hl) (by omega)
    omega

end Token

theorem classify_comment {t : List Char} {start stop : Nat} (h : inComment t start = true) :
    classify t start stop = .ok .comment := by
  rw [classify, if_pos h]

theorem classify_quoted {t : List Char} {start stop : Nat} (h : afterQuote t start = true) :
    classify t start stop = .ok .comment ∨ classify t start stop = .ok .quoted := by
  unfold classify
  by_cases hc : inComment t start = true
  · exact .inl (if_pos hc)
  · rw [if_neg hc, if_pos h]
    exact .inr rfl

/-- A keyword between blanks is a token, and nothing in a comment or behind a quote is taken for
code: a keyword in a block comment, or behind two slashes on its line, is a comment, and one behind
a quote on its line is a comment or quoted, whatever else the text holds. -/
theorem classify_in_comment {t : List Char} {k : Nat} (h : Delimited t k) :
    (∃ tok ∈ tokens t, tok.keyword = k) ∧
    ∀ tok ∈ tokens t, tok.keyword = k →
      (InOpenBlock t k ∨ OnLineBefore ['/', '/'] t k →
        classify t tok.start tok.stop = .ok .comment) ∧
      (OnLineBefore ['"'] t k → classify t tok.start tok.stop = .ok .comment ∨
        classify t tok.start tok.stop = .ok .quoted) := by
  refine ⟨h.exists_token, ?_⟩
  rintro tok htok rfl
  constructor
  · rintro (hblock | hslashes)
    · apply classify_comment
      rw [inComment, inBlockComment_of_inOpenBlock htok hblock, Bool.true_or]
    · apply classify_comment
      rw [inComment, inLineComment_of_onLineBefore htok hslashes, Bool.or_true]
  · intro hquote
    exact classify_quoted (afterQuote_of_onLineBefore htok hquote)

/-- A keyword behind an open block comment and, on its line, a quote and two slashes. -/
def mixedContext : List Char :=
  "/* a */ b /* c\n\" // d /* synchronized (e)".toList

theorem classify_in_comment_mixedContext :
    Delimited mixedContext 25 ∧ InOpenBlock mixedContext 25 ∧
      OnLineBefore ['/', '/'] mixedContext 25 ∧ OnLineBefore ['"'] mixedContext 25 ∧
      ∃ tok ∈ tokens mixedContext, tok.keyword = 25 ∧
        classify mixedContext tok.start tok.stop = .ok .comment := by
  have chars : mixedContext = _ := String.toList_ofList
  have hdelim : Delimited mixedContext 25 := by
    rewrite [chars]
    constructor <;> with_unfolding_all decide
  have hblock : InOpenBlock mixedContext 25 := by
    rewrite [chars]
    exact ⟨10, by decide, by decide, by decide, by decide⟩
  have hslashes : OnLineBefore ['/', '/'] mixedContext 25 := by
    rewrite [chars]
    exact ⟨17, by decide, by decide, by decide⟩
  have hquote : OnLineBefore ['"'] mixedContext 25 := by
    rewrite [chars]
    exact ⟨15, by decide, by decide, by decide⟩
  obtain ⟨⟨tok, htok, hword⟩, hkind⟩ := classify_in_comment hdelim
  exact ⟨hdelim, hblock, hslashes, hquote, tok, htok, hword,
    (hkind tok htok hword).1 (.inl hblock)⟩

/-! ## The kind where the keyword stands -/

/-- A line break stands between the start of the occurrence and its keyword. -/
def Occurrence.beginsLine (t : List Char) (o : Occurrence) : Bool :=
  (slice t o.start (o.keyword t)).any isLineBreak

/-- What a reading holds at the keyword of a token, from what it holds before the blanks. -/
theorem read_to_keyword {t : List Char} {k : Token} {before rest : List Char} {b : Char}
    {l : List Char} (hp : Parts t k before (b :: l) rest) :
    inBlockComment t k.keyword = (Reading.start.read before).block ∧
      inLineComment t k.keyword =
        (!(b :: l).any isLineBreak && (Reading.start.read before).slashes) ∧
      afterQuote t k.keyword =
        (!(b :: l).any isLineBreak && (Reading.start.read before).quote) := by
  obtain ⟨z, hz⟩ : ∃ z, keyword ++ rest = 's' :: z := ⟨_, by rw [keyword_eq]; rfl⟩
  have ht : t = (before ++ b :: l) ++ 's' :: z := by
    rw [hp.text, List.append_assoc _ keyword, hz]
  have hpos : k.keyword = (before ++ b :: l).length := by
    rw [hp.word, List.length_append]
  obtain ⟨-, hblock, hslashes, hquote⟩ := read_quiet
    (fun c hc => isQuiet_of_isBlank (hp.blank c hc)) hp.lead_ne (Reading.start.read before)
  rw [← Reading.read_append] at hblock hslashes hquote
  rw [hpos, ht, inBlockComment_eq (by decide) (by decide), inLineComment_eq (by decide),
    afterQuote_eq, hblock, hslashes, hquote]
  exact ⟨rfl, rfl, rfl⟩

theorem Setting.code_kind? {rest : List Char} {kind : Kind}
    (h : Setting.code.kind? rest = some kind) : kind = .monitor ∨ kind = .method := by
  obtain ⟨c, -, rfl⟩ := Option.map_eq_some_iff.1 h
  split
  · exact .inl rfl
  · exact .inr rfl

theorem Reading.of_kind? {r : Reading} {b : Char} {rest : List Char} {kind : Kind}
    (h : (r.setting b).kind? rest = some kind) :
    (kind = .comment → (r.block || (!isLineBreak b && r.slashes)) = true) ∧
      (kind = .quoted → r.quote = true) := by
  unfold Reading.setting at h
  split at h
  · rename_i hcomment
    cases h
    exact ⟨fun _ => hcomment, by simp⟩
  · split at h
    · rename_i hquote
      cases h
      exact ⟨by simp, fun _ => hquote⟩
    · rcases Setting.code_kind? h with rfl | rfl <;> simp

/-- Where a kind is right about the keyword itself. An occurrence that counts as a comment is in
one at its keyword unless the keyword begins its line and no block comment is open there; one that
counts as quoted has a quote before it on its line unless the keyword begins the line. -/
theorem kind_at_keyword {t : List Char} {cursor : Option Nat} {onlyFirst : Bool}
    {os : List Occurrence} (h : positions t cursor onlyFirst = .ok os) {o : Occurrence}
    (ho : o ∈ os) :
    (o.kind = .comment → (inComment t (o.keyword t) = true ↔
      o.beginsLine t = false ∨ inBlockComment t (o.keyword t) = true)) ∧
    (o.kind = .quoted → (afterQuote t (o.keyword t) = true ↔ o.beginsLine t = false)) := by
  obtain ⟨k, hk, hclass⟩ := exists_token_of_positions h ho
  obtain ⟨before, b, l, rest, hp⟩ := parts_of_mem_tokens hk
  obtain ⟨hkind, hstart, -⟩ := classified_eq_ok.1 hclass
  have hword := keyword_of_classified hk hclass
  have hline : o.beginsLine t = (b :: l).any isLineBreak := by
    have hlen : k.keyword = (before ++ b :: l).length := by rw [hp.word, List.length_append]
    rw [Occurrence.beginsLine, hword, hstart, hp.start, hlen, hp.text, List.append_assoc _ keyword,
      slice, List.take_left, List.drop_left]
  obtain ⟨hblock, hslashes, hquote⟩ := read_to_keyword hp
  have hsetting : ((Reading.start.read before).setting b).kind? rest = some o.kind := by
    rw [classify_eq hp] at hkind
    cases hs : ((Reading.start.read before).setting b).kind? rest with
    | none => rw [hs] at hkind; cases hkind
    | some kind => rw [hs] at hkind; cases hkind; rfl
  rw [hword, hline, inComment, hblock, hslashes, hquote]
  obtain ⟨hcomment, hquoted⟩ := Reading.of_kind? hsetting
  constructor
  · intro hkind
    replace hcomment := hcomment hkind
    cases hb : (Reading.start.read before).block with
    | true => simp
    | false =>
      rw [hb, Bool.false_or, Bool.and_eq_true] at hcomment
      simp [hcomment.2]
  · intro hkind
    simp [hquoted hkind]

/-- Two keywords behind a comment and a quote of their own lines. -/
def sameLine : List Char :=
  "a // b synchronized c\n \"d synchronized e".toList

theorem kind_at_keyword_sameLine :
    ∃ o o', positions sameLine none false = .ok [o, o'] ∧
      o.kind = .comment ∧ inComment sameLine (o.keyword sameLine) = true ∧
      o'.kind = .quoted ∧ afterQuote sameLine (o'.keyword sameLine) = true := by
  have chars : sameLine = _ := String.toList_ofList
  have h : positions sameLine none false = .ok [⟨6, 20, .comment⟩, ⟨25, 39, .quoted⟩] := by
    rewrite [chars]
    with_unfolding_all decide
  have hline : Occurrence.beginsLine sameLine ⟨6, 20, .comment⟩ = false ∧
      Occurrence.beginsLine sameLine ⟨25, 39, .quoted⟩ = false := by
    rewrite [chars]
    with_unfolding_all decide
  have hcomment := (kind_at_keyword h (o := ⟨6, 20, .comment⟩) (by simp)).1 rfl
  have hquoted := (kind_at_keyword h (o := ⟨25, 39, .quoted⟩) (by simp)).2 rfl
  exact ⟨_, _, h, rfl, hcomment.2 (.inl hline.1), rfl, hquoted.2 hline.2⟩

/-- A field with a string above a method, and a comment with a blank at its end above another. -/
def methodsBelow : List Char :=
  "class A\x7b\n String s = \"x\";\n synchronized void f()\x7b\x7d\n // note \n synchronized void g()\x7b\x7d\n\x7d".toList

/-- Two methods that begin their lines are not taken for methods: the first one counts as quoted,
the second one as a comment, and at their keywords neither is. -/
theorem kind_from_line_above :
    ∃ o o', positions methodsBelow none false = .ok [o, o'] ∧
      o.kind = .quoted ∧ afterQuote methodsBelow (o.keyword methodsBelow) = false ∧
      o'.kind = .comment ∧ inComment methodsBelow (o'.keyword methodsBelow) = false := by
  have chars : methodsBelow = _ := String.toList_ofList
  refine ⟨⟨25, 40, .quoted⟩, ⟨59, 75, .comment⟩, ?_⟩
  rewrite [chars]
  with_unfolding_all decide

end LockMigration.Java
