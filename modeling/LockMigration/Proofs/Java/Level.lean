/-
The level at which fields are inserted. The place is found by looking back for a delimiter and for
annotations, with rules that know nothing of literals and argument lists. Where those rules see the
delimiters before a keyword as the language does, `memberStart_level` says that the place is in the
same braces as the keyword, and at the same level of parentheses unless it is in an argument list.
`memberStart_off_level` shows what happens where they do not, and in an argument list.
-/
import LockMigration.Proofs.Java.Keyword
import LockMigration.Proofs.Java.Member
import LockMigration.Proofs.Java.Occurrences
import LockMigration.Proofs.Java.Zone

namespace LockMigration.Java

open Text

attribute [local irreducible] keyword

/-- A delimiter stands at position `i`, in code. -/
def CodeDelimiter (t : List Char) (i : Nat) : Prop :=
  t[i]?.any isDelimiter = true ∧ (zoneAt t i).isCode = true

instance (t : List Char) (i : Nat) : Decidable (CodeDelimiter t i) :=
  inferInstanceAs (Decidable (_ ∧ _))

/-- From the last delimiter in code before position `n` on, the context rules tell the delimiters
in code from the others, and no line ends inside a literal. -/
structure Legible (t : List Char) (n : Nat) : Prop where
  delimiter : ∀ i < n, (∀ j < n, i < j → ¬ CodeDelimiter t j) → t[i]?.any isDelimiter = true →
    (inComment t i = false ↔ (zoneAt t i).isCode = true)
  line : ∀ i < n, (∀ j < n, i < j → ¬ CodeDelimiter t j) → t[i]?.any isLineBreak = true →
    (zoneAt t i).isLiteral = false

theorem exists_last_codeDelimiter {t : List Char} {i n : Nat} (h : CodeDelimiter t i) (hi : i < n) :
    ∃ m, i ≤ m ∧ m < n ∧ CodeDelimiter t m ∧ ∀ j < n, m < j → ¬ CodeDelimiter t j := by
  induction n with
  | zero => omega
  | succ n ih =>
    by_cases hn : CodeDelimiter t n
    · exact ⟨n, by omega, by omega, hn, fun j hj hlt => by omega⟩
    · have hne : i ≠ n := by rintro rfl; exact hn h
      obtain ⟨m, him, hmn, hm, hlast⟩ := ih (by omega)
      refine ⟨m, him, by omega, hm, fun j hj hlt => ?_⟩
      rcases Nat.lt_succ_iff_lt_or_eq.1 hj with hj | rfl
      · exact hlast j hj hlt
      · exact hn

theorem zoneAt_succ {t : List Char} {i : Nat} {c : Char} (h : t[i]? = some c) :
    zoneAt t (i + 1) = (zoneAt t i).next c := by
  rw [zoneAt, List.take_add_one, h, Option.toList_some, Zone.read_append]
  rfl

theorem Zone.next_delimiter {z : Zone} {c : Char} (hz : z.isCode = true)
    (hc : isDelimiter c = true) : z.next c = .code := by
  simp only [isDelimiter, Bool.or_eq_true, beq_iff_eq] at hc
  rcases hc with (rfl | rfl) | rfl <;> cases z <;> first | rfl | cases hz

theorem take_append_slice (t : List Char) {i j : Nat} (h : i ≤ j) :
    t.take i ++ slice t i j = t.take j := by
  have htake := List.take_append_drop i (t.take j)
  rwa [List.take_take, Nat.min_eq_left h] at htake

section Occurrence

variable {t : List Char} {k : Token} {o : Occurrence} (hk : k ∈ tokens t)
  (ho : o.start = k.start) (hl : Legible t k.keyword)
include hk ho hl

/-- The delimiters in code before a keyword, but for one at the very start of the text, come before
the place of its fields. -/
theorem codeDelimiter_lt_memberStart {i : Nat} (h : CodeDelimiter t i) (hpos : 0 < i)
    (hlt : i < k.keyword) : i < memberStart t o := by
  -- the look-back finds the last of them, as it is not in a comment
  obtain ⟨m, him, hmn, hm, hlast⟩ := exists_last_codeDelimiter h hlt
  have hcomment := (hl.delimiter m hmn hlast hm.1).2 hm.2
  obtain ⟨c, hc, hdelim⟩ := (Option.any_eq_true _ _).1 hm.1
  have hstart := lt_start_of_lt_keyword hk hc (isBlank_of_isDelimiter hdelim) hmn
  have := lt_memberStart (o := o) ⟨⟨c, hc, hdelim⟩, hcomment⟩ (by omega) (by omega)
  omega

omit hl in
theorem memberStart_lt_keyword : memberStart t o < k.keyword := by
  have hle := (memberStart_spec t o).1
  have := start_lt_keyword hk
  omega

/-- The place of the fields is in no literal. -/
theorem isLiteral_memberStart : (zoneAt t (memberStart t o)).isLiteral = false := by
  have hlt := memberStart_lt_keyword hk ho
  have hlast : ∀ j < k.keyword, memberStart t o ≤ j → 0 < j → ¬ CodeDelimiter t j := by
    intro j hj hle hpos hcode
    have := codeDelimiter_lt_memberStart hk ho hl hcode hpos hj
    omega
  rcases (memberStart_spec t o).2 with hzero | ⟨d, hd, ⟨c, hc, hdelim⟩, hcomment⟩ | ⟨c, hc, hbreak⟩
  · rw [hzero]
    rfl
  · have hcode := (hl.delimiter d (by omega)
      (fun j hj hdj => hlast j hj (by omega) (by omega)) (by rw [hc]; exact hdelim)).1 hcomment
    rw [hd, zoneAt_succ hc, Zone.next_delimiter hcode hdelim]
    rfl
  · exact hl.line _ hlt (fun j hj hpj => hlast j hj (by omega) (by omega))
      (by rw [hc]; exact hbreak)

/-- No brace in code lies between the place of the fields and the keyword. -/
theorem not_mem_code_member (hnest : WellNested t) (hfirst : t.head? ≠ some '{') {c : Char}
    (hc : c = '{' ∨ c = '}') :
    c ∉ codeFrom (zoneAt t (memberStart t o)) (slice t (memberStart t o) k.keyword) := by
  intro hmem
  obtain ⟨x, y, hxy, hcode⟩ := mem_codeFrom hmem
  have hlt := memberStart_lt_keyword hk ho
  have hsplit := take_append_slice t (Nat.le_of_lt hlt)
  -- the text up to the brace
  obtain ⟨u, hu⟩ : ∃ u, t.take (memberStart t o) ++ x = u := ⟨_, rfl⟩
  rw [hxy, ← List.append_assoc, hu] at hsplit
  have ht : t = u ++ c :: (y ++ t.drop k.keyword) := by
    rw [← List.cons_append, ← List.append_assoc, hsplit, List.take_append_drop]
  have hlen := congrArg List.length ht
  have hulen := congrArg List.length hu
  have hbound := congrArg List.length hsplit
  simp only [List.length_append, List.length_cons, List.length_take] at hlen hulen hbound
  have hzone : (zoneAt t u.length).isCode = true := by
    have htake : t.take u.length = u := by rw [ht, List.take_left]
    rw [zoneAt, htake, ← hu, Zone.read_append]
    exact hcode
  have hdelim : isDelimiter c = true := by rcases hc with rfl | rfl <;> decide
  have hget : t[u.length]? = some c := by rw [ht]; simp
  rcases Nat.eq_zero_or_pos u.length with hzero | hpos
  · -- a brace at the very start is one that closes, and there is nothing to close
    rw [List.length_eq_zero_iff.1 hzero, List.nil_append] at ht
    rcases hc with rfl | rfl
    · exact hfirst (by rw [ht]; rfl)
    · rw [WellNested, ht] at hnest
      cases hnest
  · have := codeDelimiter_lt_memberStart hk ho hl ⟨by rw [hget]; exact hdelim, hzone⟩ hpos
      (by omega)
    omega

end Occurrence

/-- The place of the fields for an occurrence is outside of literals and in the same braces as the
keyword. If the keyword is in no argument list, the place is at the same level of parentheses
exactly when it is in none either. This is for a text whose brackets are well nested, which does
not begin with a brace, and in which the look-back rules see the delimiters before the keyword as
the language does. -/
theorem memberStart_level {t : List Char} {cursor : Option Nat} {onlyFirst : Bool}
    {os : List Occurrence} (hnest : WellNested t) (h : positions t cursor onlyFirst = .ok os)
    {o : Occurrence} (ho : o ∈ os) (hl : Legible t (o.keyword t)) (hfirst : t.head? ≠ some '{') :
    (zoneAt t (memberStart t o)).isLiteral = false ∧
    depth '{' t (memberStart t o) = depth '{' t (o.keyword t) ∧
    (inArguments t (o.keyword t) = false →
      (depth '(' t (memberStart t o) = depth '(' t (o.keyword t) ↔
        inArguments t (memberStart t o) = false)) := by
  obtain ⟨k, hk, hclass⟩ := exists_token_of_positions h ho
  obtain ⟨-, hstart, -⟩ := classified_eq_ok.1 hclass
  rw [keyword_of_classified hk hclass] at hl ⊢
  obtain ⟨opened, hopened⟩ := hnest.brackets?_take (memberStart t o)
  obtain ⟨opened', hopened'⟩ := hnest.brackets?_take k.keyword
  have hbetween : openAfter? opened (codeFrom (zoneAt t (memberStart t o))
      (slice t (memberStart t o) k.keyword)) = some opened' := by
    have hsplit := brackets?_append (t.take (memberStart t o))
      (slice t (memberStart t o) k.keyword)
    rw [take_append_slice t (Nat.le_of_lt (memberStart_lt_keyword hk hstart)), hopened',
      hopened, Option.bind_some] at hsplit
    exact hsplit.symm
  have hcounts := count_of_dropWhile (dropWhile_openAfter?
    ⟨not_mem_code_member hk hstart hl hnest hfirst (.inl rfl),
      not_mem_code_member hk hstart hl hnest hfirst (.inr rfl)⟩ hbetween)
  refine ⟨isLiteral_memberStart hk hstart hl, ?_, ?_⟩
  · simp only [depth, hopened, hopened', Option.getD_some]
    exact hcounts.1
  · simp only [depth, inArguments, hopened, hopened', Option.getD_some, beq_eq_false_iff_ne]
    exact hcounts.2

/-- A method with an annotation, below a comment that holds a delimiter. -/
def annotated : List Char :=
  "A\x7bb;//c;\n@D(\"e\")\nf synchronized g()\x7b\x7d\x7d".toList

theorem memberStart_level_annotated :
    positions annotated none false = .ok [⟨18, 32, .method⟩] ∧ WellNested annotated ∧
      Legible annotated 19 ∧ (zoneAt annotated 8).isLiteral = false ∧
      depth '{' annotated 8 = depth '{' annotated 19 ∧
      depth '(' annotated 8 = depth '(' annotated 19 := by
  have chars : annotated = _ := String.toList_ofList
  have h : positions annotated none false = .ok [⟨18, 32, .method⟩] := by
    rewrite [chars]
    with_unfolding_all decide
  have hnest : WellNested annotated := by rewrite [chars, WellNested]; decide
  have hl : Legible annotated 19 := by rewrite [chars]; exact ⟨by decide, by decide⟩
  have hword : Occurrence.keyword annotated ⟨18, 32, .method⟩ = 19 := by
    rewrite [chars]
    with_unfolding_all decide
  have hpos : memberStart annotated ⟨18, 32, .method⟩ = 8 := by rewrite [chars]; decide
  obtain ⟨hliteral, hbraces, hparens⟩ := memberStart_level hnest h
    (o := ⟨18, 32, .method⟩) (by simp) (by rwa [hword]) (by rewrite [chars]; decide)
  rw [hpos] at hliteral
  rw [hpos, hword] at hbraces hparens
  exact ⟨h, hnest, hl, hliteral, hbraces,
    (hparens (by rewrite [chars]; decide)).2 (by rewrite [chars]; decide)⟩

/-- Three methods, behind an annotation with a brace among its arguments, behind an annotation with
a delimiter in a string, and behind a method with slashes in a string. -/
def decorated : List Char :=
  "class A\x7b\n @B(\x7b1\x7d)\n public synchronized void f()\x7b\x7d\n @B(\"c;d\")\n public synchronized void g()\x7b\x7d\n void u()\x7b v(\"//\"); \x7d\n public synchronized void h()\x7b\x7d\n\x7d".toList

/-- The fields of the first method go among the arguments, those of the second one into the string,
and those of the third one into the body of the method before it. -/
theorem memberStart_off_level :
    ∃ f g h, WellNested decorated ∧ positions decorated none false = .ok [f, g, h] ∧
      (f.kind = .method ∧
        depth '(' decorated (memberStart decorated f) ≠ depth '(' decorated (f.keyword decorated)) ∧
      (g.kind = .method ∧ (zoneAt decorated (memberStart decorated g)).isLiteral = true) ∧
      (h.kind = .method ∧
        depth '{' decorated (memberStart decorated h) ≠ depth '{' decorated (h.keyword decorated)) := by
  set_option maxRecDepth 1000 in
  have chars : decorated = _ := String.toList_ofList
  refine ⟨⟨25, 39, .method⟩, ⟨68, 82, .method⟩, ⟨122, 136, .method⟩, ?_⟩
  rewrite [chars, WellNested]
  set_option maxRecDepth 4000 in
  with_unfolding_all decide

end LockMigration.Java
