/-
The list of all occurrences and the report that is made of it. `positions_exact` says what a scan of
a whole text gives: the delimited keywords, each with its blanks, its kind and the number of the
line it stands on, or, where the last keyword is followed by blanks only, the fault that names it.
-/
import LockMigration.Java.Scan
import LockMigration.Proofs.Java.Tokens
import LockMigration.Proofs.Text.Octets

namespace LockMigration.Java

open Text

attribute [local irreducible] keyword

/-! ## Lines -/

/-- The keyword at position `k` stands as a whole on the line with number `n`. -/
def OnLine (t : List Char) (k n : Nat) : Prop :=
  ∃ m u v, n = m + 1 ∧ (t.splitOn '\n')[m]? = some (u ++ keyword ++ v) ∧
    k = (((t.splitOn '\n').take m).flatMap (· ++ ['\n'])).length + u.length

theorem splitOn_keyword (rest : List Char) :
    ∃ v ls, (keyword ++ rest).splitOn '\n' = (keyword ++ v) :: ls := by
  have hword : ∀ w : List Char, '\n' ∉ w →
      ∃ v ls, (w ++ rest).splitOn '\n' = (w ++ v) :: ls := by
    intro w hw
    induction w with
    | nil => exact List.exists_cons_of_ne_nil (List.splitOn_ne_nil _ _)
    | cons c w ih =>
      obtain ⟨v, ls, hsplit⟩ := ih fun h => hw (List.mem_cons_of_mem c h)
      have hc : (c == '\n') = false := by
        rw [beq_eq_false_iff_ne]
        rintro rfl
        exact hw List.mem_cons_self
      refine ⟨v, ls, ?_⟩
      rw [List.splitOn] at hsplit
      rw [List.splitOn, List.cons_append, List.splitOnP_cons_eq_if_modifyHead, hc, hsplit]
      rfl
  apply hword
  rw [keyword_eq]
  decide

theorem onLine_count (x rest : List Char) :
    OnLine (x ++ (keyword ++ rest)) x.length (x.count '\n' + 1) := by
  induction x with
  | nil =>
    obtain ⟨v, ls, hsplit⟩ := splitOn_keyword rest
    exact ⟨0, [], v, rfl, by rw [List.nil_append, hsplit]; rfl, rfl⟩
  | cons c x ih =>
    obtain ⟨m, u, v, hm, hline, hlen⟩ := ih
    obtain ⟨l, ls, hsplit⟩ := List.exists_cons_of_ne_nil
      (List.splitOn_ne_nil '\n' (x ++ (keyword ++ rest)))
    rw [hsplit] at hline hlen
    have hcons : (c :: x ++ (keyword ++ rest)).splitOn '\n' =
        if c == '\n' then [] :: l :: ls else (c :: l) :: ls := by
      rw [List.splitOn] at hsplit
      rw [List.splitOn, List.cons_append, List.splitOnP_cons_eq_if_modifyHead, hsplit]
      rfl
    by_cases hc : (c == '\n') = true
    · -- a line break puts one more line before the keyword
      refine ⟨m + 1, u, v, ?_, ?_, ?_⟩
      · rw [List.count_cons, if_pos hc, hm]
      · rw [hcons, if_pos hc, List.getElem?_cons_succ, hline]
      · rw [hcons, if_pos hc, List.length_cons, hlen]
        simp [Nat.add_comm, Nat.add_left_comm]
    · rw [OnLine, hcons, if_neg hc, List.count_cons, if_neg hc, Nat.add_zero, hm, List.length_cons,
        hlen]
      -- any other character makes the first line longer, and that may be the keyword's own
      cases m with
      | zero =>
        rw [List.getElem?_cons_zero] at hline
        obtain rfl := Option.some.inj hline
        exact ⟨0, c :: u, v, rfl, rfl, by simp⟩
      | succ m =>
        refine ⟨m + 1, u, v, rfl, hline, ?_⟩
        simp only [List.take_succ_cons, List.flatMap_cons, List.length_append, List.length_cons]
        omega

theorem onLine_lineNumber {t : List Char} {k : Token} (hk : k ∈ tokens t) :
    OnLine t k.keyword (lineNumber t k.keyword) := by
  obtain ⟨before, b, l, rest, hp⟩ := parts_of_mem_tokens hk
  have htext : t = (before ++ b :: l) ++ (keyword ++ rest) := by rw [hp.text, List.append_assoc]
  have hword : k.keyword = (before ++ b :: l).length := by rw [hp.word, List.length_append]
  rw [lineNumber, htext, hword, List.take_left]
  exact onLine_count _ rest

/-! ## The list of all occurrences -/

/-- The occurrence is the keyword at position `k` with all the blanks before it and, behind it, the
parenthesis or else all the blanks. -/
structure Occurrence.Spans (t : List Char) (o : Occurrence) (k : Nat) : Prop where
  lead : BlankRun t o.start k
  paren : t[k + Java.keyword.length]? = some '(' → o.stop = k + Java.keyword.length + 1 ∧
    byteOffset t o.stop = byteOffset t k + 13
  blanks : t[k + Java.keyword.length]? ≠ some '(' → BlankRun t (k + Java.keyword.length) o.stop

/-- The entry reports the occurrence: its ends in bytes, and the line that holds its keyword. -/
structure ScanEntry.Reports (path : Path) (t : List Char) (o : Occurrence) (e : ScanEntry) :
    Prop where
  path : e.path = path
  span : (e.start, e.stop) = o.byteSpan t
  kind : e.kind = o.kind
  line : OnLine t (o.keyword t) e.line

/-- The last delimited keyword of the text stands at position `k`, in code, behind blanks that
begin at position `s`, and nothing but blanks follows it. -/
structure Dangling (t : List Char) (s k : Nat) : Prop where
  delimited : Delimited t k
  final : ∀ j, Delimited t j → j ≤ k
  blanks : ∀ c ∈ t.drop (k + keyword.length), isBlank c = true
  lead : BlankRun t s k
  code : inComment t s = false ∧ afterQuote t s = false

theorem spans_of_classified {t : List Char} {k : Token} {o : Occurrence} (hk : k ∈ tokens t)
    (h : k.classified t = .ok o) : o.Spans t k.keyword := by
  obtain ⟨before, b, l, rest, hp⟩ := parts_of_mem_tokens hk
  obtain ⟨-, hstart, hstop⟩ := classified_eq_ok.1 h
  obtain ⟨hparen, hblanks⟩ := hp.ending
  refine ⟨hstart ▸ hp.blankRun_lead, fun hnext => ?_, fun hnext => ?_⟩
  · rw [hstop, hparen hnext]
    have hword : byteOffset (keyword ++ rest) keyword.length = 12 := by
      rw [byteOffset, List.take_left, keyword_eq]
      decide
    refine ⟨rfl, ?_⟩
    rw [byteOffset_add_one hnext (by decide), byteOffset_add, hp.text_at_keyword, hword]
  · rw [hstop]
    exact hblanks hnext

theorem reports_ofOccurrence (path : Path) {t : List Char} {k : Token} {o : Occurrence}
    (hk : k ∈ tokens t) (h : k.classified t = .ok o) :
    ScanEntry.Reports path t o (.ofOccurrence path t o) := by
  refine ⟨rfl, rfl, rfl, ?_⟩
  have hline := onLine_lineNumber hk
  rwa [← keyword_of_classified hk h] at hline

theorem map_keyword_of_positions {t : List Char} {os : List Occurrence}
    (h : positions t none false = .ok os) :
    os.map (Occurrence.keyword t) = (tokens t).map Token.keyword := by
  have hroles := congrArg (List.map Prod.fst) ((tokens_roles t).trans (roles_of_positions h))
  rw [List.map_map, List.map_map] at hroles
  exact hroles.symm

theorem map_start_of_positions {t : List Char} {os : List Occurrence}
    (h : positions t none false = .ok os) :
    os.map Occurrence.start = (tokens t).map Token.start := by
  rw [eq_comm, ← List.forall₂_eq_eq_eq, List.forall₂_map_left_iff, List.forall₂_map_right_iff]
  exact (forall₂_of_positions h).imp fun k o hko => (classified_eq_ok.1 hko).2.1.symm

/-- A failure is the failure of a dangling keyword. -/
theorem dangling_of_error {t : List Char} {e : Fault} (h : positions t none false = .error e) :
    ∃ s k, Dangling t s k ∧ e = .unclassifiable (byteOffset t s) := by
  obtain ⟨ks, k, os, htokens, -, hk⟩ := positions_eq_error h
  have hkmem : k ∈ tokens t := by rw [htokens]; simp
  obtain ⟨before, b, l, rest, hp⟩ := parts_of_mem_tokens hkmem
  obtain ⟨hcomment, hquote, hblanks, rfl⟩ := (classify_eq_error hp).1 (classified_eq_error.1 hk)
  refine ⟨k.start, k.keyword, ⟨hp.isMatch.delimited, fun j hj => ?_, ?_, hp.blankRun_lead, hcomment,
    hquote⟩, rfl⟩
  · have hpair := pairwise_keyword_tokens t
    have hmem := mem_map_keyword_tokens.2 hj
    rw [htokens, List.map_append, List.pairwise_append] at hpair
    rw [htokens, List.map_append, List.mem_append] at hmem
    rcases hmem with hj | hj
    · exact Nat.le_of_lt (hpair.2.2 j hj _ List.mem_cons_self)
    · exact Nat.le_of_eq (List.mem_singleton.1 hj)
  · rw [← List.drop_drop, hp.text_at_keyword, List.drop_left]
    exact hblanks

theorem Dangling.exists_error {t : List Char} {s k : Nat} (h : Dangling t s k) :
    ∃ tok ∈ tokens t, tok.classified t = .error (.unclassifiable (byteOffset t s)) := by
  obtain ⟨tok, htok, rfl⟩ := h.delimited.exists_token
  obtain ⟨before, b, l, rest, hp⟩ := parts_of_mem_tokens htok
  obtain rfl := hp.blankRun_lead.start_unique h.lead
  have hblanks := h.blanks
  rw [← List.drop_drop, hp.text_at_keyword, List.drop_left] at hblanks
  exact ⟨tok, htok, classified_eq_error.2
    ((classify_eq_error hp).2 ⟨h.code.1, h.code.2, hblanks, rfl⟩)⟩

theorem Dangling.unique {t : List Char} {s s' k k' : Nat} (h : Dangling t s k)
    (h' : Dangling t s' k') : s = s' := by
  obtain rfl := Nat.le_antisymm (h'.final k h.delimited) (h.final k' h'.delimited)
  exact h.lead.start_unique h'.lead

theorem positions_eq_error_iff {t : List Char} {e : Fault} :
    positions t none false = .error e ↔
      ∃ s k, Dangling t s k ∧ e = .unclassifiable (byteOffset t s) := by
  refine ⟨dangling_of_error, ?_⟩
  rintro ⟨s, k, hd, rfl⟩
  cases hpos : positions t none false with
  | ok os =>
    exfalso
    obtain ⟨tok, htok, herror⟩ := hd.exists_error
    rw [positions_all] at hpos
    obtain ⟨o, -, ho⟩ := ok_of_mem_mapM hpos htok
    rw [herror] at ho
    cases ho
  | error e =>
    obtain ⟨s', k', hd', rfl⟩ := dangling_of_error hpos
    rw [hd.unique hd']

/-- What the scan of a whole text reports. Where it succeeds, the occurrences are the delimited
keywords of the text, one for one and in order, each with all the blanks around it, and every one
of them is reported with the line that holds it. It fails exactly on a text whose last delimited
keyword dangles, and the fault names the start of that one. -/
theorem positions_exact (path : Path) (t : List Char) :
    (∀ os, positions t none false = .ok os →
      (os.map (Occurrence.keyword t)).Pairwise (· < ·) ∧
      (∀ k, k ∈ os.map (Occurrence.keyword t) ↔ Delimited t k) ∧
      (os.map Occurrence.start).Pairwise (· < ·) ∧
      (∀ o ∈ os, o.Spans t (o.keyword t)) ∧
      ∃ es, scanSource path t = .ok es ∧ List.Forall₂ (ScanEntry.Reports path t) os es) ∧
    ∀ e, positions t none false = .error e ↔
      ∃ s k, Dangling t s k ∧ e = .unclassifiable (byteOffset t s) := by
  refine ⟨fun os h => ⟨?_, fun k => ?_, ?_, fun o ho => ?_, ?_⟩, fun e => positions_eq_error_iff⟩
  · rw [map_keyword_of_positions h]
    exact pairwise_keyword_tokens t
  · rw [map_keyword_of_positions h]
    exact mem_map_keyword_tokens
  · rw [map_start_of_positions h]
    exact List.pairwise_map.2 (pairwise_tokens t)
  · obtain ⟨k, hk, hclass⟩ := exists_token_of_positions h ho
    rw [keyword_of_classified hk hclass]
    exact spans_of_classified hk hclass
  · refine ⟨os.map (.ofOccurrence path t), by rw [scanSource, h]; rfl, ?_⟩
    rw [List.forall₂_map_right_iff, List.forall₂_same]
    intro o ho
    obtain ⟨k, hk, hclass⟩ := exists_token_of_positions h ho
    exact reports_ofOccurrence path hk hclass

/-- Two keywords on lines of their own that share the blanks between them. -/
def sharedBlanks : List Char :=
  "a synchronized\n synchronized(b)".toList

/-- The same with a keyword behind them that dangles. -/
def danglingKeyword : List Char :=
  sharedBlanks ++ " synchronized\n".toList

theorem positions_exact_sharedBlanks :
    positions sharedBlanks none false = .ok [⟨1, 16, .method⟩, ⟨14, 29, .monitor⟩] ∧
      Delimited sharedBlanks 16 ∧
      (Occurrence.mk 14 29 .monitor).Spans sharedBlanks 16 ∧
      (∃ e e', scanSource (.ofString "A.java") sharedBlanks = .ok [e, e'] ∧
        OnLine sharedBlanks 16 e'.line) ∧
      ∃ s k, Dangling danglingKeyword s k ∧ byteOffset danglingKeyword s = 31 := by
  have chars : sharedBlanks = _ := String.toList_ofList
  have hok : positions sharedBlanks none false = .ok [⟨1, 16, .method⟩, ⟨14, 29, .monitor⟩] := by
    rewrite [chars]
    with_unfolding_all decide
  have herror : positions danglingKeyword none false = .error (.unclassifiable 31) := by
    rewrite [danglingKeyword, chars]
    with_unfolding_all decide
  have hword : (Occurrence.mk 14 29 .monitor).keyword sharedBlanks = 16 := by
    rewrite [chars]
    with_unfolding_all decide
  obtain ⟨-, hdelim, -, hspans, es, hes, hreports⟩ :=
    (positions_exact (.ofString "A.java") sharedBlanks).1 _ hok
  obtain ⟨s, k, hd, hs⟩ := ((positions_exact (.ofString "A.java") danglingKeyword).2 _).1 herror
  refine ⟨hok, (hdelim 16).1 ?_, hword ▸ hspans ⟨14, 29, .monitor⟩ (by simp), ?_, s, k, hd, ?_⟩
  · rw [← hword]
    exact List.mem_map_of_mem (by simp)
  · obtain _ | ⟨-, _ | ⟨hsecond, _ | _⟩⟩ := hreports
    exact ⟨_, _, hes, hword ▸ hsecond.line⟩
  · injection hs with hs
    exact hs.symm

end LockMigration.Java
