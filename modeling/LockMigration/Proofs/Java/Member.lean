/-
The place of a member in its text. The searches that find the start of a member look back, so they
give the same place in every text that agrees up to the occurrence. That place is the start of the
text, the place just after a delimiter that is not in a comment, or a line break; without
annotations no such delimiter lies between it and the occurrence. The braces of the body lie after
the occurrence, the closing one behind the opening one.
-/
import LockMigration.Java.Body
import LockMigration.Java.MemberStart
import LockMigration.Proofs.Java.Reading

namespace LockMigration.Java

open Text

/-! ## Texts with a common beginning -/

section Common

variable {w y y' : List Char}

theorem filter_lt_positionsOf_append (p : Char → Bool) {n : Nat} (h : n ≤ w.length) :
    (positionsOf p (w ++ y)).filter (· < n) = (positionsOf p (w ++ y')).filter (· < n) := by
  refine filter_lt_marks_congr fun i hi => ?_
  have hlt : i < w.length := by omega
  simp only [List.head?_drop, List.getElem?_append_left hlt, List.length_append]
  rw [decide_eq_true (by omega), decide_eq_true (by omega)]

theorem lastBefore?_startsOf_append (word : List Char) {n : Nat}
    (h : n + word.length ≤ w.length + 1) (hne : word ≠ []) :
    lastBefore? n (startsOf word (w ++ y)) = lastBefore? n (startsOf word (w ++ y')) := by
  have hpos : 0 < word.length := List.length_pos_iff.2 hne
  refine congrArg List.getLast? (filter_lt_marks_congr fun i hi => ?_)
  have hlt : i < w.length := by omega
  have hword (z : List Char) : word.isPrefixOf ((w ++ z).drop i) = word.isPrefixOf (w.drop i) := by
    have hlen : word.length ≤ (w.drop i).length := by rw [List.length_drop]; omega
    rw [List.drop_append_of_le_length (by omega), Bool.eq_iff_iff, List.isPrefixOf_iff_prefix,
      List.isPrefixOf_iff_prefix]
    exact ⟨fun hp => List.prefix_of_prefix_length_le hp (List.prefix_append _ _) hlen,
      fun hp => hp.trans (List.prefix_append _ _)⟩
  rw [hword, hword, List.length_append, List.length_append, decide_eq_true (by omega),
    decide_eq_true (by omega)]

theorem lineStart_append {n : Nat} (h : n ≤ w.length) :
    lineStart (w ++ y) n = lineStart (w ++ y') n := by
  unfold lineStart lastBefore?
  rw [filter_lt_positionsOf_append isLineBreak h]

theorem inComment_append {i : Nat} (h : i + 2 ≤ w.length) :
    inComment (w ++ y) i = inComment (w ++ y') i := by
  have hb : inBlockComment (w ++ y) i = inBlockComment (w ++ y') i := by
    unfold inBlockComment
    rw [lastBefore?_startsOf_append ['/', '*'] (by simp; omega) (by simp),
      lastBefore?_startsOf_append ['*', '/'] (by simp; omega) (by simp)]
  have hl : inLineComment (w ++ y) i = inLineComment (w ++ y') i := by
    unfold inLineComment
    rw [lastBefore?_startsOf_append ['/', '/'] (by simp; omega) (by simp)]
    unfold lastBefore?
    rw [filter_lt_positionsOf_append isLineBreak (by omega)]
  unfold inComment
  rw [hb, hl]

/-- The first of the marks in a range that is not in a comment. -/
theorem find?_inComment_append {ps : List Nat} (h : ∀ i ∈ ps, i + 2 ≤ w.length) :
    ps.find? (fun i => !inComment (w ++ y) i) = ps.find? (fun i => !inComment (w ++ y') i) := by
  induction ps with
  | nil => rfl
  | cons i ps ih =>
    rw [List.find?_cons, List.find?_cons, inComment_append (h i (by simp)),
      ih fun j hj => h j (List.mem_cons_of_mem _ hj)]

theorem previousDelimiter_append {n : Nat} (h : n + 2 ≤ w.length) :
    previousDelimiter (w ++ y) n = previousDelimiter (w ++ y') n := by
  unfold previousDelimiter
  rw [filter_lt_positionsOf_append isDelimiter (by omega)]
  refine find?_inComment_append fun i hi => ?_
  have := (List.mem_filter.1 (List.mem_reverse.1 hi)).2
  simp only [decide_eq_true_eq] at this
  omega

theorem annotationSign_append {n : Nat} (h : n + 2 ≤ w.length) (low : Nat) :
    annotationSign (w ++ y) low n = annotationSign (w ++ y') low n := by
  have range (ps : List Nat) : ps.filter (fun i => low < i && i ≤ n) =
      (ps.filter (· < n + 1)).filter (low < ·) := by
    rw [List.filter_filter]
    refine List.filter_congr fun i _ => ?_
    simp only [Nat.lt_succ_iff]
  unfold annotationSign
  rw [range, range, filter_lt_positionsOf_append _ (by omega : n + 1 ≤ w.length)]
  refine find?_inComment_append fun i hi => ?_
  have := (List.mem_filter.1 (List.mem_filter.1 hi).1).2
  simp only [decide_eq_true_eq] at this
  omega

theorem annotationLine_append {n : Nat} (h : n + 2 ≤ w.length) (low : Nat) :
    annotationLine (w ++ y) low n = annotationLine (w ++ y') low n := by
  unfold annotationLine
  rw [@annotationSign_append w y y' n h low]
  rcases hs : annotationSign (w ++ y') low n with _ | i
  · rfl
  · have := (List.mem_filter.1 (List.mem_of_find?_eq_some hs)).2
    simp only [Bool.and_eq_true, decide_eq_true_eq] at this
    exact congrArg some (lineStart_append (by omega))

/-- The start of a member depends on the text up to its occurrence only. -/
theorem memberStart_append {o : Occurrence} (h : o.start + 2 ≤ w.length) :
    memberStart (w ++ y) o = memberStart (w ++ y') o := by
  have hd := @previousDelimiter_append w y y' o.start h
  have hl := @annotationLine_append w y y' o.start h
  have hs : lineStart (w ++ y) o.start = lineStart (w ++ y') o.start := lineStart_append (by omega)
  simp only [memberStart, hd, hl, hs]

end Common

/-! ## Where a member begins -/

theorem lineStart_mono (t : List Char) {m n : Nat} (h : m ≤ n) : lineStart t m ≤ lineStart t n := by
  obtain ⟨k, rfl⟩ := Nat.exists_eq_add_of_le h
  clear h
  induction k with
  | zero => exact Nat.le_refl _
  | succ k ih =>
    rw [← Nat.add_assoc, lineStart_succ]
    split
    · exact Nat.le_trans ih (lineStart_le t (m + k))
    · exact ih

theorem lineStart_eq_zero_or (t : List Char) (n : Nat) :
    lineStart t n = 0 ∨ ∃ c, t[lineStart t n]? = some c ∧ isLineBreak c = true := by
  unfold lineStart
  rcases h : lastBefore? n (positionsOf isLineBreak t) with _ | i
  · exact .inl rfl
  · exact .inr (mem_positionsOf.1 (mem_of_lastBefore? h))

theorem isDelimiter_of_isLineBreak {c : Char} (h : isLineBreak c = true) :
    isDelimiter c = false := by
  simp only [isLineBreak, Bool.or_eq_true, beq_iff_eq] at h
  rcases h with rfl | rfl <;> decide

/-- A delimiter that is not in a comment stands at position `i`. -/
def DelimiterAt (t : List Char) (i : Nat) : Prop :=
  (∃ c, t[i]? = some c ∧ isDelimiter c = true) ∧ inComment t i = false

theorem delimiterAt_of_previousDelimiter {t : List Char} {n d : Nat}
    (h : previousDelimiter t n = some d) : DelimiterAt t d ∧ d < n := by
  have hm := List.mem_filter.1 (List.mem_reverse.1 (List.mem_of_find?_eq_some h))
  have hc := List.find?_some h
  exact ⟨⟨mem_positionsOf.1 hm.1, by simpa using hc⟩, by simpa using hm.2⟩

theorem pairwise_marks (p : List Char → Bool) (t : List Char) : (marks p t).Pairwise (· < ·) := by
  rw [marks_eq_filter_range]
  exact List.pairwise_lt_range.sublist List.filter_sublist

/-- A search through a list in order finds the first member that it looks for. -/
theorem exists_find?_of_pairwise {r : Nat → Nat → Prop} {p : Nat → Bool} {ps : List Nat}
    (hps : ps.Pairwise r) {i : Nat} (hi : i ∈ ps) (h : p i = true) :
    ∃ a, ps.find? p = some a ∧ (a = i ∨ r a i) := by
  cases hf : ps.find? p with
  | none => exact absurd h (List.find?_eq_none.1 hf i hi)
  | some a =>
    obtain ⟨-, before, behind, rfl, hbefore⟩ := List.find?_eq_some_iff_append.1 hf
    refine ⟨a, rfl, ?_⟩
    rcases List.mem_append.1 hi with hi | hi
    · have := hbefore i hi
      rw [h] at this
      cases this
    · rcases List.mem_cons.1 hi with rfl | hi
      · exact .inl rfl
      · exact .inr (List.rel_of_pairwise_cons (List.pairwise_append.1 hps).2.1 hi)

/-- The previous delimiter is the last one. -/
theorem le_previousDelimiter {t : List Char} {n i : Nat} (h : DelimiterAt t i) (hi : i < n) :
    ∃ d, previousDelimiter t n = some d ∧ i ≤ d := by
  have hm : i ∈ ((positionsOf isDelimiter t).filter (· < n)).reverse :=
    List.mem_reverse.2 (List.mem_filter.2 ⟨mem_positionsOf.2 h.1, by simpa using hi⟩)
  have hp : ((positionsOf isDelimiter t).filter (· < n)).reverse.Pairwise (fun a b => b < a) :=
    List.pairwise_reverse.2 ((pairwise_marks _ t).sublist List.filter_sublist)
  obtain ⟨d, hd, hle⟩ :=
    exists_find?_of_pairwise (p := fun i => !inComment t i) hp hm (by rw [h.2]; rfl)
  exact ⟨d, hd, by omega⟩

/-- An annotation sign that is not in a comment stands at position `i`. -/
def SignAt (t : List Char) (i : Nat) : Prop :=
  t[i]? = some '@' ∧ inComment t i = false

theorem annotationSign_eq_some {t : List Char} {low high a : Nat}
    (h : annotationSign t low high = some a) : SignAt t a ∧ low < a ∧ a ≤ high := by
  obtain ⟨hmem, hrange⟩ := List.mem_filter.1 (List.mem_of_find?_eq_some h)
  obtain ⟨c, hc, hsign⟩ := mem_positionsOf.1 hmem
  rw [beq_iff_eq] at hsign
  rw [Bool.and_eq_true, decide_eq_true_eq, decide_eq_true_eq] at hrange
  exact ⟨⟨hsign ▸ hc, by simpa using List.find?_some h⟩, hrange⟩

/-- The line of a sign begins no later than the line of what comes behind the sign. -/
theorem annotationLine_le (t : List Char) (low high : Nat) :
    (annotationLine t low high).getD 0 ≤ lineStart t high := by
  unfold annotationLine
  cases hs : annotationSign t low high with
  | none => exact Nat.zero_le _
  | some a =>
    obtain ⟨-, -, hle⟩ := annotationSign_eq_some hs
    exact lineStart_mono t hle

theorem annotationLine_eq_zero_or (t : List Char) (low high : Nat) :
    (annotationLine t low high).getD 0 = 0 ∨
      ∃ c, t[(annotationLine t low high).getD 0]? = some c ∧ isLineBreak c = true := by
  unfold annotationLine
  cases annotationSign t low high with
  | none => exact .inl rfl
  | some a => exact lineStart_eq_zero_or t a

/-- The line of the occurrence itself does not matter. -/
theorem memberStart_eq_ite (t : List Char) (o : Occurrence) :
    memberStart t o =
      if (previousDelimiter t o.start).getD 0 ≤
          (annotationLine t ((previousDelimiter t o.start).getD 0) o.start).getD 0
      then (annotationLine t ((previousDelimiter t o.start).getD 0) o.start).getD 0
      else (previousDelimiter t o.start).getD 0 + 1 := by
  have hline := annotationLine_le t ((previousDelimiter t o.start).getD 0) o.start
  simp only [memberStart]
  rw [Nat.min_eq_left hline]
  generalize (previousDelimiter t o.start).getD 0 = delimiter at hline ⊢
  generalize (annotationLine t delimiter o.start).getD 0 = annotation at hline ⊢
  by_cases h : delimiter ≤ annotation
  · rw [Nat.max_eq_right h, if_pos (.inr rfl), if_pos h]
  · rw [Nat.max_eq_left (by omega), if_neg (by omega), if_neg h]

/-- A member begins at the start of the text, after a delimiter, or with a line break. -/
theorem memberStart_spec (t : List Char) (o : Occurrence) :
    memberStart t o ≤ o.start ∧
      (memberStart t o = 0 ∨ (∃ d, memberStart t o = d + 1 ∧ DelimiterAt t d) ∨
        ∃ c, t[memberStart t o]? = some c ∧ isLineBreak c = true) := by
  have hdelim : (previousDelimiter t o.start).getD 0 = 0 ∨
      DelimiterAt t ((previousDelimiter t o.start).getD 0) ∧
        (previousDelimiter t o.start).getD 0 < o.start := by
    rcases h : previousDelimiter t o.start with _ | d
    · exact .inl rfl
    · exact .inr (delimiterAt_of_previousDelimiter h)
  have hline := annotationLine_le t ((previousDelimiter t o.start).getD 0) o.start
  have hstart := lineStart_le t o.start
  rw [memberStart_eq_ite]
  split
  · refine ⟨by omega, ?_⟩
    exact (annotationLine_eq_zero_or t _ o.start).elim .inl fun h => .inr (.inr h)
  · -- past the line of the annotation, so the delimiter decides
    obtain ⟨hd, hlt⟩ := hdelim.resolve_left (by omega)
    exact ⟨by omega, .inr (.inl ⟨_, rfl, hd⟩)⟩

/-- No delimiter but one at the very start of the text lies between the start of a member and its
occurrence. -/
theorem lt_memberStart {t : List Char} {o : Occurrence} {i : Nat} (h : DelimiterAt t i)
    (hpos : 0 < i) (hlt : i < o.start) : i < memberStart t o := by
  obtain ⟨d, hd, hle⟩ := le_previousDelimiter h hlt
  have hline : (annotationLine t d o.start).getD 0 ≠ d := by
    intro heq
    obtain ⟨⟨c, hc, hdelim⟩, -⟩ := (delimiterAt_of_previousDelimiter hd).1
    rcases annotationLine_eq_zero_or t d o.start with h0 | ⟨e, he, hbreak⟩
    · omega
    · rw [heq, hc] at he
      cases he
      rw [isDelimiter_of_isLineBreak hbreak] at hdelim
      cases hdelim
  rw [memberStart_eq_ite, hd, Option.getD_some]
  split
  · omega
  · omega

/-- Without annotations a member begins after the last delimiter that is not in a comment; one at
the very start of the text does not count. -/
theorem memberStart_of_no_sign {t : List Char} (h : '@' ∉ t) (o : Occurrence) :
    (memberStart t o = 0 ∨ ∃ d, memberStart t o = d + 1 ∧ DelimiterAt t d) ∧
      ∀ i, DelimiterAt t i → 0 < i → i < o.start → i < memberStart t o := by
  have hsign (low : Nat) : annotationLine t low o.start = none := by
    have : positionsOf (· == '@') t = [] := by
      refine List.eq_nil_iff_forall_not_mem.2 fun i hi => ?_
      obtain ⟨c, hc, he⟩ := mem_positionsOf.1 hi
      rw [beq_iff_eq] at he
      subst he
      exact h (List.mem_of_getElem? hc)
    simp [annotationLine, annotationSign, this]
  have heq : memberStart t o = if (previousDelimiter t o.start).getD 0 = 0 then 0
      else (previousDelimiter t o.start).getD 0 + 1 := by
    simp only [memberStart, hsign, Option.getD_none, Nat.zero_min, Nat.max_zero, or_self]
    split
    · rename_i hd; exact hd
    · rfl
  constructor
  · rw [heq]
    split
    · exact .inl rfl
    · rename_i hne
      rcases hp : previousDelimiter t o.start with _ | d
      · rw [hp] at hne; exact absurd rfl hne
      · exact .inr ⟨d, rfl, (delimiterAt_of_previousDelimiter hp).1⟩
  · exact fun i hi hpos hlt => lt_memberStart hi hpos hlt

/-! ## The braces of a body -/

/-- The closing brace is a brace, and from depth zero an opening brace stands before it. -/
theorem closingIndex?_spec {depth : Int} {t : List Char} {k : Nat}
    (h : closingIndex? depth t = some k) :
    ∃ x y, t = x ++ '}' :: y ∧ x.length = k ∧ (depth ≤ 0 → '{' ∈ x) := by
  induction t generalizing depth k with
  | nil => cases h
  | cons c t ih =>
    have cons {d : Int} (h : (closingIndex? d t).map (· + 1) = some k) (hc : depth ≤ 0 → c = '{' ∨ d ≤ 0) :
        ∃ x y, c :: t = x ++ '}' :: y ∧ x.length = k ∧ (depth ≤ 0 → '{' ∈ x) := by
      obtain ⟨j, hj, rfl⟩ := Option.map_eq_some_iff.1 h
      obtain ⟨x, y, rfl, hx, hm⟩ := ih hj
      refine ⟨c :: x, y, rfl, by rw [List.length_cons, hx], fun hd => ?_⟩
      rcases hc hd with rfl | hd
      · exact List.mem_cons_self
      · exact List.mem_cons_of_mem _ (hm hd)
    rw [closingIndex?] at h
    split at h
    · rename_i hc
      exact cons h fun _ => .inl hc
    · split at h
      · rename_i hc
        split at h
        · rename_i hd
          cases h
          exact ⟨[], t, by rw [hc]; rfl, rfl, fun h => by omega⟩
        · exact cons h fun hd => .inr (by omega)
      · exact cons h fun hd => .inr hd

theorem closingIndex?_append {x : List Char} (hx : '{' ∉ x ∧ '}' ∉ x) (depth : Int) (y : List Char) :
    closingIndex? depth (x ++ y) = (closingIndex? depth y).map (· + x.length) := by
  induction x with
  | nil => simp
  | cons c x ih =>
    obtain ⟨hopen, hclose⟩ := hx
    rw [List.mem_cons, not_or] at hopen hclose
    rw [List.cons_append, closingIndex?, if_neg (Ne.symm hopen.1), if_neg (Ne.symm hclose.1),
      ih ⟨hopen.2, hclose.2⟩, Option.map_map]
    rfl

/-- The opening brace is the first one from the end of the occurrence on. -/
theorem openBrace_spec {t : List Char} {o : Occurrence} {opening : Nat}
    (h : openBrace t o = .ok opening) :
    o.stop ≤ opening ∧ t[opening]? = some '{' ∧
      ∀ i, o.stop ≤ i → i < opening → t[i]? ≠ some '{' := by
  unfold openBrace at h
  split at h
  · rename_i k hk
    cases h
    obtain ⟨hlt, hbrace, hfirst⟩ := List.findIdx?_eq_some_iff_getElem.1 hk
    rw [beq_iff_eq] at hbrace
    refine ⟨Nat.le_add_right _ _, ?_, ?_⟩
    · rw [← List.getElem?_drop, List.getElem?_eq_getElem hlt, hbrace]
    · intro i hle hi hchar
      obtain ⟨j, rfl⟩ := Nat.exists_eq_add_of_le hle
      rw [← List.getElem?_drop] at hchar
      obtain ⟨_, hchar⟩ := List.getElem?_eq_some_iff.1 hchar
      exact hfirst j (by omega) (by rw [hchar]; rfl)
  · cases h

/-- The parts that the braces of a body cut the text after the occurrence into. -/
theorem braces_parts {t : List Char} {o : Occurrence} {opening closing : Nat}
    (ho : openBrace t o = .ok opening) (hc : closeBrace t o = .ok closing) :
    ∃ head body after, t.drop o.stop = head ++ '{' :: (body ++ '}' :: after) ∧ '{' ∉ head ∧
      opening = o.stop + head.length ∧ closing = o.stop + head.length + 1 + body.length := by
  unfold openBrace at ho
  unfold closeBrace at hc
  split at ho
  · rename_i i hi
    split at hc
    · rename_i k hk
      cases ho
      cases hc
      obtain ⟨x, after, hx, rfl, hm⟩ := closingIndex?_spec hk
      obtain ⟨head, body, rfl, hhead⟩ := List.eq_append_cons_of_mem (hm (Int.le_refl 0))
      have hlen : i = head.length := by
        rw [hx, List.append_assoc, List.cons_append, List.findIdx?_append,
          List.findIdx?_eq_none_iff.2 fun c hc => by
            simp only [beq_eq_false_iff_ne]; rintro rfl; exact hhead hc] at hi
        simpa [List.findIdx?_cons] using hi.symm
      refine ⟨head, body, after, by rw [hx]; simp, hhead, by rw [hlen], ?_⟩
      simp only [List.length_append, List.length_cons]
      omega
    · cases hc
  · cases ho

end LockMigration.Java
