/-
Whose body a guard is put into. The search takes the first opening brace behind the keyword, in code
or not, and it passes over the semicolons and closing braces on its way. A declaration that ends
without a body therefore has the next block of the file locked in its place (`locks_next_body`).

`locks_own_body` says when that does not happen: exactly if the first delimiter behind the keyword
that is not in a comment opens a body or stands behind the brace that was taken. The closing brace is
counted from the keyword as well, and it closes the opening one exactly if no closing brace stands
between them and the keyword.
-/
import LockMigration.Proofs.Conversion.Braces
import LockMigration.Proofs.Java.Braces

namespace LockMigration.Conversion

open Text Java

/-! ## Closing braces -/

/-- A body that is searched from inside has its braces well nested up to its end. -/
theorem depthAfter?_of_closingIndex? {n k : Nat} {t : List Char}
    (h : closingIndex? (n + 1 : Int) t = some k) : depthAfter? n (t.take k) = some 0 := by
  induction t generalizing n k with
  | nil => cases h
  | cons c t ih =>
    rw [closingIndex?] at h
    by_cases hopen : c = '{'
    · rw [if_pos hopen] at h
      obtain ⟨j, hj, rfl⟩ := Option.map_eq_some_iff.1 h
      rw [List.take_succ_cons, depthAfter?_cons, if_pos hopen]
      exact ih hj
    rw [if_neg hopen] at h
    by_cases hclose : c = '}'
    · rw [if_pos hclose] at h
      by_cases hn : n = 0
      · subst hn
        cases h
        rfl
      · rw [if_neg (by omega)] at h
        obtain ⟨j, hj, rfl⟩ := Option.map_eq_some_iff.1 h
        rw [List.take_succ_cons, depthAfter?_cons, if_neg hopen, if_pos hclose, if_neg hn]
        refine ih ?_
        rwa [show ((n - 1 : Nat) + 1 : Int) = n + 1 - 1 by omega]
    · rw [if_neg hclose] at h
      obtain ⟨j, hj, rfl⟩ := Option.map_eq_some_iff.1 h
      rw [List.take_succ_cons, depthAfter?_cons, if_neg hopen, if_neg hclose]
      exact ih hj

/-- The brace that ends a body closes the one that begins it exactly if none closes before. -/
theorem braced_body_iff {head body after : List Char} (hhead : '{' ∉ head)
    (h : closingIndex? 0 (head ++ '{' :: (body ++ '}' :: after)) =
      some (head.length + 1 + body.length)) : Braced body ↔ '}' ∉ head := by
  constructor
  · intro hbraced
    obtain ⟨⟨-, hcount⟩, -⟩ := closingIndex?_eq_some_iff.1 h
    have htake : (head ++ '{' :: (body ++ '}' :: after)).take (head.length + 1 + body.length + 1) =
        head ++ '{' :: (body ++ ['}']) := by
      rw [show head ++ '{' :: (body ++ '}' :: after) = head ++ '{' :: (body ++ ['}']) ++ after by simp]
      exact List.take_left' (by simp; omega)
    rw [htake] at hcount
    simp only [List.count_append, List.count_cons, List.count_nil] at hcount
    have htotal := hbraced.total
    rw [List.count_eq_zero.2 hhead] at hcount
    rw [← List.count_eq_zero]
    simp at hcount
    omega
  · intro hclose
    rw [closingIndex?_append ⟨hhead, hclose⟩, closingIndex?, if_pos rfl, Option.map_map,
      Option.map_eq_some_iff] at h
    obtain ⟨k, hk, hlen⟩ := h
    obtain rfl : k = body.length := by
      have : k + 1 + head.length = head.length + 1 + body.length := hlen
      omega
    have := depthAfter?_of_closingIndex? (n := 0) hk
    rw [List.take_left] at this
    exact braced_iff.2 this

/-! ## Ends of declarations -/

/-- A semicolon or a closing brace stands at position `i`, and it is not in a comment. -/
def EndsAt (t : List Char) (i : Nat) : Prop :=
  (t[i]? = some ';' ∨ t[i]? = some '}') ∧ inComment t i = false

/-- The first delimiter from position `n` on that is not in a comment stands at `d`. -/
structure NextDelimiter (t : List Char) (n d : Nat) : Prop where
  le : n ≤ d
  here : DelimiterAt t d
  first : ∀ i, n ≤ i → i < d → ¬ DelimiterAt t i

theorem EndsAt.delimiterAt {t : List Char} {i : Nat} (h : EndsAt t i) : DelimiterAt t i := by
  obtain ⟨hchar, hcomment⟩ := h
  refine ⟨?_, hcomment⟩
  rcases hchar with hchar | hchar
  · exact ⟨';', hchar, by decide⟩
  · exact ⟨'}', hchar, by decide⟩

theorem endsAt_of_delimiterAt {t : List Char} {i : Nat} (h : DelimiterAt t i)
    (hne : t[i]? ≠ some '{') : EndsAt t i := by
  obtain ⟨⟨c, hc, hdelimiter⟩, hcomment⟩ := h
  refine ⟨?_, hcomment⟩
  simp only [isDelimiter, Bool.or_eq_true, beq_iff_eq] at hdelimiter
  rcases hdelimiter with (rfl | rfl) | rfl
  · exact .inl hc
  · exact absurd hc hne
  · exact .inr hc

theorem exists_nextDelimiter {t : List Char} {n i : Nat} (h : DelimiterAt t i) (hn : n ≤ i) :
    ∃ d ≤ i, NextDelimiter t n d := by
  induction i using Nat.strongRecOn with
  | ind i ih =>
    by_cases hearlier : ∃ j, n ≤ j ∧ j < i ∧ DelimiterAt t j
    · obtain ⟨j, hj, hji, hd⟩ := hearlier
      obtain ⟨d, hdj, hnext⟩ := ih j hji hd hj
      exact ⟨d, by omega, hnext⟩
    · exact ⟨i, Nat.le_refl i, hn, h, fun j hj hji hd => hearlier ⟨j, hj, hji, hd⟩⟩

/-- Nothing ends before the first opening brace exactly if the first delimiter opens a body or
stands behind that brace. -/
theorem unended_iff {t : List Char} {n opening : Nat}
    (hfirst : ∀ i, n ≤ i → i < opening → t[i]? ≠ some '{') (hopen : t[opening]? = some '{') :
    (∀ i, n ≤ i → i < opening → ¬ EndsAt t i) ↔
      ∀ d, NextDelimiter t n d → t[d]? = some '{' ∨ opening < d := by
  constructor
  · intro h d hd
    by_cases hbrace : t[d]? = some '{'
    · exact .inl hbrace
    · have hends := endsAt_of_delimiterAt hd.here hbrace
      have hle : opening ≤ d := by
        by_contra hlt
        exact h d hd.le (by omega) hends
      have hne : opening ≠ d := by
        rintro rfl
        exact hbrace hopen
      exact .inr (by omega)
  · intro h i hn hi hends
    obtain ⟨d, hdi, hd⟩ := exists_nextDelimiter hends.delimiterAt hn
    rcases h d hd with hbrace | hlt
    · exact hfirst d hd.le (by omega) hbrace
    · omega

/-! ## The body that is locked -/

namespace Frame.Found

variable {m : Frame} {o : Occurrence}

theorem drop_stop (h : m.Found o) :
    m.text.drop o.stop = m.head ++ '{' :: (m.body ++ '}' :: m.after) := by
  rw [text, h.stop, List.append_assoc _ m.head, List.drop_left]

theorem brace_not_mem_head (h : m.Found o) : '{' ∉ m.head := by
  intro hmem
  obtain ⟨j, hj⟩ := List.getElem?_of_mem hmem
  have hlt := (List.getElem?_eq_some_iff.1 hj).1
  refine (openBrace_spec h.opening).2.2 (o.stop + j) (Nat.le_add_right _ _) (by omega) ?_
  rw [← List.getElem?_drop, h.drop_stop, List.getElem?_append_left hlt, hj]

theorem braced_body_iff (h : m.Found o) : Braced m.body ↔ '}' ∉ m.head := by
  have hclose := h.closing
  unfold closeBrace at hclose
  rw [h.drop_stop] at hclose
  split at hclose
  · rename_i k hk
    have hlen : o.stop + k = o.stop + m.head.length + 1 + m.body.length := Except.ok.inj hclose
    obtain rfl : k = m.head.length + 1 + m.body.length := by omega
    exact Conversion.braced_body_iff h.brace_not_mem_head hk
  · cases hclose

end Frame.Found

/-- When the lock of a method goes into its own body. The guard is put between the braces of the
frame; nothing ends between the keyword and the opening one exactly if the first delimiter behind the
keyword that is not in a comment opens a body or stands behind that brace; the brace is that
delimiter unless a comment holds an earlier one; and what the guard encloses is well nested exactly if
no brace closes between the keyword and it. -/
theorem locks_own_body {t u : List Char} {cursor : Option Nat} {onlyFirst : Bool}
    {os : List Occurrence} {o : Occurrence} {l : Locker} {index indent : Nat}
    (hpos : positions t cursor onlyFirst = .ok os) (ho : o ∈ os) (hkind : o.kind = .method)
    (h : lockMethod l t o index indent = .ok u) :
    ∃ m : Frame, m.text = t ∧ m.locked l index indent = u ∧ m.Found o ∧
      ((∀ i, o.stop ≤ i → i < o.stop + m.head.length → ¬ EndsAt t i) ↔
        ∀ d, NextDelimiter t o.stop d → t[d]? = some '{' ∨ o.stop + m.head.length < d) ∧
      (∀ d, NextDelimiter t o.stop d → t[d]? = some '{' → '{' ∉ slice t o.stop d →
        o.stop + m.head.length = d) ∧
      (Braced m.body ↔ '}' ∉ m.head) := by
  obtain ⟨k, hk, hclassified⟩ := exists_token_of_positions hpos ho
  obtain ⟨hclass, hstart, hstop⟩ := classified_eq_ok.1 hclassified
  obtain rfl : o = k.method := by
    rw [Token.method, ← hstart, ← hstop, ← hkind]
  obtain ⟨m, -, hfound, rfl, rfl⟩ := frame_of_lockMethod hk hclass h
  obtain ⟨-, hbrace, hfirst⟩ := openBrace_spec hfound.opening
  refine ⟨m, rfl, rfl, hfound, unended_iff hfirst hbrace, ?_, hfound.braced_body_iff⟩
  intro d hd hopen hslice
  have hle : k.method.stop + m.head.length ≤ d := by
    by_contra hlt
    exact hfirst d hd.le (by omega) hopen
  by_contra hne
  have hmem : (slice m.text k.method.stop d)[m.head.length]? = some '{' := by
    rw [slice, List.getElem?_drop, List.getElem?_take_of_lt (by omega)]
    exact hbrace
  exact hslice (List.mem_of_getElem? hmem)

/-- A comment with a semicolon between the keyword and the body. -/
theorem locks_own_body_commented :
    let t := " synchronized a() /* ; */ \x7b\x7d".toList
    let o : Occurrence := ⟨0, 14, .method⟩
    ∃ u, positions t none false = .ok [o] ∧ lockMethod .stampedLock t o 1 0 = .ok u ∧
      ∃ m : Frame, m.text = t ∧ m.locked .stampedLock 1 0 = u ∧ m.Found o ∧
        ((∀ i, o.stop ≤ i → i < o.stop + m.head.length → ¬ EndsAt t i) ↔
          ∀ d, NextDelimiter t o.stop d → t[d]? = some '{' ∨ o.stop + m.head.length < d) ∧
        (∀ d, NextDelimiter t o.stop d → t[d]? = some '{' → '{' ∉ slice t o.stop d →
          o.stop + m.head.length = d) ∧
        (Braced m.body ↔ '}' ∉ m.head) := by
  intro t o
  have hpos : positions t none false = .ok [o] := by
    rfl
  obtain ⟨u, hu⟩ : ∃ u, lockMethod .stampedLock t o 1 0 = .ok u := ⟨_, rfl⟩
  exact ⟨u, hpos, hu, locks_own_body hpos List.mem_cons_self rfl hu⟩

/-- A native method, which has no body, before a method that has one. -/
def bodilessSource : List Char :=
  "class A \x7b\n    native synchronized void f();\n    void g() \x7b\x7d\n\x7d\n".toList

/-- The lock of a method without a body goes into the body of the next method. -/
theorem locks_next_body :
    ∃ o u, positions bodilessSource none false = .ok [o] ∧ o.kind = .method ∧
      lockMethod .stampedLock bodilessSource o 1 4 = .ok u ∧
      openBrace bodilessSource o = .ok 57 ∧ o.stop ≤ 42 ∧ 42 < 57 ∧ EndsAt bodilessSource 42 := by
  have chars : bodilessSource = _ := String.toList_ofList
  rewrite [chars]
  refine ⟨⟨20, 34, .method⟩, _, rfl, rfl, rfl, rfl, by decide, by decide, .inl rfl, ?_⟩
  decide

end LockMigration.Conversion
