/-
The two braces that a method's guard goes between. They are searched for on their own, from the end
of the occurrence, and they belong together all the same: a closing brace that evens the count has an
opening one before it. So a method has no opening brace only if none follows at all, and it has no
closing brace only if an opening one follows and none evens the count (`braces_exact`). They enclose
a text with its braces well nested exactly if none closes before the first one opens.
-/
import LockMigration.Proofs.Conversion.OwnBody

namespace LockMigration.Conversion

open Text Java

theorem lockMethod_eq_error_iff {l : Locker} {t : List Char} {o : Occurrence} {index indent : Nat}
    {e : Fault} : lockMethod l t o index indent = .error e ↔
      openBrace t o = .error e ∨ (∃ i, openBrace t o = .ok i) ∧ closeBrace t o = .error e := by
  unfold lockMethod
  cases openBrace t o with
  | error f => simp [bind, Except.bind]
  | ok i =>
    cases closeBrace t o with
    | error f => simp [bind, Except.bind]
    | ok j => simp [bind, Except.bind, pure, Except.pure]

theorem exists_openBrace_iff {t : List Char} {o : Occurrence} :
    (∃ i, openBrace t o = .ok i) ↔ ∃ i, OpensFrom t o.stop i := by
  constructor
  · rintro ⟨i, hi⟩
    exact ⟨i, (openBrace_eq_ok_iff.1 hi).1⟩
  · rintro ⟨i, hi⟩
    cases h : openBrace t o with
    | ok j => exact ⟨j, rfl⟩
    | error e => exact absurd hi ((openBrace_eq_error_iff.1 h).2 i)

/-- The opening brace comes before the closing one. -/
theorem openBrace_lt_closeBrace {t : List Char} {o : Occurrence} {closing : Nat}
    (h : closeBrace t o = .ok closing) : ∃ opening, openBrace t o = .ok opening ∧ opening < closing := by
  obtain ⟨i, hi, hlt⟩ := exists_openBrace_of_closesFrom (closeBrace_eq_ok_iff.1 h).1
  obtain ⟨opening, hopening⟩ := exists_openBrace_iff.2 ⟨i, hi⟩
  refine ⟨opening, hopening, ?_⟩
  have := (openBrace_eq_ok_iff.1 hopening).2 hi
  omega

/-- The braces enclose a well nested text exactly if none closes before the first one opens. -/
theorem braced_slice_iff {t : List Char} {o : Occurrence} {opening closing : Nat}
    (ho : openBrace t o = .ok opening) (hc : closeBrace t o = .ok closing) :
    Braced (slice t (opening + 1) closing) ↔ '}' ∉ slice t o.stop opening := by
  obtain ⟨head, body, after, hdrop, hhead, rfl, rfl⟩ := braces_parts ho hc
  have hsearch : closingIndex? 0 (head ++ '{' :: (body ++ '}' :: after)) =
      some (head.length + 1 + body.length) := by
    rw [← hdrop]
    unfold closeBrace at hc
    split at hc
    · rename_i k hk
      have := Except.ok.inj hc
      rw [hk, show k = head.length + 1 + body.length by omega]
    · cases hc
  obtain ⟨before, htext, hlen⟩ : ∃ before, t = before ++ head ++ '{' :: (body ++ '}' :: after) ∧
      before.length = o.stop := by
    refine ⟨t.take o.stop, by rw [List.append_assoc, ← hdrop, List.take_append_drop], ?_⟩
    refine List.length_take_of_le ?_
    by_contra hge
    rw [List.drop_eq_nil_of_le (by omega)] at hdrop
    simp at hdrop
  have hbefore : slice t o.stop (o.stop + head.length) = head := by
    rw [htext, ← hlen]
    exact slice_middle before head _
  have hbody : slice t (o.stop + head.length + 1) (o.stop + head.length + 1 + body.length) = body := by
    have := slice_middle (before ++ head ++ ['{']) body ('}' :: after)
    rw [htext, ← hlen]
    simpa [List.append_assoc, Nat.add_assoc] using this
  rw [hbefore, hbody]
  exact braced_body_iff hhead hsearch

/-- Where the braces of a body are. The search for the opening brace finds the first one behind the
occurrence, and succeeds exactly if there is one; the search for the closing brace finds the first
one that evens the count from the end of the occurrence on. Where that succeeds, so does the other,
and the braces come in their order. A method fails exactly if one of the two is not there, and the
fault says which one. What stands between the braces is well nested exactly if no brace closes before
the opening one. -/
theorem braces_exact (l : Locker) (t : List Char) (o : Occurrence) (index indent : Nat) :
    (∀ i, openBrace t o = .ok i ↔ IsLeast {i | OpensFrom t o.stop i} i) ∧
    ((∃ i, openBrace t o = .ok i) ↔ ∃ i, OpensFrom t o.stop i) ∧
    (∀ i, closeBrace t o = .ok i ↔ IsLeast {i | ClosesFrom t o.stop i} i) ∧
    (∀ closing, closeBrace t o = .ok closing →
      ∃ opening, openBrace t o = .ok opening ∧ opening < closing) ∧
    (∀ e, lockMethod l t o index indent = .error e ↔
      e = .openBraceNotFound (byteOffset t o.start) ∧ (¬ ∃ i, OpensFrom t o.stop i) ∨
      e = .closeBraceNotFound (byteOffset t o.start) ∧ (∃ i, OpensFrom t o.stop i) ∧
        ¬ ∃ i, ClosesFrom t o.stop i) ∧
    ∀ opening closing, openBrace t o = .ok opening → closeBrace t o = .ok closing →
      (Braced (slice t (opening + 1) closing) ↔ '}' ∉ slice t o.stop opening) := by
  refine ⟨fun i => openBrace_eq_ok_iff, exists_openBrace_iff, fun i => closeBrace_eq_ok_iff,
    fun closing => openBrace_lt_closeBrace, fun e => ?_, fun opening closing => braced_slice_iff⟩
  rw [lockMethod_eq_error_iff, openBrace_eq_error_iff, closeBrace_eq_error_iff, exists_openBrace_iff,
    not_exists, not_exists]
  exact or_congr_right and_left_comm

/-- A brace closes before the first one opens. The counter goes below zero and comes back, and the
brace that evens it is not the one that closes the first. -/
example : openBrace " synchronized a \x7d\x7b\x7b\x7d\x7d".toList ⟨0, 14, .method⟩ = .ok 17 ∧
    closeBrace " synchronized a \x7d\x7b\x7b\x7d\x7d".toList ⟨0, 14, .method⟩ = .ok 19 := by
  decide

end LockMigration.Conversion
