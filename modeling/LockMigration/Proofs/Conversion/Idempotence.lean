/-
A conversion has nothing left to do on its own result. The loop ends with a settled text, which the
line with the import leaves settled as long as it does not move a keyword behind a blank or cut a
line whose slashes or quotes counted. A settled text is converted to itself, so the migration can
be applied any number of times.
-/
import LockMigration.Migration
import LockMigration.Proofs.Conversion.Import
import LockMigration.Proofs.Conversion.Script

namespace LockMigration

open Text Java

attribute [local irreducible] keyword

namespace Conversion

/-! ## Settled results -/

/-- No text of a script begins with a keyword if the first one does not. -/
theorem Script.not_keyword {style : Style} {first n : Nat} {b : Nat → List Char}
    (h : Script style first n b) (h0 : ¬ keyword <+: b 0) {i : Nat} (hi : i ≤ n) :
    ¬ keyword <+: b i := by
  induction i with
  | zero => exact h0
  | succ i ih =>
    obtain ⟨k, m, -, hm, -, htext, hlocked⟩ := (h.edit i (by omega)).frame
    rw [← hlocked]
    refine m.not_keyword_locked hm _ _ _ ?_
    rw [htext]
    exact ih (by omega)

/-- The place of the import is not on a line after two slashes or a quote, or the text has no
package declaration and gets the import on top. -/
def CleanImport (t : List Char) : Prop :=
  packagePosition? t = none ∨
    ∃ q, packageEnd? t = .ok (some (q + 1)) ∧ inLineComment t q = false ∧ afterQuote t q = false

theorem settled_insertImport {l : Locker} {t u : List Char} (h : insertImport l t = .ok u)
    (ht : Settled t) (hstart : ¬ keyword <+: t) (hclean : CleanImport t) : Settled u := by
  rcases insertImport_eq_ok h with ⟨-, rfl⟩ | ⟨x, y, rfl, hend, rfl⟩
  · exact settled_of_kinds (kinds_import_top l hstart) ht
  · rcases hclean with hnone | ⟨q, hq, hline, hquote⟩
    · rw [packageEnd?, hnone] at hend
      cases hend
    · rw [hend] at hq
      cases hq
      exact settled_of_kinds (kinds_import_after l hline hquote) ht

end Conversion

/-! ## Repeated migrations -/

namespace Migration

theorem apply_of_settled {style : Style} {t : List Char} (h : Conversion.Settled t)
    (m : Migration) : m.apply style t = .ok ⟨t, false⟩ := by
  cases m
  exact Conversion.convert_of_settled h

theorem foldlM_of_settled (style : Style) {acc : Content} (h : Conversion.Settled acc.text)
    (ms : List Migration) :
    ms.foldlM (fun acc m => acc.andThen <$> m.apply style acc.text) acc = .ok acc := by
  induction ms with
  | nil => rfl
  | cons m ms ih =>
    have hthen : acc.andThen ⟨acc.text, false⟩ = acc := by
      rw [Content.andThen, Bool.or_false]
    rw [List.foldlM_cons, apply_of_settled h]
    simp only [Functor.map, Except.map, hthen]
    exact ih

/-- Migrations after a first one that settles the text change nothing. -/
theorem applyAll_cons_of_settled {style : Style} {t : List Char} {c : Content} {m : Migration}
    (h : m.apply style t = .ok c) (hc : Conversion.Settled c.text) (ms : List Migration) :
    applyAll (m :: ms) style t = .ok c := by
  have hthen : (⟨t, false⟩ : Content).andThen c = c := by
    rw [Content.andThen, Bool.false_or]
  unfold applyAll
  rw [List.foldlM_cons, h]
  simp only [Functor.map, Except.map, hthen]
  exact foldlM_of_settled style hc ms

end Migration

namespace Conversion

/-- A conversion is idempotent: if it leaves the source as it is, or if the source does not begin
with the keyword and the import has a clean place in the finished draft, then a second conversion
in any style leaves the result as it is, and applying the migration any number of times gives the
same result as applying it once. -/
theorem convert_idempotent {style : Style} {source : List Char} {c : Content} {d : Draft}
    (h : convert style source = .ok c) (hd : Draft.finish style source = .ok d)
    (hclean : c.changed = false ∨ ¬ keyword <+: source ∧ CleanImport d.text) :
    (∀ style', convert style' c.text = .ok ⟨c.text, false⟩) ∧
      ∀ n, 1 ≤ n → Migration.applyAll (List.replicate n .synchronizedToLock) style source = .ok c := by
  have hsettled : Settled c.text := by
    obtain ⟨n, b, cursor, rfl, hs, hfinish, hc⟩ := convert_eq_ok h
    rw [hd] at hfinish
    cases hfinish
    rcases hc with ⟨rfl, rfl⟩ | ⟨-, hchanged, himport⟩
    · exact hs.settled
    · rcases hclean with hclean | ⟨hstart, hclean⟩
      · rw [hchanged] at hclean
        cases hclean
      · exact settled_insertImport himport hs.settled (hs.not_keyword hstart (Nat.le_refl n)) hclean
  refine ⟨fun style' => convert_of_settled hsettled, fun n hn => ?_⟩
  obtain ⟨k, rfl⟩ := Nat.exists_eq_add_of_le' hn
  rw [List.replicate_succ]
  exact Migration.applyAll_cons_of_settled h hsettled _

/-- A source with a package, two methods and a clean place for the import. -/
theorem convert_idempotent_smallSource : ∃ c d,
    convert ⟨0, .stampedLock⟩ smallSource = .ok c ∧
      Draft.finish ⟨0, .stampedLock⟩ smallSource = .ok d ∧ c.changed = true ∧
      ¬ keyword <+: smallSource ∧ CleanImport d.text ∧
      (∀ style', convert style' c.text = .ok ⟨c.text, false⟩) ∧
      ∀ n, 1 ≤ n → Migration.applyAll (List.replicate n .synchronizedToLock) ⟨0, .stampedLock⟩
        smallSource = .ok c := by
  obtain ⟨c, h, hc⟩ := convert_smallSource
  obtain ⟨d, hd, -, hend, hline, hquote⟩ := finish_smallSource
  have chars : smallSource = _ := String.toList_ofList
  have hstart : ¬ keyword <+: smallSource := by
    rw [keyword_eq, chars]
    decide
  have hclean : CleanImport d.text := .inr ⟨9, hend, hline, hquote⟩
  exact ⟨c, d, h, hd, hc, hstart, hclean, convert_idempotent h hd (.inr ⟨hstart, hclean⟩)⟩

end Conversion

end LockMigration
