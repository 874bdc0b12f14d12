/-
A scan of a source tells what its conversion will do. The two go through the source in different
ways: the scan lists the occurrences of one text, while the conversion looks for the next one over
and over in a text that it edits. They agree all the same: the conversion leaves a source as it is
exactly when the scan succeeds without a method, changes it only when the scan shows one, and fails
whenever the scan does.
-/
import LockMigration.Java.Scan
import LockMigration.Proofs.Conversion.Script

namespace LockMigration.Conversion

open Text Java

attribute [local irreducible] keyword

variable {style : Style} {source : List Char} {c : Content}

/-- A conversion that succeeds was preceded by a scan that does, and its script is empty exactly
when the scan shows no method. -/
theorem positions_of_convert (h : convert style source = .ok c) :
    ∃ os, positions source none false = .ok os ∧
      (c.changed = true ↔ ∃ o ∈ os, o.kind = .method) := by
  obtain ⟨n, b, -, rfl, hs, -, hc⟩ := convert_eq_ok h
  obtain ⟨os, hos⟩ := hs.positions_ok (Nat.zero_le n)
  refine ⟨os, hos, ?_⟩
  rcases hc with ⟨rfl, rfl⟩ | ⟨hn, hchanged, -⟩
  · obtain ⟨os', hos', hmethod⟩ := settled_iff.1 hs.settled
    rw [hos] at hos'
    cases hos'
    simpa using hmethod
  · obtain ⟨k, hk, -⟩ := hs.edit 0 hn
    have hfind := hk.find? hos
    simp only [hchanged, true_iff]
    exact ⟨_, List.mem_of_find?_eq_some hfind, rfl⟩

theorem text_of_unchanged (h : convert style source = .ok c) (hc : c.changed = false) :
    c.text = source := by
  obtain ⟨n, b, -, rfl, -, -, ⟨-, rfl⟩ | ⟨-, hchanged, -⟩⟩ := convert_eq_ok h
  · rfl
  · rw [hc] at hchanged
    cases hchanged

theorem convert_unchanged_iff : (∃ c, convert style source = .ok c ∧ c.changed = false) ↔
    ∃ os, positions source none false = .ok os ∧ ∀ o ∈ os, o.kind ≠ .method := by
  constructor
  · rintro ⟨c, h, hc⟩
    obtain ⟨os, hos, hchanged⟩ := positions_of_convert h
    refine ⟨os, hos, fun o ho hk => ?_⟩
    rw [hchanged.2 ⟨o, ho, hk⟩] at hc
    cases hc
  · intro h
    exact ⟨_, convert_of_settled (settled_iff.2 h), rfl⟩

theorem scanSource_eq_ok {path : Path} {os : List Occurrence}
    (h : positions source none false = .ok os) :
    ∃ es, scanSource path source = .ok es ∧ es.map (·.kind) = os.map (·.kind) := by
  refine ⟨os.map (ScanEntry.ofOccurrence path source), by rw [scanSource, h]; rfl, ?_⟩
  rw [List.map_map]
  rfl

/-- The scan of a source previews its conversion, for every style: the source stays as it is
exactly when the scan succeeds and shows no method; a conversion that succeeds has a scan that
does, and changes the source exactly when that shows a method; and where the scan fails, so does
the conversion. -/
theorem scan_previews_convert (path : Path) (style : Style) (source : List Char) :
    ((∃ c, convert style source = .ok c ∧ c.changed = false) ↔
      ∃ os, positions source none false = .ok os ∧ ∀ o ∈ os, o.kind ≠ .method) ∧
    (∀ c, convert style source = .ok c → c.changed = false → c.text = source) ∧
    (∀ c, convert style source = .ok c → ∃ os es, positions source none false = .ok os ∧
      scanSource path source = .ok es ∧ es.map (·.kind) = os.map (·.kind) ∧
      (c.changed = true ↔ ∃ o ∈ os, o.kind = .method)) ∧
    ∀ e, positions source none false = .error e → ∀ c, convert style source ≠ .ok c := by
  refine ⟨convert_unchanged_iff, fun c => text_of_unchanged, fun c h => ?_, fun e he c h => ?_⟩
  · obtain ⟨os, hos, hchanged⟩ := positions_of_convert h
    obtain ⟨es, hes, hkinds⟩ := @scanSource_eq_ok source path os hos
    exact ⟨os, es, hos, hes, hkinds, hchanged⟩
  · obtain ⟨os, hos, -⟩ := positions_of_convert h
    rw [he] at hos
    cases hos

end LockMigration.Conversion
