/-
Positions in a text. A text is its list of characters and a position counts characters from its
start. `marks p t` lists, in increasing order, the positions at which the rest of the text
satisfies `p`; every search of the library picks from such a list.
-/

namespace LockMigration.Text

/-- The positions at which the rest of the text satisfies `p`, counted from `i`. -/
def marksFrom (p : List Char → Bool) : Nat → List Char → List Nat
  | _, [] => []
  | i, c :: cs =>
    if p (c :: cs) then i :: marksFrom p (i + 1) cs else marksFrom p (i + 1) cs

/-- The positions of `t` at which the rest of the text satisfies `p`, in increasing order. -/
def marks (p : List Char → Bool) (t : List Char) : List Nat :=
  marksFrom p 0 t

/-- The positions of the characters that satisfy `p`. -/
def positionsOf (p : Char → Bool) (t : List Char) : List Nat :=
  marks (fun rest => rest.head?.any p) t

/-- The positions at which `word` begins. -/
def startsOf (word : List Char) (t : List Char) : List Nat :=
  marks (word.isPrefixOf ·) t

/-- The last of the increasing positions `ps` that lies before `bound`. -/
def lastBefore? (bound : Nat) (ps : List Nat) : Option Nat :=
  (ps.filter (· < bound)).getLast?

/-- The part of the text from position `i` up to, and without, position `j`. -/
def slice (t : List Char) (i j : Nat) : List Char :=
  (t.take j).drop i

theorem marksFrom_eq_map (p : List Char → Bool) (t : List Char) (i : Nat) :
    marksFrom p i t = (marksFrom p 0 t).map (· + i) := by
  induction t generalizing i with
  | nil => rfl
  | cons c cs ih =>
    have step : (marksFrom p 1 cs).map (· + i) = marksFrom p (i + 1) cs := by
      rw [ih 1, ih (i + 1), List.map_map]
      exact List.map_congr_left fun k _ => by simp; omega
    by_cases h : p (c :: cs) = true <;> simp [marksFrom, h, step]

/-- The marks are exactly the positions inside the text whose rest satisfies `p`. -/
theorem mem_marks {p : List Char → Bool} {t : List Char} {i : Nat} :
    i ∈ marks p t ↔ i < t.length ∧ p (t.drop i) = true := by
  unfold marks
  induction t generalizing i with
  | nil => simp [marksFrom]
  | cons c cs ih =>
    have tail : i ∈ marksFrom p 1 cs ↔ ∃ k, i = k + 1 ∧ k < cs.length ∧ p (cs.drop k) = true := by
      rw [marksFrom_eq_map, List.mem_map]
      constructor
      · rintro ⟨k, hk, rfl⟩; exact ⟨k, rfl, ih.1 hk⟩
      · rintro ⟨k, rfl, hk⟩; exact ⟨k, ih.2 hk, rfl⟩
    cases i with
    | zero => by_cases h : p (c :: cs) = true <;> simp [marksFrom, h, tail]
    | succ k => by_cases h : p (c :: cs) = true <;> simp [marksFrom, h, tail]

end LockMigration.Text
