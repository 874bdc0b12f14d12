/-
Source as the language reads it. Read from left to right, a text falls into code, comments and
literals; markers and quotes inside a comment or a literal stand for themselves. The brackets that
count are those in code, and a text is well nested when each of them finds its partner. The
context rules of the library look back from a position instead; here is what they stand for.
-/
import LockMigration.Java.Context
import Mathlib.Data.List.Basic
import Mathlib.Tactic.Common

namespace LockMigration.Java

/-! ## Zones -/

/-- What the next character is part of. A literal carries the quote that ends it. -/
inductive Zone where
  | code
  /-- Code behind a slash, which may begin a comment. -/
  | slash
  | lineComment
  | blockComment
  /-- A block comment behind a star, which may end it. -/
  | star
  | literal (quote : Char)
  /-- A literal behind a backslash. -/
  | escape (quote : Char)
deriving DecidableEq, Repr

namespace Zone

def isCode : Zone → Bool
  | code | slash => true
  | _ => false

def isLiteral : Zone → Bool
  | literal _ | escape _ => true
  | _ => false

/-- The zone behind a character of code. -/
def ofCode (c : Char) : Zone :=
  if c = '/' then slash else if c = '"' ∨ c = '\'' then literal c else code

/-- The zone after one more character. A literal that is not closed ends with its line; there are
no text blocks. -/
def next : Zone → Char → Zone
  | code, c => ofCode c
  | slash, c => if c = '/' then lineComment else if c = '*' then blockComment else ofCode c
  | lineComment, c => if isLineBreak c then code else lineComment
  | blockComment, c => if c = '*' then star else blockComment
  | star, c => if c = '/' then code else if c = '*' then star else blockComment
  | literal q, c =>
    if c = q ∨ isLineBreak c = true then code else if c = '\\' then escape q else literal q
  | escape q, c => if isLineBreak c then code else literal q

/-- The zone after a text. -/
def read (z : Zone) (t : List Char) : Zone :=
  t.foldl next z

theorem read_append (z : Zone) (x y : List Char) : z.read (x ++ y) = (z.read x).read y :=
  List.foldl_append

end Zone

/-- The zone of the character at position `i`. -/
def zoneAt (t : List Char) (i : Nat) : Zone :=
  Zone.code.read (t.take i)

/-- The characters of a text that are code, if the text begins in the zone `z`. -/
def codeFrom : Zone → List Char → List Char
  | _, [] => []
  | z, c :: t => if z.isCode then c :: codeFrom (z.next c) t else codeFrom (z.next c) t

theorem codeFrom_append (z : Zone) (x y : List Char) :
    codeFrom z (x ++ y) = codeFrom z x ++ codeFrom (z.read x) y := by
  induction x generalizing z with
  | nil => rfl
  | cons c x ih =>
    simp only [List.cons_append, codeFrom, ih]
    split <;> rfl

theorem mem_codeFrom {z : Zone} {t : List Char} {c : Char} (h : c ∈ codeFrom z t) :
    ∃ x y, t = x ++ c :: y ∧ (z.read x).isCode = true := by
  induction t generalizing z with
  | nil => cases h
  | cons d t ih =>
    rw [codeFrom] at h
    have next (h : c ∈ codeFrom (z.next d) t) :
        ∃ x y, d :: t = x ++ c :: y ∧ (z.read x).isCode = true := by
      obtain ⟨x, y, rfl, hx⟩ := ih h
      exact ⟨d :: x, y, rfl, hx⟩
    split at h
    · rename_i hz
      rcases List.mem_cons.1 h with rfl | h
      · exact ⟨[], t, rfl, hz⟩
      · exact next h
    · exact next h

/-! ## Brackets -/

/-- The brackets that are open after the characters of code `t`, innermost first, if those in
`opened` were open before; none when a bracket closes another one than the innermost. -/
def openAfter? : (opened t : List Char) → Option (List Char)
  | os, [] => some os
  | os, c :: t =>
    if c = '{' ∨ c = '(' then openAfter? (c :: os) t
    else if c = '}' then if os.head? = some '{' then openAfter? os.tail t else none
    else if c = ')' then if os.head? = some '(' then openAfter? os.tail t else none
    else openAfter? os t

/-- The brackets that are open after a text. -/
def brackets? (t : List Char) : Option (List Char) :=
  openAfter? [] (codeFrom .code t)

/-- The braces and parentheses of the code of a text are well nested. -/
def WellNested (t : List Char) : Prop :=
  brackets? t = some []

/-- How many of the brackets are open at position `i`. -/
def depth (bracket : Char) (t : List Char) (i : Nat) : Nat :=
  ((brackets? (t.take i)).getD []).count bracket

/-- The innermost bracket that is open at position `i` is a parenthesis. -/
def inArguments (t : List Char) (i : Nat) : Bool :=
  ((brackets? (t.take i)).getD []).head? == some '('

theorem openAfter?_append (os x y : List Char) :
    openAfter? os (x ++ y) = (openAfter? os x).bind (openAfter? · y) := by
  induction x generalizing os with
  | nil => rfl
  | cons c x ih =>
    simp only [List.cons_append, openAfter?, ih]
    split_ifs <;> rfl

theorem brackets?_append (x y : List Char) :
    brackets? (x ++ y) = (brackets? x).bind (openAfter? · (codeFrom (Zone.code.read x) y)) := by
  rw [brackets?, codeFrom_append, openAfter?_append]
  rfl

theorem WellNested.brackets?_take {t : List Char} (h : WellNested t) (i : Nat) :
    ∃ os, brackets? (t.take i) = some os := by
  have hsplit := brackets?_append (t.take i) (t.drop i)
  rw [List.take_append_drop, h] at hsplit
  cases hb : brackets? (t.take i) with
  | none => rw [hb] at hsplit; cases hsplit
  | some os => exact ⟨os, rfl⟩

/-- Without a brace in it, code leaves the innermost open brace, and all around it, as it was. -/
theorem dropWhile_openAfter? {os os' t : List Char} (ht : '{' ∉ t ∧ '}' ∉ t)
    (h : openAfter? os t = some os') : os'.dropWhile (· == '(') = os.dropWhile (· == '(') := by
  induction t generalizing os with
  | nil => cases h; rfl
  | cons c t ih =>
    have htail : '{' ∉ t ∧ '}' ∉ t :=
      ⟨fun hc => ht.1 (List.mem_cons_of_mem c hc), fun hc => ht.2 (List.mem_cons_of_mem c hc)⟩
    have hopen : c ≠ '{' := by rintro rfl; exact ht.1 List.mem_cons_self
    have hclose : c ≠ '}' := by rintro rfl; exact ht.2 List.mem_cons_self
    rw [openAfter?, if_neg hclose] at h
    by_cases hleft : c = '('
    · rw [if_pos (.inr hleft)] at h
      rw [ih htail h, hleft]
      rfl
    rw [if_neg (by simp [hopen, hleft])] at h
    by_cases hright : c = ')'
    · rw [if_pos hright] at h
      split at h
      · rename_i hhead
        obtain ⟨rest, rfl⟩ := List.head?_eq_some_iff.1 hhead
        rw [ih htail h]
        rfl
      · cases h
    · rw [if_neg hright] at h
      exact ih htail h

theorem count_brackets (os : List Char) :
    os.count '{' = (os.dropWhile (· == '(')).count '{' ∧
      os.count '(' = (os.takeWhile (· == '(')).length + (os.dropWhile (· == '(')).count '(' := by
  induction os with
  | nil => exact ⟨rfl, rfl⟩
  | cons c os ih =>
    by_cases hc : c = '('
    · subst hc
      simp only [List.dropWhile_cons, List.takeWhile_cons, beq_self_eq_true, if_true,
        List.count_cons_self, List.length_cons]
      rw [List.count_cons_of_ne (by decide), ih.1, ih.2]
      exact ⟨rfl, by omega⟩
    · rw [List.dropWhile_cons_of_neg (by simpa using hc),
        List.takeWhile_cons_of_neg (by simpa using hc)]
      exact ⟨rfl, by simp⟩

theorem length_takeWhile_eq_zero (os : List Char) :
    (os.takeWhile (· == '(')).length = 0 ↔ os.head? ≠ some '(' := by
  cases os with
  | nil => simp
  | cons c os => by_cases hc : c = '(' <;> simp [hc]

/-- Lists of open brackets that agree from the innermost brace on have the same braces; if one of
them does not begin with a parenthesis, they have the same parentheses exactly when the other one
does not either. -/
theorem count_of_dropWhile {os os' : List Char}
    (h : os'.dropWhile (· == '(') = os.dropWhile (· == '(')) :
    os.count '{' = os'.count '{' ∧
      (os'.head? ≠ some '(' → (os.count '(' = os'.count '(' ↔ os.head? ≠ some '(')) := by
  obtain ⟨hbrace, hparen⟩ := count_brackets os
  obtain ⟨hbrace', hparen'⟩ := count_brackets os'
  rw [h] at hbrace' hparen'
  refine ⟨by rw [hbrace, hbrace'], fun hhead => ?_⟩
  have hzero := (length_takeWhile_eq_zero os').2 hhead
  rw [hparen, hparen', ← length_takeWhile_eq_zero os]
  omega

end LockMigration.Java
