/-
Package declarations, told by the two parts of a text at the place where they begin: a word begins
behind the first part, and the second part begins with the package word and a blank. The search
takes the first such place that is not in a comment, and the next semicolon, so it looks no further
than to the end of any declaration in code.
-/
import LockMigration.Java.MemberStart
import LockMigration.Java.Package
import LockMigration.Proofs.Java.Reading
import LockMigration.Proofs.Text.Parts

namespace LockMigration.Java

open Text

/-! ## Places of the package word -/

/-- True behind a text that is not in the middle of a word. -/
def startsWord (x : List Char) : Bool :=
  !x.getLast?.any isWordChar

/-- The blanks and the delimiters as closed ranges of code points. -/
def separatorRanges : List (Nat × Nat) :=
  [(0x09, 0x0D), (0x20, 0x20), (0x85, 0x85), (0xA0, 0xA0), (0x1680, 0x1680), (0x2000, 0x200A),
   (0x2028, 0x2029), (0x202F, 0x202F), (0x205F, 0x205F), (0x3000, 0x3000), (0x3B, 0x3B),
   (0x7B, 0x7B), (0x7D, 0x7D)]

/-- No range of word characters meets one of them. -/
theorem separatorRanges_apart :
    separatorRanges.all (fun b => wordRanges.all fun r => r.2.blt b.1 || b.2.blt r.1) = true := by
  set_option maxRecDepth 4000 in
  rfl

theorem isWordChar_of_separator {c : Char}
    (h : separatorRanges.any (fun b => b.1 ≤ c.toNat && c.toNat ≤ b.2) = true) :
    isWordChar c = false := by
  obtain ⟨b, hb, hc⟩ := List.any_eq_true.1 h
  rw [isWordChar, List.any_eq_false]
  intro r hr
  have hapart := List.all_eq_true.1 (List.all_eq_true.1 separatorRanges_apart b hb) r hr
  simp only [Bool.or_eq_true, Bool.and_eq_true, Nat.blt_eq, decide_eq_true_eq] at hc hapart ⊢
  omega

theorem isWordChar_of_isBlank {c : Char} (h : isBlank c = true) : isWordChar c = false := by
  refine isWordChar_of_separator ?_
  simp only [isBlank, Bool.or_eq_true, Bool.and_eq_true, decide_eq_true_eq, beq_iff_eq] at h
  simp only [separatorRanges, List.any_cons, List.any_nil, Bool.or_eq_true, Bool.and_eq_true,
    decide_eq_true_eq]
  omega

theorem isWordChar_of_isDelimiter {c : Char} (h : isDelimiter c = true) : isWordChar c = false := by
  simp only [isDelimiter, Bool.or_eq_true, beq_iff_eq] at h
  rcases h with (rfl | rfl) | rfl <;> exact isWordChar_of_separator (by decide)

theorem startsWord_snoc {x : List Char} {c : Char} (h : isWordChar c = false) :
    startsWord (x ++ [c]) = true := by
  rw [startsWord, List.getLast?_concat, Option.any_some, h]
  rfl

theorem startsWord_blanks {y : List Char} (hne : y ≠ []) (h : ∀ c ∈ y, isBlank c = true)
    (x : List Char) : startsWord (x ++ y) = true := by
  obtain ⟨w, c, rfl⟩ := (List.eq_nil_or_concat y).resolve_left hne
  rw [List.concat_eq_append] at h ⊢
  rw [← List.append_assoc]
  exact startsWord_snoc (isWordChar_of_isBlank (h c (by simp)))

theorem startsWord_append {x : List Char} (hx : x ≠ []) (w w' : List Char) :
    startsWord (w ++ x) = startsWord (w' ++ x) := by
  unfold startsWord
  rw [List.getLast?_append_of_ne_nil _ hx, List.getLast?_append_of_ne_nil _ hx]

/-- The text begins with the package word, and the character after it passes the test. -/
def Begins (p : Char → Bool) (t : List Char) : Prop :=
  packageWord <+: t ∧ (t.drop packageWord.length).head?.any p = true

instance (p : Char → Bool) (t : List Char) : Decidable (Begins p t) :=
  inferInstanceAs (Decidable (_ ∧ _))

theorem beginsPackage_iff {t : List Char} : beginsPackage t = true ↔ Begins isBlank t := by
  rw [beginsPackage, Bool.and_eq_true, List.isPrefixOf_iff_prefix, Begins]

theorem Begins.head {p : Char → Bool} {t : List Char} (h : Begins p t) : t.head? = some 'p' := by
  obtain ⟨⟨y, rfl⟩, -⟩ := h
  rfl

theorem Begins.mono {p q : Char → Bool} {t : List Char} (h : Begins p t)
    (hpq : ∀ c, p c = true → q c = true) : Begins q t := by
  obtain ⟨c, hc, hp⟩ := (Option.any_eq_true _ _).1 h.2
  exact ⟨h.1, (Option.any_eq_true _ _).2 ⟨c, hc, hpq c hp⟩⟩

/-- Before a boundary the text decides whether it begins with the package word, up to the character
behind the word. -/
theorem begins_append {p : Char → Bool} {x y : List Char} (hx : x ≠ []) (h : Boundary x y) :
    Begins p (x ++ y) ↔
      packageWord <+: x ∧ (x.drop packageWord.length ++ y).head?.any p = true := by
  have hword : ∀ c ∈ packageWord, c.isAlphanum = true := List.all_eq_true.1 (by decide)
  unfold Begins
  rw [h.prefix_iff hword hx]
  refine and_congr_right ?_
  rintro ⟨z, rfl⟩
  rw [List.append_assoc, List.drop_left, List.drop_left]

theorem Begins.of_append {p : Char → Bool} {x y y' : List Char} (hx : x ≠ [])
    (hy : Boundary x y) (hy' : Boundary x y')
    (hnext : x = packageWord → y.head?.any p = true → y'.head?.any p = true)
    (h : Begins p (x ++ y)) : Begins p (x ++ y') := by
  rw [begins_append hx hy] at h
  rw [begins_append hx hy']
  obtain ⟨⟨v, rfl⟩, h⟩ := h
  refine ⟨List.prefix_append _ v, ?_⟩
  rw [List.drop_left] at h ⊢
  cases v with
  | nil => exact hnext (List.append_nil _) h
  | cons c v => exact h

theorem mem_packagesFrom {t w : List Char} {i j : Nat} :
    j ∈ packagesFrom i (w.getLast?.any isWordChar) t ↔
      ∃ x y, t = x ++ y ∧ j = i + x.length ∧ startsWord (w ++ x) = true ∧ Begins isBlank y := by
  induction t generalizing w i with
  | nil =>
    constructor
    · intro h
      cases h
    · rintro ⟨x, y, h, -, -, hy⟩
      obtain ⟨rfl, rfl⟩ := List.append_eq_nil_iff.1 h.symm
      cases hy.head
  | cons c t ih =>
    have rest : j ∈ packagesFrom (i + 1) (isWordChar c) t ↔ ∃ x y, t = x ++ y ∧
        j = i + (c :: x).length ∧ startsWord (w ++ c :: x) = true ∧ Begins isBlank y := by
      have := @ih (w ++ [c]) (i + 1)
      rw [List.getLast?_concat, Option.any_some] at this
      rw [this]
      simp only [List.append_assoc, List.singleton_append, List.length_cons]
      constructor
      · rintro ⟨x, y, h, hj, hw⟩
        exact ⟨x, y, h, by omega, hw⟩
      · rintro ⟨x, y, h, hj, hw⟩
        exact ⟨x, y, h, by omega, hw⟩
    have split : (∃ x y, c :: t = x ++ y ∧ j = i + x.length ∧ startsWord (w ++ x) = true ∧
        Begins isBlank y) ↔ (j = i ∧ startsWord w = true ∧ Begins isBlank (c :: t)) ∨
          ∃ x y, t = x ++ y ∧ j = i + (c :: x).length ∧ startsWord (w ++ c :: x) = true ∧
            Begins isBlank y := by
      constructor
      · rintro ⟨x, y, h, hj, hw, hy⟩
        cases x with
        | nil =>
          rw [List.nil_append] at h
          rw [List.append_nil] at hw
          exact .inl ⟨hj, hw, h ▸ hy⟩
        | cons d x =>
          cases h
          exact .inr ⟨x, y, rfl, hj, hw, hy⟩
      · rintro (⟨hj, hw, hy⟩ | ⟨x, y, rfl, hj, hw, hy⟩)
        · exact ⟨[], c :: t, rfl, hj, by rwa [List.append_nil], hy⟩
        · exact ⟨c :: x, y, rfl, hj, hw, hy⟩
    rw [split, packagesFrom, ← rest, ← beginsPackage_iff, ← Bool.and_eq_true, startsWord]
    split
    · rename_i h
      rw [List.mem_cons, h]
      simp only [and_true]
    · rename_i h
      simp only [h, Bool.false_eq_true, and_false, false_or]

theorem pairwise_packagesFrom (t w : List Char) (i : Nat) :
    (packagesFrom i (w.getLast?.any isWordChar) t).Pairwise (· < ·) := by
  induction t generalizing w i with
  | nil => exact .nil
  | cons c t ih =>
    have := @ih (w ++ [c]) (i + 1)
    rw [List.getLast?_concat, Option.any_some] at this
    have hlt : ∀ j ∈ packagesFrom (i + 1) (isWordChar c) t, i < j := by
      have hmem (j : Nat) := @mem_packagesFrom t [c] (i + 1) j
      intro j hj
      obtain ⟨x, -, -, rfl, -⟩ := (hmem j).1 hj
      omega
    rw [packagesFrom]
    split
    · exact List.pairwise_cons.2 ⟨hlt, this⟩
    · exact this

/-! ## Declarations in code -/

/-- A comment of either kind is open. -/
def Reading.commented (r : Reading) : Bool :=
  r.block || r.slashes

theorem mem_packages {t : List Char} {i : Nat} : i ∈ packagesFrom 0 false t ↔
    ∃ x y, t = x ++ y ∧ i = x.length ∧ startsWord x = true ∧ Begins isBlank y := by
  have := @mem_packagesFrom t [] 0 i
  simpa only [Nat.zero_add, List.nil_append, List.getLast?_nil, Option.any_none] using this

theorem inComment_begins {p : Char → Bool} {x y : List Char} (h : Begins p y) :
    inComment (x ++ y) x.length = (Reading.start.read x).commented := by
  obtain ⟨z, rfl⟩ := List.head?_eq_some_iff.1 h.head
  exact inComment_eq (by decide) (by decide)

theorem packagePosition?_eq_none {t : List Char} : packagePosition? t = none ↔
    ∀ x y, t = x ++ y → startsWord x = true → Begins isBlank y →
      (Reading.start.read x).commented = true := by
  unfold packagePosition?
  rw [List.find?_eq_none]
  constructor
  · rintro h x y rfl hx hy
    have := h x.length (mem_packages.2 ⟨x, y, rfl, rfl, hx, hy⟩)
    rwa [inComment_begins hy, Bool.not_eq_true, Bool.not_eq_false'] at this
  · intro h i hi
    obtain ⟨x, y, rfl, rfl, hx, hy⟩ := mem_packages.1 hi
    rw [inComment_begins hy, h x y rfl hx hy]
    decide

/-- The declaration that is found begins no later than any in code. -/
theorem packagePosition?_le {x y : List Char} (hx : startsWord x = true) (hy : Begins isBlank y)
    (hcode : (Reading.start.read x).commented = false) :
    ∃ i, packagePosition? (x ++ y) = some i ∧ i ≤ x.length := by
  have hmem : x.length ∈ packagesFrom 0 false (x ++ y) := mem_packages.2 ⟨x, y, rfl, rfl, hx, hy⟩
  cases h : packagePosition? (x ++ y) with
  | none =>
    have := packagePosition?_eq_none.1 h x y rfl hx hy
    rw [hcode] at this
    cases this
  | some i =>
    refine ⟨i, rfl, ?_⟩
    obtain ⟨-, as, bs, heq, has⟩ := List.find?_eq_some_iff_append.1 h
    have hsorted := pairwise_packagesFrom (x ++ y) [] 0
    rw [List.getLast?_nil, Option.any_none, heq] at hsorted
    rw [heq, List.mem_append, List.mem_cons] at hmem
    rcases hmem with hmem | rfl | hmem
    · have := has _ hmem
      rw [inComment_begins hy, hcode] at this
      cases this
    · exact Nat.le_refl _
    · exact Nat.le_of_lt ((List.pairwise_cons.1 (List.pairwise_append.1 hsorted).2.1).1 _ hmem)

/-- The end that is found is no later than a semicolon behind a declaration in code. -/
theorem packageEnd?_le {x y z : List Char} (hx : startsWord x = true)
    (hy : Begins isBlank (y ++ ';' :: z)) (hcode : (Reading.start.read x).commented = false) :
    ∃ n, packageEnd? (x ++ (y ++ ';' :: z)) = .ok (some n) ∧ n ≤ (x ++ y ++ [';']).length := by
  obtain ⟨i, hi, hle⟩ := packagePosition?_le hx hy hcode
  obtain ⟨u, v, rfl, rfl⟩ : ∃ u v, x = u ++ v ∧ i = u.length :=
    ⟨x.take i, x.drop i, (List.take_append_drop i x).symm, by
      rw [List.length_take, Nat.min_eq_left hle]⟩
  have hfind : ∃ k, (v ++ y ++ ';' :: z).findIdx? (· == ';') = some k ∧ k ≤ (v ++ y).length := by
    rw [List.findIdx?_append]
    cases hk : (v ++ y).findIdx? (· == ';') with
    | none => exact ⟨(v ++ y).length, by simp [List.findIdx?_cons], Nat.le_refl _⟩
    | some k => exact ⟨k, rfl, Nat.le_of_lt (List.findIdx?_eq_some_iff_getElem.1 hk).1⟩
  obtain ⟨k, hk, hle⟩ := hfind
  have hdrop : (u ++ v ++ (y ++ ';' :: z)).drop u.length = v ++ y ++ ';' :: z := by
    rw [List.append_assoc, List.drop_left, ← List.append_assoc]
  refine ⟨u.length + k + 1, ?_, ?_⟩
  · unfold packageEnd?
    simp only [hi, hdrop, hk]
  · simp only [List.length_append, List.length_singleton] at hle ⊢
    omega

end LockMigration.Java
