/-
The braces of a converted file, counted in the raw text, in code or not, as the search for the end
of a body counts them. A guard opens a brace right behind the one that opens the body, and closes
it before the one that closes the body, so behind the body the depth is what it was; in between it
is one more, which does no harm.

`convert_braces` says that a conversion keeps braces well nested, and that it adds two of each kind
for every method.
-/
import LockMigration.Proofs.Conversion.Import
import LockMigration.Proofs.Conversion.Script

namespace LockMigration

namespace Text

/-! ## Well nested braces -/

/-- Every brace that closes comes after the one it closes, and all are closed. -/
structure Braced (t : List Char) : Prop where
  before : ∀ x, x <+: t → x.count '}' ≤ x.count '{'
  total : t.count '{' = t.count '}'

/-- The braces of a text. -/
def braces (t : List Char) : List Char :=
  t.filter fun c => c == '{' || c == '}'

/-- How many braces are open after the text, if `n` were open before it; none when a brace closes
nothing. -/
def depthAfter? : (n : Nat) → List Char → Option Nat
  | n, [] => some n
  | n, c :: t =>
    if c = '{' then depthAfter? (n + 1) t
    else if c = '}' then if n = 0 then none else depthAfter? (n - 1) t
    else depthAfter? n t

@[simp]
theorem braces_append (x y : List Char) : braces (x ++ y) = braces x ++ braces y :=
  List.filter_append ..

theorem braces_eq_nil {t : List Char} (h : '{' ∉ t ∧ '}' ∉ t) : braces t = [] := by
  rw [braces, List.filter_eq_nil_iff]
  intro c hc
  rw [Bool.or_eq_true, beq_iff_eq, beq_iff_eq]
  rintro (rfl | rfl)
  · exact h.1 hc
  · exact h.2 hc

theorem braces_blanks {t : List Char} (h : ∀ c ∈ t, isBlank c = true) : braces t = [] := by
  refine braces_eq_nil ⟨?_, ?_⟩
  · intro hc
    cases h _ hc
  · intro hc
    cases h _ hc

theorem count_braces {c : Char} (h : c = '{' ∨ c = '}') (t : List Char) :
    (braces t).count c = t.count c := by
  rw [braces, List.count_filter]
  rcases h with rfl | rfl
  · rfl
  · rfl

theorem depthAfter?_cons (n : Nat) (c : Char) (t : List Char) :
    depthAfter? n (c :: t) =
      if c = '{' then depthAfter? (n + 1) t
      else if c = '}' then if n = 0 then none else depthAfter? (n - 1) t
      else depthAfter? n t := rfl

theorem depthAfter?_braces (n : Nat) (t : List Char) :
    depthAfter? n (braces t) = depthAfter? n t := by
  induction t generalizing n with
  | nil => rfl
  | cons c t ih =>
    unfold braces at ih ⊢
    rw [List.filter_cons, depthAfter?_cons]
    by_cases ho : c = '{'
    · subst ho
      exact ih (n + 1)
    by_cases hc : c = '}'
    · subst hc
      show (if n = 0 then none else _) = if n = 0 then none else _
      rw [ih (n - 1)]
    · rw [if_neg (by simp [ho, hc]), if_neg ho, if_neg hc]
      exact ih n

theorem depthAfter?_append (n : Nat) (x y : List Char) :
    depthAfter? n (x ++ y) = (depthAfter? n x).bind (depthAfter? · y) := by
  induction x generalizing n with
  | nil => rfl
  | cons c x ih =>
    simp only [List.cons_append, depthAfter?_cons, ih]
    split_ifs <;> rfl

/-- One more open brace does no harm. -/
theorem depthAfter?_succ {n k : Nat} {t : List Char} (h : depthAfter? n t = some k) :
    depthAfter? (n + 1) t = some (k + 1) := by
  induction t generalizing n with
  | nil =>
    cases h
    rfl
  | cons c t ih =>
    rw [depthAfter?_cons] at h ⊢
    by_cases ho : c = '{'
    · rw [if_pos ho] at h ⊢
      exact ih h
    rw [if_neg ho] at h ⊢
    by_cases hc : c = '}'
    · rw [if_pos hc] at h ⊢
      by_cases hn : n = 0
      · rw [if_pos hn] at h
        cases h
      · rw [if_neg hn] at h
        rw [if_neg (by omega), show n + 1 - 1 = n - 1 + 1 by omega]
        exact ih h
    · rw [if_neg hc] at h ⊢
      exact ih h

theorem depthAfter?_eq_some {n k : Nat} {t : List Char} :
    depthAfter? n t = some k ↔
      (∀ x, x <+: t → x.count '}' ≤ n + x.count '{') ∧ n + t.count '{' = k + t.count '}' := by
  induction t generalizing n with
  | nil =>
    simp only [depthAfter?, Option.some.injEq, List.prefix_nil, forall_eq, List.count_nil,
      Nat.zero_le, true_and, Nat.add_zero]
  | cons c t ih =>
    have prefixes (m : Nat) : (∀ x, x <+: c :: t → x.count '}' ≤ m + x.count '{') ↔
        ∀ x, x <+: t → (c :: x).count '}' ≤ m + (c :: x).count '{' := by
      constructor
      · intro h x hx
        exact h _ (List.cons_prefix_cons.2 ⟨rfl, hx⟩)
      · intro h x hx
        rcases List.prefix_cons_iff.1 hx with rfl | ⟨y, rfl, hy⟩
        · exact Nat.zero_le _
        · exact h y hy
    rw [depthAfter?_cons, prefixes]
    by_cases ho : c = '{'
    · subst ho
      rw [if_pos rfl, ih]
      simp only [List.count_cons_self, List.count_cons_of_ne (by decide : ('{' : Char) ≠ '}')]
      constructor
      · rintro ⟨hx, htotal⟩
        exact ⟨fun x hp => by have := hx x hp; omega, by omega⟩
      · rintro ⟨hx, htotal⟩
        exact ⟨fun x hp => by have := hx x hp; omega, by omega⟩
    by_cases hc : c = '}'
    · subst hc
      rw [if_neg (by decide), if_pos rfl]
      simp only [List.count_cons_self, List.count_cons_of_ne (by decide : ('}' : Char) ≠ '{')]
      by_cases hn : n = 0
      · subst hn
        -- the brace alone is more than was open
        rw [if_pos rfl]
        constructor
        · rintro ⟨⟩
        · rintro ⟨hx, -⟩
          have := hx [] (List.nil_prefix)
          simp at this
      · rw [if_neg hn, ih]
        constructor
        · rintro ⟨hx, htotal⟩
          exact ⟨fun x hp => by have := hx x hp; omega, by omega⟩
        · rintro ⟨hx, htotal⟩
          exact ⟨fun x hp => by have := hx x hp; omega, by omega⟩
    · rw [if_neg ho, if_neg hc, ih]
      simp only [List.count_cons_of_ne hc, List.count_cons_of_ne ho]

theorem braced_iff {t : List Char} : Braced t ↔ depthAfter? 0 t = some 0 := by
  rw [depthAfter?_eq_some]
  simp only [Nat.zero_add]
  constructor
  · rintro ⟨hx, htotal⟩
    exact ⟨hx, htotal⟩
  · rintro ⟨hx, htotal⟩
    exact ⟨hx, htotal⟩

instance (t : List Char) : Decidable (Braced t) :=
  decidable_of_iff _ braced_iff.symm

end Text

open Text Java

/-! ## The braces of generated texts -/

namespace Locker

theorem braces_pad (width : Nat) : braces (pad width) = [] := by
  refine braces_blanks ?_
  intro c hc
  rw [List.eq_of_mem_replicate hc]
  decide

theorem braces_digits (index : Nat) : braces (digits index) = [] := by
  have hdigit {c : Char} (hc : c ∈ digits index) : c.isDigit = true :=
    Nat.isDigit_of_mem_toDigits (by decide) (by decide) hc
  refine braces_eq_nil ⟨?_, ?_⟩
  · intro hc
    cases hdigit hc
  · intro hc
    cases hdigit hc

theorem braces_handle (l : Locker) (index : Nat) : braces (l.handle index) = [] := by
  unfold handle
  split
  · rw [braces_append, braces_digits]
    decide
  · rw [braces_append, braces_digits]
    decide

theorem braces_declarations (l : Locker) (index indent : Nat) :
    braces (l.declarations index indent) = [] := by
  unfold declarations
  split
  · simp only [braces_append, braces_pad, braces_digits, List.append_nil]
    repeat rewrite [String.toList_ofList]
    decide
  · simp only [braces_append, braces_pad, braces_digits, List.append_nil]
    repeat rewrite [String.toList_ofList]
    decide

theorem braces_openTry (l : Locker) (index indent : Nat) :
    braces (l.openTry index indent) = ['{'] := by
  unfold openTry
  rw [← List.singleton_append]
  simp only [braces_append, braces_pad, braces_handle, List.append_nil]
  repeat rewrite [String.toList_ofList]
  decide

theorem braces_closeTry (l : Locker) (index indent : Nat) :
    braces (l.closeTry index indent) = ['}', '{', '}'] := by
  unfold closeTry
  simp only [braces_append, braces_pad, braces_handle, List.append_nil, List.nil_append]
  repeat rewrite [String.toList_ofList]
  decide

theorem braces_importLine (l : Locker) : braces l.importLine = [] := by
  unfold importLine className
  split
  · repeat rewrite [String.toList_ofList]
    decide
  · repeat rewrite [String.toList_ofList]
    decide

end Locker

namespace Conversion

attribute [local irreducible] keyword

/-! ## The braces of an edit -/

namespace Frame

variable {m : Frame}

theorem braces_text (hm : m.Sound) : braces m.text =
    braces m.before ++ braces m.member ++ braces m.head ++
      '{' :: (braces m.body ++ '}' :: braces m.after) := by
  have hword : braces keyword = [] := by
    rw [keyword_eq]
    decide
  rw [text_eq]
  simp only [braces_append, braces_blanks hm.lead_blank, braces_blanks hm.trail_blank, hword,
    List.append_assoc]
  rfl

theorem braces_locked (hm : m.Sound) (l : Locker) (index indent : Nat) :
    braces (m.locked l index indent) =
      braces m.before ++ braces m.member ++ braces m.head ++
        '{' :: '{' :: (braces m.body ++ '}' :: '{' :: '}' :: '}' :: braces m.after) := by
  have hsep := braces_blanks (isBlank_of_mem_separator hm.lead_ne hm.lead_blank)
  rw [locked_eq]
  simp only [braces_append, l.braces_declarations, l.braces_openTry, l.braces_closeTry, hsep,
    List.append_assoc]
  rfl

/-- A lock changes the depth inside of the body only. -/
theorem depthAfter?_locked (hm : m.Sound) (l : Locker) (index indent : Nat) {n k : Nat}
    (h : depthAfter? n m.text = some k) : depthAfter? n (m.locked l index indent) = some k := by
  rw [← depthAfter?_braces, braces_text hm, depthAfter?_append, Option.bind_eq_some_iff] at h
  obtain ⟨d, hhead, h⟩ := h
  rw [depthAfter?_cons, if_pos rfl, depthAfter?_append, Option.bind_eq_some_iff] at h
  obtain ⟨e, hbody, h⟩ := h
  rw [← depthAfter?_braces, braces_locked hm, depthAfter?_append, hhead, Option.bind_some,
    depthAfter?_cons, if_pos rfl, depthAfter?_cons, if_pos rfl, depthAfter?_append,
    depthAfter?_succ hbody, Option.bind_some]
  exact h

theorem count_locked (hm : m.Sound) (l : Locker) (index indent : Nat) {c : Char}
    (hc : c = '{' ∨ c = '}') : (m.locked l index indent).count c = m.text.count c + 2 := by
  rw [← count_braces hc, ← count_braces hc m.text, braces_locked hm, braces_text hm]
  simp only [List.count_append, List.count_cons]
  rcases hc with rfl | rfl
  · simp
    omega
  · simp
    omega

end Frame

/-! ## The braces of a conversion -/

theorem Script.depthAfter?_eq_some {style : Style} {first n : Nat} {b : Nat → List Char}
    (h : Script style first n b) {k : Nat} (h0 : depthAfter? 0 (b 0) = some k) {i : Nat}
    (hi : i ≤ n) : depthAfter? 0 (b i) = some k := by
  induction i with
  | zero => exact h0
  | succ i ih =>
    obtain ⟨_, m, -, hm, -, htext, hlocked⟩ := (h.edit i (by omega)).frame
    rw [← hlocked]
    refine m.depthAfter?_locked hm _ _ _ ?_
    rw [htext]
    exact ih (by omega)

theorem Script.count_brace {style : Style} {first n : Nat} {b : Nat → List Char}
    (h : Script style first n b) {c : Char} (hc : c = '{' ∨ c = '}') {i : Nat} (hi : i ≤ n) :
    (b i).count c = (b 0).count c + 2 * i := by
  induction i with
  | zero => rfl
  | succ i ih =>
    obtain ⟨_, m, -, hm, -, htext, hlocked⟩ := (h.edit i (by omega)).frame
    have hcount := m.count_locked hm style.locker (first + i) style.indent hc
    rw [hlocked, htext, ih (by omega)] at hcount
    omega

theorem braces_insertImport {l : Locker} {t u : List Char} (h : insertImport l t = .ok u) :
    braces u = braces t := by
  rcases insertImport_eq_ok h with ⟨-, rfl⟩ | ⟨x, y, rfl, -, rfl⟩
  · rw [braces_append, braces_append, l.braces_importLine]
    rfl
  · rw [List.append_cons x ';' y]
    simp only [braces_append, l.braces_importLine, List.append_nil]
    rw [show braces ['\n', '\n'] = [] from rfl, List.append_nil]

/-- A conversion keeps braces well nested, and every method that it gives a lock costs two braces
of each kind. The index of the finished draft counts the methods. -/
theorem convert_braces {style : Style} {source : List Char} {c : Content}
    (h : convert style source = .ok c) :
    (Braced source → Braced c.text) ∧
    ∃ d n, Draft.finish style source = .ok d ∧ d.index = firstIndex + n ∧
      c.text.count '{' = source.count '{' + 2 * n ∧
      c.text.count '}' = source.count '}' + 2 * n := by
  obtain ⟨n, b, cursor, rfl, hs, hfinish, hcontent⟩ := convert_eq_ok h
  have hbraces : braces c.text = braces (b n) := by
    rcases hcontent with ⟨rfl, rfl⟩ | ⟨-, -, himport⟩
    · rfl
    · exact braces_insertImport himport
  have hcount {a : Char} (ha : a = '{' ∨ a = '}') : c.text.count a = (b 0).count a + 2 * n := by
    rw [← count_braces ha, hbraces, count_braces ha]
    exact hs.count_brace ha (Nat.le_refl n)
  refine ⟨?_, _, n, hfinish, rfl, hcount (.inl rfl), hcount (.inr rfl)⟩
  intro hsource
  rw [braced_iff, ← depthAfter?_braces, hbraces, depthAfter?_braces]
  exact hs.depthAfter?_eq_some (braced_iff.1 hsource) (Nat.le_refl n)

/-- A source with two methods and a monitor, whose braces are four and become eight. -/
theorem convert_braces_smallSource : ∃ c, convert ⟨0, .stampedLock⟩ smallSource = .ok c ∧
    Braced smallSource ∧ Braced c.text ∧ smallSource.count '{' = 4 ∧ c.text.count '{' = 8 := by
  obtain ⟨c, h, -⟩ := convert_smallSource
  obtain ⟨d, hd, hindex, -⟩ := finish_smallSource
  obtain ⟨hbraced, d', n, hd', hn, hcount, -⟩ := convert_braces h
  have chars : smallSource = _ := String.toList_ofList
  have hsource : Braced smallSource := by rewrite [chars]; decide
  have hfour : smallSource.count '{' = 4 := by rewrite [chars]; decide
  rw [hd] at hd'
  cases hd'
  rw [hindex, firstIndex] at hn
  exact ⟨c, h, hsource, hbraced hsource, hfour, by omega⟩

end Conversion

end LockMigration
