/-
The names of locks in a text. A name is the word `lock` and a run of digits, wherever it stands,
and it is declared where an equals sign with a space on each side follows. Names end at every
character that is neither a letter nor a digit, so a text can be cut at such a character and its
names are those of the two parts.

A generated text declares the lock that it is for, once, and otherwise names it only before a dot.
-/
import LockMigration.Proofs.Locker
import Mathlib.Data.List.TakeWhile

namespace LockMigration

open Text

/-! ## Names -/

/-- The word that the names of locks begin with. -/
def lockWord : List Char :=
  ['l', 'o', 'c', 'k']

/-- The digits of the name that the text begins with, and what follows it. -/
def name? (t : List Char) : Option (List Char × List Char) :=
  let rest := t.drop lockWord.length
  if lockWord <+: t ∧ rest.takeWhile Char.isDigit ≠ [] then
    some (rest.takeWhile Char.isDigit, rest.dropWhile Char.isDigit)
  else none

/-- The names that begin in `x`, if `y` follows it. -/
def namesIn : (x y : List Char) → List (List Char × List Char)
  | [], _ => []
  | c :: x, y => (name? (c :: (x ++ y))).toList ++ namesIn x y

/-- The names in a text, each as its digits and what follows it. -/
def names (t : List Char) : List (List Char × List Char) :=
  namesIn t []

theorem name?_eq_some {t ds r : List Char} : name? t = some (ds, r) ↔
    t = lockWord ++ (ds ++ r) ∧ ds ≠ [] ∧ (∀ c ∈ ds, c.isDigit = true) ∧
      ∀ c ∈ r.head?, c.isDigit = false := by
  unfold name?
  constructor
  · intro h
    simp only at h
    split at h
    · rename_i hname
      obtain ⟨⟨rest, rfl⟩, hne⟩ := hname
      rw [List.drop_left] at h hne
      cases h
      refine ⟨by rw [List.takeWhile_append_dropWhile], hne, ?_, ?_⟩
      · exact fun c hc => List.mem_takeWhile_imp hc
      · intro c hc
        have := List.head?_dropWhile_not Char.isDigit rest
        rw [hc] at this
        simpa using this
    · cases h
  · rintro ⟨rfl, hne, hds, hr⟩
    have htake : (ds ++ r).takeWhile Char.isDigit = ds := by
      rw [List.takeWhile_append_of_pos hds]
      cases r with
      | nil => simp
      | cons c r => simp [hr c (by simp)]
    have hdrop : (ds ++ r).dropWhile Char.isDigit = r := by
      rw [List.dropWhile_append_of_pos hds]
      cases r with
      | nil => rfl
      | cons c r => simp [hr c (by simp)]
    simp only [List.drop_left, htake, hdrop]
    rw [if_pos ⟨List.prefix_append _ _, hne⟩]

theorem isAlphanum_of_isDigit {c : Char} (h : c.isDigit = true) : c.isAlphanum = true := by
  rw [Char.isAlphanum, h, Bool.or_true]

theorem isAlphanum_of_mem_name {ds : List Char} (h : ∀ c ∈ ds, c.isDigit = true) :
    ∀ c ∈ lockWord ++ ds, c.isAlphanum = true := by
  intro c hc
  rcases List.mem_append.1 hc with hc | hc
  · exact List.all_eq_true.1 (by decide : lockWord.all Char.isAlphanum = true) c hc
  · exact isAlphanum_of_isDigit (h c hc)

/-- A name that begins before a boundary ends before it. -/
theorem name?_append {x y : List Char} (hx : x ≠ []) (h : Boundary x y) :
    name? (x ++ y) = (name? x).map fun e => (e.1, e.2 ++ y) := by
  cases hname : name? x with
  | some e =>
    obtain ⟨ds, r⟩ := e
    obtain ⟨rfl, hne, hds, hr⟩ := name?_eq_some.1 hname
    refine name?_eq_some.2 ⟨by simp, hne, hds, ?_⟩
    cases r with
    | cons c r => exact hr
    | nil =>
      -- the last digit stands at the boundary
      intro c hc
      rcases h with h | h
      · have hlast := List.getLast?_eq_some_getLast hx
        have := h _ hlast
        rw [isAlphanum_of_mem_name hds _ (by simp)] at this
        cases this
      · have := h c hc
        rw [Char.isAlphanum, Bool.or_eq_false_iff] at this
        exact this.2
  | none =>
    rw [Option.map_none, Option.eq_none_iff_forall_not_mem]
    rintro ⟨ds, r⟩ hsome
    obtain ⟨heq, hne, hds, hr⟩ := name?_eq_some.1 hsome
    have hword : lockWord ++ ds <+: x ++ y := ⟨r, by rw [heq, List.append_assoc]⟩
    obtain ⟨z, rfl⟩ := (h.prefix_iff (isAlphanum_of_mem_name hds) hx).1 hword
    obtain rfl : z ++ y = r := by
      simpa only [List.append_assoc, List.append_cancel_left_eq] using heq
    have : name? (lockWord ++ ds ++ z) = some (ds, z) := by
      refine name?_eq_some.2 ⟨List.append_assoc _ _ _, hne, hds, ?_⟩
      intro c hc
      refine hr c ?_
      rw [Option.mem_def] at hc
      rw [List.head?_append, hc]
      rfl
    rw [hname] at this
    cases this

theorem namesIn_cons (c : Char) (x y : List Char) :
    namesIn (c :: x) y = (name? (c :: (x ++ y))).toList ++ namesIn x y := rfl

theorem namesIn_append (x y z : List Char) :
    namesIn (x ++ y) z = namesIn x (y ++ z) ++ namesIn y z := by
  induction x with
  | nil => rfl
  | cons c x ih =>
    rw [List.cons_append, namesIn_cons, ih, namesIn_cons, List.append_assoc, List.append_assoc]

theorem names_append (x y : List Char) : names (x ++ y) = namesIn x y ++ names y := by
  rw [names, namesIn_append, List.append_nil, names]

/-- The names with more text behind them. -/
def extend (y : List Char) (es : List (List Char × List Char)) : List (List Char × List Char) :=
  es.map fun e => (e.1, e.2 ++ y)

theorem namesIn_eq_extend {x y : List Char} (h : Boundary x y) :
    namesIn x y = extend y (names x) := by
  unfold names extend
  induction x with
  | nil => rfl
  | cons c x ih =>
    rw [namesIn_cons, namesIn_cons, List.map_append, ih (h.suffix (List.suffix_cons c x)),
      ← List.cons_append, name?_append (List.cons_ne_nil c x) h, List.append_nil]
    cases name? (c :: x) with
    | none => rfl
    | some e => rfl

theorem exists_of_mem_names {t : List Char} {e : List Char × List Char} (h : e ∈ names t) :
    ∃ x, t = x ++ (lockWord ++ (e.1 ++ e.2)) ∧ e.1 ≠ [] ∧ ∀ c ∈ e.1, c.isDigit = true := by
  unfold names at h
  induction t with
  | nil => cases h
  | cons c t ih =>
    rw [namesIn_cons, List.append_nil, List.mem_append, Option.mem_toList] at h
    rcases h with h | h
    · obtain ⟨ht, hne, hds, -⟩ := name?_eq_some.1 h
      exact ⟨[], ht, hne, hds⟩
    · obtain ⟨x, rfl, he⟩ := ih h
      exact ⟨c :: x, rfl, he⟩

theorem suffix_of_mem_names {t : List Char} {e : List Char × List Char} (h : e ∈ names t) :
    e.2 <:+ t := by
  obtain ⟨x, rfl, -⟩ := exists_of_mem_names h
  exact ⟨x ++ (lockWord ++ e.1), by simp only [List.append_assoc]⟩

/-- A text that ends a name with its own last character ends what follows the name with it. -/
theorem snoc_of_mem_names {x : List Char} {c : Char} (hc : c.isAlphanum = false)
    {e : List Char × List Char} (h : e ∈ names (x ++ [c])) : ∃ r, e.2 = r ++ [c] := by
  obtain ⟨w, heq, hne, hds⟩ := exists_of_mem_names h
  rcases List.eq_nil_or_concat e.2 with hr | ⟨r, d, hr⟩
  · exfalso
    obtain ⟨v, d, hv⟩ := (List.eq_nil_or_concat e.1).resolve_left hne
    rw [hr, hv, List.append_nil, List.concat_eq_append, ← List.append_assoc, ← List.append_assoc]
      at heq
    obtain rfl : c = d := by simpa using (List.append_inj' heq rfl).2
    rw [isAlphanum_of_isDigit (hds c (by rw [hv]; simp))] at hc
    cases hc
  · rw [List.concat_eq_append] at hr
    rw [hr, ← List.append_assoc, ← List.append_assoc, ← List.append_assoc] at heq
    obtain rfl : c = d := by simpa using (List.append_inj' heq rfl).2
    exact ⟨r, hr⟩

/-! ## Texts without names -/

/-- No name begins in the text, whatever follows it. -/
def Nameless (x : List Char) : Prop :=
  ∀ y, namesIn x y = []

theorem Nameless.append {x y : List Char} (hx : Nameless x) (hy : Nameless y) :
    Nameless (x ++ y) := by
  intro z
  rw [namesIn_append, hx, hy, List.append_nil]

theorem nameless_of_not_mem {x : List Char} (h : 'l' ∉ x) : Nameless x := by
  intro y
  induction x with
  | nil => rfl
  | cons c x ih =>
    rw [List.mem_cons, not_or] at h
    rw [namesIn_cons, ih h.2, List.append_nil]
    cases hname : name? (c :: (x ++ y)) with
    | none => rfl
    | some e =>
      have heq := (name?_eq_some.1 hname).1
      rw [lockWord, List.cons_append] at heq
      exact absurd (List.cons.inj heq).1.symm h.1

theorem nameless_blanks {x : List Char} (h : ∀ c ∈ x, isBlank c = true) : Nameless x :=
  nameless_of_not_mem fun hc => by cases h _ hc

theorem name?_append_eq_none {x y : List Char} (h : name? x = none) (hp : ¬ x <+: lockWord) :
    name? (x ++ y) = none := by
  rw [Option.eq_none_iff_forall_not_mem]
  rintro ⟨ds, r⟩ hsome
  obtain ⟨heq, hne, hds, hr⟩ := name?_eq_some.1 hsome
  rcases List.append_eq_append_iff.1 heq with ⟨z, hz, -⟩ | ⟨z, rfl, hz⟩
  · exact hp ⟨z, hz.symm⟩
  · -- a digit follows the word in `x`
    cases z with
    | nil =>
      rw [List.append_nil] at hp
      exact hp (List.prefix_refl _)
    | cons c z =>
      have hc : c.isDigit = true := by
        cases ds with
        | nil => exact absurd rfl hne
        | cons d ds =>
          rw [← (List.cons.inj hz).1]
          exact hds d List.mem_cons_self
      unfold name? at h
      simp [hc] at h

/-- The test for a fixed text. -/
theorem nameless_of_tails {x : List Char}
    (h : ∀ z ∈ x.tails, z = [] ∨ name? z = none ∧ ¬ z <+: lockWord) : Nameless x := by
  intro y
  induction x with
  | nil => rfl
  | cons c x ih =>
    rw [List.tails] at h
    obtain ⟨hnone, hp⟩ := (h (c :: x) List.mem_cons_self).resolve_left (List.cons_ne_nil c x)
    rw [namesIn_cons, ih fun z hz => h z (List.mem_cons_of_mem _ hz), ← List.cons_append,
      name?_append_eq_none hnone hp]
    rfl

/-- The test for the text of a literal, which is the string of the characters `x`. -/
theorem nameless_of_literal {s : String} {x : List Char} (hs : s = String.ofList x)
    (h : ∀ z ∈ x.tails, z = [] ∨ name? z = none ∧ ¬ z <+: lockWord) : Nameless s.toList := by
  rw [hs, String.toList_ofList]
  exact nameless_of_tails h

theorem namesIn_lockWord {ds y : List Char} (hne : ds ≠ []) (hds : ∀ c ∈ ds, c.isDigit = true)
    (hy : ∀ c ∈ y.head?, c.isDigit = false) : namesIn lockWord (ds ++ y) = [(ds, y)] := by
  have hname : name? (lockWord ++ (ds ++ y)) = some (ds, y) :=
    name?_eq_some.2 ⟨rfl, hne, hds, hy⟩
  have hrest : Nameless ['o', 'c', 'k'] := nameless_of_not_mem (by decide)
  show (name? (lockWord ++ (ds ++ y))).toList ++ namesIn ['o', 'c', 'k'] (ds ++ y) = _
  rw [hname, hrest]
  rfl

/-! ## Declarations -/

/-- What follows a name where it is declared. -/
def equals : List Char :=
  [' ', '=', ' ']

/-- The digits of those of the names that are declared. -/
def declaredOf (es : List (List Char × List Char)) : List (List Char) :=
  (es.filter fun e => equals.isPrefixOf e.2).map Prod.fst

/-- The digits of the names that a text declares, once for each declaration. -/
def declared (t : List Char) : List (List Char) :=
  declaredOf (names t)

theorem declaredOf_append (es fs : List (List Char × List Char)) :
    declaredOf (es ++ fs) = declaredOf es ++ declaredOf fs := by
  rw [declaredOf, List.filter_append, List.map_append, declaredOf, declaredOf]

theorem declaredOf_eq_nil {es : List (List Char × List Char)} (h : ∀ e ∈ es, ¬ equals <+: e.2) :
    declaredOf es = [] := by
  rw [declaredOf, List.map_eq_nil_iff, List.filter_eq_nil_iff]
  intro e he
  rw [List.isPrefixOf_iff_prefix]
  exact h e he

theorem declaredOf_extend {y : List Char} {es : List (List Char × List Char)}
    (h : ∀ e ∈ es, equals <+: e.2 ++ y ↔ equals <+: e.2) :
    declaredOf (extend y es) = declaredOf es := by
  unfold declaredOf extend
  rw [List.filter_map, List.map_map]
  refine congrArg (List.map Prod.fst) (List.filter_congr ?_)
  intro e he
  rw [Bool.eq_iff_iff, Function.comp, List.isPrefixOf_iff_prefix, List.isPrefixOf_iff_prefix]
  exact h e he

theorem not_equals_of_dot {r : List Char} (h : r.head? = some '.') : ¬ equals <+: r := by
  rintro ⟨z, rfl⟩
  cases h

/-! ## The names of generated texts -/

namespace Locker

theorem digits_ne_nil (index : Nat) : digits index ≠ [] :=
  Nat.toDigits_ne_nil

theorem isDigit_of_mem_digits {index : Nat} : ∀ c ∈ digits index, c.isDigit = true :=
  fun _ hc => Nat.isDigit_of_mem_toDigits (by decide) (by decide) hc

theorem digits_injective {i j : Nat} (h : digits i = digits j) : i = j := by
  rw [← Nat.ofDigitChars_toDigits (b := 10) (n := i) (by decide) (by decide),
    ← Nat.ofDigitChars_toDigits (b := 10) (n := j) (by decide) (by decide)]
  exact congrArg (Nat.ofDigitChars 10 · 0) h

theorem nameless_digits (index : Nat) : Nameless (digits index) :=
  nameless_of_not_mem fun h => by cases isDigit_of_mem_digits _ h

theorem nameless_pad (width : Nat) : Nameless (pad width) :=
  nameless_of_not_mem fun h => by cases List.eq_of_mem_replicate h

theorem namesIn_index (index : Nat) {y : List Char} (hy : ∀ c ∈ y.head?, c.isDigit = false) :
    namesIn lockWord (digits index ++ y) = [(digits index, y)] :=
  namesIn_lockWord (digits_ne_nil index) isDigit_of_mem_digits hy

/-- The names of a line that declares a lock. -/
theorem namesIn_field {x : List Char} (modifiers value : List Char) (hx : Nameless x)
    (hmodifiers : Nameless modifiers) (hvalue : Nameless (equals ++ 'n' :: value))
    (index : Nat) (y : List Char) :
    namesIn (x ++ (modifiers ++ lockWord) ++ digits index ++ (equals ++ 'n' :: value)) y =
      [(digits index, equals ++ 'n' :: (value ++ y))] := by
  have hname : namesIn lockWord (digits index ++ (equals ++ 'n' :: value ++ y)) =
      [(digits index, equals ++ 'n' :: (value ++ y))] := by
    rw [List.append_assoc, List.cons_append]
    exact namesIn_index index (by rintro c ⟨⟩; rfl)
  rw [namesIn_append, namesIn_append, namesIn_append, namesIn_append, hx, hmodifiers, hname,
    nameless_digits index, hvalue]
  rfl

/-- The names of a line that declares a part of a lock. -/
theorem namesIn_part (modifiers call : List Char) (hmodifiers : Nameless modifiers)
    (hcall : Nameless ('.' :: call)) (x : List Char) (index indent : Nat) (y : List Char) :
    ∃ z, namesIn (x ++ pad indent ++ modifiers ++ digits index ++ (equals ++ lockWord) ++
      digits index ++ '.' :: call) y = namesIn x z ++ [(digits index, '.' :: (call ++ y))] := by
  have hname : namesIn lockWord (digits index ++ ('.' :: call ++ y)) =
      [(digits index, '.' :: (call ++ y))] :=
    namesIn_index index (by rintro c ⟨⟩; rfl)
  have hequals : Nameless equals := nameless_of_not_mem (by decide)
  rw [namesIn_append, namesIn_append, namesIn_append, namesIn_append, namesIn_append,
    namesIn_append, namesIn_append, nameless_pad indent, hmodifiers, nameless_digits index, hequals,
    hname, nameless_digits index, hcall]
  simp only [List.append_nil, List.nil_append]
  exact ⟨_, rfl⟩

/-- The lock is declared first, and its other uses are calls. -/
theorem namesIn_declarations (l : Locker) (index indent : Nat) (y : List Char) :
    ∃ r es, namesIn (l.declarations index indent) y = (digits index, equals ++ 'n' :: r) :: es ∧
      ∀ e ∈ es, e.2.head? = some '.' := by
  have htop : Nameless ("\n\n".toList ++ pad indent) :=
    .append (nameless_of_literal rfl (by decide)) (nameless_pad indent)
  unfold declarations
  split
  · have hfield : "private static final ReentrantReadWriteLock lock".toList =
        "private static final ReentrantReadWriteLock ".toList ++ lockWord := by
      repeat rewrite [String.toList_ofList]
      rfl
    have hnew : " = new ReentrantReadWriteLock();\n".toList =
        equals ++ 'n' :: "ew ReentrantReadWriteLock();\n".toList := by
      repeat rewrite [String.toList_ofList]
      rfl
    have hvalue : Nameless (equals ++ 'n' :: "ew ReentrantReadWriteLock();\n".toList) :=
      hnew ▸ nameless_of_literal rfl (by decide)
    have hsame : " = lock".toList = equals ++ lockWord := by decide
    have hread : ".readLock();\n".toList = '.' :: "readLock();\n".toList := by decide
    have hwrite : ".writeLock();\n".toList = '.' :: "writeLock();\n".toList := by decide
    simp only [hfield, hnew, hsame, hread, hwrite]
    obtain ⟨z, hz⟩ := namesIn_part
      "private static final ReentrantReadWriteLock.WriteLock writeLock".toList
      "writeLock();\n".toList (nameless_of_literal rfl (by decide))
      (hwrite ▸ nameless_of_literal rfl (by decide)) _ index indent y
    obtain ⟨z', hz'⟩ := namesIn_part
      "private static final ReentrantReadWriteLock.ReadLock readLock".toList
      "readLock();\n".toList (nameless_of_literal rfl (by decide))
      (hread ▸ nameless_of_literal rfl (by decide)) _ index indent z
    rw [hz, hz', namesIn_field _ _ htop (nameless_of_literal rfl (by decide)) hvalue]
    refine ⟨_, _, rfl, ?_⟩
    simp
  · have hfield : "private static final StampedLock lock".toList =
        "private static final StampedLock ".toList ++ lockWord := by
      repeat rewrite [String.toList_ofList]
      rfl
    have hnew : " = new StampedLock();\n".toList =
        equals ++ 'n' :: "ew StampedLock();\n".toList := by
      repeat rewrite [String.toList_ofList]
      rfl
    have hvalue : Nameless (equals ++ 'n' :: "ew StampedLock();\n".toList) :=
      hnew ▸ nameless_of_literal rfl (by decide)
    simp only [hfield, hnew]
    rw [namesIn_field _ _ htop (nameless_of_literal rfl (by decide)) hvalue]
    exact ⟨_, [], rfl, nofun⟩

/-- The handle of a guard is a name only for a lock that is its own handle. -/
theorem dot_of_mem_handle (l : Locker) (index : Nat) (y : List Char) :
    ∀ e ∈ namesIn (l.handle index) ('.' :: y), e.2.head? = some '.' := by
  unfold handle
  split
  · have hword : Nameless "writeLock".toList := nameless_of_literal rfl (by decide)
    rw [(hword.append (nameless_digits index)) ('.' :: y)]
    nofun
  · have hword : "lock".toList = lockWord := by decide
    rw [hword, namesIn_append, namesIn_index index (by rintro c ⟨⟩; rfl), nameless_digits index]
    intro e he
    rw [List.append_nil, List.mem_singleton] at he
    rw [he]
    rfl

theorem dot_of_mem_openTry (l : Locker) (index indent : Nat) (y : List Char) :
    ∀ e ∈ namesIn (l.openTry index indent) y, e.2.head? = some '.' := by
  have hcall : ".lock();\n".toList = '.' :: "lock();\n".toList := by decide
  have hfirst : Nameless ('\n' :: pad (indent * 2)) :=
    .append (x := ['\n']) (nameless_of_not_mem (by decide)) (nameless_pad _)
  have hrest : Nameless ('.' :: "lock();\n".toList) :=
    hcall ▸ nameless_of_literal rfl (by decide)
  have htry : Nameless "try \x7b".toList := nameless_of_literal rfl (by decide)
  unfold openTry
  rw [hcall, namesIn_append, namesIn_append, namesIn_append, namesIn_append, hfirst, hrest,
    nameless_pad, htry]
  simp only [List.nil_append, List.append_nil]
  exact l.dot_of_mem_handle index _

theorem dot_of_mem_closeTry (l : Locker) (index indent : Nat) (y : List Char) :
    ∀ e ∈ namesIn (l.closeTry index indent) y, e.2.head? = some '.' := by
  have hcall : ".unlock();\n".toList = '.' :: "unlock();\n".toList := by decide
  have hfinally : Nameless "\x7d finally \x7b\n".toList := nameless_of_literal rfl (by decide)
  have hmore : Nameless "    ".toList := nameless_of_literal rfl (by decide)
  have hrest : Nameless ('.' :: "unlock();\n".toList) :=
    hcall ▸ nameless_of_literal rfl (by decide)
  have hend : Nameless "\x7d\n".toList := nameless_of_literal rfl (by decide)
  unfold closeTry
  rw [hcall]
  simp only [namesIn_append]
  rw [nameless_pad, hfinally, nameless_pad, hmore, hrest, nameless_pad, hend, nameless_pad]
  simp only [List.nil_append, List.append_nil]
  exact l.dot_of_mem_handle index _

theorem nameless_importLine (l : Locker) : Nameless l.importLine := by
  unfold importLine className
  split
  · repeat rewrite [String.toList_ofList]
    exact nameless_of_tails (by decide)
  · repeat rewrite [String.toList_ofList]
    exact nameless_of_tails (by decide)

end Locker

end LockMigration
