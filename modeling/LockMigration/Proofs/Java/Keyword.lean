/-
Keywords as whole pieces of a text. Where one of the two characters at a boundary is no letter of
the keyword, no keyword stands across it, so a text can be cut there and its keywords are those of
the two parts. A text is then a sequence of atoms, each a whole keyword or a single character.

`Kept n s t` relates the atoms of a text to those of a later one from which `n` keywords are gone:
blanks may vanish and characters may be added, and everything else is still there in its order.
-/
import LockMigration.Java.MemberStart
import LockMigration.Proofs.Java.Roles
import LockMigration.Proofs.Text.Parts

namespace LockMigration.Java

open Text

attribute [local irreducible] keyword

/-! ## Cuts -/

/-- One of the two characters at the boundary of `x` and `y` is no letter of the keyword. -/
def Cut (x y : List Char) : Prop :=
  (∀ c ∈ x.getLast?, c ∉ keyword) ∨ ∀ c ∈ y.head?, c ∉ keyword

theorem not_mem_keyword_of_isBlank {c : Char} (h : isBlank c = true) : c ∉ keyword :=
  not_mem_of_all (by rw [keyword_eq]; decide) h

theorem isDelimiter_of_isBlank {c : Char} (h : isBlank c = true) : isDelimiter c = false := by
  have hne (d : Char) (hd : isBlank d = false) : c ≠ d := isBlank_ne h hd
  simp [isDelimiter, hne ';' (by decide), hne '{' (by decide), hne '}' (by decide)]

theorem not_mem_keyword_of_isDelimiter {c : Char} (h : isDelimiter c = true) : c ∉ keyword :=
  not_mem_of_all (by rw [keyword_eq]; decide) h

theorem isBlank_of_isDelimiter {c : Char} (h : isDelimiter c = true) : isBlank c = false := by
  cases hb : isBlank c with
  | false => rfl
  | true =>
    rw [isDelimiter_of_isBlank hb] at h
    cases h

theorem isAlphanum_of_isDelimiter {c : Char} (h : isDelimiter c = true) : c.isAlphanum = false := by
  simp only [isDelimiter, Bool.or_eq_true, beq_iff_eq] at h
  rcases h with (rfl | rfl) | rfl
  · rfl
  · rfl
  · rfl

theorem Cut.of_last {x y : List Char} {c : Char} (h : c ∉ keyword) : Cut (x ++ [c]) y :=
  .inl fun d hd => by
    simp only [List.getLast?_concat, Option.mem_some_iff] at hd
    exact hd ▸ h

theorem Cut.of_head {x y : List Char} {c : Char} (h : c ∉ keyword) : Cut x (c :: y) :=
  .inr fun d hd => by
    simp only [List.head?_cons, Option.mem_some_iff] at hd
    exact hd ▸ h

theorem Cut.nil_left (y : List Char) : Cut [] y :=
  .inl fun _ h => by cases h

theorem Cut.tail {c : Char} {x y : List Char} (h : Cut (c :: x) y) : Cut x y := by
  rcases h with h | h
  · refine .inl fun d hd => h d ?_
    cases x with
    | nil => cases hd
    | cons b x => rwa [List.getLast?_cons_cons]
  · exact .inr h

/-- No keyword stands across the boundary of two words. -/
theorem Cut.of_boundary {x y : List Char} (h : Boundary x y) : Cut x y := by
  have hne {d : Char} (hd : d.isAlphanum = false) : d ∉ keyword := by
    refine not_mem_of_all (p := fun d => !d.isAlphanum) ?_ (by rw [hd]; rfl)
    rw [keyword_eq]
    decide
  exact h.imp (fun h d hd => hne (h d hd)) fun h d hd => hne (h d hd)

/-- A keyword that begins before a cut ends before it. -/
theorem Cut.keyword_iff {x y : List Char} (h : Cut x y) (hx : x ≠ []) :
    keyword <+: x ++ y ↔ keyword <+: x :=
  prefix_append_iff h hx

theorem not_keyword_cons {c : Char} (h : c ∉ keyword) (t : List Char) : ¬ keyword <+: c :: t := by
  intro hk
  refine h ?_
  rw [keyword_eq] at hk ⊢
  rw [← (List.cons_prefix_cons.1 hk).1]
  decide

/-! ## Tokens before a cut -/

theorem isSome_keywordLength? (rest : List Char) :
    (keywordLength? (keyword ++ rest)).isSome = rest.head?.any fun c => c == '(' || isBlank c := by
  have hp : keyword.isPrefixOf (keyword ++ rest) = true :=
    List.isPrefixOf_iff_prefix.2 (List.prefix_append _ _)
  rw [keywordLength?, if_pos hp, List.drop_left, Option.isSome_map]
  cases rest with
  | nil => rfl
  | cons c rest =>
    simp only [closingLength?, List.head?_cons, Option.any_some]
    by_cases h : c = '('
    · simp [h]
    · by_cases hb : isBlank c = true <;> simp [h, hb]

/-- The role of a keyword depends on the character after it and, in code, on the first one that is
not blank. -/
theorem entry_keyword_congr {rest rest' : List Char} {s : Setting}
    (h : (rest.head?.any fun c => c == '(' || isBlank c) =
      rest'.head?.any fun c => c == '(' || isBlank c)
    (hf : s = .code → rest.find? (fun c => !isBlank c) = rest'.find? (fun c => !isBlank c)) :
    s.entry (keyword ++ rest) = s.entry (keyword ++ rest') := by
  have hkind : s.kind? rest = s.kind? rest' := by
    cases s with
    | comment => rfl
    | quoted => rfl
    | code => rw [Setting.kind?, Setting.kind?, hf rfl]
  unfold Setting.entry
  rw [isSome_keywordLength?, isSome_keywordLength?, h, List.drop_left, List.drop_left, hkind]

/-- A token that begins before a character that is neither blank nor a letter of the keyword gets
its role there. -/
theorem entry_upTo {d : Char} (hd : isBlank d = false) (hk : d ∉ keyword) (x y y' : List Char)
    (s : Setting) : s.entry (x ++ d :: y) = s.entry (x ++ d :: y') := by
  by_cases hx : keyword <+: x
  · obtain ⟨w, rfl⟩ := hx
    rw [List.append_assoc, List.append_assoc]
    refine entry_keyword_congr ?_ fun _ => ?_
    · cases w <;> rfl
    · rw [List.find?_append, List.find?_append, List.find?_cons_of_pos (by simp [hd]),
        List.find?_cons_of_pos (by simp [hd])]
  · have none (z : List Char) : s.entry (x ++ d :: z) = none := by
      refine Setting.entry_eq_none (fun h => ?_) s
      cases x with
      | nil => exact not_keyword_cons hk z h
      | cons c x => exact hx (((Cut.of_head hk).keyword_iff (List.cons_ne_nil c x)).1 h)
    rw [none, none]

/-- A token that begins before the blanks of another keyword is a method there, or gets its role
before it. -/
theorem entry_before_keyword {x l l' : List Char} (hx : x ≠ []) (hl : l ≠ [])
    (hb : ∀ c ∈ l, isBlank c = true) (hl' : l' ≠ []) (hb' : ∀ c ∈ l', isBlank c = true)
    (y y' : List Char) (s : Setting) :
    s.entry (x ++ (l ++ (keyword ++ y))) = s.entry (x ++ (l' ++ y')) ∨
      s.entry (x ++ (l ++ (keyword ++ y))) = some (some .method) := by
  obtain ⟨b, l, rfl⟩ := List.exists_cons_of_ne_nil hl
  obtain ⟨b', l', rfl⟩ := List.exists_cons_of_ne_nil hl'
  have hhead := hb b (by simp)
  have hhead' := hb' b' (by simp)
  by_cases hk : keyword <+: x
  · obtain ⟨w, rfl⟩ := hk
    rw [List.append_assoc, List.append_assoc]
    have hany : ((w ++ (b :: l ++ (keyword ++ y))).head?.any fun c => c == '(' || isBlank c) =
        (w ++ (b' :: l' ++ y')).head?.any fun c => c == '(' || isBlank c := by
      cases w <;> simp [hhead, hhead']
    by_cases hs : s = .code
    · subst hs
      rcases hf : w.find? (fun c => !isBlank c) with _ | d
      · -- nothing but blanks up to the other keyword
        have hwb : ∀ c ∈ w ++ b :: l, isBlank c = true := fun c hc =>
          (List.mem_append.1 hc).elim (fun hc => by simpa using List.find?_eq_none.1 hf c hc) (hb c)
        have hsome : ((w ++ (b :: l ++ (keyword ++ y))).head?.any fun c => c == '(' || isBlank c) =
            true := by
          cases w with
          | nil => simp [hhead]
          | cons d w => simp [hwb d (by simp)]
        have hfind : (w ++ (b :: l ++ (keyword ++ y))).find? (fun c => !isBlank c) = some 's' := by
          rw [← List.append_assoc, List.find?_append,
            List.find?_eq_none.2 fun c hc => by simp [hwb c hc], keyword_eq]
          rfl
        refine .inr ?_
        unfold Setting.entry
        rw [isSome_keywordLength?, hsome, if_pos rfl, List.drop_left, Setting.kind?, hfind]
        rfl
      · -- the role is decided before the blanks
        have hfind (v : List Char) : (w ++ v).find? (fun c => !isBlank c) = some d := by
          rw [List.find?_append, hf, Option.some_or]
        exact .inl (entry_keyword_congr hany fun _ => by rw [hfind, hfind])
    · exact .inl (entry_keyword_congr hany fun h => absurd h hs)
  · have none {c : Char} (hc : isBlank c = true) (v : List Char) : s.entry (x ++ (c :: v)) = none :=
      Setting.entry_eq_none (fun h => hk (((Cut.of_head (not_mem_keyword_of_isBlank hc)).keyword_iff
        hx).1 h)) s
    exact .inl (by rw [List.cons_append, none hhead, List.cons_append, none hhead'])

/-- A token that begins before a closing brace, but is not right before it, gets the same role if
blanks are put before the brace. -/
theorem entry_before_brace {x p : List Char} (hx : x ≠ []) (hk : x ≠ keyword)
    (hp : ∀ c ∈ p, isBlank c = true) (y y' : List Char) (s : Setting) :
    s.entry (x ++ '}' :: y) = s.entry (x ++ (p ++ '}' :: y')) := by
  have hbrace : isBlank '}' = false ∧ '}' ∉ keyword :=
    ⟨by decide, not_mem_keyword_of_isDelimiter (by decide)⟩
  have hcut : Cut x (p ++ '}' :: y') := by
    cases p with
    | nil => exact .of_head hbrace.2
    | cons c p => exact .of_head (not_mem_keyword_of_isBlank (hp c (by simp)))
  by_cases hkx : keyword <+: x
  · obtain ⟨w, rfl⟩ := hkx
    obtain ⟨c, w, rfl⟩ := List.exists_cons_of_ne_nil (by rintro rfl; simp at hk : w ≠ [])
    rw [List.append_assoc, List.append_assoc]
    refine entry_keyword_congr ?_ fun _ => ?_
    · rfl
    have hfind (v : List Char) : ('}' :: v).find? (fun c => !isBlank c) = some '}' :=
      List.find?_cons_of_pos (by simp [hbrace.1])
    have hblank : p.find? (fun c => !isBlank c) = none :=
      List.find?_eq_none.2 fun c hc => by simp [hp c hc]
    rw [List.find?_append, List.find?_append, List.find?_append, hblank, hfind, hfind, Option.none_or]
  · rw [Setting.entry_eq_none fun h => hkx (((Cut.of_head hbrace.2).keyword_iff hx).1 h),
      Setting.entry_eq_none fun h => hkx ((hcut.keyword_iff hx).1 h)]

/-- The roles up to such a character do not depend on what follows it. -/
theorem rolesFrom_upTo {d : Char} (hd : isBlank d = false) (hk : d ∉ keyword) (x y y' : List Char)
    (i : Nat) (r : Reading) : rolesFrom i r (x ++ [d]) y = rolesFrom i r (x ++ [d]) y' := by
  refine rolesFrom_congr (fun z hz hx s => ?_) i r
  obtain ⟨w, e, rfl⟩ := (List.eq_nil_or_concat z).resolve_left hz
  rw [List.concat_eq_append] at hx ⊢
  obtain ⟨v, hv⟩ := hx
  rw [← List.append_assoc] at hv
  obtain rfl : e = d := (List.append_singleton_inj.1 hv).2
  rw [← List.append_cons, ← List.append_cons]
  exact entry_upTo hd hk w y y' s

/-! ## Atoms -/

/-- The atoms of a text after its first `skip` characters. -/
def atomsFrom : (skip : Nat) → List Char → List (Option Char)
  | _, [] => []
  | skip + 1, _ :: t => atomsFrom skip t
  | 0, c :: t =>
    if keyword.isPrefixOf (c :: t) then none :: atomsFrom (keyword.length - 1) t
    else some c :: atomsFrom 0 t

/-- A text as a sequence of keywords (`none`) and of other characters. -/
def atoms (t : List Char) : List (Option Char) :=
  atomsFrom 0 t

/-- The text of a sequence of atoms. -/
def spell (as : List (Option Char)) : List Char :=
  as.flatMap fun a => a.elim keyword fun c => [c]

theorem length_keyword : keyword.length = 12 := by
  rw [keyword_eq]
  rfl

theorem atomsFrom_zero_cons (c : Char) (t : List Char) :
    atomsFrom 0 (c :: t) =
      if keyword.isPrefixOf (c :: t) then none :: atomsFrom (keyword.length - 1) t
      else some c :: atomsFrom 0 t := rfl

theorem atomsFrom_append {x y : List Char} {n : Nat} (hn : n ≤ x.length) (h : Cut x y) :
    atomsFrom n (x ++ y) = atomsFrom n x ++ atomsFrom 0 y := by
  induction x generalizing n with
  | nil =>
    obtain rfl : n = 0 := by simpa using hn
    rfl
  | cons c x ih =>
    cases n with
    | succ n => exact ih (by simpa using hn) h.tail
    | zero =>
      have hk := h.keyword_iff (List.cons_ne_nil c x)
      rw [← List.isPrefixOf_iff_prefix, ← List.isPrefixOf_iff_prefix] at hk
      by_cases hp : keyword.isPrefixOf (c :: x) = true
      · have hlen : keyword.length - 1 ≤ x.length := by
          have := (List.isPrefixOf_iff_prefix.1 hp).length_le
          simp only [List.length_cons] at this
          omega
        rw [List.cons_append] at hk ⊢
        rw [atomsFrom_zero_cons, atomsFrom_zero_cons, if_pos hp, if_pos (hk.2 hp), ih hlen h.tail,
          List.cons_append]
      · rw [List.cons_append] at hk ⊢
        rw [atomsFrom_zero_cons, atomsFrom_zero_cons, if_neg hp, if_neg (fun hc => hp (hk.1 hc)),
          ih (Nat.zero_le _) h.tail, List.cons_append]

/-- A text can be cut into the atoms of its parts. -/
theorem atoms_append {x y : List Char} (h : Cut x y) : atoms (x ++ y) = atoms x ++ atoms y :=
  atomsFrom_append (Nat.zero_le _) h

theorem atoms_cons {c : Char} {t : List Char} (h : ¬ keyword <+: c :: t) :
    atoms (c :: t) = some c :: atoms t := by
  rw [← List.isPrefixOf_iff_prefix] at h
  rw [atoms, atomsFrom_zero_cons, if_neg h]
  rfl

/-- Within a keyword no other keyword begins. -/
theorem startsOf_keyword_append (rest : List Char) :
    (startsOf keyword (keyword ++ rest)).length = (startsOf keyword rest).length + 1 := by
  have hk : marks (fun z => keyword.isPrefixOf (z ++ rest)) keyword = [0] := by
    rw [keyword_eq]
    simp [marks, marksFrom]
  unfold startsOf
  rw [marks_append, hk]
  simp [Nat.add_comm]

theorem atomsFrom_keyword (rest : List Char) :
    atomsFrom (keyword.length - 1) ((keyword ++ rest).drop 1) = atomsFrom 0 rest := by
  rw [keyword_eq]
  rfl

theorem atoms_keyword_append (rest : List Char) : atoms (keyword ++ rest) = none :: atoms rest := by
  have hk := atomsFrom_keyword rest
  have hp : keyword.isPrefixOf (keyword ++ rest) = true :=
    List.isPrefixOf_iff_prefix.2 (List.prefix_append _ _)
  cases ht : keyword ++ rest with
  | nil => simp [keyword_eq] at ht
  | cons c t =>
    rw [ht] at hp hk
    rw [atoms, atomsFrom_zero_cons, if_pos hp]
    exact congrArg (none :: ·) hk

/-- Induction on a text by its atoms. -/
theorem atom_induction {motive : List Char → Prop} (nil : motive [])
    (word : ∀ rest, motive rest → motive (keyword ++ rest))
    (other : ∀ c rest, ¬ keyword <+: c :: rest → motive rest → motive (c :: rest))
    (t : List Char) : motive t := by
  match t with
  | [] => exact nil
  | c :: t =>
    by_cases h : keyword <+: c :: t
    · rw [← List.prefix_iff_eq_append.1 h]
      exact word _ (atom_induction nil word other _)
    · exact other c t h (atom_induction nil word other t)
termination_by t.length
decreasing_by
  · rw [List.length_drop, List.length_cons, length_keyword]
    omega
  · simp

/-- Keywords do not overlap. -/
theorem keyword_of_append_keyword {x : List Char} (hx : x ≠ []) (y : List Char)
    (h : keyword <+: x ++ (keyword ++ y)) : keyword <+: x := by
  rcases prefix_or_across h with h | ⟨z, hzne, hz, hzy⟩
  · exact h
  · -- the first letter of the keyword would be in it a second time
    exfalso
    obtain ⟨c, x, rfl⟩ := List.exists_cons_of_ne_nil hx
    have hhead : z.head? = some 's' := by
      obtain ⟨d, z, rfl⟩ := List.exists_cons_of_ne_nil hzne
      rw [keyword_eq, List.cons_append] at hzy
      rw [(List.cons_prefix_cons.1 hzy).1]
      rfl
    have htail : 's' ∈ keyword.tail := by
      rw [hz]
      exact List.mem_append_right x (List.mem_of_head? hhead)
    rw [keyword_eq] at htail
    revert htail
    decide

/-- A keyword is an atom wherever it stands. -/
theorem atoms_append_keyword (x y : List Char) :
    atoms (x ++ (keyword ++ y)) = atoms x ++ none :: atoms y := by
  induction x using atom_induction with
  | nil => exact atoms_keyword_append y
  | word rest ih =>
    rw [List.append_assoc, atoms_keyword_append, ih, atoms_keyword_append, List.cons_append]
  | other c rest hk ih =>
    have hk' : ¬ keyword <+: c :: (rest ++ (keyword ++ y)) := fun h =>
      hk (keyword_of_append_keyword (List.cons_ne_nil c rest) y h)
    rw [List.cons_append, atoms_cons hk', ih, atoms_cons hk, List.cons_append]

/-- There are as many keyword atoms as positions where the keyword begins. -/
theorem count_atoms (t : List Char) : (atoms t).count none = (startsOf keyword t).length := by
  induction t using atom_induction with
  | nil => rfl
  | word rest ih => rw [atoms_keyword_append, List.count_cons_self, ih, startsOf_keyword_append]
  | other c rest hk ih =>
    have hs : (startsOf keyword (c :: rest)).length = (startsOf keyword rest).length := by
      rw [← List.isPrefixOf_iff_prefix] at hk
      simp only [startsOf, marks, marksFrom, if_neg hk]
      rw [marksFrom_eq_map, List.length_map]
    rw [atoms_cons hk, hs, List.count_cons_of_ne (by simp), ih]

theorem spell_atoms (t : List Char) : spell (atoms t) = t := by
  induction t using atom_induction with
  | nil => rfl
  | word rest ih =>
    rw [atoms_keyword_append]
    simp only [spell, List.flatMap_cons, Option.elim_none] at ih ⊢
    rw [ih]
  | other c rest hk ih =>
    rw [atoms_cons hk]
    simp only [spell, List.flatMap_cons, Option.elim_some] at ih ⊢
    rw [ih]
    rfl

/-! ## What is kept -/

/-- The atoms `t` are what is left of `s` without `n` of its keywords and without some of its
blanks, among other characters. -/
inductive Kept : Nat → List (Option Char) → List (Option Char) → Prop
  | nil : Kept 0 [] []
  | keep {n s t} (a : Option Char) : Kept n s t → Kept n (a :: s) (a :: t)
  | blank {n s t c} : isBlank c = true → Kept n s t → Kept n (some c :: s) t
  | drop {n s t} : Kept n s t → Kept (n + 1) (none :: s) t
  | add {n s t} (c : Char) : Kept n s t → Kept n s (some c :: t)

namespace Kept

theorem refl : ∀ s, Kept 0 s s
  | [] => .nil
  | a :: s => .keep a (refl s)

theorem keeps {n : Nat} {s t : List (Option Char)} (as : List (Option Char)) (h : Kept n s t) :
    Kept n (as ++ s) (as ++ t) := by
  induction as with
  | nil => exact h
  | cons a as ih => exact .keep a ih

theorem blanks {n : Nat} {s t : List (Option Char)} {l : List Char}
    (hl : ∀ c ∈ l, isBlank c = true) (h : Kept n s t) : Kept n (l.map some ++ s) t := by
  induction l with
  | nil => exact h
  | cons c l ih => exact .blank (hl c (by simp)) (ih fun d hd => hl d (List.mem_cons_of_mem _ hd))

theorem adds {n : Nat} {s t : List (Option Char)} (l : List Char) (h : Kept n s t) :
    Kept n s (l.map some ++ t) := by
  induction l with
  | nil => exact h
  | cons c l ih => exact .add c ih

/-- What two steps keep, the second from the first. -/
theorem trans {m n : Nat} {s t u : List (Option Char)} (h : Kept m s t) (h' : Kept n t u) :
    Kept (m + n) s u := by
  cases h with
  | nil =>
    cases h' with
    | nil => exact .nil
    | add c h' => exact .add c (trans .nil h')
  | blank hc h => exact .blank hc (trans h h')
  | drop h =>
    rw [Nat.add_right_comm]
    exact .drop (trans h h')
  | keep a h =>
    cases h' with
    | keep _ h' => exact .keep a (trans h h')
    | blank hc h' => exact .blank hc (trans h h')
    | drop h' => exact .drop (trans h h')
    | add c h' => exact .add c (trans (.keep a h) h')
  | add c h =>
    cases h' with
    | keep _ h' => exact .add c (trans h h')
    | blank _ h' => exact trans h h'
    | add d h' => exact .add d (trans (.add c h) h')
termination_by s.length + t.length + u.length

theorem count_none {n : Nat} {s t : List (Option Char)} (h : Kept n s t) :
    s.count none = t.count none + n := by
  induction h with
  | nil => rfl
  | keep a _ ih => cases a <;> simp [ih]; omega
  | blank _ _ ih => simpa using ih
  | drop _ ih => simp [ih]; omega
  | add c _ ih => simpa using ih

/-- The text falls into pieces with the lost keywords between them, and what is not blank in the
pieces is still there, in order. -/
theorem pieces {n : Nat} {s t : List (Option Char)} (h : Kept n s t) :
    ∃ ps : List (List Char), ps.length = n + 1 ∧ List.intercalate keyword ps = spell s ∧
      (ps.flatten.filter (fun c => !isBlank c)).Sublist (spell t) := by
  -- an atom that is not lost goes to the front of the first piece
  have cons (c : Option Char) {s : List (Option Char)} {ps : List (List Char)} {n : Nat}
      (hl : ps.length = n + 1) (hi : List.intercalate keyword ps = spell s) :
      ∃ q qs, ps = q :: qs ∧
        List.intercalate keyword ((spell [c] ++ q) :: qs) = spell (c :: s) := by
    obtain ⟨q, qs, rfl⟩ := List.exists_cons_of_length_eq_add_one hl
    refine ⟨q, qs, rfl, ?_⟩
    have : spell (c :: s) = spell [c] ++ spell s := by simp [spell]
    rw [this, ← hi]
    cases qs with
    | nil => simp [List.intercalate_singleton]
    | cons r qs => simp [List.intercalate_cons_cons]
  induction h with
  | nil => exact ⟨[[]], rfl, rfl, by simp [spell]⟩
  | @keep n s t a _ ih =>
    obtain ⟨ps, hl, hi, hs⟩ := ih
    obtain ⟨q, qs, rfl, hq⟩ := cons a hl hi
    refine ⟨(spell [a] ++ q) :: qs, by simpa using hl, hq, ?_⟩
    have : spell (a :: t) = spell [a] ++ spell t := by simp [spell]
    rw [this, List.flatten_cons, List.append_assoc, List.filter_append]
    exact List.Sublist.append List.filter_sublist hs
  | @blank n s t c hc _ ih =>
    obtain ⟨ps, hl, hi, hs⟩ := ih
    obtain ⟨q, qs, rfl, hq⟩ := cons (some c) hl hi
    refine ⟨(spell [some c] ++ q) :: qs, by simpa using hl, hq, ?_⟩
    have : (spell [some c]).filter (fun c => !isBlank c) = [] := by simp [spell, hc]
    rw [List.flatten_cons, List.append_assoc, List.filter_append, this]
    exact hs
  | @drop n s t _ ih =>
    obtain ⟨ps, hl, hi, hs⟩ := ih
    obtain ⟨q, qs, rfl⟩ := List.exists_cons_of_length_eq_add_one hl
    refine ⟨[] :: q :: qs, by simpa using hl, ?_, by simpa using hs⟩
    rw [List.intercalate_cons_cons, hi]
    simp [spell]
  | @add n s t c _ ih =>
    obtain ⟨ps, hl, hi, hs⟩ := ih
    exact ⟨ps, hl, hi, hs.trans (by simp [spell])⟩

end Kept

end LockMigration.Java
