/-
The roles of a text: for every token, in order, the position of its keyword and its kind, where no
kind means that nothing but blanks follows the keyword. The roles come out of one reading from left
to right, which makes them easy to compare between two texts: the roles of a text put together
from parts are the roles of its parts, each read on from what the parts before it left behind.

`tokens_roles` says that these are the tokens that the library lists, with the kinds that it gives
them.
-/
import LockMigration.Proofs.Java.Reading
import Mathlib.Data.List.Forall2

namespace LockMigration.Java

open Text

theorem keyword_eq :
    keyword = ['s', 'y', 'n', 'c', 'h', 'r', 'o', 'n', 'i', 'z', 'e', 'd'] := by
  decide

attribute [local irreducible] keyword

/-- The kind of a token whose leading blanks have the setting `s` and whose keyword is followed by
`rest`. -/
def Setting.kind? (s : Setting) (rest : List Char) : Option Kind :=
  match s with
  | .comment => some .comment
  | .quoted => some .quoted
  | .code =>
    (rest.find? (fun c => !isBlank c)).map fun c => if c = '(' then .monitor else .method

/-- The token that the text `t` begins with, if it stands after blanks with the setting `s`. -/
def Setting.entry (s : Setting) (t : List Char) : Option (Option Kind) :=
  if (keywordLength? t).isSome then some (s.kind? (t.drop keyword.length)) else none

/-- The roles of the keywords that begin in `x`, which stands at position `i`, after a text that
left the reading `r`, and before `y`. -/
def rolesFrom (i : Nat) (r : Reading) : (x y : List Char) → List (Nat × Option Kind)
  | [], _ => []
  | c :: x, y =>
    ((r.run.bind (·.entry (c :: (x ++ y)))).map (Prod.mk i)).toList ++ rolesFrom (i + 1) (r.next c) x y

/-- The roles of a text. -/
def roles (t : List Char) : List (Nat × Option Kind) :=
  rolesFrom 0 .start t []

theorem Setting.entry_eq_none {t : List Char} (h : ¬ keyword <+: t) (s : Setting) :
    s.entry t = none := by
  simp only [entry, keywordLength?, List.isPrefixOf_iff_prefix, h]
  rfl

theorem rolesFrom_nil (i : Nat) (r : Reading) (y : List Char) : rolesFrom i r [] y = [] := rfl

theorem rolesFrom_cons (i : Nat) (r : Reading) (c : Char) (x y : List Char) :
    rolesFrom i r (c :: x) y =
      ((r.run.bind (·.entry (c :: (x ++ y)))).map (Prod.mk i)).toList ++
        rolesFrom (i + 1) (r.next c) x y := rfl

/-- A role is the role of a token that begins somewhere in the text. -/
theorem mem_rolesFrom {i : Nat} {r : Reading} {x y : List Char} {e : Nat × Option Kind} :
    e ∈ rolesFrom i r x y ↔ ∃ z w, x = z ++ w ∧ w ≠ [] ∧ e.1 = i + z.length ∧
      ∃ s, (r.read z).run = some s ∧ s.entry (w ++ y) = some e.2 := by
  induction x generalizing i r with
  | nil =>
    simp only [rolesFrom_nil, List.not_mem_nil, false_iff]
    rintro ⟨z, w, h, hw, -⟩
    exact hw (List.append_eq_nil_iff.1 h.symm).2
  | cons c x ih =>
    rw [rolesFrom_cons, List.mem_append, ih]
    constructor
    · rintro (h | ⟨z, w, rfl, hw, hi, h⟩)
      · obtain ⟨k, hk, rfl⟩ := Option.map_eq_some_iff.1 (Option.mem_toList.1 h)
        obtain ⟨s, hs, hk⟩ := Option.bind_eq_some_iff.1 hk
        exact ⟨[], c :: x, rfl, by simp, rfl, s, hs, hk⟩
      · exact ⟨c :: z, w, rfl, hw, by rw [hi, List.length_cons]; omega, h⟩
    · rintro ⟨z, w, hx, hw, hi, s, hs, he⟩
      cases z with
      | nil =>
        obtain rfl : c :: x = w := hx
        refine .inl (Option.mem_toList.2 ?_)
        rw [Reading.read_nil] at hs
        rw [hs, Option.bind_some]
        exact Option.map_eq_some_iff.2 ⟨e.2, he, by rw [Prod.ext_iff]; exact ⟨hi.symm, rfl⟩⟩
      | cons d z =>
        cases hx
        exact .inr ⟨z, w, rfl, hw, by rw [hi, List.length_cons]; omega, s, hs, he⟩

/-! ## Parts of a text -/

theorem rolesFrom_append (i : Nat) (r : Reading) (x₁ x₂ y : List Char) :
    rolesFrom i r (x₁ ++ x₂) y =
      rolesFrom i r x₁ (x₂ ++ y) ++ rolesFrom (i + x₁.length) (r.read x₁) x₂ y := by
  induction x₁ generalizing i r with
  | nil => rfl
  | cons c x₁ ih =>
    simp only [rolesFrom_cons, List.cons_append, List.append_assoc, List.length_cons,
      Reading.read_cons]
    rw [ih, Nat.add_assoc, Nat.add_comm 1]

theorem rolesFrom_shift (i n : Nat) (r : Reading) (x y : List Char) :
    rolesFrom (i + n) r x y = (rolesFrom i r x y).map fun e => (e.1 + n, e.2) := by
  induction x generalizing i r with
  | nil => rfl
  | cons c x ih =>
    rw [rolesFrom_cons, rolesFrom_cons, Nat.add_right_comm, ih, List.map_append]
    congr 1
    cases r.run.bind (·.entry (c :: (x ++ y))) <;> rfl

/-- The kinds do not depend on the position. -/
theorem map_snd_rolesFrom (i j : Nat) (r : Reading) (x y : List Char) :
    (rolesFrom i r x y).map Prod.snd = (rolesFrom j r x y).map Prod.snd := by
  rw [← Nat.zero_add i, ← Nat.zero_add j, rolesFrom_shift, rolesFrom_shift, List.map_map,
    List.map_map]
  rfl

/-- Roles that are moved as one are the roles at the new position. -/
theorem map_rolesFrom {i j : Nat} {x : List Char} {f : Nat → Nat}
    (h : ∀ k < x.length, f (i + k) = j + k) (r : Reading) (y : List Char) :
    (rolesFrom i r x y).map (fun e => (f e.1, e.2)) = rolesFrom j r x y := by
  rw [← Nat.zero_add i, ← Nat.zero_add j, rolesFrom_shift, rolesFrom_shift, List.map_map]
  refine List.map_congr_left fun e he => ?_
  obtain ⟨z, w, rfl, hw, hpos, -⟩ := mem_rolesFrom.1 he
  have hlt : e.1 < (z ++ w).length := by
    have := List.length_pos_iff.2 hw
    rw [List.length_append]
    omega
  simp only [Function.comp_apply, Nat.add_comm e.1, h _ hlt]

/-- Roles stand at increasing positions. -/
theorem pairwise_rolesFrom (i : Nat) (r : Reading) (x y : List Char) :
    (rolesFrom i r x y).Pairwise (fun a b => a.1 < b.1) := by
  induction x generalizing i r with
  | nil => exact .nil
  | cons c x ih =>
    rw [rolesFrom_cons]
    refine List.pairwise_append.2 ⟨?_, ih (i + 1) (r.next c), fun a ha b hb => ?_⟩
    · cases r.run.bind (·.entry (c :: (x ++ y))) <;> simp
    · obtain ⟨k, -, rfl⟩ := Option.map_eq_some_iff.1 (Option.mem_toList.1 ha)
      obtain ⟨z, w, -, -, hpos, -⟩ := mem_rolesFrom.1 hb
      simp only [hpos]
      omega

/-- What follows a text matters only as far as the tokens that begin in the text read it. -/
theorem rolesFrom_congr {x y y' : List Char}
    (h : ∀ z, z ≠ [] → z <:+ x → ∀ s : Setting, s.entry (z ++ y) = s.entry (z ++ y')) (i : Nat)
    (r : Reading) : rolesFrom i r x y = rolesFrom i r x y' := by
  induction x generalizing i r with
  | nil => rfl
  | cons c x ih =>
    rw [rolesFrom_cons, rolesFrom_cons,
      ih fun z hz hx => h z hz (hx.trans (List.suffix_cons c x))]
    have := h (c :: x) (by simp) List.suffix_rfl
    simp only [List.cons_append] at this
    cases r.run with
    | none => rfl
    | some s => rw [Option.bind_some, Option.bind_some, this s]

/-- The same for texts without a method, where the tokens that are methods before `y` do not
count. -/
theorem rolesFrom_congr_of_no_method {x y y' : List Char}
    (h : ∀ z, z ≠ [] → z <:+ x → ∀ s : Setting, s.entry (z ++ y) = s.entry (z ++ y') ∨
      s.entry (z ++ y) = some (some .method)) (i : Nat) (r : Reading)
    (hm : ∀ e ∈ rolesFrom i r x y, e.2 ≠ some .method) :
    rolesFrom i r x y = rolesFrom i r x y' := by
  induction x generalizing i r with
  | nil => rfl
  | cons c x ih =>
    rw [rolesFrom_cons] at hm
    rw [rolesFrom_cons, rolesFrom_cons,
      ih (fun z hz hx => h z hz (hx.trans (List.suffix_cons c x))) _ _ fun e he =>
        hm e (List.mem_append_right _ he)]
    have := h (c :: x) (by simp) List.suffix_rfl
    simp only [List.cons_append] at this
    cases hr : r.run with
    | none => rfl
    | some s =>
      rcases this s with h | h
      · rw [Option.bind_some, Option.bind_some, h]
      · exact absurd rfl (hm (i, some .method) (by simp [hr, h]))

/-- Readings that agree after one character give the same roles, unless a keyword begins there. -/
theorem rolesFrom_next {r r' : Reading} {c : Char} {x y : List Char} (h : r.next c = r'.next c)
    (hk : ¬ keyword <+: c :: (x ++ y)) (i : Nat) :
    rolesFrom i r (c :: x) y = rolesFrom i r' (c :: x) y := by
  have none (o : Option Setting) : o.bind (·.entry (c :: (x ++ y))) = none := by
    cases o with
    | none => rfl
    | some s => exact Setting.entry_eq_none hk s
  rw [rolesFrom_cons, rolesFrom_cons, h, none, none]

theorem rolesFrom_eq_nil {x y : List Char} (h : ∀ z, z ≠ [] → z <:+ x → ¬ keyword <+: z ++ y)
    (i : Nat) (r : Reading) : rolesFrom i r x y = [] := by
  induction x generalizing i r with
  | nil => rfl
  | cons c x ih =>
    rw [rolesFrom_cons, ih fun z hz hx => h z hz (hx.trans (List.suffix_cons c x))]
    have := h (c :: x) (by simp) List.suffix_rfl
    simp only [List.cons_append] at this
    cases r.run with
    | none => rfl
    | some s =>
      rw [Option.bind_some, Setting.entry_eq_none this]
      rfl

/-- Within a keyword no other one begins. -/
theorem rolesFrom_keyword (i : Nat) {r : Reading} {s : Setting} (hr : r.run = some s)
    (y : List Char) :
    rolesFrom i r keyword y = ((s.entry (keyword ++ y)).map (Prod.mk i)).toList := by
  obtain ⟨w, hw, hs⟩ : ∃ w, keyword = 's' :: w ∧ 's' ∉ w :=
    ⟨keyword.tail, by rw [keyword_eq]; rfl, by rw [keyword_eq]; decide⟩
  have hnil (j : Nat) (q : Reading) : rolesFrom j q w y = [] := by
    refine rolesFrom_eq_nil (fun z hz hzw hk => hs ?_) j q
    obtain ⟨c, z, rfl⟩ := List.exists_cons_of_ne_nil hz
    rw [hw] at hk
    rw [(List.cons_prefix_cons.1 hk).1]
    exact hzw.subset List.mem_cons_self
  rw [hw, rolesFrom_cons, hnil, List.append_nil, hr, Option.bind_some, List.cons_append]

/-! ## Tokens -/

theorem run_snoc (r : Reading) (x : List Char) (c : Char) :
    (r.read (x ++ [c])).run = none ↔ isBlank c = false := by
  by_cases h : isBlank c = true <;> simp [Reading.next, h]

/-- A run of blanks keeps the setting of its first blank. -/
theorem run_read_blanks {r : Reading} {b : Char} {l : List Char} (hr : r.run = none)
    (h : ∀ c ∈ b :: l, isBlank c = true) : (r.read (b :: l)).run = some (r.setting b) := by
  induction l using List.reverseRecOn with
  | nil => simp [Reading.next, h b (by simp), hr]
  | append_singleton l c ih =>
    have hc := h c (by simp)
    rw [← List.cons_append, Reading.read_append]
    simp only [Reading.read_cons, Reading.read_nil] at ih ⊢
    rw [Reading.next, if_pos hc, ih fun a ha => h a (by
      rw [← List.cons_append]; exact List.mem_append_left _ ha)]
    rfl

/-- The parts of a token in its text: what stands before it, its leading blanks, and what follows
its keyword. -/
structure Parts (t : List Char) (k : Token) (before lead rest : List Char) : Prop where
  text : t = before ++ lead ++ keyword ++ rest
  lead_ne : lead ≠ []
  blank : ∀ c ∈ lead, isBlank c = true
  firm : (Reading.start.read before).run = none
  start : k.start = before.length
  word : k.keyword = before.length + lead.length
  stop : ∃ n, closingLength? rest = some n ∧ k.stop = k.keyword + keyword.length + n

/-- The end of a token: the parenthesis right after the keyword, or the blanks after it. -/
theorem closingLength?_eq_some {t : List Char} {n : Nat} (h : closingLength? t = some n) :
    (∃ r, t = '(' :: r ∧ n = 1) ∨
      ∃ b l r, t = b :: l ++ r ∧ n = l.length + 1 ∧ (∀ c ∈ b :: l, isBlank c = true) ∧
        ∀ c ∈ r.head?, isBlank c = false := by
  cases t with
  | nil => simp [closingLength?] at h
  | cons c t =>
    simp only [closingLength?, beq_iff_eq] at h
    split at h
    · rename_i hc
      cases h
      exact .inl ⟨t, by rw [hc], rfl⟩
    · split at h
      · rename_i hb
        have hw : (c :: t).takeWhile isBlank = c :: t.takeWhile isBlank := by
          simp [hb]
        rw [hw] at h
        cases h
        refine .inr ⟨c, t.takeWhile isBlank, t.dropWhile isBlank, by simp, by simp, ?_, ?_⟩
        · rw [← hw]
          exact fun a ha => List.all_eq_true.1 List.all_takeWhile a ha
        · intro a ha
          have := List.head?_dropWhile_not isBlank t
          rw [Option.mem_def.1 ha] at this
          simpa using this
      · cases h

namespace Parts

variable {t : List Char} {k : Token} {before lead rest : List Char} {n : Nat}

theorem stop_eq (h : Parts t k before lead rest) (hn : closingLength? rest = some n) :
    k.stop = (before ++ lead ++ keyword).length + n := by
  obtain ⟨m, hm, hs⟩ := h.stop
  rw [hn] at hm
  cases hm
  rw [hs, h.word, List.length_append, List.length_append]

theorem drop_stop (h : Parts t k before lead rest) (hn : closingLength? rest = some n) :
    t.drop k.stop = rest.drop n := by
  rw [h.stop_eq hn, h.text, List.drop_length_add_append]

theorem slice_eq (h : Parts t k before lead rest) (hn : closingLength? rest = some n) :
    slice t k.start k.stop = lead ++ keyword ++ rest.take n := by
  unfold slice
  rw [h.stop_eq hn, h.text, h.start, List.take_length_add_append, List.append_assoc,
    List.append_assoc, List.drop_left, List.append_assoc]

end Parts

theorem isBlank_ne {c d : Char} (hc : isBlank c = true) (hd : isBlank d = false) : c ≠ d := by
  rintro rfl
  rw [hc] at hd
  cases hd

/-- The kind of a token is what its leading blanks make of the text after its keyword. -/
theorem classify_eq {t : List Char} {k : Token} {before rest : List Char} {b : Char}
    {l : List Char} (h : Parts t k before (b :: l) rest) :
    classify t k.start k.stop =
      match ((Reading.start.read before).setting b).kind? rest with
      | some kind => .ok kind
      | none => .error (.unclassifiable (byteOffset t k.start)) := by
  obtain ⟨n, hn, -⟩ := h.stop
  have hb : isBlank b = true := h.blank b (by simp)
  have ht : t = before ++ b :: (l ++ keyword ++ rest) := by rw [h.text]; simp
  have hc : inComment t k.start = ((Reading.start.read before).block ||
      (!isLineBreak b && (Reading.start.read before).slashes)) := by
    rw [ht, h.start]
    exact inComment_eq (isBlank_ne hb (by decide)) (isBlank_ne hb (by decide))
  have hq : afterQuote t k.start = (Reading.start.read before).quote := by
    rw [ht, h.start]
    exact afterQuote_eq
  unfold classify Reading.setting
  rw [hc, hq, h.slice_eq hn, h.drop_stop hn]
  split
  · rfl
  · split
    · rfl
    · rcases closingLength?_eq_some hn with ⟨r, rfl, rfl⟩ | ⟨a, m, r, rfl, rfl, hm, -⟩
      · -- the parenthesis ends the token
        have hp : isBlank '(' = false := by decide
        have hl : (b :: l ++ keyword ++ List.take 1 ('(' :: r)).getLast? = some '(' := by
          rw [List.getLast?_append]
          rfl
        rw [hl]
        simp [Setting.kind?, hp]
      · -- the token ends with a blank, and the blanks after the keyword belong to it
        have hf : (a :: m ++ r).find? (fun c => !isBlank c) = r.find? (fun c => !isBlank c) := by
          rw [List.find?_append, List.find?_eq_none.2 fun c hc => by simp [hm c hc]]
          rfl
        have hl : (b :: l ++ keyword ++ List.take (m.length + 1) (a :: m ++ r)).getLast? ≠
            some '(' := by
          rw [List.take_left' (by simp), List.getLast?_append]
          intro h
          rw [List.getLast?_eq_some_getLast (List.cons_ne_nil a m)] at h
          exact isBlank_ne (hm _ (List.getLast_mem _)) (by decide) (Option.some.inj h)
        rw [if_neg (by simpa using hl), List.drop_left' (by simp)]
        unfold Setting.kind?
        rw [hf]
        cases hfind : r.find? (fun c => !isBlank c) with
        | none => rfl
        | some c =>
          by_cases hc : c = '('
          · subst hc; rfl
          · simp only [Option.map_some, if_neg hc]

/-- The text read so far ends with the run of blanks that began at the given position, or with no
blank. -/
def RunAt (x : List Char) : Option Nat → Prop
  | none => (Reading.start.read x).run = none
  | some s => ∃ w b l, x = w ++ b :: l ∧ (∀ c ∈ b :: l, isBlank c = true) ∧
      (Reading.start.read w).run = none ∧ s = w.length

theorem runAt_blank {x : List Char} {run : Option Nat} {c : Char} (h : RunAt x run)
    (hc : isBlank c = true) : RunAt (x ++ [c]) (some (run.getD x.length)) := by
  cases run with
  | none => exact ⟨x, c, [], rfl, by simpa using hc, h, rfl⟩
  | some s =>
    obtain ⟨w, b, l, rfl, hb, hw, rfl⟩ := h
    refine ⟨w, b, l ++ [c], by simp, fun a ha => ?_, hw, rfl⟩
    rw [← List.cons_append, List.mem_append, List.mem_singleton] at ha
    rcases ha with ha | rfl
    · exact hb a ha
    · exact hc

theorem keywordLength?_eq_some {t : List Char} {n : Nat} (h : keywordLength? t = some n) :
    ∃ rest m, t = keyword ++ rest ∧ closingLength? rest = some m ∧ n = keyword.length + m := by
  unfold keywordLength? at h
  split at h
  · rename_i hk
    obtain ⟨rest, rfl⟩ := List.isPrefixOf_iff_prefix.1 hk
    obtain ⟨m, hm, rfl⟩ := Option.map_eq_some_iff.1 h
    rw [List.drop_left] at hm
    exact ⟨rest, m, rfl, hm, rfl⟩
  · cases h

/-- A token has a kind if something follows that is neither blank nor part of a keyword. -/
theorem Setting.entry_ne_some_none {t : List Char} {d : Char}
    (hd : isBlank d = false) (hk : d ∉ keyword) (h : d ∈ t) (s : Setting) : s.entry t ≠ some none := by
  intro he
  unfold Setting.entry at he
  split at he
  · rename_i hsome
    obtain ⟨n, hn⟩ := Option.isSome_iff_exists.1 hsome
    obtain ⟨rest, -, rfl, -, -⟩ := keywordLength?_eq_some hn
    rw [List.drop_left, Option.some.injEq] at he
    have hfind : (rest.find? (fun c => !isBlank c)).isSome = true := by
      rw [List.find?_isSome]
      exact ⟨d, (List.mem_append.1 h).resolve_left hk, by simp [hd]⟩
    cases s with
    | comment => cases he
    | quoted => cases he
    | code =>
      rw [Setting.kind?, Option.map_eq_none_iff] at he
      rw [he] at hfind
      cases hfind
  · cases he

theorem Setting.eq_code_of_entry {s : Setting} {t : List Char} (h : s.entry t = some none) :
    s = .code := by
  unfold Setting.entry at h
  split at h
  · cases s with
    | code => rfl
    | comment => cases h
    | quoted => cases h
  · cases h

theorem kind_ne_none_of_mem {d : Char} (hd : isBlank d = false) (hk : d ∉ keyword) {i : Nat}
    {r : Reading} {x y : List Char} {e : Nat × Option Kind} (h : e ∈ rolesFrom i r (x ++ [d]) y) :
    e.2 ≠ none := by
  obtain ⟨z, w, hx, hw, -, s, -, hentry⟩ := mem_rolesFrom.1 h
  intro hnone
  rw [hnone] at hentry
  refine Setting.entry_ne_some_none hd hk (List.mem_append_left _ ?_) s hentry
  have hlast := congrArg List.getLast? hx
  rw [List.getLast?_concat, List.getLast?_append_of_ne_nil _ hw] at hlast
  exact List.mem_of_getLast? hlast.symm

theorem not_keyword_of_isBlank {c : Char} (hc : isBlank c = true) (t : List Char) :
    ¬ keyword <+: c :: t := by
  rintro ⟨r, h⟩
  rw [keyword_eq] at h
  cases h
  revert hc
  decide

theorem tokensFrom_nil (i : Nat) (run : Option Nat) : tokensFrom i run [] = [] := rfl

theorem tokensFrom_cons (i : Nat) (run : Option Nat) (c : Char) (t : List Char) :
    tokensFrom i run (c :: t) =
      if isBlank c then tokensFrom (i + 1) (some (run.getD i)) t
      else
        match run, keywordLength? (c :: t) with
        | some s, some n => ⟨s, i, i + n⟩ :: tokensFrom (i + 1) none t
        | _, _ => tokensFrom (i + 1) none t := rfl

/-- The tokens from a position on have their parts in the text, and their kinds are the roles. -/
theorem tokensFrom_roles (x rest : List Char) (run : Option Nat) (h : RunAt x run) :
    (∀ k ∈ tokensFrom x.length run rest, ∃ before b l rest',
      Parts (x ++ rest) k before (b :: l) rest') ∧
    (tokensFrom x.length run rest).map
      (fun k => (k.keyword, (classify (x ++ rest) k.start k.stop).toOption)) =
        rolesFrom x.length (Reading.start.read x) rest [] := by
  induction rest generalizing x run with
  | nil => simp [tokensFrom_nil, rolesFrom_nil]
  | cons c rest ih =>
    have step (run' : Option Nat) (h' : RunAt (x ++ [c]) run') := ih (x ++ [c]) run' h'
    simp only [List.length_append, List.length_singleton, List.append_assoc,
      List.singleton_append, Reading.read_append, Reading.read_cons, Reading.read_nil] at step
    rw [tokensFrom_cons, rolesFrom_cons, List.append_nil]
    by_cases hc : isBlank c = true
    · -- a blank begins or goes on with a run, and no keyword begins with it
      obtain ⟨ih1, ih2⟩ := step _ (runAt_blank h hc)
      rw [if_pos hc]
      refine ⟨ih1, ?_⟩
      have none : (Reading.start.read x).run.bind (·.entry (c :: rest)) = none := by
        cases (Reading.start.read x).run with
        | none => rfl
        | some s => exact Setting.entry_eq_none (not_keyword_of_isBlank hc rest) s
      rw [ih2, none]
      rfl
    · obtain ⟨ih1, ih2⟩ := step none ((run_snoc _ _ _).2 (by simpa using hc))
      rw [if_neg hc]
      cases hk : keywordLength? (c :: rest) with
      | none =>
        have none : (Reading.start.read x).run.bind (·.entry (c :: rest)) = none := by
          cases (Reading.start.read x).run with
          | none => rfl
          | some s => simp [Setting.entry, hk]
        rw [none]
        cases run <;> exact ⟨ih1, ih2⟩
      | some n =>
        cases run with
        | none =>
          -- a keyword right after another character is no token
          have hr : (Reading.start.read x).run = none := h
          rw [hr]
          exact ⟨ih1, ih2⟩
        | some s =>
          -- the run before the keyword is the leading part of the token
          obtain ⟨w, b, l, rfl, hb, hw, rfl⟩ := h
          obtain ⟨rest', m, hrest, hm, rfl⟩ := keywordLength?_eq_some hk
          have hp : Parts (w ++ b :: l ++ c :: rest)
              ⟨w.length, (w ++ b :: l).length, (w ++ b :: l).length + (keyword.length + m)⟩ w
              (b :: l) rest' :=
            ⟨by rw [hrest]; simp, by simp, hb, hw, rfl, by simp, m, hm, by simp; omega⟩
          have hrun : (Reading.start.read (w ++ b :: l)).run =
              some ((Reading.start.read w).setting b) := by
            rw [Reading.read_append]
            exact run_read_blanks hw hb
          refine ⟨fun k hk' => ?_, ?_⟩
          · rcases List.mem_cons.1 hk' with rfl | hk'
            · exact ⟨w, b, l, rest', hp⟩
            · exact ih1 k hk'
          · rw [List.map_cons, ih2, classify_eq hp, hrun, Option.bind_some, Setting.entry, hk,
              hrest, List.drop_left]
            cases ((Reading.start.read w).setting b).kind? rest' <;> rfl

theorem parts_of_mem_tokens {t : List Char} {k : Token} (h : k ∈ tokens t) :
    ∃ before b l rest, Parts t k before (b :: l) rest :=
  (tokensFrom_roles [] t none rfl).1 k h

/-- The roles of a text are the kinds of its tokens. -/
theorem tokens_roles (t : List Char) :
    (tokens t).map (fun k => (k.keyword, (classify t k.start k.stop).toOption)) = roles t :=
  (tokensFrom_roles [] t none rfl).2

theorem start_lt_keyword {t : List Char} {k : Token} (hk : k ∈ tokens t) : k.start < k.keyword := by
  obtain ⟨before, b, l, rest, hp⟩ := parts_of_mem_tokens hk
  rw [hp.start, hp.word, List.length_cons]
  omega

/-- A keyword behind a character that is not blank has its leading blanks behind it. -/
theorem lt_start_of_lt_keyword {t : List Char} {k : Token} (hk : k ∈ tokens t) {q : Nat} {c : Char}
    (hq : t[q]? = some c) (hc : isBlank c = false) (hlt : q < k.keyword) : q < k.start := by
  obtain ⟨before, b, l, rest, hp⟩ := parts_of_mem_tokens hk
  have hword := hp.word
  by_contra hge
  rw [hp.start] at hge
  rw [hp.text, List.append_assoc, List.append_assoc, List.getElem?_append_right (by omega),
    List.getElem?_append_left (by omega)] at hq
  rw [hp.blank c (List.mem_of_getElem? hq)] at hc
  cases hc

end LockMigration.Java
