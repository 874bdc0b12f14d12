/-
The place of the import. It goes after the first package declaration that is not in a comment,
whatever the braces around it, so a text can draw it into a class with a string that mentions a
package. Two kinds of sources are safe: those with a package declaration before their first brace,
and those whose package words are all in comments. A conversion keeps both: the text it generates
holds no package word, and it ends lines only where a member begins and at braces.

`convert_import_top` says that the import of such a source stands before every brace.
-/
import LockMigration.Proofs.Conversion.Braces
import LockMigration.Proofs.Java.Package
import Mathlib.Data.List.TakeWhile

namespace LockMigration

open Text Java

attribute [local irreducible] keyword

/-! ## Reading with a new line at every brace -/

namespace Java

namespace Reading

/-- The two readings hold the same about comments. -/
structure Agrees (r r' : Reading) : Prop where
  last : r'.last = r.last
  block : r'.block = r.block
  slashes : r'.slashes = r.slashes

variable {r r' : Reading}

theorem Agrees.read (h : r.Agrees r') (t : List Char) : (r.read t).Agrees (r'.read t) := by
  induction t generalizing r r' with
  | nil => exact h
  | cons c t ih =>
    refine ih ⟨rfl, ?_, ?_⟩
    · simp only [Reading.next, h.last, h.block]
    · simp only [Reading.next, h.last, h.slashes]

theorem Agrees.trans {r'' : Reading} (h : r.Agrees r') (h' : r'.Agrees r'') : r.Agrees r'' :=
  ⟨h'.last.trans h.last, h'.block.trans h.block, h'.slashes.trans h.slashes⟩

theorem Agrees.commented (h : r.Agrees r') : r'.commented = r.commented := by
  rw [Reading.commented, Reading.commented, h.block, h.slashes]

/-- A quiet text changes nothing behind a line without slashes. -/
theorem agrees_quiet {t : List Char} (h : ∀ c ∈ t, isQuiet c = true) (hlast : r.last = none)
    (hslashes : r.slashes = false) : r.Agrees (r.read t) := by
  by_cases hne : t = []
  · rw [hne]
    exact ⟨rfl, rfl, rfl⟩
  · obtain ⟨h1, h2, h3, -⟩ := read_quiet h hne r
    exact ⟨h1.trans hlast.symm, h2, by rw [h3, hslashes, Bool.and_false]⟩

/-- Quiet texts that end a line leave the same behind. -/
theorem agrees_lines {t u : List Char} (ht : ∀ c ∈ t, isQuiet c = true)
    (hlt : t.any isLineBreak = true) (hu : ∀ c ∈ u, isQuiet c = true)
    (hlu : u.any isLineBreak = true) (r : Reading) : (r.read t).Agrees (r.read u) := by
  obtain ⟨h1, h2, h3, -⟩ := read_quiet ht (by rintro rfl; cases hlt) r
  obtain ⟨h1', h2', h3', -⟩ := read_quiet hu (by rintro rfl; cases hlu) r
  rw [hlt] at h3
  rw [hlu] at h3'
  exact ⟨h1'.trans h1.symm, h2'.trans h2.symm, h3'.trans h3.symm⟩

end Reading

/-- The text with a line break in place of every brace. -/
def breakBraces (t : List Char) : List Char :=
  t.map fun c => if c = '{' ∨ c = '}' then '\n' else c

/-- The reading after a text, where every brace ends the line. -/
def readBroken (t : List Char) : Reading :=
  Reading.start.read (breakBraces t)

theorem breakBraces_append (x y : List Char) :
    breakBraces (x ++ y) = breakBraces x ++ breakBraces y :=
  List.map_append

theorem readBroken_append (x y : List Char) :
    readBroken (x ++ y) = (readBroken x).read (breakBraces y) := by
  rw [readBroken, breakBraces_append, Reading.read_append, readBroken]

theorem not_brace_of_mem {x : List Char} (h : braces x = []) {c : Char} (hc : c ∈ x) :
    ¬ (c = '{' ∨ c = '}') := by
  have := List.filter_eq_nil_iff.1 h c hc
  simpa using this

theorem agrees_append {w w' : List Char} (h : (readBroken w).Agrees (readBroken w'))
    (x : List Char) : (readBroken (w ++ x)).Agrees (readBroken (w' ++ x)) := by
  rw [readBroken_append, readBroken_append]
  exact h.read _

theorem readBroken_of_braces {x : List Char} (h : braces x = []) :
    readBroken x = Reading.start.read x := by
  have : breakBraces x = x := by
    refine List.map_congr_left (g := id) ?_ |>.trans (List.map_id x)
    intro c hc
    rw [if_neg (not_brace_of_mem h hc)]
    rfl
  rw [readBroken, this]

theorem quiet_breakBraces {t : List Char} (h : ∀ c ∈ t, isQuiet c = true) :
    ∀ c ∈ breakBraces t, isQuiet c = true := by
  intro d hd
  obtain ⟨c, hc, rfl⟩ := List.mem_map.1 hd
  split
  · decide
  · exact h c hc

theorem eases_readBroken (t : List Char) : (Reading.start.read t).Eases (readBroken t) := by
  induction t using List.reverseRecOn with
  | nil => exact ⟨rfl, rfl, id, id⟩
  | append_singleton t c ih =>
    rw [readBroken_append, Reading.read_append]
    by_cases hc : c = '{' ∨ c = '}'
    · have hbreak : breakBraces [c] = ['\n'] := by
        rw [breakBraces, List.map_singleton, if_pos hc]
      have hnext : ((Reading.start.read t).next c).last = none ∧
          ((Reading.start.read t).next c).block = (Reading.start.read t).block := by
        rcases hc with rfl | rfl
        · simp [Reading.next]
        · simp [Reading.next]
      rw [hbreak]
      refine ⟨hnext.1.symm, ?_, ?_, ?_⟩
      · rw [Reading.read_cons, Reading.read_cons, Reading.read_nil, Reading.read_nil, hnext.2,
          ← ih.block]
        simp [Reading.next]
      · simp [Reading.next, isLineBreak]
      · simp [Reading.next, isLineBreak]
    · have hkeep : breakBraces [c] = [c] := by
        rw [breakBraces, List.map_singleton, if_neg hc]
      rw [hkeep]
      exact ih.next c

end Java

namespace Conversion

/-! ## Safe package words -/

/-- The part of a text before its first brace. -/
def lid (t : List Char) : List Char :=
  t.takeWhile fun c => !(c == '{' || c == '}')

/-- A package declaration in code begins at the boundary, and no brace stands before it or before
its semicolon. -/
structure Leads (x y : List Char) : Prop where
  word : startsWord x = true
  begins : Begins isBlank y
  code : (readBroken x).commented = false
  above : braces x = []
  semicolon : ';' ∈ lid y

/-- A blank, or the brace that a guard puts blanks before. -/
def isBlankOrBrace (c : Char) : Bool :=
  isBlank c || c == '}'

/-- The package word at the boundary, if there is one, is in a comment that does not end at a
brace. -/
def Covered (x y : List Char) : Prop :=
  startsWord x = true → Begins isBlankOrBrace y → (readBroken x).commented = true

theorem isBlankOrBrace_of_isBlank (c : Char) (h : isBlank c = true) : isBlankOrBrace c = true := by
  rw [isBlankOrBrace, h, Bool.true_or]

/-- A package declaration in code comes before the first brace. -/
def PackageLeads (t : List Char) : Prop :=
  ∃ x y, t = x ++ y ∧ Leads x y

/-- All package words are in comments. -/
def PackageCovered (t : List Char) : Prop :=
  ∀ x y, t = x ++ y → Covered x y

theorem packageLeads_iff {t : List Char} :
    PackageLeads t ↔ ¬ Along (fun x y => ¬ Leads x y) [] t [] := by
  unfold PackageLeads Along
  simp only [not_forall, not_not, List.nil_append, List.append_nil]
  constructor
  · rintro ⟨x, y, h, hl⟩
    refine ⟨x, y, h, ?_, hl⟩
    rintro rfl
    cases hl.begins.head
  · rintro ⟨x, y, h, -, hl⟩
    exact ⟨x, y, h, hl⟩

theorem packageCovered_iff {t : List Char} : PackageCovered t ↔ Along Covered [] t [] := by
  unfold PackageCovered Along
  simp only [List.nil_append, List.append_nil]
  constructor
  · intro h x y ht _
    exact h x y ht
  · intro h x y ht hword hbegins
    refine h x y ht ?_ hword hbegins
    rintro rfl
    cases hbegins.head

instance (x y : List Char) : Decidable (Leads x y) :=
  decidable_of_iff (Begins isBlank y ∧ startsWord x = true ∧ (readBroken x).commented = false ∧
      braces x = [] ∧ ';' ∈ lid y)
    ⟨fun ⟨h1, h2, h3, h4, h5⟩ => ⟨h2, h1, h3, h4, h5⟩, fun h => ⟨h.2, h.1, h.3, h.4, h.5⟩⟩

instance (x y : List Char) : Decidable (Covered x y) :=
  decidable_of_iff (Begins isBlankOrBrace y → startsWord x = true → (readBroken x).commented = true)
    ⟨fun h hx hy => h hy hx, fun h hy hx => h hx hy⟩

instance (t : List Char) : Decidable (PackageLeads t) :=
  decidable_of_iff _ packageLeads_iff.symm

instance (t : List Char) : Decidable (PackageCovered t) :=
  decidable_of_iff _ packageCovered_iff.symm

theorem semicolon_mem_lid_append {x y : List Char} :
    ';' ∈ lid (x ++ y) ↔ ';' ∈ lid x ∨ braces x = [] ∧ ';' ∈ lid y := by
  unfold lid braces
  induction x with
  | nil => simp
  | cons c x ih =>
    rw [List.cons_append, List.takeWhile_cons, List.takeWhile_cons, List.filter_cons]
    by_cases hc : (c == '{' || c == '}') = true
    · simp [hc]
    · simp only [hc, Bool.not_false, if_true, List.mem_cons, ih, or_assoc]
      simp

theorem lid_of_braces {t : List Char} (h : braces t = []) : lid t = t := by
  rw [lid, List.takeWhile_eq_self_iff]
  intro c hc
  have := not_brace_of_mem h hc
  simpa using this

theorem braces_lid (t : List Char) : braces (lid t) = [] := by
  rw [braces, List.filter_eq_nil_iff]
  intro c hc
  have := List.mem_takeWhile_imp hc
  simpa using this

theorem braces_of_subset {x y : List Char} (h : braces y = []) (hs : x ⊆ y) : braces x = [] := by
  rw [braces, List.filter_eq_nil_iff]
  intro c hc
  have := not_brace_of_mem h (hs hc)
  simpa using this

/-- With a leading package declaration the import goes above all braces. -/
theorem packageEnd?_of_leads {t : List Char} (h : PackageLeads t) :
    ∃ n, packageEnd? t = .ok (some n) ∧ braces (t.take n) = [] := by
  obtain ⟨x, y, rfl, hl⟩ := h
  obtain ⟨u, v, huv⟩ := List.append_of_mem hl.semicolon
  obtain ⟨w, hw⟩ := List.takeWhile_prefix (l := y) fun c => !(c == '{' || c == '}')
  have hy : y = u ++ ';' :: (v ++ w) := by
    rw [← hw, ← lid, huv, List.append_assoc, List.cons_append]
  have hcode := hl.code
  rw [readBroken_of_braces hl.above] at hcode
  have hbegins := hl.begins
  rw [hy] at hbegins ⊢
  obtain ⟨n, hn, hle⟩ := packageEnd?_le hl.word hbegins hcode
  refine ⟨n, hn, ?_⟩
  -- all up to the semicolon is in `x` or before the first brace
  have habove : braces (x ++ u ++ [';']) = [] := by
    have hlid := braces_lid y
    rw [huv, List.append_cons, braces_append] at hlid
    rw [List.append_assoc, braces_append, hl.above, (List.append_eq_nil_iff.1 hlid).1]
    rfl
  rw [List.append_cons u, ← List.append_assoc, ← List.append_assoc x,
    List.take_append_of_le_length hle]
  exact braces_of_subset habove (List.take_subset n _)

/-- Without a package word in code the import goes on top. -/
theorem packagePosition?_of_covered {t : List Char} (h : PackageCovered t) :
    packagePosition? t = none := by
  rw [packagePosition?_eq_none]
  rintro x y rfl hx hy
  have hcommented := h x y rfl hx (hy.mono isBlankOrBrace_of_isBlank)
  have heases := eases_readBroken x
  rw [Reading.commented, Bool.or_eq_true] at hcommented ⊢
  rw [heases.block] at hcommented
  exact hcommented.imp_right heases.slashes

/-! ## Parts that an edit keeps -/

/-- An edit that keeps the part `s`, with `w'` and `y'` around it in place of `w` and `y`, keeps its
package words safe. -/
structure KeepsPackages (s w y w' y' : List Char) : Prop where
  covered : Along Covered w s y → Along Covered w' s y'
  leads : Along (fun x z => ¬ Leads x z) w' s y' → Along (fun x z => ¬ Leads x z) w s y

theorem any_mono {p q : Char → Bool} {a : Option Char} (h : a.any p = true)
    (hpq : ∀ c, p c = true → q c = true) : a.any q = true := by
  obtain ⟨c, hc, hp⟩ := (Option.any_eq_true _ _).1 h
  exact (Option.any_eq_true _ _).2 ⟨c, hc, hpq c hp⟩

theorem any_head?_blanks {y : List Char} (hne : y ≠ []) (h : ∀ c ∈ y, isBlank c = true)
    (z : List Char) : (y ++ z).head?.any isBlank = true := by
  obtain ⟨c, w, rfl⟩ := List.exists_cons_of_ne_nil hne
  exact h c List.mem_cons_self

theorem head?_of_begins {p : Char → Bool} {z y : List Char} (hz : z ≠ [])
    (h : Begins p (z ++ y)) : z.head? = some 'p' := by
  have := h.head
  rwa [List.head?_append_of_ne_nil _ hz] at this

theorem keepsPackages_of {s w y w' y' : List Char}
    (hleft : ∀ x z, s = x ++ z → z.head? = some 'p' →
      (readBroken (w ++ x)).Agrees (readBroken (w' ++ x)) ∧
        startsWord (w' ++ x) = startsWord (w ++ x))
    (hy : Boundary s y) (hy' : Boundary s y')
    (hnext : packageWord <:+ s →
      (y'.head?.any isBlankOrBrace = true → y.head?.any isBlankOrBrace = true) ∧
      (y.head?.any isBlank = true → y'.head?.any isBlank = true))
    (hlid : braces w = [] → braces w' = [] ∧ (';' ∈ lid y → ';' ∈ lid y')) :
    KeepsPackages s w y w' y' := by
  constructor
  · rintro h x z rfl hz hword hbegins
    have hsuffix : z <:+ x ++ z := List.suffix_append x z
    obtain ⟨hagrees, hstarts⟩ := hleft x z rfl (head?_of_begins hz hbegins)
    rw [hagrees.commented]
    rw [hstarts] at hword
    refine h x z rfl hz hword (hbegins.of_append hz (hy'.suffix hsuffix) (hy.suffix hsuffix) ?_)
    rintro rfl
    exact (hnext (List.suffix_append x _)).1
  · rintro h x z rfl hz hl
    have hsuffix : z <:+ x ++ z := List.suffix_append x z
    obtain ⟨hagrees, hstarts⟩ := hleft x z rfl (head?_of_begins hz hl.begins)
    have habove := hl.above
    rw [braces_append, List.append_eq_nil_iff] at habove
    obtain ⟨hw, hlid⟩ := hlid habove.1
    refine h x z rfl hz ⟨?_, ?_, ?_, ?_, ?_⟩
    · rw [hstarts]
      exact hl.word
    · refine hl.begins.of_append hz (hy.suffix hsuffix) (hy'.suffix hsuffix) ?_
      rintro rfl
      exact (hnext (List.suffix_append x _)).2
    · rw [hagrees.commented]
      exact hl.code
    · rw [braces_append, hw, habove.2]
      rfl
    · have hsemi := hl.semicolon
      rw [semicolon_mem_lid_append] at hsemi ⊢
      exact hsemi.imp_right fun h => ⟨h.1, hlid h.2⟩

/-- Behind parts that leave the same comments and no word. -/
theorem agrees_startsWord {w w' : List Char} (h : (readBroken w).Agrees (readBroken w'))
    (hw : startsWord w = true) (hw' : startsWord w' = true) (x : List Char) :
    (readBroken (w ++ x)).Agrees (readBroken (w' ++ x)) ∧
      startsWord (w' ++ x) = startsWord (w ++ x) := by
  refine ⟨agrees_append h x, ?_⟩
  by_cases hx : x = []
  · rw [hx, List.append_nil, List.append_nil, hw, hw']
  · exact startsWord_append hx _ _

theorem keepsPackages_behind {s w y w' y' : List Char}
    (h : (readBroken w).Agrees (readBroken w')) (hw : startsWord w = true)
    (hw' : startsWord w' = true) (hbraces : braces w ≠ []) (hy : Boundary s y)
    (hy' : Boundary s y')
    (hnext : (y'.head?.any isBlankOrBrace = true → y.head?.any isBlankOrBrace = true) ∧
      (y.head?.any isBlank = true → y'.head?.any isBlank = true)) :
    KeepsPackages s w y w' y' :=
  keepsPackages_of (fun x _ _ _ => agrees_startsWord h hw hw' x) hy hy' (fun _ => hnext)
    fun hnil => absurd hnil hbraces

/-- The rest of an edited text, read behind `w'`, is as safe as the rest of the text behind `w`. -/
structure StaysSafe (w t w' t' : List Char) : Prop where
  covered : Along Covered w t [] → Along Covered w' t' []
  leads : Along (fun x z => ¬ Leads x z) w' t' [] → Along (fun x z => ¬ Leads x z) w t []

/-- No package word begins in the part, whatever follows it. -/
def Wordless (s : List Char) : Prop :=
  'g' ∉ s ∧ ∀ c ∈ s.getLast?, c ∉ packageWord

namespace Wordless

variable {s : List Char}

theorem not_begins (h : Wordless s) {x z : List Char} (hs : s = x ++ z) (hz : z ≠ [])
    (p : Char → Bool) (y : List Char) : ¬ Begins p (z ++ y) := by
  subst hs
  intro hb
  have hlast := h.2
  rw [List.getLast?_append_of_ne_nil x hz] at hlast
  have hword := (prefix_append_iff (.inl hlast) hz).1 hb.1
  exact h.1 (List.mem_append_right x (hword.subset (by decide)))

theorem covered (h : Wordless s) (w y : List Char) : Along Covered w s y :=
  fun _ _ hs hz _ hb => absurd hb (h.not_begins hs hz _ y)

theorem leads (h : Wordless s) (w y : List Char) : Along (fun x z => ¬ Leads x z) w s y :=
  fun _ _ hs hz hl => h.not_begins hs hz _ y hl.begins

theorem snoc {c : Char} (hs : 'g' ∉ s) (hc : c ∉ packageWord) : Wordless (s ++ [c]) := by
  constructor
  · intro h
    rcases List.mem_append.1 h with h | h
    · exact hs h
    · rw [← List.mem_singleton.1 h] at hc
      exact hc (by decide)
  · intro d hd
    rw [List.getLast?_concat, Option.mem_some_iff] at hd
    rwa [← hd]

theorem of_blanks (h : ∀ c ∈ s, isBlank c = true) : Wordless s := by
  constructor
  · intro hc
    cases h _ hc
  · intro c hc hmem
    exact not_mem_of_all (by decide) (h c (List.mem_of_getLast? hc)) hmem

end Wordless

namespace StaysSafe

variable {s w t w' t' : List Char}

theorem last (h : KeepsPackages s w [] w' []) : StaysSafe w s w' s :=
  ⟨h.covered, h.leads⟩

theorem keep (hs : KeepsPackages s w t w' t') (h : StaysSafe (w ++ s) t (w' ++ s) t') :
    StaysSafe w (s ++ t) w' (s ++ t') := by
  constructor
  · intro ha
    rw [along_append, List.append_nil] at ha ⊢
    exact ⟨hs.covered ha.1, h.covered ha.2⟩
  · intro ha
    rw [along_append, List.append_nil] at ha ⊢
    exact ⟨hs.leads ha.1, h.leads ha.2⟩

theorem drop (hs : Wordless s) (h : StaysSafe (w ++ s) t w' t') : StaysSafe w (s ++ t) w' t' := by
  constructor
  · intro ha
    exact h.covered (along_append.1 ha).2
  · intro ha
    rw [along_append]
    exact ⟨hs.leads w _, h.leads ha⟩

theorem add (hs : Wordless s) (h : StaysSafe w t (w' ++ s) t') : StaysSafe w t w' (s ++ t') := by
  constructor
  · intro ha
    rw [along_append]
    exact ⟨hs.covered w' _, h.covered ha⟩
  · intro ha
    exact h.leads (along_append.1 ha).2

end StaysSafe

end Conversion

/-! ## Generated texts hold no package word -/

namespace Locker

theorem no_g_pad (width : Nat) : (pad width).all (· != 'g') = true := by
  rw [pad, List.all_replicate]
  split
  · rfl
  · rfl

theorem no_g_digits (index : Nat) : (digits index).all (· != 'g') = true := by
  rw [List.all_eq_true]
  intro c hc
  rw [bne_iff_ne]
  rintro rfl
  cases Nat.isDigit_of_mem_toDigits (by decide) (by decide) hc

theorem no_g_handle (l : Locker) (index : Nat) : (l.handle index).all (· != 'g') = true := by
  unfold handle
  split
  · rw [List.all_append, no_g_digits]
    decide
  · rw [List.all_append, no_g_digits]
    decide

theorem not_mem_g {s : List Char} (h : s.all (· != 'g') = true) : 'g' ∉ s := by
  intro hc
  have := List.all_eq_true.1 h _ hc
  simp at this

open Conversion

theorem wordless_declarations (l : Locker) (index indent : Nat) :
    Wordless (l.declarations index indent) := by
  have hg : 'g' ∉ l.declarations index indent := by
    refine not_mem_g ?_
    unfold declarations
    split
    · simp only [List.all_append, no_g_pad, no_g_digits, Bool.and_true]
      repeat rewrite [String.toList_ofList]
      decide
    · simp only [List.all_append, no_g_pad, no_g_digits, Bool.and_true]
      repeat rewrite [String.toList_ofList]
      decide
  obtain ⟨w, hw⟩ := l.declarations_ends index indent
  rw [hw, List.append_cons, ← List.cons_append] at hg ⊢
  exact .snoc (fun h => hg (List.mem_append_left _ h)) (by decide)

theorem wordless_openTry (l : Locker) (index indent : Nat) : Wordless (l.openTry index indent) := by
  have hg : 'g' ∉ l.openTry index indent := by
    refine not_mem_g ?_
    simp only [openTry, List.all_append, List.all_cons, no_g_pad, no_g_handle, Bool.and_true]
    repeat rewrite [String.toList_ofList]
    decide
  obtain ⟨w, hw⟩ := l.openTry_ends index indent
  rw [hw, ← List.cons_append] at hg ⊢
  exact .snoc (fun h => hg (List.mem_append_left _ h)) (by decide)

theorem wordless_closeTry (l : Locker) (index indent : Nat) :
    Wordless (l.closeTry index indent ++ ['\x7d']) := by
  refine .snoc (not_mem_g ?_) (by decide)
  simp only [closeTry, List.all_append, no_g_pad, no_g_handle, Bool.and_true]
  repeat rewrite [String.toList_ofList]
  decide

theorem startsWord_openTry (l : Locker) (index indent : Nat) (x : List Char) :
    startsWord (x ++ l.openTry index indent) = true := by
  obtain ⟨w, hw⟩ := l.openTry_ends index indent
  rw [hw, ← List.cons_append, ← List.append_assoc]
  exact startsWord_snoc (isWordChar_of_isDelimiter (by decide))

end Locker

namespace Conversion

namespace Frame

variable {m : Frame}

/-! ## The package words of an edit -/

/-- The place where the fields go is on a line without slashes, or the member begins a new line. -/
theorem calm_before (hm : m.Sound) {o : Occurrence} (hf : m.Found o) :
    ((Reading.start.read m.before).last = none ∧ (Reading.start.read m.before).slashes = false) ∨
      ∃ c z, m.member ++ m.lead = c :: z ∧ isLineBreak c = true := by
  rcases hm.edge with h | ⟨w, c, h, hc⟩ | h
  · rw [h]
    exact .inl ⟨rfl, rfl⟩
  · obtain ⟨-, hspec⟩ := memberStart_spec m.text o
    rw [hf.pos] at hspec
    have htext : m.text = w ++ c :: (m.member ++ m.lead ++ keyword ++ m.trail ++ m.head ++
        '{' :: (m.body ++ '}' :: m.after)) := by
      rw [text, h]
      simp only [List.append_assoc, List.cons_append, List.nil_append]
    rcases hspec with h0 | ⟨d, hd, -, hcode⟩ | ⟨b, hb, hbreak⟩
    · rw [h] at h0
      simp at h0
    · -- the delimiter is in no comment
      refine .inl ?_
      rw [h, List.length_append, List.length_singleton] at hd
      obtain rfl : d = w.length := by omega
      have hne : c ≠ '/' ∧ c ≠ '*' ∧ isLineBreak c = false := by
        simp only [isDelimiter, Bool.or_eq_true, beq_iff_eq] at hc
        rcases hc with (rfl | rfl) | rfl
        · decide
        · decide
        · decide
      rw [htext, inComment_eq hne.1 hne.2.1, hne.2.2, Bool.or_eq_false_iff] at hcode
      rw [h, last_snoc, if_neg (by simp [hne.1, hne.2.1]), Reading.read_append]
      refine ⟨rfl, ?_⟩
      have hslashes : (Reading.start.read w).slashes = false := hcode.2
      simp [Reading.next, hslashes, hne.1]
    · obtain ⟨d, z, hz⟩ := List.exists_cons_of_ne_nil
        (fun h => hm.lead_ne (List.append_eq_nil_iff.1 h).2 : m.member ++ m.lead ≠ [])
      rw [text, List.append_assoc m.before, hz] at hb
      simp only [List.append_assoc, List.getElem?_append_right (Nat.le_refl _), Nat.sub_self,
        List.cons_append, List.getElem?_cons_zero, Option.some.injEq] at hb
      exact .inr ⟨b, z, hb ▸ hz, hbreak⟩
  · exact .inr h

/-- Inside of the member, behind the line break that it begins with, if it does. -/
theorem agrees_member (hm : m.Sound) {o : Occurrence} (hf : m.Found o) (l : Locker)
    (index indent : Nat) {x z : List Char} (hx : m.member = x ++ z) (hz : z.head? = some 'p') :
    (readBroken (m.before ++ x)).Agrees
      (readBroken (m.before ++ l.declarations index indent ++ x)) := by
  have hquiet := quiet_breakBraces (l.quiet_declarations index indent)
  have heases := eases_readBroken m.before
  rcases calm_before hm hf with ⟨hlast, hslashes⟩ | ⟨c, v, hv, hc⟩
  · refine agrees_append ?_ x
    rw [readBroken_append]
    refine Reading.agrees_quiet hquiet (heases.last.trans hlast) ?_
    rw [Bool.eq_false_iff]
    intro h
    rw [heases.slashes h] at hslashes
    cases hslashes
  · cases x with
    | nil =>
      -- the member would begin with a line break
      obtain ⟨y, rfl⟩ := List.head?_eq_some_iff.1 hz
      rw [hx] at hv
      cases hv
      cases hc
    | cons d x =>
      obtain rfl : d = c := by
        rw [hx] at hv
        exact (List.cons.inj hv).1
      rw [List.append_cons, List.append_cons (m.before ++ _)]
      refine agrees_append ?_ x
      have hbreak : breakBraces [d] = [d] := by
        rw [breakBraces, List.map_singleton, if_neg]
        rintro (rfl | rfl)
        · cases hc
        · cases hc
      rw [readBroken_append, readBroken_append, readBroken_append, hbreak, ← Reading.read_append]
      have hd : isQuiet d = true := isQuiet_of_isBlank (isBlank_of_isLineBreak hc)
      refine Reading.agrees_lines ?_ (by simp [hc]) ?_ (by simp [hc]) _
      · intro e he
        rwa [List.mem_singleton.1 he]
      · intro e he
        rcases List.mem_append.1 he with he | he
        · exact hquiet e he
        · rwa [List.mem_singleton.1 he]

/-- Behind the keyword, which is in code. -/
theorem agrees_head (hm : m.Sound) (l : Locker) (index indent : Nat) :
    (readBroken (m.before ++ m.member ++ m.lead ++ keyword ++ m.trail)).Agrees
      (readBroken (m.before ++ l.declarations index indent ++ m.member ++ separator m.lead)) := by
  have hcode {t : List Char} (h : Reading.start.read t = .inCode) :
      (readBroken t).last = none ∧ (readBroken t).block = false ∧
        (readBroken t).slashes = false := by
    have heases := eases_readBroken t
    rw [h] at heases
    refine ⟨heases.last, heases.block, ?_⟩
    rw [Bool.eq_false_iff]
    intro hs
    cases heases.slashes hs
  obtain ⟨h1, h2, h3⟩ := hcode (read_trail hm)
  obtain ⟨h1', h2', h3'⟩ := hcode (read_separator hm l index indent)
  exact ⟨h1'.trans h1.symm, h2'.trans h2.symm, h3'.trans h3.symm⟩

/-- Behind a brace that opens a body and the guard that follows it. -/
theorem agrees_body {w w' : List Char} (h : (readBroken w).Agrees (readBroken w')) (l : Locker)
    (index indent : Nat) : (readBroken (w ++ ['{'])).Agrees
      (readBroken (w' ++ ['{'] ++ l.openTry index indent)) := by
  have hbrace := agrees_append h ['{']
  rw [readBroken_append (w' ++ ['{'])]
  have hquiet := quiet_breakBraces (l.quiet_openTry index indent)
  refine hbrace.trans (Reading.agrees_quiet hquiet ?_ ?_)
  · rw [readBroken_append]
    rfl
  · rw [readBroken_append]
    rfl

/-- Behind a brace that closes a body, with the guard before it. -/
theorem agrees_after {w w' : List Char} (h : (readBroken w).Agrees (readBroken w')) (l : Locker)
    (index indent : Nat) : (readBroken (w ++ ['}'])).Agrees
      (readBroken (w' ++ (l.closeTry index indent ++ ['}']))) := by
  have hbrace := agrees_append h ['}']
  have hlines : (readBroken (w' ++ ['}'])).Agrees
      (readBroken (w' ++ (l.closeTry index indent ++ ['}']))) := by
    rw [readBroken_append w', readBroken_append w']
    have hquiet : ∀ c ∈ ['}'], isQuiet c = true := by
      intro c hc
      rw [List.mem_singleton.1 hc]
      decide
    refine Reading.agrees_lines (quiet_breakBraces hquiet) rfl (quiet_breakBraces ?_) ?_ _
    · intro c hc
      rcases List.mem_append.1 hc with hc | hc
      · exact l.quiet_closeTry index indent c hc
      · exact hquiet c hc
    · rw [breakBraces_append, List.any_append, Bool.or_eq_true]
      exact .inr rfl
  exact hbrace.trans hlines

theorem keepsPackages_before (hm : m.Sound) (l : Locker) (index indent : Nat) (y z : List Char) :
    KeepsPackages m.before [] (m.member ++ (m.lead ++ y)) []
      (l.declarations index indent ++ z) := by
  obtain ⟨w, hw⟩ := l.declarations_ends index indent
  -- a package word that the part ends with has a blank behind it
  have hblank : packageWord <:+ m.before →
      (m.member ++ (m.lead ++ y)).head?.any isBlank = true := by
    intro hs
    rcases hm.edge with h | ⟨u, c, h, hc⟩ | ⟨c, u, h, hc⟩
    · rw [h] at hs
      cases List.suffix_nil.1 hs
    · rw [h] at hs
      obtain ⟨v, hv⟩ := hs
      have hlast := congrArg List.getLast? hv
      rw [List.getLast?_append_of_ne_nil v (by decide), List.getLast?_concat] at hlast
      cases hlast
      cases hc
    · rw [← List.append_assoc, h]
      exact isBlank_of_isLineBreak hc
  refine keepsPackages_of (fun x v _ _ => ⟨⟨rfl, rfl, rfl⟩, rfl⟩) (boundary_before hm y)
    (l.boundary_declarations index indent _ z) ?_ ?_
  · intro hs
    refine ⟨fun _ => any_mono (hblank hs) isBlankOrBrace_of_isBlank, fun _ => ?_⟩
    rw [hw]
    rfl
  · intro _
    refine ⟨rfl, fun h => semicolon_mem_lid_append.2 (.inl ?_)⟩
    rw [lid_of_braces (l.braces_declarations index indent), hw]
    simp

theorem startsWord_before (hm : m.Sound) (hp : m.member.head? = some 'p') :
    startsWord m.before = true := by
  rcases hm.edge with h | ⟨w, c, h, hc⟩ | ⟨c, v, h, hc⟩
  · rw [h]
    rfl
  · rw [h]
    exact startsWord_snoc (isWordChar_of_isDelimiter hc)
  · obtain ⟨z, hz⟩ := List.head?_eq_some_iff.1 hp
    rw [hz] at h
    cases h
    cases hc

theorem keepsPackages_member (hm : m.Sound) {o : Occurrence} (hf : m.Found o) (l : Locker)
    (index indent : Nat) (y z : List Char) :
    KeepsPackages m.member m.before (m.lead ++ (keyword ++ (m.trail ++ (m.head ++ '{' :: y))))
      (m.before ++ l.declarations index indent) (separator m.lead ++ (m.head ++ '{' :: z)) := by
  have hne := separator_ne_nil hm.lead_ne hm.lead_blank
  have hblank := isBlank_of_mem_separator hm.lead_ne hm.lead_blank
  refine keepsPackages_of ?_ (.of_blanks hm.lead_ne hm.lead_blank _) (.of_blanks hne hblank _)
    ?_ ?_
  · intro x v hx hv
    refine ⟨agrees_member hm hf l index indent hx hv, ?_⟩
    by_cases hxne : x = []
    · subst hxne
      obtain ⟨w, hw⟩ := l.declarations_ends index indent
      rw [List.append_nil, List.append_nil, startsWord_before hm (by rw [hx]; exact hv), hw,
        List.append_cons w, ← List.cons_append, ← List.append_assoc]
      exact startsWord_snoc (isWordChar_of_isBlank (by decide))
    · exact startsWord_append hxne _ _
  · intro _
    refine ⟨fun _ => any_mono (any_head?_blanks hm.lead_ne hm.lead_blank _)
      isBlankOrBrace_of_isBlank, fun _ => any_head?_blanks hne hblank _⟩
  · intro hbefore
    refine ⟨by rw [braces_append, hbefore, l.braces_declarations]; rfl, ?_⟩
    have hlead : ';' ∉ m.lead := fun h => by cases hm.lead_blank _ h
    have hword : ';' ∉ keyword := not_mem_keyword_semicolon
    have htrail : ';' ∉ m.trail := fun h => by cases hm.trail_blank _ h
    have hlid {t : List Char} (h : ';' ∈ lid t) : ';' ∈ t := (List.takeWhile_sublist _).subset h
    simp only [semicolon_mem_lid_append]
    rintro (h | ⟨-, h | ⟨-, h | ⟨-, h | ⟨-, h⟩⟩⟩⟩)
    · exact absurd (hlid h) hlead
    · exact absurd (hlid h) hword
    · exact absurd (hlid h) htrail
    · exact .inr ⟨braces_blanks hblank, .inl h⟩
    · cases h

theorem keepsPackages_head (hm : m.Sound) (l : Locker) (index indent : Nat) (y z : List Char) :
    KeepsPackages m.head (m.before ++ m.member ++ m.lead ++ keyword ++ m.trail) ('{' :: y)
      (m.before ++ l.declarations index indent ++ m.member ++ separator m.lead) ('{' :: z) := by
  have hne := separator_ne_nil hm.lead_ne hm.lead_blank
  have hblank := isBlank_of_mem_separator hm.lead_ne hm.lead_blank
  refine keepsPackages_of (fun x _ _ _ => agrees_startsWord (agrees_head hm l index indent)
    (startsWord_blanks hm.trail_ne hm.trail_blank _) (startsWord_blanks hne hblank _) x)
    (.of_head (by decide)) (.of_head (by decide)) (fun _ => ⟨id, id⟩) ?_
  intro h
  refine ⟨?_, id⟩
  simp only [braces_append, List.append_eq_nil_iff] at h ⊢
  obtain ⟨⟨⟨⟨hbefore, hmember⟩, -⟩, -⟩, -⟩ := h
  exact ⟨⟨⟨hbefore, l.braces_declarations index indent⟩, hmember⟩, braces_blanks hblank⟩

theorem staysSafe_locked (hm : m.Sound) {o : Occurrence} (hf : m.Found o) (l : Locker)
    (index indent : Nat) : StaysSafe [] m.text [] (m.locked l index indent) := by
  have hword : Wordless keyword := by
    rw [keyword_eq]
    exact .snoc (s := ['s', 'y', 'n', 'c', 'h', 'r', 'o', 'n', 'i', 'z', 'e']) (by decide)
      (by decide)
  have hopening : Wordless ['{'] := .snoc (s := []) (by decide) (by decide)
  have hclosing : Wordless ['}'] := .snoc (s := []) (by decide) (by decide)
  have hsep := isBlank_of_mem_separator hm.lead_ne hm.lead_blank
  unfold text locked
  simp only [List.append_assoc]
  refine .keep (keepsPackages_before hm l index indent _ _) (.add (l.wordless_declarations _ _) ?_)
  refine .keep (keepsPackages_member hm hf l index indent _ _) ?_
  refine .drop (.of_blanks hm.lead_blank) (.drop hword (.drop (.of_blanks hm.trail_blank) ?_))
  refine .add (.of_blanks hsep) (.keep (keepsPackages_head hm l index indent _ _) ?_)
  refine .drop (s := ['{']) hopening (.add (s := ['{']) hopening (.add (l.wordless_openTry _ _) ?_))
  -- behind the opening brace no declaration leads
  have hbraces {x : List Char} (h : '{' ∈ x) : braces x ≠ [] :=
    fun hnil => not_brace_of_mem hnil h (.inl rfl)
  have hbody := agrees_body (agrees_append (agrees_head hm l index indent) m.head) l index indent
  refine .keep (keepsPackages_behind hbody (startsWord_snoc (isWordChar_of_isDelimiter (by decide)))
    (l.startsWord_openTry index indent _) (hbraces (by simp)) (.of_head (by decide))
    (l.boundary_closeTry index indent _ _) ⟨fun _ => rfl, nofun⟩) ?_
  have hafter := agrees_after (agrees_append hbody m.body) l index indent
  rw [List.append_cons _ '}' m.after]
  refine .drop (s := ['}']) hclosing (.add (l.wordless_closeTry index indent) (.last ?_))
  refine keepsPackages_behind hafter (startsWord_snoc (isWordChar_of_isDelimiter (by decide))) ?_
    (hbraces (by simp)) (.nil_right _) (.nil_right _) ⟨id, id⟩
  rw [← List.append_assoc]
  exact startsWord_snoc (isWordChar_of_isDelimiter (by decide))

end Frame

/-! ## The import of a conversion -/

theorem Script.safe {style : Style} {first n : Nat} {b : Nat → List Char}
    (h : Script style first n b) {i : Nat} (hi : i ≤ n) :
    (PackageLeads (b 0) → PackageLeads (b i)) ∧ (PackageCovered (b 0) → PackageCovered (b i)) := by
  induction i with
  | zero => exact ⟨id, id⟩
  | succ i ih =>
    obtain ⟨hleads, hcovered⟩ := ih (by omega)
    obtain ⟨_, m, -, hm, hf, htext, hlocked⟩ := (h.edit i (by omega)).frame
    have hsafe := m.staysSafe_locked hm hf style.locker (first + i) style.indent
    rw [htext, hlocked] at hsafe
    constructor
    · intro h0
      rw [packageLeads_iff]
      exact mt hsafe.leads (packageLeads_iff.1 (hleads h0))
    · intro h0
      rw [packageCovered_iff]
      exact hsafe.covered (packageCovered_iff.1 (hcovered h0))

theorem insertImport_some {l : Locker} {t u : List Char} {k : Nat}
    (hk : packageEnd? t = .ok (some k)) (h : insertImport l t = .ok u) :
    u = t.take k ++ (['\n', '\n'] ++ l.importLine) ++ t.drop k := by
  rw [insertImport, hk] at h
  rw [← List.append_assoc]
  exact (Except.ok.inj h).symm

theorem insertImport_none {l : Locker} {t u : List Char} (hp : packagePosition? t = none)
    (h : insertImport l t = .ok u) : u = l.importLine ++ ['\n', '\n'] ++ t := by
  rw [insertImport, packageEnd?, hp] at h
  exact (Except.ok.inj h).symm

theorem insertImport_of_convert {style : Style} {source : List Char} {c : Content}
    (h : convert style source = .ok c) (hchanged : c.changed = true) :
    ∃ d, Draft.finish style source = .ok d ∧ insertImport style.locker d.text = .ok c.text := by
  obtain ⟨n, b, cursor, -, -, hfinish, hcontent⟩ := convert_eq_ok h
  rcases hcontent with ⟨-, rfl⟩ | ⟨-, -, himport⟩
  · cases hchanged
  · exact ⟨_, hfinish, himport⟩

/-- Where the package words of the source are safe, no brace stands before the import. -/
theorem convert_import_top {style : Style} {source : List Char} {c : Content}
    (h : convert style source = .ok c) (hchanged : c.changed = true)
    (hsource : PackageLeads source ∨ PackageCovered source) :
    ∃ d x y, Draft.finish style source = .ok d ∧ d.text = x ++ y ∧ braces x = [] ∧
      (c.text = x ++ (['\n', '\n'] ++ style.locker.importLine) ++ y ∨
        x = [] ∧ c.text = style.locker.importLine ++ ['\n', '\n'] ++ y) := by
  obtain ⟨d, hfinish, himport⟩ := insertImport_of_convert h hchanged
  obtain ⟨n, b, rfl, hs, htext, -⟩ := finish_eq_ok hfinish
  obtain ⟨hleads, hcovered⟩ := hs.safe (Nat.le_refl n)
  rw [← htext] at hleads hcovered
  rcases hsource with hsource | hsource
  · obtain ⟨k, hk, hbraces⟩ := packageEnd?_of_leads (hleads hsource)
    exact ⟨d, d.text.take k, d.text.drop k, hfinish, (List.take_append_drop k _).symm, hbraces,
      .inl (insertImport_some hk himport)⟩
  · have hnone := packagePosition?_of_covered (hcovered hsource)
    exact ⟨d, [], d.text, hfinish, rfl, rfl, .inr ⟨rfl, insertImport_none hnone himport⟩⟩

/-- A class in no package, under a comment that names one. -/
def headerComment : List Char :=
  "/* package p */ c\x7b synchronized a()\x7b\x7d\x7d".toList

theorem convert_headerComment : PackageCovered headerComment ∧
    ∃ c, convert ⟨0, .stampedLock⟩ headerComment = .ok c ∧ c.changed = true := by
  have chars : headerComment = _ := String.toList_ofList
  have hcovered : PackageCovered headerComment := by
    rewrite [chars]
    set_option maxRecDepth 2000 in
    decide
  refine ⟨hcovered, ?_⟩
  have hfinish :
      (Draft.finish ⟨0, .stampedLock⟩ headerComment).toOption.any (·.index = 2) = true := by
    rewrite [chars]
    set_option maxRecDepth 2000 in
    with_unfolding_all decide
  obtain ⟨d, hd, hindex⟩ := exists_ok_of_any hfinish
  obtain ⟨n, b, hb, hs, htext, -⟩ := finish_eq_ok hd
  -- no search is run here: a covered text has no package declaration
  have hnone : packageEnd? d.text = .ok none := by
    have hsafe := (hs.safe (Nat.le_refl n)).2 (hb ▸ hcovered)
    rw [packageEnd?, htext, packagePosition?_of_covered hsafe]
  exact convert_of_finish hd (by rw [of_decide_eq_true hindex]; decide) hnone

theorem convert_import_top_smallSource :
    (∃ c x y, convert ⟨0, .stampedLock⟩ smallSource = .ok c ∧ PackageLeads smallSource ∧
      c.text = x ++ Locker.stampedLock.importLine ++ y ∧ braces x = []) ∧
    ∃ c x y, convert ⟨0, .stampedLock⟩ headerComment = .ok c ∧ PackageCovered headerComment ∧
      c.text = x ++ Locker.stampedLock.importLine ++ y ∧ braces x = [] := by
  have place {x y z : List Char} {l : Locker} (hx : braces x = [])
      (h : z = x ++ (['\n', '\n'] ++ l.importLine) ++ y ∨
        x = [] ∧ z = l.importLine ++ ['\n', '\n'] ++ y) :
      ∃ u v, z = u ++ l.importLine ++ v ∧ braces u = [] := by
    rcases h with rfl | ⟨-, rfl⟩
    · refine ⟨x ++ ['\n', '\n'], y, by simp only [List.append_assoc], ?_⟩
      rw [braces_append, hx]
      rfl
    · exact ⟨[], ['\n', '\n'] ++ y, by simp only [List.nil_append, List.append_assoc], rfl⟩
  constructor
  · have chars : smallSource = _ := String.toList_ofList
    have hleads : PackageLeads smallSource := by
      rewrite [chars]
      decide
    obtain ⟨c, h, hchanged⟩ := convert_smallSource
    obtain ⟨d, x, y, -, -, hx, htext⟩ := convert_import_top h hchanged (.inl hleads)
    obtain ⟨u, v, huv⟩ := place hx htext
    exact ⟨c, u, v, h, hleads, huv⟩
  · obtain ⟨hcovered, c, h, hchanged⟩ := convert_headerComment
    obtain ⟨d, x, y, -, -, hx, htext⟩ := convert_import_top h hchanged (.inr hcovered)
    obtain ⟨u, v, huv⟩ := place hx htext
    exact ⟨c, u, v, h, hcovered, huv⟩

/-- A class in no package, with a string that names one. -/
def quotedPackage : List Char :=
  "c\x7bs=\"package p\";\nd synchronized a()\x7b\x7d\x7d".toList

/-- The import goes behind the string, into the class. -/
theorem import_in_class : Braced quotedPackage ∧ ∃ c d x y,
    convert ⟨0, .stampedLock⟩ quotedPackage = .ok c ∧ c.changed = true ∧
      Draft.finish ⟨0, .stampedLock⟩ quotedPackage = .ok d ∧ d.text = x ++ y ∧
      c.text = x ++ (['\n', '\n'] ++ Locker.stampedLock.importLine) ++ y ∧
      x.count '{' ≠ x.count '}' := by
  have chars : quotedPackage = _ := String.toList_ofList
  have hbraced : Braced quotedPackage := by
    rewrite [chars]
    decide
  have hfinish : (Draft.finish ⟨0, .stampedLock⟩ quotedPackage).toOption.any (fun d =>
      d.index = 2 ∧ (packageEnd? d.text).toOption = some (some 16) ∧
      (d.text.take 16).count '{' ≠ (d.text.take 16).count '}') = true := by
    rewrite [chars]
    set_option maxRecDepth 2000 in
    with_unfolding_all decide
  obtain ⟨d, hd, h⟩ := exists_ok_of_any hfinish
  obtain ⟨hindex, hend, hcount⟩ := of_decide_eq_true h
  obtain ⟨c, hc, hchanged⟩ :=
    convert_of_finish hd (by rw [hindex]; decide) (eq_ok_of_toOption hend)
  refine ⟨hbraced, c, d, d.text.take 16, d.text.drop 16, hc, hchanged, hd,
    (List.take_append_drop 16 _).symm, ?_, hcount⟩
  obtain ⟨d', hd', himport⟩ := insertImport_of_convert hc hchanged
  rw [hd] at hd'
  cases hd'
  exact insertImport_some (eq_ok_of_toOption hend) himport

end Conversion

end LockMigration
