/-
The locks that a converted file declares. An edit declares one lock more and takes no declaration
away. It could also complete one that was there in part: taking the keyword out, or putting a guard
before a closing brace, can put a space behind an equals sign. In a text without such loose names
the declarations are those of the source and the new ones.

`convert_declared` says when no name is declared twice. The locks of a conversion are numbered from
one, whatever the source declares.
-/
import LockMigration.Proofs.Conversion.Import
import LockMigration.Proofs.Conversion.Script
import LockMigration.Proofs.LockNames
import Mathlib.Data.List.Nodup

namespace LockMigration.Conversion

open Text Java Locker

attribute [local irreducible] keyword

/-! ## Loose names -/

/-- Nothing but blanks stands before the next keyword. -/
def KeywordNext (r : List Char) : Prop :=
  keyword <+: r.dropWhile isBlank

/-- What follows a name can turn into an equals sign between spaces: the keyword comes next, or an
equals sign and behind it the keyword or a closing brace. -/
def Loose (r : List Char) : Prop :=
  KeywordNext r ∨ [' ', '='] <+: r ∧ (KeywordNext (r.drop 2) ∨ (r.drop 2).head? = some '}')

/-- No name that begins in `x` is loose, if `y` follows `x`. -/
def TightIn (x y : List Char) : Prop :=
  ∀ e ∈ namesIn x y, ¬ Loose e.2

/-- No name of the text is loose. -/
def Tight (t : List Char) : Prop :=
  TightIn t []

instance (r : List Char) : Decidable (KeywordNext r) :=
  inferInstanceAs (Decidable (_ <+: _))

instance (r : List Char) : Decidable (Loose r) :=
  inferInstanceAs (Decidable (_ ∨ _))

instance (t : List Char) : Decidable (Tight t) :=
  inferInstanceAs (Decidable (∀ e ∈ namesIn t [], ¬ Loose e.2))

theorem keywordNext_blanks {r : List Char} (h : ∀ c ∈ r, isBlank c = true) (y : List Char) :
    KeywordNext (r ++ y) ↔ KeywordNext y := by
  unfold KeywordNext
  rw [List.dropWhile_append_of_pos h]

theorem keywordNext_space (y : List Char) : KeywordNext (' ' :: y) ↔ KeywordNext y := by
  unfold KeywordNext
  rw [List.dropWhile_cons_of_pos (by decide)]

theorem keywordNext_append {r y : List Char} (hcut : Cut r y) (h : ¬ ∀ c ∈ r, isBlank c = true) :
    KeywordNext (r ++ y) ↔ KeywordNext r := by
  have hne : r.dropWhile isBlank ≠ [] := by
    rw [Ne, List.dropWhile_eq_nil_iff]
    exact h
  unfold KeywordNext
  rw [List.dropWhile_append, if_neg (by simpa using hne)]
  exact (hcut.suffix (List.dropWhile_suffix _)).keyword_iff hne

theorem not_keywordNext_cons {c : Char} (hb : isBlank c = false) (hc : c ≠ 's')
    (y : List Char) : ¬ KeywordNext (c :: y) := by
  unfold KeywordNext
  rw [List.dropWhile_cons_of_neg (by rw [hb]; decide), keyword_eq]
  intro h
  exact hc (List.cons_prefix_cons.1 h).1.symm

theorem keywordNext_keyword (y : List Char) : KeywordNext (keyword ++ y) := by
  unfold KeywordNext
  rw [List.dropWhile_append, keyword_eq, if_neg (by decide)]
  exact List.prefix_append _ y

section Rest

variable {r y z : List Char}

theorem KeywordNext.mono (hy : Cut r y) (hz : Cut r z) (h : KeywordNext z → KeywordNext y) :
    KeywordNext (r ++ z) → KeywordNext (r ++ y) := by
  by_cases hblank : ∀ c ∈ r, isBlank c = true
  · rw [keywordNext_blanks hblank, keywordNext_blanks hblank]
    exact h
  · rw [keywordNext_append hy hblank, keywordNext_append hz hblank]
    exact id

/-- A name is no looser with `z` behind it than with `y`. -/
theorem Loose.mono (hy : Cut r y) (hz : Cut r z) (hnext : KeywordNext z → KeywordNext y)
    (hbrace : z.head? = some '}' → y.head? = some '}')
    (hsign : ['='] <+: z ∨ [' ', '='] <+: z → KeywordNext y) : Loose (r ++ z) → Loose (r ++ y) := by
  rintro (h | ⟨hp, h⟩)
  · exact .inl (h.mono hy hz hnext)
  rcases prefix_or_across hp with ⟨s, rfl⟩ | ⟨v, hv, heq, hvz⟩
  · refine .inr ⟨(List.prefix_append _ s).trans (List.prefix_append _ y), ?_⟩
    have hs : s <:+ [' ', '='] ++ s := List.suffix_append _ s
    rcases h with h | h
    · exact .inl (h.mono (hy.suffix hs) (hz.suffix hs) hnext)
    · refine .inr ?_
      cases s with
      | nil => exact hbrace h
      | cons c s => exact h
  · -- the sign stands across the boundary, so only a space can come before it
    have hr : r = [] ∧ v = [' ', '='] ∨ r = [' '] ∧ v = ['='] := by
      rcases r with _ | ⟨a, _ | ⟨b, r⟩⟩
      · exact .inl ⟨rfl, heq.symm⟩
      · cases heq
        exact .inr ⟨rfl, rfl⟩
      · have hlen := congrArg List.length heq
        have hpos := List.length_pos_iff.2 hv
        simp only [List.length_cons, List.length_append, List.length_nil] at hlen
        omega
    rcases hr with ⟨rfl, rfl⟩ | ⟨rfl, rfl⟩
    · exact .inl (hsign (.inr hvz))
    · exact .inl ((keywordNext_space y).2 (hsign (.inl hvz)))

/-- A sign that stands in part before the boundary is completed behind it. -/
theorem equals_append (h0 : r = [] → ¬ equals <+: y) (h1 : r = [' '] → ¬ ['=', ' '] <+: y)
    (h2 : r = [' ', '='] → ¬ [' '] <+: y) : equals <+: r ++ y ↔ equals <+: r := by
  refine ⟨fun h => ?_, fun h => h.trans (List.prefix_append r y)⟩
  rcases prefix_or_across h with h | ⟨v, hv, heq, hvy⟩
  · exact h
  exfalso
  rcases r with _ | ⟨a, _ | ⟨b, _ | ⟨c, r⟩⟩⟩
  · exact h0 rfl (heq ▸ hvy)
  · cases heq
    exact h1 rfl hvy
  · cases heq
    exact h2 rfl hvy
  · have hlen := congrArg List.length heq
    have hpos := List.length_pos_iff.2 hv
    simp only [equals, List.length_cons, List.length_append, List.length_nil] at hlen
    omega

theorem equals_append_of_last {c : Char} (h : c ∉ equals) (w y : List Char) :
    equals <+: w ++ [c] ++ y ↔ equals <+: w ++ [c] := by
  refine prefix_append_iff (.inl ?_) (by simp)
  intro d hd
  rw [List.getLast?_concat, Option.mem_some_iff] at hd
  rwa [← hd]

theorem equals_append_of_head {c : Char} (h : c ∉ equals) (r y : List Char) :
    equals <+: r ++ c :: y ↔ equals <+: r := by
  refine equals_append ?_ ?_ ?_
  · rintro -
    exact fun hp => h ((List.cons_prefix_cons.1 hp).1 ▸ by decide)
  · rintro -
    exact fun hp => h ((List.cons_prefix_cons.1 hp).1 ▸ by decide)
  · rintro -
    exact fun hp => h ((List.cons_prefix_cons.1 hp).1 ▸ by decide)

/-- Before a keyword, a name that is not loose is followed by the whole sign or by no part of it. -/
theorem equals_append_of_next (hy : KeywordNext y) (h : ¬ Loose (r ++ y)) (z : List Char) :
    equals <+: r ++ z ↔ equals <+: r := by
  refine equals_append ?_ ?_ ?_
  · rintro rfl
    exact absurd (.inl hy) h
  · rintro rfl
    exact absurd (.inl ((keywordNext_space y).2 hy)) h
  · rintro rfl
    exact absurd (.inr ⟨List.prefix_append _ y, .inl hy⟩) h

end Rest

/-! ## Parts that an edit keeps -/

/-- The part `x` is kept by an edit that puts `z` behind it in place of `y`: if no name in it was
loose, none is now, and it declares what it declared. -/
def KeepsNames (x y z : List Char) : Prop :=
  TightIn x y → TightIn x z ∧ declaredOf (namesIn x z) = declaredOf (namesIn x y)

theorem keepsNames_of {x y z : List Char} (hy : Boundary x y) (hz : Boundary x z)
    (hnext : KeywordNext z → KeywordNext y) (hbrace : z.head? = some '}' → y.head? = some '}')
    (hsign : ['='] <+: z ∨ [' ', '='] <+: z → KeywordNext y)
    (hequals : ∀ e ∈ names x, ¬ Loose (e.2 ++ y) →
      (equals <+: e.2 ++ y ↔ equals <+: e.2) ∧ (equals <+: e.2 ++ z ↔ equals <+: e.2)) :
    KeepsNames x y z := by
  intro ht
  unfold TightIn at ht ⊢
  rw [namesIn_eq_extend hy] at ht ⊢
  rw [namesIn_eq_extend hz]
  have htight {e : List Char × List Char} (he : e ∈ names x) : ¬ Loose (e.2 ++ y) :=
    ht _ (List.mem_map_of_mem he)
  constructor
  · intro e' he'
    obtain ⟨e, he, rfl⟩ := List.mem_map.1 he'
    have hsuffix := suffix_of_mem_names he
    exact mt (Loose.mono (.of_boundary (hy.suffix hsuffix)) (.of_boundary (hz.suffix hsuffix))
      hnext hbrace hsign) (htight he)
  · rw [declaredOf_extend fun e he => (hequals e he (htight he)).2,
      declaredOf_extend fun e he => (hequals e he (htight he)).1]

theorem keepsNames_delimiter (x : List Char) {c : Char} (hc : isDelimiter c = true)
    (y z : List Char) : KeepsNames x (c :: y) (c :: z) := by
  have hsign : c ∉ equals := not_mem_of_all (p := isDelimiter) (by decide) hc
  have halnum := isAlphanum_of_isDelimiter hc
  refine keepsNames_of (.of_head halnum) (.of_head halnum) ?_ id ?_ ?_
  · refine fun h => absurd h (not_keywordNext_cons (isBlank_of_isDelimiter hc) ?_ z)
    rintro rfl
    cases hc
  · rintro (h | h)
    · exact absurd ((List.cons_prefix_cons.1 h).1 ▸ by decide) hsign
    · exact absurd ((List.cons_prefix_cons.1 h).1 ▸ by decide) hsign
  · exact fun e _ _ => ⟨equals_append_of_head hsign _ _, equals_append_of_head hsign _ _⟩

/-! ## Texts with more declarations -/

/-- If no name of `s` is loose, then none of `t` is, and `t` declares what `s` declares and `ds`
besides. -/
def Declares (ds : List (List Char)) (s t : List Char) : Prop :=
  Tight s → Tight t ∧ (declared t).Perm (ds ++ declared s)

theorem tight_append {x y : List Char} : Tight (x ++ y) ↔ TightIn x y ∧ Tight y := by
  unfold Tight TightIn
  rw [namesIn_append, List.append_nil]
  simp only [List.mem_append, or_imp, forall_and]

theorem declared_append (x y : List Char) :
    declared (x ++ y) = declaredOf (namesIn x y) ++ declared y := by
  rw [declared, names_append, declaredOf_append, declared]

theorem not_loose_of_dot {r : List Char} (h : r.head? = some '.') : ¬ Loose r := by
  obtain ⟨r, rfl⟩ := List.head?_eq_some_iff.1 h
  rintro (h | ⟨⟨z, hz⟩, -⟩)
  · exact not_keywordNext_cons (by decide) (by decide) r h
  · cases hz

namespace Declares

variable {ds : List (List Char)} {s t x : List Char}

theorem refl (t : List Char) : Declares [] t t :=
  fun h => ⟨h, .refl _⟩

theorem trans {es : List (List Char)} {u : List Char} (h : Declares ds s t)
    (h' : Declares es t u) : Declares (ds ++ es) s u := by
  intro hs
  obtain ⟨ht, hperm⟩ := h hs
  obtain ⟨hu, hperm'⟩ := h' ht
  refine ⟨hu, hperm'.trans ?_⟩
  rw [List.append_assoc]
  exact (hperm.append_left es).trans (List.perm_append_comm_assoc ..)

theorem keep (hx : KeepsNames x s t) (h : Declares ds s t) : Declares ds (x ++ s) (x ++ t) := by
  intro hs
  obtain ⟨hxs, hs⟩ := tight_append.1 hs
  obtain ⟨hxt, hsame⟩ := hx hxs
  obtain ⟨ht, hperm⟩ := h hs
  refine ⟨tight_append.2 ⟨hxt, ht⟩, ?_⟩
  rw [declared_append, declared_append, hsame]
  exact (hperm.append_left _).trans (List.perm_append_comm_assoc ..)

theorem drop (hx : Nameless x) (h : Declares ds s t) : Declares ds (x ++ s) t := by
  intro hs
  rw [declared_append, hx]
  exact h (tight_append.1 hs).2

/-- Names before a dot are not declared, and they are not loose. -/
theorem calls (hx : ∀ e ∈ namesIn x t, e.2.head? = some '.') (h : Declares ds s t) :
    Declares ds s (x ++ t) := by
  intro hs
  obtain ⟨ht, hperm⟩ := h hs
  refine ⟨tight_append.2 ⟨fun e he => not_loose_of_dot (hx e he), ht⟩, ?_⟩
  rw [declared_append, declaredOf_eq_nil fun e he => not_equals_of_dot (hx e he)]
  exact hperm

theorem add (hx : Nameless x) (h : Declares ds s t) : Declares ds s (x ++ t) := by
  refine h.calls ?_
  rw [hx]
  nofun

theorem cons {c : Char} (hc : c ≠ 'l') (h : Declares ds s t) : Declares ds (c :: s) (c :: t) :=
  have hx : Nameless [c] := nameless_of_not_mem (by simpa using hc.symm)
  .add hx (.drop hx h)

theorem declaration (l : Locker) (index indent : Nat) (h : Declares ds s t) :
    Declares (digits index :: ds) s (l.declarations index indent ++ t) := by
  intro hs
  obtain ⟨ht, hperm⟩ := h hs
  obtain ⟨r, es, hnames, hes⟩ := l.namesIn_declarations index indent t
  have hfirst : ¬ Loose (equals ++ 'n' :: r) := by
    rintro (h | ⟨-, h | h⟩)
    · exact not_keywordNext_cons (by decide) (by decide) _ ((keywordNext_space _).1 h)
    · exact not_keywordNext_cons (by decide) (by decide) r ((keywordNext_space _).1 h)
    · cases h
  constructor
  · refine tight_append.2 ⟨?_, ht⟩
    unfold TightIn
    rw [hnames]
    intro e he
    rcases List.mem_cons.1 he with rfl | he
    · exact hfirst
    · exact not_loose_of_dot (hes e he)
  · rw [declared_append, hnames, ← List.singleton_append, declaredOf_append,
      declaredOf_eq_nil fun e he => not_equals_of_dot (hes e he)]
    exact hperm.cons _

end Declares

/-! ## The names of an edit -/

namespace Frame

variable {m : Frame}

theorem keepsNames_before (hm : m.Sound) (l : Locker) (index indent : Nat) (y z : List Char) :
    KeepsNames m.before (m.member ++ (m.lead ++ y)) (l.declarations index indent ++ z) := by
  obtain ⟨w, hw⟩ := l.declarations_ends index indent
  have hnext : ¬ KeywordNext (l.declarations index indent ++ z) := by
    rw [keywordNext_append (l.cut_declarations index indent z) fun h => by
      have := h ';' (by rw [hw]; simp)
      cases this]
    intro h
    refine not_keyword_of_quiet ?_ h
    exact fun c hc => l.quiet_declarations index indent c ((List.dropWhile_sublist _).subset hc)
  refine keepsNames_of (boundary_before hm y) (l.boundary_declarations index indent _ z)
    (fun h => absurd h hnext) ?_ ?_ ?_
  · rw [hw]
    rintro ⟨⟩
  · rw [hw]
    rintro (⟨v, hv⟩ | ⟨v, hv⟩)
    · cases hv
    · cases hv
  intro e he _
  constructor
  · rcases hm.edge with h | ⟨v, c, h, hc⟩ | ⟨c, v, h, hc⟩
    · rw [h] at he
      cases he
    · rw [h] at he
      obtain ⟨r, hr⟩ := snoc_of_mem_names (isAlphanum_of_isDelimiter hc) he
      rw [hr]
      exact equals_append_of_last (not_mem_of_all (p := isDelimiter) (by decide) hc) r _
    · rw [← List.append_assoc m.member, h]
      exact equals_append_of_head (not_mem_of_all (p := isLineBreak) (by decide) hc) _ _
  · rw [hw]
    exact equals_append_of_head (by decide) _ _

theorem keepsNames_member (hm : m.Sound) (y z : List Char) :
    KeepsNames m.member (m.lead ++ (keyword ++ y)) (separator m.lead ++ z) := by
  have hne := separator_ne_nil hm.lead_ne hm.lead_blank
  have hblank := isBlank_of_mem_separator hm.lead_ne hm.lead_blank
  have hnext : KeywordNext (m.lead ++ (keyword ++ y)) := by
    rw [keywordNext_blanks hm.lead_blank]
    exact keywordNext_keyword y
  refine keepsNames_of (.of_blanks hm.lead_ne hm.lead_blank _) (.of_blanks hne hblank _)
    (fun _ => hnext) ?_ (fun _ => hnext) ?_
  · intro h
    obtain ⟨c, w, hw⟩ := List.exists_cons_of_ne_nil hne
    rw [hw] at h hblank
    cases h
    cases hblank _ List.mem_cons_self
  · exact fun e _ htight =>
      ⟨equals_append_of_next hnext htight _, equals_append_of_next hnext htight _⟩

theorem keepsNames_body (m : Frame) (l : Locker) (index indent : Nat) (y z : List Char) :
    KeepsNames m.body ('}' :: y) (l.closeTry index indent ++ z) := by
  obtain ⟨w, hw, -⟩ := l.closeTry_ends index indent
  have hnext : ¬ KeywordNext (l.closeTry index indent ++ z) := by
    rw [hw, List.append_assoc, List.cons_append, keywordNext_blanks fun c hc => by
      rw [List.eq_of_mem_replicate hc]
      decide]
    exact not_keywordNext_cons (by decide) (by decide) _
  have hsign : ¬ ['='] <+: l.closeTry index indent ++ z ∧
      ¬ [' ', '='] <+: l.closeTry index indent ++ z := by
    rw [hw, pad]
    rcases indent with _ | _ | indent
    · simp
    · simp
    · simp [List.replicate_succ]
  refine keepsNames_of (.of_head (by decide)) (l.boundary_closeTry index indent _ z)
    (fun h => absurd h hnext) (fun _ => rfl) ?_ ?_
  · rintro (h | h)
    · exact absurd h hsign.1
    · exact absurd h hsign.2
  intro e _ htight
  refine ⟨equals_append_of_head (by decide) _ _, equals_append ?_ ?_ ?_⟩
  · intro _ h
    exact hsign.2 ((by decide : [' ', '='] <+: equals).trans h)
  · intro _ h
    exact hsign.1 ((by decide : ['='] <+: ['=', ' ']).trans h)
  · intro hr
    rw [hr] at htight
    exact absurd (.inr ⟨List.prefix_append _ _, .inr rfl⟩) htight

theorem declares_locked (hm : m.Sound) (l : Locker) (index indent : Nat) :
    Declares [digits index] m.text (m.locked l index indent) := by
  have hword : Nameless keyword := nameless_of_not_mem (by rw [keyword_eq]; decide)
  have hsep := nameless_blanks (isBlank_of_mem_separator hm.lead_ne hm.lead_blank)
  unfold text locked
  simp only [List.append_assoc]
  refine .keep (keepsNames_before hm l index indent _ _) (.declaration l index indent ?_)
  refine .keep (keepsNames_member hm _ _) (.add hsep ?_)
  refine .drop (nameless_blanks hm.lead_blank) (.drop hword ?_)
  refine .drop (nameless_blanks hm.trail_blank) ?_
  refine .keep (keepsNames_delimiter _ (by decide) _ _) (.cons (by decide) ?_)
  refine .calls (l.dot_of_mem_openTry index indent _) ?_
  refine .keep (keepsNames_body m l index indent _ _) ?_
  exact .calls (l.dot_of_mem_closeTry index indent _) (.refl _)

end Frame

/-! ## The declarations of a conversion -/

theorem Script.declares {style : Style} {first n : Nat} {b : Nat → List Char}
    (h : Script style first n b) {i : Nat} (hi : i ≤ n) :
    Declares ((List.range' first i).map digits) (b 0) (b i) := by
  induction i with
  | zero => exact .refl _
  | succ i ih =>
    obtain ⟨_, m, -, hm, -, htext, hlocked⟩ := (h.edit i (by omega)).frame
    have hedit := m.declares_locked hm style.locker (first + i) style.indent
    rw [htext, hlocked] at hedit
    rw [List.range'_1_concat, List.map_append]
    exact (ih (by omega)).trans hedit

theorem declares_insertImport {l : Locker} {t u : List Char} (h : insertImport l t = .ok u) :
    Declares [] t u := by
  have hbreak : Nameless ['\n', '\n'] := nameless_of_not_mem (by decide)
  rcases insertImport_eq_ok h with ⟨-, rfl⟩ | ⟨x, y, rfl, -, rfl⟩
  · exact .add (l.nameless_importLine.append hbreak) (.refl t)
  · rw [List.append_assoc, List.append_assoc, List.singleton_append]
    refine .keep (keepsNames_delimiter x (by decide) _ _) (.cons (by decide) ?_)
    exact .add (hbreak.append l.nameless_importLine) (.refl y)

/-- Which names a conversion of `n` methods declares more than once: one that the source declares
more than once, or one of the first `n` that it declares at all. -/
theorem convert_declared {style : Style} {source : List Char} {c : Content}
    (h : convert style source = .ok c) (htight : Tight source) :
    ∃ d n, Draft.finish style source = .ok d ∧ d.index = firstIndex + n ∧
      ((declared c.text).Nodup ↔ (declared source).Nodup ∧
        ∀ i, firstIndex ≤ i → i < firstIndex + n → digits i ∉ declared source) := by
  obtain ⟨n, b, cursor, rfl, hs, hfinish, hcontent⟩ := convert_eq_ok h
  refine ⟨_, n, hfinish, rfl, ?_⟩
  have hall : Declares ((List.range' firstIndex n).map digits) (b 0) c.text := by
    rcases hcontent with ⟨rfl, rfl⟩ | ⟨-, -, himport⟩
    · exact .refl _
    · have := (hs.declares (Nat.le_refl n)).trans (declares_insertImport himport)
      rwa [List.append_nil] at this
  have hnew : ((List.range' firstIndex n).map digits).Nodup :=
    List.Nodup.map (fun i j hij => digits_injective hij) (List.nodup_range' ..)
  rw [(hall htight).2.nodup_iff, List.nodup_append]
  constructor
  · rintro ⟨-, hsource, hne⟩
    refine ⟨hsource, fun i hle hlt hmem => ?_⟩
    exact hne _ (List.mem_map_of_mem (List.mem_range'_1.2 ⟨hle, hlt⟩)) _ hmem rfl
  · rintro ⟨hsource, hfresh⟩
    refine ⟨hnew, hsource, ?_⟩
    rintro _ hnew _ hmem rfl
    obtain ⟨i, hi, rfl⟩ := List.mem_map.1 hnew
    obtain ⟨hle, hlt⟩ := List.mem_range'_1.1 hi
    exact hfresh i hle hlt hmem

/-- A class with two methods that declares a seventh lock. -/
def seventhLock : List Char :=
  "package p; c\x7b lock7 = 0; synchronized a()\x7b\x7d synchronized b()\x7b\x7d\x7d".toList

theorem convert_declared_seventhLock : ∃ c, convert ⟨0, .stampedLock⟩ seventhLock = .ok c ∧
    Tight seventhLock ∧ declared seventhLock = [['7']] ∧ (declared c.text).Nodup := by
  have chars : seventhLock = _ := String.toList_ofList
  have hfinish : (Draft.finish ⟨0, .stampedLock⟩ seventhLock).toOption.any (fun d =>
      d.index = 3 ∧ (packageEnd? d.text).toOption = some (some 10)) = true := by
    rewrite [chars]
    set_option maxRecDepth 4000 in
    with_unfolding_all decide
  have htight : Tight seventhLock := by
    rewrite [chars]
    with_unfolding_all decide
  have hsource : declared seventhLock = [['7']] := by
    rewrite [chars]
    decide
  obtain ⟨d', hd', h⟩ := exists_ok_of_any hfinish
  obtain ⟨hindex, hend⟩ := of_decide_eq_true h
  obtain ⟨c, hc, -⟩ := convert_of_finish hd' (by rw [hindex]; decide) (eq_ok_of_toOption hend)
  obtain ⟨d, n, hd, hn, hiff⟩ := convert_declared hc htight
  rw [hd] at hd'
  cases hd'
  rw [hindex, firstIndex] at hn
  refine ⟨c, hc, htight, hsource, hiff.2 ?_⟩
  rw [hsource]
  refine ⟨by decide, ?_⟩
  intro i hle hlt
  obtain rfl | rfl : i = 1 ∨ i = 2 := by
    rw [firstIndex] at hle hlt
    omega
  · decide
  · decide

/-- A class with one method. -/
def oneMethod : List Char :=
  "package p; c\x7b synchronized a()\x7b\x7d\x7d".toList

/-- The class with one more method before its last brace. -/
def withMethod (t : List Char) : List Char :=
  t.dropLast ++ " synchronized b()\x7b\x7d\x7d".toList

/-- A text with a tab between an equals sign and the keyword. -/
def looseName : List Char :=
  "package p; lock7 = 0; lock7 =\tsynchronized a()\x7b\x7d".toList

/-- A class that was converted before and has a new method: its one lock is declared again. Where a
name is loose, a name that is not among the new ones can be declared again as well. -/
theorem declared_again :
    (∃ c c', convert ⟨0, .stampedLock⟩ oneMethod = .ok c ∧
      (declared (withMethod c.text)).Nodup ∧
      convert ⟨0, .stampedLock⟩ (withMethod c.text) = .ok c' ∧ ¬ (declared c'.text).Nodup) ∧
    ∃ c, declared looseName = [['7']] ∧ convert ⟨0, .stampedLock⟩ looseName = .ok c ∧
      ¬ (declared c.text).Nodup := by
  constructor
  · have h : (convert ⟨0, .stampedLock⟩ oneMethod).toOption.any (fun c =>
        (declared (withMethod c.text)).Nodup ∧
        (convert ⟨0, .stampedLock⟩ (withMethod c.text)).toOption.any (fun c' =>
          ¬ (declared c'.text).Nodup) = true) = true := by
      have chars : oneMethod = _ := String.toList_ofList
      rewrite [chars]
      set_option maxRecDepth 4000 in
      with_unfolding_all decide
    obtain ⟨c, hc, h⟩ := exists_ok_of_any h
    obtain ⟨hsource, h⟩ := of_decide_eq_true h
    obtain ⟨c', hc', h⟩ := exists_ok_of_any h
    exact ⟨c, c', hc, hsource, hc', of_decide_eq_true h⟩
  · have chars : looseName = _ := String.toList_ofList
    have hsource : declared looseName = [['7']] := by
      rewrite [chars]
      decide
    have h : (convert ⟨0, .stampedLock⟩ looseName).toOption.any (fun c =>
        ¬ (declared c.text).Nodup) = true := by
      rewrite [chars]
      with_unfolding_all decide
    obtain ⟨c, hc, h⟩ := exists_ok_of_any h
    exact ⟨c, hsource, hc, of_decide_eq_true h⟩

end LockMigration.Conversion
