/-
The loop of a conversion ends on every text. A step on a method takes one keyword out of the text
and makes no other: the generated texts hold none, and none stands across a boundary of a splice.
Every other step leaves the text alone and moves the cursor on. After a method the cursor goes back
to the start, and blanks of the splices may even make tokens of keywords that were none, so neither
the cursor nor the number of tokens counts the steps that are left; `Draft.rank` does, since there
are never more tokens than keywords.
-/
import LockMigration.Proofs.Conversion.Carry
import LockMigration.Proofs.Conversion.Script
import Mathlib.Logic.Relation

namespace LockMigration.Conversion

open Text Java

attribute [local irreducible] keyword

/-! ## The keywords of a text in parts -/

/-- The positions of the keywords in a text that begins at position `i`. -/
def keywordsFrom (i : Nat) (t : List Char) : List Nat :=
  marksFrom (keyword.isPrefixOf ·) i t

theorem keywordsFrom_cons {c : Char} {t : List Char} (h : ¬ keyword <+: c :: t) (i : Nat) :
    keywordsFrom i (c :: t) = keywordsFrom (i + 1) t := by
  rw [← List.isPrefixOf_iff_prefix] at h
  rw [keywordsFrom, marksFrom, if_neg h]
  rfl

theorem keywordsFrom_append {x y : List Char} (h : Cut x y) (i : Nat) :
    keywordsFrom i (x ++ y) = keywordsFrom i x ++ keywordsFrom (i + x.length) y := by
  induction x generalizing i with
  | nil => rfl
  | cons c x ih =>
    have hk := h.keyword_iff (List.cons_ne_nil c x)
    rw [← List.isPrefixOf_iff_prefix, ← List.isPrefixOf_iff_prefix, List.cons_append] at hk
    have ih := ih h.tail (i + 1)
    rw [keywordsFrom, keywordsFrom, keywordsFrom] at ih
    rw [keywordsFrom, keywordsFrom, keywordsFrom, List.cons_append, marksFrom, marksFrom, ih,
      List.length_cons, Nat.add_assoc i, Nat.add_comm 1]
    by_cases hc : keyword.isPrefixOf (c :: x) = true
    · rw [if_pos hc, if_pos (hk.2 hc), List.cons_append]
    · rw [if_neg hc, if_neg fun hp => hc (hk.1 hp)]

theorem keywordsFrom_quiet {t : List Char} (h : ∀ c ∈ t, isQuiet c = true) (i : Nat) :
    keywordsFrom i t = [] := by
  induction t generalizing i with
  | nil => rfl
  | cons c t ih =>
    rw [keywordsFrom_cons (not_keyword_of_quiet h), ih fun d hd => h d (List.mem_cons_of_mem c hd)]

theorem keywordsFrom_blanks {t : List Char} (h : ∀ c ∈ t, isBlank c = true) (i : Nat) :
    keywordsFrom i t = [] :=
  keywordsFrom_quiet (fun c hc => isQuiet_of_isBlank (h c hc)) i

theorem keywordsFrom_keyword_append (i : Nat) (t : List Char) :
    keywordsFrom i (keyword ++ t) = i :: keywordsFrom (i + keyword.length) t := by
  simp [keywordsFrom, keyword_eq, marksFrom]

theorem mem_keywordsFrom {i j : Nat} {t : List Char} (h : j ∈ keywordsFrom i t) :
    ∃ k < t.length, j = i + k := by
  rw [keywordsFrom, marksFrom_eq_map] at h
  obtain ⟨k, hk, rfl⟩ := List.mem_map.1 h
  exact ⟨k, (mem_marks.1 hk).1, Nat.add_comm k i⟩

/-- Keywords that are moved with the text they stand in. -/
theorem map_keywordsFrom {i j : Nat} {t : List Char} {f : Nat → Nat}
    (h : ∀ k < t.length, f (i + k) = j + k) : (keywordsFrom i t).map f = keywordsFrom j t := by
  have shift : keywordsFrom j t = (keywordsFrom i t).map (fun k => k - i + j) := by
    rw [keywordsFrom, keywordsFrom, marksFrom_eq_map _ _ j, marksFrom_eq_map _ _ i, List.map_map]
    exact List.map_congr_left fun k _ => by simp
  rw [shift]
  refine List.map_congr_left fun q hq => ?_
  obtain ⟨k, hk, rfl⟩ := mem_keywordsFrom hq
  rw [h k hk]
  omega

namespace Frame

variable {m : Frame} {o : Occurrence}

theorem keywords_text (hm : m.Sound) (hf : m.Found o) :
    keywordsFrom 0 m.text =
      keywordsFrom 0 m.before ++ keywordsFrom m.before.length m.member ++ o.keyword m.text ::
        (keywordsFrom o.stop m.head ++ (keywordsFrom (o.stop + m.head.length + 1) m.body ++
          keywordsFrom (o.stop + m.head.length + 1 + m.body.length + 1) m.after)) := by
  have hbrace : '{' ∉ keyword ∧ '}' ∉ keyword :=
    ⟨not_mem_keyword_of_isDelimiter (by decide), not_mem_keyword_of_isDelimiter (by decide)⟩
  rw [hf.word, hf.stop]
  unfold text
  simp only [List.append_assoc]
  rw [keywordsFrom_append (cut_before hm _),
    keywordsFrom_append (.of_blanks_right hm.lead_ne hm.lead_blank _ _),
    keywordsFrom_append (.of_blanks_left hm.lead_ne hm.lead_blank _),
    keywordsFrom_blanks hm.lead_blank, keywordsFrom_keyword_append,
    keywordsFrom_append (.of_blanks_left hm.trail_ne hm.trail_blank _),
    keywordsFrom_blanks hm.trail_blank, keywordsFrom_append (.of_head hbrace.1),
    keywordsFrom_cons (not_keyword_cons hbrace.1 _), keywordsFrom_append (.of_head hbrace.2),
    keywordsFrom_cons (not_keyword_cons hbrace.2 _)]
  simp only [List.nil_append, List.length_append, Nat.zero_add, Nat.add_assoc]

theorem keywords_locked (hm : m.Sound) (l : Locker) (index indent : Nat) :
    keywordsFrom 0 (m.locked l index indent) =
      keywordsFrom 0 m.before ++
        keywordsFrom (m.before.length + (l.declarations index indent).length) m.member ++
        (keywordsFrom (m.before.length + (l.declarations index indent).length + m.member.length +
            (separator m.lead).length) m.head ++
          (keywordsFrom (m.before.length + (l.declarations index indent).length + m.member.length +
              (separator m.lead).length + m.head.length + 1 +
              (l.openTry index indent).length) m.body ++
            keywordsFrom (m.before.length + (l.declarations index indent).length +
              m.member.length + (separator m.lead).length + m.head.length + 1 +
              (l.openTry index indent).length + m.body.length + (l.closeTry index indent).length +
              1) m.after)) := by
  have hbrace : '{' ∉ keyword ∧ '}' ∉ keyword :=
    ⟨not_mem_keyword_of_isDelimiter (by decide), not_mem_keyword_of_isDelimiter (by decide)⟩
  have hne := separator_ne_nil hm.lead_ne hm.lead_blank
  have hblank := isBlank_of_mem_separator hm.lead_ne hm.lead_blank
  unfold locked
  simp only [List.append_assoc]
  rw [keywordsFrom_append (l.cut_before_declarations index indent _ _),
    keywordsFrom_append (l.cut_declarations index indent _),
    keywordsFrom_quiet (l.quiet_declarations index indent),
    keywordsFrom_append (.of_blanks_right hne hblank _ _),
    keywordsFrom_append (.of_blanks_left hne hblank _), keywordsFrom_blanks hblank,
    keywordsFrom_append (.of_head hbrace.1), keywordsFrom_cons (not_keyword_cons hbrace.1 _),
    keywordsFrom_append (l.cut_openTry index indent _),
    keywordsFrom_quiet (l.quiet_openTry index indent),
    keywordsFrom_append (l.cut_before_closeTry index indent _ _), keywordsFrom_append (.of_head hbrace.2),
    keywordsFrom_quiet (l.quiet_closeTry index indent),
    keywordsFrom_cons (not_keyword_cons hbrace.2 _)]
  simp only [List.nil_append, Nat.zero_add, Nat.add_assoc]

/-- The lock takes the keyword of its method out of the text; the others are carried along. -/
theorem keywords_carried (hm : m.Sound) (hf : m.Found o) (style : Style) (index : Nat) :
    o.keyword m.text ∈ startsOf keyword m.text ∧
      startsOf keyword (m.locked style.locker index style.indent) =
        ((startsOf keyword m.text).erase (o.keyword m.text)).map
          (carried style index m.text o) := by
  have hword := hf.word
  have hstart := hf.start
  have hlead := List.length_pos_iff.2 hm.lead_ne
  simp only [List.length_append] at hword hstart
  have hnot : o.keyword m.text ∉
      keywordsFrom 0 m.before ++ keywordsFrom m.before.length m.member := by
    intro hk
    rcases List.mem_append.1 hk with hk | hk
    · obtain ⟨k, hlt, heq⟩ := mem_keywordsFrom hk
      omega
    · obtain ⟨k, hlt, heq⟩ := mem_keywordsFrom hk
      omega
  have hhead : ∀ k < m.head.length, k < (m.head ++ ['{']).length := by
    intro k hk
    rw [List.length_append]
    omega
  show o.keyword m.text ∈ keywordsFrom 0 m.text ∧
    keywordsFrom 0 (m.locked style.locker index style.indent) =
      ((keywordsFrom 0 m.text).erase (o.keyword m.text)).map (carried style index m.text o)
  rw [keywords_text hm hf, keywords_locked hm]
  constructor
  · simp
  rw [List.erase_append_right _ hnot, List.erase_cons_head, List.map_append, List.map_append,
    List.map_append, List.map_append]
  congr 1
  · congr 1
    · refine (map_keywordsFrom fun k hk => ?_).symm
      rw [Nat.zero_add]
      exact carried_before hf style index hk
    · exact (map_keywordsFrom fun k hk => carried_member hf style index hk).symm
  congr 1
  · exact (map_keywordsFrom fun k hk => carried_head hf style index (hhead k hk)).symm
  congr 1
  · exact (map_keywordsFrom fun k hk => carried_body hf style index hk).symm
  · refine (map_keywordsFrom fun k _ => ?_).symm
    have := carried_after hf style index (k + 1)
    rw [← Nat.add_assoc, ← Nat.add_assoc] at this
    rw [Nat.add_right_comm _ 1 k, this, Nat.add_right_comm _ 1 k]

end Frame

/-! ## One step -/

/-- The step from `d` to `d'` gives a method its lock. Of the keywords of the text the one of that
method goes, and no other comes or goes. -/
def Locks (style : Style) (d d' : Draft) : Prop :=
  ∃ o, firstPosition d.text d.cursor = .ok (some o) ∧ o.kind = .method ∧
    d'.cursor = none ∧ d'.index = d.index + 1 ∧
    o.keyword d.text ∈ startsOf keyword d.text ∧
    startsOf keyword d'.text = ((startsOf keyword d.text).erase (o.keyword d.text)).map
      (carried style d.index d.text o) ∧
    (startsOf keyword d'.text).length + 1 = (startsOf keyword d.text).length

/-- The step from `d` to `d'` passes an occurrence: the cursor moves on in the same text. -/
def Passes (d d' : Draft) : Prop :=
  d'.text = d.text ∧ d'.index = d.index ∧
    ∃ pos, d'.cursor = some pos ∧ isPast d.cursor pos = true ∧ pos < d.text.length

theorem start_lt_length {t : List Char} {k : Token} (h : k ∈ tokens t) : k.start < t.length := by
  obtain ⟨before, b, l, rest, hp⟩ := parts_of_mem_tokens h
  rw [hp.start, hp.text]
  simp only [List.length_append, List.length_cons]
  omega

theorem step_cases {style : Style} {d d' : Draft} (h : d.step style = .ok (some d')) :
    ∃ k ∈ tokens d.text, isPast d.cursor k.start = true ∧
      (firstPosition d.text d.cursor = .ok (some k.method) ∧
        classify d.text k.start k.stop = .ok .method ∧
        (∃ u, lockMethod style.locker d.text k.method d.index style.indent = .ok u ∧
          d' = ⟨u, none, d.index + 1⟩) ∨
        d' = { d with cursor := some k.start }) := by
  unfold Draft.step at h
  cases hp : firstPosition d.text d.cursor with
  | error e => rw [hp] at h; cases h
  | ok found =>
    rw [hp] at h
    cases found with
    | none => cases h
    | some o =>
      obtain ⟨k, hk, hpast, hclass⟩ := firstPosition_eq_some hp
      obtain ⟨hkind, hstart, hstop⟩ := classified_eq_ok.1 hclass
      obtain ⟨start, stop, kind⟩ := o
      obtain rfl : start = k.start := hstart
      obtain rfl : stop = k.stop := hstop
      refine ⟨k, hk, hpast, ?_⟩
      cases kind with
      | method =>
        refine .inl ⟨rfl, hkind, ?_⟩
        cases hlock : lockMethod style.locker d.text k.method d.index style.indent with
        | error e => simp only [bind, Except.bind, Token.method] at h hlock; rw [hlock] at h; cases h
        | ok u =>
          simp only [bind, Except.bind, Token.method] at h hlock
          rw [hlock] at h
          cases h
          exact ⟨u, rfl, rfl⟩
      | monitor => cases h; exact .inr rfl
      | comment => cases h; exact .inr rfl
      | quoted => cases h; exact .inr rfl

theorem locks_of_lockMethod {style : Style} {d : Draft} {k : Token} {u : List Char}
    (hk : k ∈ tokens d.text) (hfirst : firstPosition d.text d.cursor = .ok (some k.method))
    (hkind : classify d.text k.start k.stop = .ok .method)
    (hlock : lockMethod style.locker d.text k.method d.index style.indent = .ok u) :
    Locks style d ⟨u, none, d.index + 1⟩ := by
  obtain ⟨m, hm, hf, htext, hlocked⟩ := frame_of_lockMethod hk hkind hlock
  obtain ⟨hmem, hcarried⟩ := m.keywords_carried hm hf style d.index
  rw [htext, hlocked] at hcarried
  rw [htext] at hmem
  refine ⟨k.method, hfirst, rfl, rfl, rfl, hmem, hcarried, ?_⟩
  have hpos := List.length_pos_of_mem hmem
  rw [hcarried, List.length_map, List.length_erase_of_mem hmem]
  omega

theorem locks_or_passes {style : Style} {d d' : Draft} (h : d.step style = .ok (some d')) :
    Locks style d d' ∨ Passes d d' := by
  obtain ⟨k, hk, hpast, ⟨hfirst, hkind, u, hlock, rfl⟩ | rfl⟩ := step_cases h
  · exact .inl (locks_of_lockMethod hk hfirst hkind hlock)
  · exact .inr ⟨rfl, rfl, k.start, rfl, hpast, start_lt_length hk⟩

/-! ## The steps that are left -/

/-- A number above that of the steps that are left: the tokens that the cursor has still to pass,
and for every keyword a round through what may be left then. -/
def Draft.rank (d : Draft) : Nat :=
  ((tokens d.text).filter (fun k => isPast d.cursor k.start)).length +
    (startsOf keyword d.text).length * (startsOf keyword d.text).length

theorem rank_le (d : Draft) :
    d.rank ≤ (startsOf keyword d.text).length +
      (startsOf keyword d.text).length * (startsOf keyword d.text).length := by
  have hle := List.length_filter_le (fun k : Token => isPast d.cursor k.start) (tokens d.text)
  have := length_tokens_le d.text
  unfold Draft.rank
  omega

theorem isPast_trans {cursor : Option Nat} {p q : Nat} (hp : isPast cursor p = true)
    (hq : isPast (some p) q = true) : isPast cursor q = true := by
  cases cursor with
  | none => rfl
  | some c =>
    simp only [isPast, Option.all_some, decide_eq_true_eq] at hp hq ⊢
    omega

/-- A token that the cursor moves to is no longer past it. -/
theorem length_filter_isPast_lt {ks : List Token} {k : Token} (hk : k ∈ ks) {cursor : Option Nat}
    (hpast : isPast cursor k.start = true) :
    (ks.filter (fun j => isPast (some k.start) j.start)).length <
      (ks.filter (fun j => isPast cursor j.start)).length := by
  have hsub : ks.filter (fun j => isPast (some k.start) j.start) =
      (ks.filter (fun j => isPast cursor j.start)).filter
        (fun j => isPast (some k.start) j.start) := by
    rw [List.filter_filter]
    refine List.filter_congr fun j _ => ?_
    cases hj : isPast (some k.start) j.start with
    | false => rfl
    | true => rw [isPast_trans hpast hj]; rfl
  rw [hsub, List.length_filter_lt_length_iff_exists]
  refine ⟨k, List.mem_filter.2 ⟨hk, hpast⟩, ?_⟩
  simp [isPast]

theorem rank_lt {style : Style} {d d' : Draft} (h : d.step style = .ok (some d')) :
    d'.rank < d.rank := by
  obtain ⟨k, hk, hpast, ⟨hfirst, hkind, u, hlock, rfl⟩ | rfl⟩ := step_cases h
  · -- going back to the start costs less than a round, and a round is what the keyword was worth
    obtain ⟨-, -, -, -, -, -, -, hcount⟩ := locks_of_lockMethod hk hfirst hkind hlock
    have hle := rank_le ⟨u, none, d.index + 1⟩
    refine Nat.lt_of_le_of_lt hle ?_
    unfold Draft.rank
    rw [← hcount, Nat.add_one_mul_add_one]
    omega
  · exact Nat.add_lt_add_right (length_filter_isPast_lt hk hpast) _

/-- There is no draft from which the loop goes on for ever. -/
theorem wellFounded_step (style : Style) :
    WellFounded (fun d' d : Draft => d.step style = .ok (some d')) :=
  Subrelation.wf rank_lt (measure Draft.rank).wf

/-! ## Whole runs -/

theorem run_eq_run {style : Style} {m n : Nat} {d : Draft} (hm : d.rank < m) (hn : d.rank < n) :
    Draft.run style m d = Draft.run style n d := by
  induction m generalizing n d with
  | zero => omega
  | succ m ih =>
    obtain ⟨n, rfl⟩ := Nat.exists_eq_add_one_of_ne_zero (by omega : n ≠ 0)
    rw [run_succ, run_succ]
    cases hstep : d.step style with
    | error e => rfl
    | ok found =>
      cases found with
      | none => rfl
      | some next =>
        have := rank_lt hstep
        exact ih (by omega) (by omega)

/-- A run with enough steps stops where no step is left. -/
theorem step_of_run {style : Style} {n : Nat} {d e : Draft} (hn : d.rank < n)
    (h : Draft.run style n d = .ok e) : e.step style = .ok none := by
  induction n generalizing d with
  | zero => omega
  | succ n ih =>
    rw [run_succ] at h
    cases hstep : d.step style with
    | error e => rw [hstep] at h; cases h
    | ok found =>
      rw [hstep] at h
      cases found with
      | none => cases h; exact hstep
      | some next =>
        have := rank_lt hstep
        exact ih (by omega) h

theorem rank_start_lt (source : List Char) : (Draft.start source).rank < Draft.bound source := by
  have hle := rank_le (Draft.start source)
  refine Nat.lt_of_le_of_lt hle ?_
  simp only [Draft.bound, Nat.add_one_mul_add_one, Draft.start]
  omega

/-- Every lock is paid with a keyword. -/
theorem index_add_keywords {style : Style} {d d' : Draft}
    (h : Relation.ReflTransGen (fun d d' : Draft => d.step style = .ok (some d')) d d') :
    d'.index + (startsOf keyword d'.text).length = d.index + (startsOf keyword d.text).length := by
  induction h with
  | refl => rfl
  | tail _ hstep ih =>
    rcases locks_or_passes hstep with ⟨o, -, -, -, hindex, -, -, hcount⟩ | ⟨htext, hindex, -⟩
    · omega
    · rw [htext, hindex, ih]

/-- The loop of a conversion ends, whatever the text. A step either gives a method its lock, which
takes exactly one keyword out of the text, or passes an occurrence, which moves the cursor on; no
sequence of such steps is endless. From any source the stated number of steps leads to a fault or
to a draft without a next step, and more steps change nothing. On the way there are never more
locks than the source has keywords. -/
theorem conversion_ends (style : Style) :
    (∀ d d' : Draft, d.step style = .ok (some d') → Locks style d d' ∨ Passes d d') ∧
    WellFounded (fun d' d : Draft => d.step style = .ok (some d')) ∧
    ∀ source : List Char,
      (∀ n, Draft.bound source ≤ n →
        Draft.run style n (.start source) = Draft.finish style source) ∧
      (∀ d, Draft.finish style source = .ok d → d.step style = .ok none) ∧
      ∀ d, Relation.ReflTransGen (fun d d' : Draft => d.step style = .ok (some d'))
          (.start source) d →
        d.index ≤ firstIndex + (startsOf keyword source).length := by
  refine ⟨fun d d' => locks_or_passes, wellFounded_step style, fun source => ?_⟩
  have hrank := rank_start_lt source
  refine ⟨fun n hn => run_eq_run (by omega) hrank, fun d hd => step_of_run hrank hd, ?_⟩
  intro d hd
  have hsum := index_add_keywords hd
  simp only [Draft.start] at hsum
  omega

/-- A source whose loop gives out two locks. -/
theorem conversion_ends_smallSource : ∃ d, Draft.finish ⟨0, .stampedLock⟩ smallSource = .ok d ∧
    d.index = 3 ∧ d.step ⟨0, .stampedLock⟩ = .ok none ∧
    ∀ n, Draft.bound smallSource ≤ n →
      Draft.run ⟨0, .stampedLock⟩ n (.start smallSource) = .ok d := by
  obtain ⟨d, hd, hindex, -⟩ := finish_smallSource
  obtain ⟨-, -, hsource⟩ := conversion_ends ⟨0, .stampedLock⟩
  obtain ⟨hrun, hend, -⟩ := hsource smallSource
  exact ⟨d, hd, hindex, hend d hd, fun n hn => (hrun n hn).trans hd⟩

end LockMigration.Conversion
