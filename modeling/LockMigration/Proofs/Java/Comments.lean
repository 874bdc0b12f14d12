/-
Comments as the language reads them, from left to right: outside of a comment two slashes open one
up to the end of the line, and a slash with a star opens one up to the first star with a slash
behind them; a marker inside a comment opens none. The context rules look back from a position
instead, for the last marker of each kind, and do not ask whether it is itself inside a comment.
`inComment_agrees` says at which blanks the two can differ, and `comments_misread` shows that they
do.
-/
import LockMigration.Proofs.Java.Kinds
import LockMigration.Proofs.Java.Level

namespace LockMigration.Java

open Text

/-! ## Reading from left to right -/

/-- Position `i` comes up outside of a comment. -/
inductive Outside (t : List Char) : Nat → Prop
  | start : Outside t 0
  | next {i : Nat} : Outside t i → i ∉ startsOf ['/', '/'] t → i ∉ startsOf ['/', '*'] t →
      Outside t (i + 1)
  /-- The first line break after two slashes ends their comment. -/
  | line {o e : Nat} : Outside t o → o ∈ startsOf ['/', '/'] t → e ∈ positionsOf isLineBreak t →
      o ≤ e → (∀ i ∈ positionsOf isLineBreak t, o ≤ i → e ≤ i) → Outside t e
  /-- The first closer that shares no character with the opener ends its comment. -/
  | block {o e : Nat} : Outside t o → o ∈ startsOf ['/', '*'] t → e ∈ startsOf ['*', '/'] t →
      o + 2 ≤ e → (∀ i ∈ startsOf ['*', '/'] t, o + 2 ≤ i → e ≤ i) → Outside t (e + 2)

/-- Position `p` is in the comment that two slashes at `o` open, behind its first character. -/
structure LineCommented (t : List Char) (o p : Nat) : Prop where
  outside : Outside t o
  opener : o ∈ startsOf ['/', '/'] t
  behind : o < p
  lasting : ∀ i ∈ positionsOf isLineBreak t, o ≤ i → p < i

/-- Position `p` is in the comment that a slash with a star opens at `o`, behind its first
character; the two characters that close it belong to it. -/
structure BlockCommented (t : List Char) (o p : Nat) : Prop where
  outside : Outside t o
  opener : o ∈ startsOf ['/', '*'] t
  behind : o < p
  lasting : ∀ i ∈ startsOf ['*', '/'] t, o + 2 ≤ i → p < i + 2

/-- Position `p` is in a comment, behind its first character. -/
def Commented (t : List Char) (p : Nat) : Prop :=
  ∃ o, LineCommented t o p ∨ BlockCommented t o p

section Reading

variable {t : List Char}

theorem mem_startsOf_pair {a b : Char} {o : Nat} :
    o ∈ startsOf [a, b] t ↔ t[o]? = some a ∧ t[o + 1]? = some b := by
  constructor
  · intro h
    exact ⟨getElem?_of_mem_startsOf h (j := 0) (by simp),
      getElem?_of_mem_startsOf h (j := 1) (by simp)⟩
  rintro ⟨ha, hb⟩
  obtain ⟨hlt, rfl⟩ := List.getElem?_eq_some_iff.1 ha
  obtain ⟨hlt', rfl⟩ := List.getElem?_eq_some_iff.1 hb
  refine mem_startsOf.2 ⟨hlt, t.drop (o + 2), ?_⟩
  rw [List.drop_eq_getElem_cons hlt, List.drop_eq_getElem_cons hlt']
  rfl

theorem not_mem_lineBreaks {i : Nat} {c : Char} (h : t[i]? = some c) (hc : isLineBreak c = false) :
    i ∉ positionsOf isLineBreak t := by
  intro hmem
  obtain ⟨d, hd, hbreak⟩ := mem_positionsOf.1 hmem
  rw [h, Option.some.injEq] at hd
  rw [← hd, hc] at hbreak
  cases hbreak

/-- Every position comes up outside of a comment or is in one. -/
theorem outside_or_commented (t : List Char) (i : Nat) : Outside t i ∨ Commented t i := by
  induction i with
  | zero => exact .inl .start
  | succ i ih =>
    rcases ih with h | ⟨o, ⟨hout, hmark, hlt, hlast⟩ | ⟨hout, hmark, hlt, hlast⟩⟩
    · by_cases hline : i ∈ startsOf ['/', '/'] t
      · refine .inr ⟨i, .inl ⟨h, hline, by omega, fun b hb hle => ?_⟩⟩
        obtain ⟨h1, h2⟩ := mem_startsOf_pair.1 hline
        have hne : b ≠ i := by
          rintro rfl
          exact not_mem_lineBreaks h1 (by decide) hb
        have hne' : b ≠ i + 1 := by
          rintro rfl
          exact not_mem_lineBreaks h2 (by decide) hb
        omega
      · by_cases hblock : i ∈ startsOf ['/', '*'] t
        · exact .inr ⟨i, .inr ⟨h, hblock, by omega, fun c _ hle => by omega⟩⟩
        · exact .inl (h.next hline hblock)
    · by_cases hbreak : i + 1 ∈ positionsOf isLineBreak t
      · exact .inl (hout.line hmark hbreak (by omega) hlast)
      · refine .inr ⟨o, .inl ⟨hout, hmark, by omega, fun b hb hle => ?_⟩⟩
        have := hlast b hb hle
        have hne : b ≠ i + 1 := by
          rintro rfl
          exact hbreak hb
        omega
    · by_cases hclose : ∃ c ∈ startsOf ['*', '/'] t, o + 2 ≤ c ∧ c + 1 = i
      · obtain ⟨c, hc, hle, rfl⟩ := hclose
        exact .inl (hout.block hmark hc hle fun d hd hled => by have := hlast d hd hled; omega)
      · refine .inr ⟨o, .inr ⟨hout, hmark, by omega, fun c hc hle => ?_⟩⟩
        have := hlast c hc hle
        have hne : c + 1 ≠ i := fun h => hclose ⟨c, hc, hle, h⟩
        omega

theorem LineCommented.mono {o p q : Nat} (h : LineCommented t o p) (hlt : o < q) (hle : q ≤ p) :
    LineCommented t o q :=
  ⟨h.outside, h.opener, hlt, fun i hi hoi => Nat.lt_of_le_of_lt hle (h.lasting i hi hoi)⟩

theorem BlockCommented.mono {o p q : Nat} (h : BlockCommented t o p) (hlt : o < q) (hle : q ≤ p) :
    BlockCommented t o q :=
  ⟨h.outside, h.opener, hlt, fun i hi hoi => Nat.lt_of_le_of_lt hle (h.lasting i hi hoi)⟩

/-- No position is both. -/
theorem Outside.not_commented {i : Nat} (h : Outside t i) : ¬ Commented t i := by
  induction i using Nat.strongRecOn with
  | _ i ih =>
    rintro ⟨o, hold⟩
    -- what opens the comment comes up outside, and so does no position inside another comment
    have outside : Outside t o := hold.elim (·.outside) (·.outside)
    have behind : o < i := hold.elim (·.behind) (·.behind)
    have earlier {j : Nat} (hj : Outside t j) (hoj : o < j) (hji : j < i) : False :=
      ih j hji hj ⟨o, hold.imp (·.mono hoj (by omega)) (·.mono hoj (by omega))⟩
    cases h with
    | start => omega
    | @next j hj hline hblock =>
      rcases Nat.lt_succ_iff_lt_or_eq.1 behind with hlt | rfl
      · exact earlier hj hlt (by omega)
      · exact hold.elim (fun h => hline h.opener) fun h => hblock h.opener
    | @line o' _ ho' hmark hbreak hle hfirst =>
      obtain ⟨h1, h2⟩ := mem_startsOf_pair.1 hmark
      have hne : o' ≠ i := by
        rintro rfl
        exact not_mem_lineBreaks h1 (by decide) hbreak
      rcases Nat.lt_trichotomy o o' with hlt | rfl | hlt
      · exact earlier ho' hlt (by omega)
      · rcases hold with h | h
        · have := h.lasting i hbreak hle
          omega
        · rw [(mem_startsOf_pair.1 h.opener).2] at h2
          cases h2
      · refine ih o behind outside ⟨o', .inl ⟨ho', hmark, hlt, fun b hb hob => ?_⟩⟩
        have := hfirst b hb hob
        omega
    | @block o' e ho' hmark hclose hle hfirst =>
      rcases Nat.lt_trichotomy o o' with hlt | rfl | hlt
      · exact earlier ho' hlt (by omega)
      · rcases hold with h | h
        · have h2 := (mem_startsOf_pair.1 hmark).2
          rw [(mem_startsOf_pair.1 h.opener).2] at h2
          cases h2
        · have := h.lasting e hclose hle
          omega
      · refine ih o behind outside ⟨o', .inr ⟨ho', hmark, hlt, fun c hc hoc => ?_⟩⟩
        have := hfirst c hc hoc
        omega

end Reading

/-! ## Zones -/

/-- The zones of a comment. -/
def Zone.isComment : Zone → Bool
  | lineComment | blockComment | star => true
  | _ => false

/-- What the zone of position `i` says about the comments of a text without literals. -/
def Zone.Tells (t : List Char) (i : Nat) : Zone → Prop
  | code => Outside t i
  | slash => ∃ j, i = j + 1 ∧ Outside t j ∧ t[j]? = some '/'
  | lineComment => ∃ o, o + 2 ≤ i ∧ Outside t o ∧ o ∈ startsOf ['/', '/'] t ∧
      ∀ b ∈ positionsOf isLineBreak t, o ≤ b → i ≤ b
  | blockComment => ∃ o, o + 2 ≤ i ∧ BlockCommented t o i ∧
      ∀ j, o + 2 ≤ j → i = j + 1 → t[j]? ≠ some '*'
  | star => ∃ o j, o + 2 ≤ j ∧ i = j + 1 ∧ BlockCommented t o i ∧ t[j]? = some '*'
  | literal _ | escape _ => False

section Zones

variable {t : List Char} {i : Nat} {c : Char}

/-- A position behind a character that begins no marker comes up outside. -/
theorem Outside.next_of_ne (h : Outside t i) (hc : t[i]? = some c) (hne : c ≠ '/') :
    Outside t (i + 1) := by
  have hno (d : Char) : i ∉ startsOf ['/', d] t := by
    intro hmem
    have h1 := (mem_startsOf_pair.1 hmem).1
    rw [hc, Option.some.injEq] at h1
    exact hne h1
  exact h.next (hno '/') (hno '*')

theorem Outside.next_of_slash {d : Char} (h : Outside t i) (hd : t[i + 1]? = some d)
    (hline : d ≠ '/') (hblock : d ≠ '*') : Outside t (i + 1) := by
  refine h.next (fun hmem => ?_) fun hmem => ?_
  · rw [(mem_startsOf_pair.1 hmem).2, Option.some.injEq] at hd
    exact hline hd.symm
  · rw [(mem_startsOf_pair.1 hmem).2, Option.some.injEq] at hd
    exact hblock hd.symm

/-- A block comment goes on behind a character that does not close it. -/
theorem BlockCommented.succ {o : Nat} (h : BlockCommented t o i)
    (hopen : ∀ j, o + 2 ≤ j → i = j + 1 → t[j]? = some '*' → t[i]? ≠ some '/') :
    BlockCommented t o (i + 1) := by
  refine ⟨h.outside, h.opener, Nat.lt_succ_of_lt h.behind, fun e he hle => ?_⟩
  obtain ⟨h1, h2⟩ := mem_startsOf_pair.1 he
  have := h.lasting e he hle
  have hne : e + 1 ≠ i := by
    rintro rfl
    exact hopen e hle rfl h1 h2
  omega

theorem Zone.tells_ofCode (h : Outside t i) (hc : t[i]? = some c) (hq : c ≠ '"' ∧ c ≠ '\'') :
    (Zone.ofCode c).Tells t (i + 1) := by
  unfold Zone.ofCode
  split
  · rename_i hslash
    rw [hslash] at hc
    exact ⟨i, rfl, h, hc⟩
  · rename_i hslash
    rw [if_neg (by simp [hq])]
    exact h.next_of_ne hc hslash

theorem Zone.tells_next {z : Zone} (h : z.Tells t i) (hc : t[i]? = some c)
    (hq : c ≠ '"' ∧ c ≠ '\'') : (z.next c).Tells t (i + 1) := by
  cases z with
  | code => exact Zone.tells_ofCode h hc hq
  | slash =>
    obtain ⟨j, rfl, hj, hslash⟩ := h
    rw [Zone.next]
    split
    · rename_i hline
      rw [hline] at hc
      refine ⟨j, Nat.le_refl _, hj, mem_startsOf_pair.2 ⟨hslash, hc⟩, fun b hb hle => ?_⟩
      have hne : b ≠ j := fun h => not_mem_lineBreaks hslash (by decide) (h ▸ hb)
      have hne' : b ≠ j + 1 := fun h => not_mem_lineBreaks hc (by decide) (h ▸ hb)
      omega
    · rename_i hline
      split
      · rename_i hblock
        rw [hblock] at hc
        refine ⟨j, Nat.le_refl _, ⟨hj, mem_startsOf_pair.2 ⟨hslash, hc⟩, by omega, ?_⟩, ?_⟩
        · intro e _ hle
          omega
        · intro k hle hk
          omega
      · rename_i hblock
        exact Zone.tells_ofCode (hj.next_of_slash hc hline hblock) hc hq
  | lineComment =>
    obtain ⟨o, hle, hout, hmark, hlast⟩ := h
    rw [Zone.next]
    split
    · rename_i hbreak
      have hmem : i ∈ positionsOf isLineBreak t := mem_positionsOf.2 ⟨c, hc, hbreak⟩
      refine (hout.line hmark hmem (by omega) hlast).next_of_ne hc ?_
      rintro rfl
      cases hbreak
    · rename_i hbreak
      refine ⟨o, by omega, hout, hmark, fun b hb hob => ?_⟩
      have := hlast b hb hob
      have hne : b ≠ i := fun h => not_mem_lineBreaks hc (by simpa using hbreak) (h ▸ hb)
      omega
  | blockComment =>
    obtain ⟨o, hle, hblock, hlast⟩ := h
    have hsucc := hblock.succ fun j hj hij hstar => absurd hstar (hlast j hj hij)
    rw [Zone.next]
    split
    · rename_i hstar
      exact ⟨o, i, hle, rfl, hsucc, by rw [hc, hstar]⟩
    · rename_i hstar
      refine ⟨o, by omega, hsucc, fun j _ hij => ?_⟩
      obtain rfl : i = j := by omega
      rw [hc]
      simpa using hstar
  | star =>
    obtain ⟨o, j, hle, rfl, hblock, hstar⟩ := h
    rw [Zone.next]
    split
    · rename_i hslash
      rw [hslash] at hc
      refine hblock.outside.block hblock.opener (mem_startsOf_pair.2 ⟨hstar, hc⟩) hle ?_
      intro e he hoe
      have := hblock.lasting e he hoe
      omega
    · rename_i hslash
      have hsucc := hblock.succ fun k _ _ _ => by rw [hc]; simpa using hslash
      split
      · rename_i hnext
        exact ⟨o, j + 1, by omega, rfl, hsucc, by rw [hc, hnext]⟩
      · rename_i hnext
        refine ⟨o, by omega, hsucc, fun k _ hk => ?_⟩
        obtain rfl : j + 1 = k := by omega
        rw [hc]
        simpa using hnext
  | literal q => exact h.elim
  | escape q => exact h.elim

theorem tells_zoneAt (hq : '"' ∉ t ∧ '\'' ∉ t) (hi : i ≤ t.length) : (zoneAt t i).Tells t i := by
  induction i with
  | zero => exact Outside.start
  | succ i ih =>
    have hc : t[i]? = some t[i] := List.getElem?_eq_getElem hi
    have hmem := List.getElem_mem (l := t) hi
    rw [zoneAt_succ hc]
    refine Zone.tells_next (ih (by omega)) hc ⟨?_, ?_⟩
    · intro h
      exact hq.1 (h ▸ hmem)
    · intro h
      exact hq.2 (h ▸ hmem)

/-- Without literals in the text, the zone of a blank tells whether it is in a comment. -/
theorem isComment_zoneAt (hq : '"' ∉ t ∧ '\'' ∉ t) (hc : t[i]? = some c) (hblank : isBlank c = true)
    (hline : isLineBreak c = false) : (zoneAt t i).isComment = true ↔ Commented t i := by
  have hlt := (List.getElem?_eq_some_iff.1 hc).1
  have htells := tells_zoneAt hq (Nat.le_of_lt hlt)
  cases hz : zoneAt t i with
  | code =>
    rw [hz] at htells
    exact ⟨nofun, fun h => absurd h htells.not_commented⟩
  | slash =>
    rw [hz] at htells
    obtain ⟨j, rfl, hj, -⟩ := htells
    have hout := hj.next_of_slash hc (isBlank_ne hblank (by decide)) (isBlank_ne hblank (by decide))
    exact ⟨nofun, fun h => absurd h hout.not_commented⟩
  | lineComment =>
    rw [hz] at htells
    obtain ⟨o, hle, hout, hmark, hlast⟩ := htells
    refine ⟨fun _ => ⟨o, .inl ⟨hout, hmark, by omega, fun b hb hob => ?_⟩⟩, fun _ => rfl⟩
    have := hlast b hb hob
    have hne : b ≠ i := fun h => not_mem_lineBreaks hc hline (h ▸ hb)
    omega
  | blockComment =>
    rw [hz] at htells
    obtain ⟨o, -, hblock, -⟩ := htells
    exact ⟨fun _ => ⟨o, .inr hblock⟩, fun _ => rfl⟩
  | star =>
    rw [hz] at htells
    obtain ⟨o, j, -, -, hblock, -⟩ := htells
    exact ⟨fun _ => ⟨o, .inr hblock⟩, fun _ => rfl⟩
  | literal q => rw [hz] at htells; exact htells.elim
  | escape q => rw [hz] at htells; exact htells.elim

end Zones

/-! ## Looking back -/

/-- The marker at `j` counts for a search that looks back from `p`: two slashes with no line break
behind them, or a slash and a star with no closer behind them. -/
def Reaches (t : List Char) (j p : Nat) : Prop :=
  j < p ∧ (j ∈ startsOf ['/', '/'] t ∧ (∀ i ∈ positionsOf isLineBreak t, j ≤ i → p < i) ∨
    j ∈ startsOf ['/', '*'] t ∧ ∀ i ∈ startsOf ['*', '/'] t, j ≤ i → p < i)

theorem pending_iff {p q : List Char → Bool} {t : List Char} {m n : Nat} :
    pending (lastBefore? m (marks p t)) (lastBefore? n (marks q t)) = true ↔
      ∃ j ∈ marks p t, j < m ∧ ∀ i ∈ marks q t, j ≤ i → n ≤ i := by
  constructor
  · intro h
    cases hj : lastBefore? m (marks p t) with
    | none => rw [hj] at h; cases h
    | some j =>
      refine ⟨j, mem_of_lastBefore? hj, lt_of_lastBefore? hj, fun i hi hle => ?_⟩
      by_contra hlt
      obtain ⟨l, hl, hil⟩ := le_lastBefore? hi (Nat.lt_of_not_le hlt)
      rw [hj, hl] at h
      simp only [pending, decide_eq_true_eq] at h
      omega
  · rintro ⟨j, hj, hlt, hlast⟩
    refine pending_of_mem hj hlt fun i hi hin => ?_
    by_contra hle
    have := hlast i hi (by omega)
    omega

section Blank

variable {t : List Char} {p : Nat} {c : Char} (hc : t[p]? = some c) (hblank : isBlank c = true)
include hc hblank

/-- No marker begins or ends at a blank. -/
theorem ne_of_marker {a b : Char} (ha : isBlank a = false) (hb : isBlank b = false) {i : Nat}
    (h : i ∈ startsOf [a, b] t) : i ≠ p ∧ i + 1 ≠ p := by
  obtain ⟨h1, h2⟩ := mem_startsOf_pair.1 h
  constructor
  · rintro rfl
    rw [hc, Option.some.injEq] at h1
    exact isBlank_ne hblank ha h1
  · rintro rfl
    rw [hc, Option.some.injEq] at h2
    exact isBlank_ne hblank hb h2

/-- The context rules take a blank for a comment exactly when a marker reaches it. -/
theorem inComment_iff_reaches : inComment t p = true ↔ ∃ j, Reaches t j p := by
  unfold inComment inBlockComment inLineComment
  rw [Bool.or_eq_true]
  unfold startsOf positionsOf
  rw [pending_iff, pending_iff]
  constructor
  · rintro (⟨j, hj, hlt, hlast⟩ | ⟨j, hj, hlt, hlast⟩)
    · have hne := (ne_of_marker hc hblank (by decide) (by decide) hj).1
      exact ⟨j, by omega, .inr ⟨hj, hlast⟩⟩
    · exact ⟨j, hlt, .inl ⟨hj, hlast⟩⟩
  · rintro ⟨j, hlt, ⟨hj, hlast⟩ | ⟨hj, hlast⟩⟩
    · exact .inr ⟨j, hj, hlt, hlast⟩
    · exact .inl ⟨j, hj, by omega, hlast⟩

omit hc hblank in
/-- A marker outside of comments that reaches a position has opened a comment there. -/
theorem Reaches.commented {j : Nat} (h : Reaches t j p) (hout : Outside t j) : Commented t p := by
  obtain ⟨hlt, ⟨hj, hlast⟩ | ⟨hj, hlast⟩⟩ := h
  · exact ⟨j, .inl ⟨hout, hj, hlt, hlast⟩⟩
  · refine ⟨j, .inr ⟨hout, hj, hlt, fun e he hle => ?_⟩⟩
    have := hlast e he (by omega)
    omega

/-- The opener of a block comment reaches the blanks of the comment, unless its star is taken for
the first character of a closer. -/
theorem BlockCommented.reaches {o : Nat} (h : BlockCommented t o p) (hslash : t[o + 2]? ≠ some '/') :
    Reaches t o p := by
  refine ⟨h.behind, .inr ⟨h.opener, fun e he hle => ?_⟩⟩
  have hne := ne_of_marker hc hblank (by decide) (by decide) he
  have h1 := (mem_startsOf_pair.1 h.opener).1
  obtain ⟨hstar, hclose⟩ := mem_startsOf_pair.1 he
  have hfirst : e ≠ o := by
    rintro rfl
    rw [h1] at hstar
    cases hstar
  have hsecond : e ≠ o + 1 := by
    rintro rfl
    exact hslash hclose
  have := h.lasting e he (by omega)
  omega

end Blank

/-- What the context rules make of a blank. Outside of comments they take it for a comment exactly
if a marker that is itself inside a comment reaches it. Inside a comment they agree with the
language, unless the comment begins with a slash, a star and a slash. -/
theorem inComment_agrees {t : List Char} {p : Nat} {c : Char} (hc : t[p]? = some c)
    (hblank : isBlank c = true) :
    (¬ Commented t p →
      (inComment t p = true ↔ ∃ j, Commented t j ∧ Reaches t j p)) ∧
    (Commented t p → (∀ o, BlockCommented t o p → t[o + 2]? ≠ some '/') →
      inComment t p = true) := by
  have hrules := inComment_iff_reaches hc hblank
  refine ⟨fun hout => ?_, fun hin hslash => ?_⟩
  · rw [hrules]
    constructor
    · rintro ⟨j, hj⟩
      exact ⟨j, (outside_or_commented t j).resolve_left fun h => hout (hj.commented h), hj⟩
    · rintro ⟨j, -, hj⟩
      exact ⟨j, hj⟩
  · obtain ⟨o, hl | hb⟩ := hin
    · exact hrules.2 ⟨o, hl.behind, .inl ⟨hl.opener, hl.lasting⟩⟩
    · exact hrules.2 ⟨o, hb.reaches hc hblank (hslash o hb)⟩

/-- Code behind a comment that holds two slashes. -/
def slashesInComment : List Char :=
  "/*  // */ a".toList

theorem inComment_agrees_slashesInComment :
    (inComment slashesInComment 2 = true ∧ Commented slashesInComment 2) ∧
      inComment slashesInComment 9 = true ∧ ¬ Commented slashesInComment 9 ∧
        ∃ j, Commented slashesInComment j ∧ Reaches slashesInComment j 9 := by
  have hq : '"' ∉ slashesInComment ∧ '\'' ∉ slashesInComment := by decide
  have hin : Commented slashesInComment 2 :=
    (isComment_zoneAt hq rfl (by decide) (by decide)).1 (by decide)
  have hout : ¬ Commented slashesInComment 9 := fun h =>
    absurd ((isComment_zoneAt hq rfl (by decide) (by decide)).2 h) (by decide)
  have taken : inComment slashesInComment 9 = true := by decide
  refine ⟨⟨(inComment_agrees rfl (by decide)).2 hin fun o ho => ?_, hin⟩, taken, hout,
    ((inComment_agrees rfl (by decide)).1 hout).1 taken⟩
  have hlt := ho.behind
  have hcases : o = 0 ∨ o = 1 := by omega
  rcases hcases with rfl | rfl <;> decide

/-- Slashes inside a block comment and an opener inside a line comment make comments of the code
behind them, and a comment that begins with a slash, a star and a slash is taken for code. -/
theorem comments_misread :
    (inComment "/* // */ a".toList 8 = true ∧ ¬ Commented "/* // */ a".toList 8) ∧
    (inComment "// /*\n a".toList 6 = true ∧ ¬ Commented "// /*\n a".toList 6) ∧
    inComment "/*/ a */".toList 3 = false ∧ Commented "/*/ a */".toList 3 := by
  refine ⟨⟨by decide, fun h => ?_⟩, ⟨by decide, fun h => ?_⟩,
    by decide, ?_⟩
  · exact absurd ((isComment_zoneAt (by decide) rfl (by decide) (by decide)).2 h)
      (by decide)
  · exact absurd ((isComment_zoneAt (by decide) rfl (by decide) (by decide)).2 h)
      (by decide)
  · exact (isComment_zoneAt (by decide) rfl (by decide) (by decide)).1 (by decide)

end LockMigration.Java
