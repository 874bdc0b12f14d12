/-
An edit of a smooth text moves roles and changes none. The method that gets the lock is gone; every
other token is carried along with the part of the text that it stands in, and keeps its kind,
since no part is read in another way than before. `roles_carried` says this about all roles at once.
-/
import LockMigration.Conversion.Draft
import LockMigration.Proofs.Conversion.Plain

namespace LockMigration

open Text Java Conversion

attribute [local irreducible] keyword

theorem Java.Reading.eq_fresh {r : Reading} (hl : r.last = none)
    (hc : r.slashes = false ∧ r.quote = false) (hr : r.run = none) : r = .fresh r.block := by
  cases r
  simp only at hl hc hr
  rw [hl, hc.1, hc.2, hr, Reading.fresh]

namespace Conversion

/-- Where position `i` of the text `t` is found after its occurrence `o` was given lock `index`:
the fields, the separator and the two parts of the guard push on what stands behind them. -/
def carried (style : Style) (index : Nat) (t : List Char) (o : Occurrence) (i : Nat) : Nat :=
  let fields := (style.locker.declarations index style.indent).length
  let sep := (separator (slice t o.start (o.keyword t))).length
  let guardOpen := (style.locker.openTry index style.indent).length
  let guardClose := (style.locker.closeTry index style.indent).length
  match openBrace t o, closeBrace t o with
  | .ok opening, .ok closing =>
    if i < memberStart t o then i
    else if i < o.start then i + fields
    else if i ≤ opening then i - o.stop + (o.start + fields + sep)
    else if i < closing then i - o.stop + (o.start + fields + sep + guardOpen)
    else i - o.stop + (o.start + fields + sep + guardOpen + guardClose)
  | _, _ => i

namespace Frame

variable {m : Frame} {o : Occurrence}

/-! ## Readings of a smooth text -/

/-- The member begins at the start of the text or after a delimiter, and outside of comments. -/
theorem before_eq (hf : m.Found o) (hs : Smooth m.text) :
    m.before = [] ∨ ∃ w c, m.before = w ++ [c] ∧ isDelimiter c = true ∧
      (Reading.start.read w).block = false := by
  rcases (memberStart_of_no_sign hs.not_mem_sign o).1 with h | ⟨d, h, ⟨c, hc, hdelim⟩, hcomment⟩
  · rw [hf.pos] at h
    exact .inl (List.length_eq_zero_iff.1 h)
  · rw [hf.pos] at h
    obtain ⟨w, e, hw⟩ := (List.eq_nil_or_concat m.before).resolve_left
      (by intro hnil; rw [hnil] at h; cases h)
    rw [List.concat_eq_append] at hw
    rw [hw, List.length_append, List.length_singleton] at h
    obtain rfl : d = w.length := by omega
    obtain ⟨y, hy⟩ : ∃ y, m.text = w ++ e :: y := ⟨_, by simp only [text, hw, List.append_assoc]; rfl⟩
    rw [hy] at hc hcomment
    rw [List.getElem?_append_right (Nat.le_refl _), Nat.sub_self, List.getElem?_cons_zero] at hc
    cases hc
    rw [inComment_eq (isDelimiter_ne hdelim (by decide)) (isDelimiter_ne hdelim (by decide)),
      Bool.or_eq_false_iff] at hcomment
    exact .inr ⟨w, c, hw, hdelim, hcomment.1⟩

/-- The text before the member leaves nothing behind. -/
theorem read_before (hm : m.Sound) (hf : m.Found o) (hs : Smooth m.text) :
    Reading.start.read m.before = .start := by
  have hcalm : (Reading.start.read m.before).slashes = false ∧
      (Reading.start.read m.before).quote = false := by
    unfold text at hs
    simp only [List.append_assoc] at hs
    exact hs.calm (cut_before hm _)
  rcases before_eq hf hs with h | ⟨w, c, h, hc, hblock⟩
  · rw [h]
    rfl
  · have hs : c ≠ '/' := isDelimiter_ne hc (by decide)
    have ht : c ≠ '*' := isDelimiter_ne hc (by decide)
    have hblank := isBlank_of_isDelimiter hc
    rw [h] at hcalm ⊢
    have hread := Reading.eq_fresh (by rw [last_snoc, if_neg (by simp [hs, ht])]) hcalm
      ((run_snoc _ _ _).2 hblank)
    have hnext : (Reading.start.read (w ++ [c])).block = false := by
      rw [Reading.read_append]
      simpa [Reading.next, hs, ht] using hblock
    rw [hread, hnext]
    rfl

theorem opened_eq (hm : m.Sound) (hs : Smooth m.text) : m.opened = .fresh m.opened.block := by
  have hbrace : '{' ∉ keyword := not_mem_keyword_of_isDelimiter (by decide)
  refine Reading.eq_fresh m.opened_last ?_ m.opened_run
  rw [text_eq, List.append_assoc _ (m.body ++ ['}'])] at hs
  have := hs.calm (by rw [← List.append_assoc]; exact .of_last hbrace)
  rwa [Reading.read_append, read_trail hm] at this

theorem closed_eq (hm : m.Sound) (hs : Smooth m.text) :
    m.opened.read (m.body ++ ['}']) = .fresh (m.opened.read (m.body ++ ['}'])).block := by
  have hbrace : '}' ∉ keyword := not_mem_keyword_of_isDelimiter (by decide)
  refine Reading.eq_fresh (by rw [last_snoc]; rfl) ?_ ((run_snoc _ _ _).2 (by decide))
  rw [text_eq] at hs
  have := hs.calm (by rw [← List.append_assoc]; exact .of_last hbrace)
  rwa [read_closing hm] at this

/-! ## Roles -/

/-- What follows the keyword makes it a method. -/
theorem entry_method (hm : m.Sound) (z : List Char) :
    Setting.code.entry (keyword ++ (m.trail ++ (m.head ++ '{' :: z))) = some (some .method) := by
  obtain ⟨b, l, hl⟩ := List.exists_cons_of_ne_nil hm.trail_ne
  have hb : isBlank b = true := hm.trail_blank b (by rw [hl]; simp)
  have htrail : m.trail.find? (fun c => !isBlank c) = none :=
    List.find?_eq_none.2 fun c hc => by simp [hm.trail_blank c hc]
  obtain ⟨c, w, hw⟩ := List.exists_cons_of_ne_nil (by simp : m.head ++ ['{'] ≠ [])
  obtain ⟨hc, hparen⟩ := hm.follow c (by rw [hw]; rfl)
  have hfind : (m.trail ++ (m.head ++ '{' :: z)).find? (fun c => !isBlank c) = some c := by
    rw [List.find?_append, htrail, Option.none_or, List.append_cons, hw, List.cons_append,
      List.find?_cons_of_pos (by simp [hc])]
  unfold Setting.entry
  rw [isSome_keywordLength?, if_pos (by rw [hl]; simp [hb]), List.drop_left, Setting.kind?, hfind,
    Option.map_some, if_neg hparen]

/-- The keyword and the blanks around it hold one role. -/
theorem rolesFrom_method (hm : m.Sound) (i : Nat) (z : List Char) :
    rolesFrom i (Reading.start.read (m.before ++ m.member))
        (m.lead ++ (keyword ++ (m.trail ++ (m.head ++ '{' :: z)))) [] =
      (i + m.lead.length, some .method) ::
        rolesFrom (i + m.lead.length + keyword.length + m.trail.length) .inCode
          (m.head ++ '{' :: z) [] := by
  have hlead := read_lead hm
  have htrail := read_trail hm
  rw [Reading.read_append, Reading.read_append, hlead] at htrail
  rw [Reading.read_append] at hlead
  rw [rolesFrom_append, rolesFrom_quiet (fun c hc => isQuiet_of_isBlank (hm.lead_blank c hc))
      (.of_blanks_left hm.lead_ne hm.lead_blank _), List.nil_append, hlead, rolesFrom_append,
    rolesFrom_append, rolesFrom_keyword _ rfl, List.append_nil, entry_method hm,
    rolesFrom_quiet (fun c hc => isQuiet_of_isBlank (hm.trail_blank c hc))
      (.of_blanks_left hm.trail_ne hm.trail_blank _), htrail]
  rfl

/-- The text behind the keyword, in three parts. -/
theorem rolesFrom_tail (m : Frame) (i : Nat) :
    rolesFrom i .inCode (m.head ++ '{' :: (m.body ++ '}' :: m.after)) [] =
      rolesFrom i .inCode (m.head ++ ['{']) [] ++
        (rolesFrom (i + m.head.length + 1) m.opened m.body ('}' :: m.after) ++
          rolesFrom (i + m.head.length + 1 + m.body.length + 1) (m.opened.read (m.body ++ ['}']))
            m.after []) := by
  have hopen : isBlank '{' = false ∧ '{' ∉ keyword :=
    ⟨by decide, not_mem_keyword_of_isDelimiter (by decide)⟩
  have hclose : '}' ∉ keyword := not_mem_keyword_of_isDelimiter (by decide)
  have hbrace (j : Nat) (r : Reading) : rolesFrom j r ['}'] m.after = [] :=
    rolesFrom_quiet (List.all_eq_true.1 (by decide)) (.of_last (x := []) hclose) j r
  have hbody (j : Nat) (r : Reading) : rolesFrom j r (m.body ++ '}' :: m.after) [] =
      rolesFrom j r m.body ('}' :: m.after) ++
        rolesFrom (j + m.body.length + 1) (r.read (m.body ++ ['}'])) m.after [] := by
    rw [List.append_cons, rolesFrom_append, List.append_nil, rolesFrom_append, hbrace,
      List.append_nil, List.length_append, List.length_singleton, ← Nat.add_assoc]
    rfl
  rw [List.append_cons, rolesFrom_append i .inCode (m.head ++ ['{']),
    rolesFrom_upTo hopen.1 hopen.2 m.head _ [], hbody, List.length_append, List.length_singleton,
    ← Nat.add_assoc, opened]

theorem not_keyword_body (hs : Smooth m.text) : ¬ keyword <:+ m.body := by
  intro hk
  have htext : m.text = m.before ++ m.member ++ m.lead ++ keyword ++ m.trail ++ m.head ++ '{' :: m.body ++
      '}' :: m.after := by
    simp [text]
  rw [htext] at hs
  refine hs.not_keyword_before (hk.trans ?_)
  rw [List.append_cons]
  exact List.suffix_append _ _

/-- The same text with a guard in its body. Where the body is read as before, so are the tokens in
it; the closing brace of the guard ends what they look at. -/
theorem rolesFrom_tail_guarded (hm : m.Sound) (hs : Smooth m.text) (l : Locker) (index indent : Nat)
    (i : Nat) :
    rolesFrom i .inCode (m.head ++ '{' :: (l.openTry index indent ++ (m.body ++
        (l.closeTry index indent ++ '}' :: m.after)))) [] =
      rolesFrom i .inCode (m.head ++ ['{']) [] ++
        (rolesFrom (i + m.head.length + 1 + (l.openTry index indent).length) m.opened m.body
            ('}' :: m.after) ++
          rolesFrom (i + m.head.length + 1 + (l.openTry index indent).length + m.body.length +
            (l.closeTry index indent).length + 1) (m.opened.read (m.body ++ ['}'])) m.after []) := by
  have hopen : isBlank '{' = false ∧ '{' ∉ keyword :=
    ⟨by decide, not_mem_keyword_of_isDelimiter (by decide)⟩
  have hclose : '}' ∉ keyword := not_mem_keyword_of_isDelimiter (by decide)
  have hfresh := opened_eq hm hs
  have hread : m.opened.read (l.openTry index indent) = m.opened := by
    rw [l.read_openTry, ← hfresh]
  have hclosed : (m.opened.read m.body).read (l.closeTry index indent ++ ['}']) =
      m.opened.read (m.body ++ ['}']) := by
    rw [l.read_closeTry, closed_eq hm hs]
    simp [Reading.next, Reading.fresh]
  have hguard (j : Nat) (y : List Char) : rolesFrom j m.opened (l.openTry index indent) y = [] := by
    obtain ⟨w, hw⟩ := l.openTry_ends index indent
    refine rolesFrom_quiet (l.quiet_openTry index indent) ?_ j _
    rw [hw, ← List.cons_append]
    exact .of_last hopen.2
  have hend (j : Nat) (r : Reading) :
      rolesFrom j r (l.closeTry index indent ++ ['}']) m.after = [] := by
    refine rolesFrom_quiet (fun c hc => ?_) (.of_last hclose) j r
    rcases List.mem_append.1 hc with hc | hc
    · exact l.quiet_closeTry index indent c hc
    · rw [List.mem_singleton.1 hc]
      decide
  have hbody (j : Nat) : rolesFrom j m.opened m.body (l.closeTry index indent ++ '}' :: m.after) =
      rolesFrom j m.opened m.body ('}' :: m.after) := by
    obtain ⟨w, hw, -⟩ := l.closeTry_ends index indent
    refine rolesFrom_congr (fun z hz hzb s => ?_) j _
    have hne : z ≠ keyword := fun hk => not_keyword_body hs (hk ▸ hzb)
    have hpad : ∀ c ∈ Locker.pad indent, isBlank c = true := fun c hc => by
      rw [List.eq_of_mem_replicate hc]
      decide
    rw [hw, List.append_assoc]
    exact (entry_before_brace hz hne hpad _ _ s).symm
  rw [List.append_cons, rolesFrom_append i .inCode (m.head ++ ['{']),
    rolesFrom_upTo hopen.1 hopen.2 m.head _ [], ← opened, rolesFrom_append _ _ (l.openTry index indent),
    hguard, List.nil_append, hread, rolesFrom_append _ _ m.body, List.append_nil, hbody,
    List.append_cons (l.closeTry index indent),
    rolesFrom_append _ _ (l.closeTry index indent ++ ['}']), List.append_nil, hend, hclosed,
    List.nil_append]
  simp only [List.length_append, List.length_singleton, Nat.add_assoc]

/-- Tokens before the member do not look into it. -/
theorem rolesFrom_before (hf : m.Found o) (hs : Smooth m.text) (i : Nat) (r : Reading)
    (y y' : List Char) : rolesFrom i r m.before y = rolesFrom i r m.before y' := by
  rcases before_eq hf hs with h | ⟨w, c, h, hc, -⟩
  · rw [h]
    rfl
  · rw [h]
    exact rolesFrom_upTo (isBlank_of_isDelimiter hc) (not_mem_keyword_of_isDelimiter hc) w y y' i r

theorem not_keyword_member (hf : m.Found o) (hs : Smooth m.text) : ¬ keyword <+: m.member := by
  intro hk
  have hbefore := before_eq hf hs
  unfold text at hs
  simp only [List.append_assoc] at hs
  rcases hbefore with h | ⟨w, c, h, hc, -⟩
  · rw [h, List.nil_append] at hs
    exact hs.not_keyword (hk.trans (List.prefix_append _ _))
  · rw [h] at hs
    exact hs.not_keyword_after hc (hk.trans (List.prefix_append _ _))

/-- Tokens in the member are read behind the fields as before, and look at the separator as at the
blanks before the keyword, unless the keyword makes them methods. -/
theorem rolesFrom_member (hm : m.Sound) (hf : m.Found o) (hs : Smooth m.text) (i : Nat)
    (y y' : List Char)
    (hmethod : ∀ e ∈ rolesFrom i .start m.member (m.lead ++ (keyword ++ y)), e.2 ≠ some .method) :
    rolesFrom i .inCode m.member (separator m.lead ++ y') =
      rolesFrom i .start m.member (m.lead ++ (keyword ++ y)) := by
  have hne := separator_ne_nil hm.lead_ne hm.lead_blank
  have hblank := isBlank_of_mem_separator hm.lead_ne hm.lead_blank
  rw [rolesFrom_congr_of_no_method (fun z hz _ s => entry_before_keyword hz hm.lead_ne hm.lead_blank
    hne hblank y y' s) i .start hmethod]
  cases hc : m.member with
  | nil => rfl
  | cons c z =>
    have hnext : Reading.inCode.next c = Reading.start.next c := Reading.next_fresh_line false c
    refine rolesFrom_next hnext (fun hk => not_keyword_member hf hs ?_) i
    rw [hc]
    exact ((Cut.of_blanks_right hne hblank _ _).keyword_iff (List.cons_ne_nil c z)).1 hk

theorem carried_eq (hf : m.Found o) (style : Style) (index i : Nat) :
    carried style index m.text o i =
      if i < m.before.length then i
      else if i < o.start then i + (style.locker.declarations index style.indent).length
      else if i ≤ o.stop + m.head.length then
        i - o.stop + (o.start + (style.locker.declarations index style.indent).length +
          (separator m.lead).length)
      else if i < o.stop + m.head.length + 1 + m.body.length then
        i - o.stop + (o.start + (style.locker.declarations index style.indent).length +
          (separator m.lead).length + (style.locker.openTry index style.indent).length)
      else
        i - o.stop + (o.start + (style.locker.declarations index style.indent).length +
          (separator m.lead).length + (style.locker.openTry index style.indent).length +
          (style.locker.closeTry index style.indent).length) := by
  have hlead : slice m.text o.start (o.keyword m.text) = m.lead := by
    have := slice_middle (m.before ++ m.member) m.lead (keyword ++ (m.trail ++ (m.head ++
      '{' :: (m.body ++ '}' :: m.after))))
    have hlen : (m.before ++ m.member ++ m.lead).length =
      (m.before ++ m.member).length + m.lead.length := List.length_append
    rw [hf.start, hf.word, hlen]
    simpa only [text, List.append_assoc] using this
  simp only [carried, hf.opening, hf.closing, hf.pos, hlead]

section Parts

variable (hf : m.Found o) (style : Style) (index : Nat)
include hf

theorem carried_before {k : Nat} (hk : k < m.before.length) :
    carried style index m.text o k = k := by
  rw [carried_eq hf, if_pos hk]

theorem carried_member {k : Nat} (hk : k < m.member.length) :
    carried style index m.text o (m.before.length + k) =
      m.before.length + (style.locker.declarations index style.indent).length + k := by
  have hstart := hf.start
  rw [List.length_append] at hstart
  rw [carried_eq hf, if_neg (by omega), if_pos (by omega)]
  omega

theorem carried_head {k : Nat} (hk : k < (m.head ++ ['{']).length) :
    carried style index m.text o (o.stop + k) =
      m.before.length + (style.locker.declarations index style.indent).length + m.member.length +
        (separator m.lead).length + k := by
  have hstart := hf.start
  have hstop := hf.stop
  simp only [List.length_append, List.length_singleton] at hstart hstop hk
  rw [carried_eq hf, if_neg (by omega), if_neg (by omega), if_pos (by omega)]
  omega

theorem carried_body {k : Nat} (hk : k < m.body.length) :
    carried style index m.text o (o.stop + m.head.length + 1 + k) =
      m.before.length + (style.locker.declarations index style.indent).length + m.member.length +
        (separator m.lead).length + m.head.length + 1 +
        (style.locker.openTry index style.indent).length + k := by
  have hstart := hf.start
  have hstop := hf.stop
  simp only [List.length_append] at hstart hstop
  rw [carried_eq hf, if_neg (by omega), if_neg (by omega), if_neg (by omega), if_pos (by omega)]
  omega

theorem carried_after (k : Nat) :
    carried style index m.text o (o.stop + m.head.length + 1 + m.body.length + k) =
      m.before.length + (style.locker.declarations index style.indent).length + m.member.length +
        (separator m.lead).length + m.head.length + 1 +
        (style.locker.openTry index style.indent).length + m.body.length +
        (style.locker.closeTry index style.indent).length + k := by
  have hstart := hf.start
  have hstop := hf.stop
  simp only [List.length_append] at hstart hstop
  rw [carried_eq hf, if_neg (by omega), if_neg (by omega), if_neg (by omega), if_neg (by omega)]
  omega

/-- Positions outside of the occurrence are carried in their order. -/
theorem carried_lt_carried {i j : Nat} (hi : i < o.start ∨ o.stop ≤ i)
    (hj : j < o.start ∨ o.stop ≤ j) (h : i < j) :
    carried style index m.text o i < carried style index m.text o j := by
  have hstart := hf.start
  have hstop := hf.stop
  simp only [List.length_append] at hstart hstop
  rw [carried_eq hf, carried_eq hf]
  split_ifs <;> omega

omit hf in
theorem getElem?_middle (u x v : List Char) {k : Nat} (h : k < x.length) :
    (u ++ (x ++ v))[u.length + k]? = x[k]? := by
  rw [List.getElem?_append_right (by omega), Nat.add_sub_cancel_left, List.getElem?_append_left h]

/-- Outside of the occurrence, the character at a position is the one at the position it is
carried to. -/
theorem getElem?_carried {i : Nat} (hi : i < o.start ∨ o.stop ≤ i) :
    (m.locked style.locker index style.indent)[carried style index m.text o i]? = m.text[i]? := by
  have hstart := hf.start
  have hstop := hf.stop
  simp only [List.length_append] at hstart hstop
  -- a part `x` of the text, which began behind `u`, is found as a whole behind `w`
  have part {u v w z x : List Char} {k : Nat} (hk : k < x.length) (ht : m.text = u ++ (x ++ v))
      (hl : m.locked style.locker index style.indent = w ++ (x ++ z)) :
      (m.locked style.locker index style.indent)[w.length + k]? = m.text[u.length + k]? := by
    rw [ht, hl, getElem?_middle _ _ _ hk, getElem?_middle _ _ _ hk]
  by_cases hbefore : i < m.before.length
  · rw [carried_before hf style index hbefore]
    have := part (u := []) (w := []) hbefore (by simp only [text, List.append_assoc]; rfl)
      (by simp only [locked, List.append_assoc]; rfl)
    simpa only [List.length_nil, Nat.zero_add] using this
  by_cases hmember : i < o.start
  · obtain ⟨k, rfl⟩ := Nat.exists_eq_add_of_le (Nat.le_of_not_lt hbefore)
    have hk : k < m.member.length := by omega
    rw [carried_member hf style index hk, ← List.length_append]
    exact part hk (by simp only [text, List.append_assoc]; rfl)
      (by simp only [locked, List.append_assoc]; rfl)
  obtain ⟨k, rfl⟩ := Nat.exists_eq_add_of_le (hi.resolve_left hmember)
  by_cases hhead : k < (m.head ++ ['{']).length
  · rw [carried_head hf style index hhead, hf.stop]
    simp only [← List.length_append]
    exact part hhead (by simp only [text, List.append_assoc]; rfl)
      (by simp only [locked, List.append_assoc]; rfl)
  rw [List.length_append, List.length_singleton] at hhead
  obtain ⟨k, rfl⟩ := Nat.exists_eq_add_of_le (Nat.le_of_not_lt hhead)
  rw [← Nat.add_assoc, ← Nat.add_assoc]
  by_cases hbody : k < m.body.length
  · have := part (u := m.before ++ m.member ++ m.lead ++ keyword ++ m.trail ++ m.head ++ ['{'])
      (w := m.before ++ style.locker.declarations index style.indent ++ m.member ++
        separator m.lead ++ m.head ++ ['{'] ++ style.locker.openTry index style.indent) hbody
      (by simp only [text, List.append_assoc]; rfl) (by simp only [locked, List.append_assoc]; rfl)
    simp only [List.length_append, List.length_singleton] at this
    rwa [carried_body hf style index hbody, hstop]
  · obtain ⟨k, rfl⟩ := Nat.exists_eq_add_of_le (Nat.le_of_not_lt hbody)
    rw [← Nat.add_assoc, carried_after hf style index, hstop]
    have htext : m.text = (m.before ++ m.member ++ m.lead ++ keyword ++ m.trail ++ m.head ++ ['{'] ++
        m.body) ++ '}' :: m.after := by simp only [text, List.append_assoc]; rfl
    have hlocked : m.locked style.locker index style.indent = (m.before ++
        style.locker.declarations index style.indent ++ m.member ++ separator m.lead ++ m.head ++
          ['{'] ++ style.locker.openTry index style.indent ++ m.body ++
            style.locker.closeTry index style.indent) ++ '}' :: m.after := by
      simp only [locked, List.append_assoc]; rfl
    rw [hlocked, htext, List.getElem?_append_right, List.getElem?_append_right]
    all_goals simp only [List.length_append, List.length_singleton, Nat.add_sub_cancel_left,
      Nat.le_add_right]

end Parts

/-- The roles of the text, part by part. -/
theorem roles_text (hm : m.Sound) (hf : m.Found o) (hs : Smooth m.text) :
    roles m.text = rolesFrom 0 .start m.before [] ++
      (rolesFrom m.before.length .start m.member (m.lead ++ (keyword ++ (m.trail ++ (m.head ++
        '{' :: (m.body ++ '}' :: m.after))))) ++
      (o.keyword m.text, some .method) :: (rolesFrom o.stop .inCode (m.head ++ ['{']) [] ++
        (rolesFrom (o.stop + m.head.length + 1) m.opened m.body ('}' :: m.after) ++
          rolesFrom (o.stop + m.head.length + 1 + m.body.length + 1)
            (m.opened.read (m.body ++ ['}'])) m.after []))) := by
  have hread : Reading.start.read m.member = Reading.start.read (m.before ++ m.member) := by
    rw [Reading.read_append, read_before hm hf hs]
  have htext : m.text = m.before ++ (m.member ++ (m.lead ++ (keyword ++ (m.trail ++ (m.head ++
      '{' :: (m.body ++ '}' :: m.after)))))) := by
    simp only [text, List.append_assoc]
  rw [roles, hf.word, hf.stop, htext, rolesFrom_append, rolesFrom_before hf hs _ _ _ [],
    read_before hm hf hs, rolesFrom_append, List.append_nil, hread, rolesFrom_method hm,
    rolesFrom_tail]
  simp only [Nat.zero_add, List.length_append]

/-- The roles of the text with the lock, part by part, where no role before the method is one. -/
theorem roles_locked (hm : m.Sound) (hf : m.Found o) (hs : Smooth m.text) (l : Locker)
    (index indent : Nat)
    (hmember : ∀ e ∈ rolesFrom m.before.length .start m.member (m.lead ++ (keyword ++ (m.trail ++
      (m.head ++ '{' :: (m.body ++ '}' :: m.after))))), e.2 ≠ some .method) :
    roles (m.locked l index indent) = rolesFrom 0 .start m.before [] ++
      (rolesFrom (m.before.length + (l.declarations index indent).length) .start m.member
        (m.lead ++ (keyword ++ (m.trail ++ (m.head ++ '{' :: (m.body ++ '}' :: m.after))))) ++
      (rolesFrom (m.before.length + (l.declarations index indent).length + m.member.length +
          (separator m.lead).length) .inCode (m.head ++ ['{']) [] ++
        (rolesFrom (m.before.length + (l.declarations index indent).length + m.member.length +
            (separator m.lead).length + m.head.length + 1 + (l.openTry index indent).length)
            m.opened m.body ('}' :: m.after) ++
          rolesFrom (m.before.length + (l.declarations index indent).length + m.member.length +
            (separator m.lead).length + m.head.length + 1 + (l.openTry index indent).length +
            m.body.length + (l.closeTry index indent).length + 1)
            (m.opened.read (m.body ++ ['}'])) m.after []))) := by
  have hread : (Reading.inCode.read m.member).read (separator m.lead) = .inCode := by
    have := read_separator hm l index indent
    rwa [Reading.read_append, Reading.read_append, Reading.read_append, read_before hm hf hs,
      l.read_declarations] at this
  have hfields : Reading.start.read (l.declarations index indent) = .inCode :=
    l.read_declarations index indent .start
  have hquiet (i : Nat) (r : Reading) (y : List Char) :
      rolesFrom i r (l.declarations index indent) y = [] := by
    obtain ⟨w, hw⟩ := l.declarations_ends index indent
    refine rolesFrom_quiet (l.quiet_declarations index indent) ?_ i r
    rw [hw, List.append_cons, ← List.cons_append]
    exact .of_last (not_mem_keyword_of_isBlank (by decide))
  have hblank := isBlank_of_mem_separator hm.lead_ne hm.lead_blank
  have hsep (i : Nat) (r : Reading) (y : List Char) : rolesFrom i r (separator m.lead) y = [] :=
    rolesFrom_quiet (fun c hc => isQuiet_of_isBlank (hblank c hc))
      (.of_blanks_left (separator_ne_nil hm.lead_ne hm.lead_blank) hblank _) i r
  have htext : m.locked l index indent = m.before ++ (l.declarations index indent ++ (m.member ++
      (separator m.lead ++ (m.head ++ '{' :: (l.openTry index indent ++ (m.body ++
        (l.closeTry index indent ++ '}' :: m.after))))))) := by
    simp only [locked, List.append_assoc]
  rw [roles, htext, rolesFrom_append, rolesFrom_before hf hs _ _ _ [], read_before hm hf hs,
    rolesFrom_append _ _ (l.declarations index indent), hquiet, List.nil_append, hfields,
    rolesFrom_append _ _ m.member, List.append_nil, rolesFrom_append _ _ (separator m.lead), hsep,
    List.nil_append, hread, rolesFrom_tail_guarded hm hs, Nat.zero_add,
    rolesFrom_member hm hf hs _ (m.trail ++ (m.head ++ '{' :: (m.body ++ '}' :: m.after))) _
      fun e he => ?_]
  have hkind : e.2 ∈ (rolesFrom m.before.length .start m.member (m.lead ++ (keyword ++ (m.trail ++
      (m.head ++ '{' :: (m.body ++ '}' :: m.after)))))).map Prod.snd := by
    rw [map_snd_rolesFrom _ (m.before.length + (l.declarations index indent).length)]
    exact List.mem_map_of_mem he
  obtain ⟨e', he', hkind⟩ := List.mem_map.1 hkind
  rw [← hkind]
  exact hmember e' he'

/-- An edit of a smooth text takes its method out of the roles and carries the others along. -/
theorem roles_carried (hm : m.Sound) (hf : m.Found o) (hs : Smooth m.text) (style : Style)
    (index : Nat) :
    ∃ A B, roles m.text = A ++ (o.keyword m.text, some .method) :: B ∧
      ((∀ e ∈ A, e.2 ≠ some .method) →
        roles (m.locked style.locker index style.indent) =
          (A ++ B).map fun e => (carried style index m.text o e.1, e.2)) := by
  refine ⟨_, _, (roles_text hm hf hs).trans (List.append_assoc _ _ _).symm, fun hA => ?_⟩
  rw [roles_locked hm hf hs _ _ _ fun e he => hA e (List.mem_append_right _ he)]
  have hbefore : ∀ k < m.before.length, carried style index m.text o (0 + k) = 0 + k :=
    fun k hk => by rw [Nat.zero_add, carried_before hf style index hk]
  have hafter : ∀ k < m.after.length,
      carried style index m.text o (o.stop + m.head.length + 1 + m.body.length + 1 + k) =
        m.before.length + (style.locker.declarations index style.indent).length +
          m.member.length + (separator m.lead).length + m.head.length + 1 +
          (style.locker.openTry index style.indent).length + m.body.length +
          (style.locker.closeTry index style.indent).length + 1 + k := fun k _ => by
    rw [Nat.add_assoc _ 1, carried_after hf style index, ← Nat.add_assoc]
  simp only [List.map_append, map_rolesFrom hbefore, map_rolesFrom hafter, List.append_assoc,
    map_rolesFrom fun k => carried_member hf style index,
    map_rolesFrom fun k => carried_head hf style index,
    map_rolesFrom fun k => carried_body hf style index]

end Frame

end Conversion

end LockMigration
