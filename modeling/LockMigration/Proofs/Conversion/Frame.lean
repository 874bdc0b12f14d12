/-
A synchronized method in its text, and the same text with a lock in place of the keyword. The body
is given its guard first and the place of the fields is looked up in the text that results; as the
look-up reads nothing behind the occurrence, the two splices are one edit of the text as it was.

`frame_of_lockMethod` says so: the text falls into the parts of a frame, and the conversion puts
the same parts together again, with the generated texts between them.
-/
import LockMigration.Conversion.Splice
import LockMigration.Proofs.Java.Member
import LockMigration.Proofs.Java.Occurrences
import LockMigration.Proofs.Locker

namespace LockMigration.Conversion

open Text Java

attribute [local irreducible] keyword

/-- The parts of a text around the keyword of a synchronized method. -/
structure Frame where
  /-- What stands before the member. -/
  before : List Char
  /-- The member up to the blanks before the keyword. -/
  member : List Char
  lead : List Char
  trail : List Char
  /-- From the blanks after the keyword to the opening brace. -/
  head : List Char
  body : List Char
  after : List Char

namespace Frame

/-- The text with its keyword. -/
def text (m : Frame) : List Char :=
  m.before ++ m.member ++ m.lead ++ keyword ++ m.trail ++ m.head ++ '{' :: (m.body ++ '}' :: m.after)

/-- The text with a lock in place of the keyword. -/
def locked (m : Frame) (l : Locker) (index indent : Nat) : List Char :=
  m.before ++ l.declarations index indent ++ m.member ++ separator m.lead ++ m.head ++
    '{' :: (l.openTry index indent ++ m.body ++ l.closeTry index indent ++ '}' :: m.after)

/-- The keyword is a method modifier that stands in code, and the member begins at the start of
the text, after a delimiter or with a line break. -/
structure Sound (m : Frame) : Prop where
  lead_ne : m.lead ≠ []
  lead_blank : ∀ c ∈ m.lead, isBlank c = true
  trail_ne : m.trail ≠ []
  trail_blank : ∀ c ∈ m.trail, isBlank c = true
  firm : (Reading.start.read (m.before ++ m.member)).run = none
  code : ∀ c ∈ m.lead.head?, (Reading.start.read (m.before ++ m.member)).setting c = .code
  follow : ∀ c ∈ (m.head ++ ['{']).head?, isBlank c = false ∧ c ≠ '('
  edge : m.before = [] ∨ (∃ w c, m.before = w ++ [c] ∧ isDelimiter c = true) ∨
    ∃ c z, m.member ++ m.lead = c :: z ∧ isLineBreak c = true

/-- Where the searches of the conversion find the parts. -/
structure Found (m : Frame) (o : Occurrence) : Prop where
  pos : memberStart m.text o = m.before.length
  start : o.start = (m.before ++ m.member).length
  word : o.keyword m.text = (m.before ++ m.member ++ m.lead).length
  stop : o.stop = (m.before ++ m.member ++ m.lead ++ keyword ++ m.trail).length
  opening : openBrace m.text o = .ok (o.stop + m.head.length)
  closing : closeBrace m.text o = .ok (o.stop + m.head.length + 1 + m.body.length)

end Frame

/-! ## The separator -/

theorem separator_eq {lead : List Char} (hne : lead ≠ []) (h : ∀ c ∈ lead, isBlank c = true) :
    separator lead = lead ∨ (∀ c ∈ lead, isLineBreak c = false) ∧ separator lead = [' '] := by
  unfold separator
  by_cases hb : lead.any isLineBreak = true
  · rw [if_pos hb]
    exact .inl rfl
  · refine .inr ⟨fun c hc => ?_, ?_⟩
    · rw [Bool.eq_false_iff]
      exact fun hl => hb (List.any_eq_true.2 ⟨c, hc, hl⟩)
    · obtain ⟨c, z, rfl⟩ := List.exists_cons_of_ne_nil hne
      rw [if_neg hb, if_pos (by simpa using h c (by simp))]

theorem separator_ne_nil {lead : List Char} (hne : lead ≠ []) (h : ∀ c ∈ lead, isBlank c = true) :
    separator lead ≠ [] := by
  rcases separator_eq hne h with hs | ⟨-, hs⟩
  · rw [hs]; exact hne
  · rw [hs]; simp

theorem isBlank_of_mem_separator {lead : List Char} (hne : lead ≠ [])
    (h : ∀ c ∈ lead, isBlank c = true) : ∀ c ∈ separator lead, isBlank c = true := by
  rcases separator_eq hne h with hs | ⟨-, hs⟩
  · rwa [hs]
  · rw [hs]
    intro c hc
    rw [List.mem_singleton.1 hc]
    decide

/-! ## The splices as one edit -/

theorem slice_middle (a b c : List Char) : slice (a ++ b ++ c) a.length (a.length + b.length) = b := by
  unfold slice
  rw [List.take_left' (by simp), List.drop_left]

/-- The parts of the token of a frame. -/
theorem Frame.parts {m : Frame} (hm : m.Sound) {k : Token} {rest : List Char}
    (hstart : k.start = (m.before ++ m.member).length)
    (hword : k.keyword = (m.before ++ m.member ++ m.lead).length)
    (hstop : k.stop = (m.before ++ m.member ++ m.lead ++ keyword ++ m.trail).length)
    (hrest : ∀ c ∈ rest.head?, isBlank c = false) :
    Parts (m.before ++ m.member ++ m.lead ++ keyword ++ (m.trail ++ rest)) k (m.before ++ m.member)
      m.lead (m.trail ++ rest) := by
  refine ⟨rfl, hm.lead_ne, hm.lead_blank, hm.firm, hstart, by rw [hword, List.length_append],
    m.trail.length, ?_, ?_⟩
  · obtain ⟨c, z, hz⟩ := List.exists_cons_of_ne_nil hm.trail_ne
    have hc : isBlank c = true := hm.trail_blank c (by rw [hz]; simp)
    have hw : (m.trail ++ rest).takeWhile isBlank = m.trail := by
      rw [List.takeWhile_append_of_pos hm.trail_blank]
      cases rest with
      | nil => simp
      | cons d rest => simp [hrest d (by simp)]
    rw [hz, List.cons_append] at hw ⊢
    rw [closingLength?, hw, if_pos hc, if_neg (by simpa using isBlank_ne hc (by decide))]
  · rw [hstop, hword]
    simp only [List.length_append]

theorem insertTry_append (l : Locker) (x body z : List Char) {opening : Nat}
    (h : x.length = opening + 1) (index indent : Nat) :
    insertTry l (x ++ body ++ z) opening (opening + 1 + body.length) index indent =
      x ++ l.openTry index indent ++ body ++ l.closeTry index indent ++ z := by
  have htake : (x ++ body ++ z).take x.length = x := by
    rw [List.append_assoc, List.take_left]
  rw [insertTry, ← h, slice_middle, htake, List.drop_left' (by simp)]

theorem insertDeclarations_append (l : Locker) {o : Occurrence} {t x y lead z r : List Char}
    (ht : t = x ++ y ++ lead ++ z ++ r) (hpos : memberStart t o = x.length)
    (hstart : o.start = (x ++ y).length) (hword : o.keyword t = (x ++ y ++ lead).length)
    (hstop : o.stop = (x ++ y ++ lead ++ z).length) (index indent : Nat) :
    insertDeclarations l t o index indent =
      x ++ l.declarations index indent ++ y ++ separator lead ++ r := by
  have hx : t.take x.length = x := by
    rw [ht]; simp only [List.append_assoc, List.take_left]
  have hy : slice t x.length (x ++ y).length = y := by
    rw [ht, List.length_append, List.append_assoc _ lead, List.append_assoc _ (lead ++ z)]
    exact slice_middle x y _
  have hlead : slice t (x ++ y).length (x ++ y ++ lead).length = lead := by
    have hlen : (x ++ y ++ lead).length = (x ++ y).length + lead.length := List.length_append
    rw [ht, hlen, List.append_assoc _ z]
    exact slice_middle (x ++ y) lead _
  have hrest : t.drop (x ++ y ++ lead ++ z).length = r := by
    rw [ht, List.drop_left]
  rw [insertDeclarations, hpos, hword, hstart, hstop, hx, hy, hlead, hrest]

/-- The two splices are one edit. -/
theorem Frame.lockMethod_eq {m : Frame} {o : Occurrence} (hm : m.Sound) (h : m.Found o)
    (l : Locker) (index indent : Nat) :
    lockMethod l m.text o index indent = .ok (m.locked l index indent) := by
  -- the text after the first splice, up to the brace and from there on
  obtain ⟨x, hx⟩ : ∃ x, m.before ++ m.member ++ m.lead ++ keyword ++ m.trail ++ m.head ++ ['{'] = x :=
    ⟨_, rfl⟩
  obtain ⟨z, hz⟩ : ∃ z, l.openTry index indent ++ m.body ++ l.closeTry index indent ++
    '}' :: m.after = z := ⟨_, rfl⟩
  have htext (y : List Char) : m.before ++ m.member ++ m.lead ++ keyword ++ m.trail ++ m.head ++
      '{' :: y = x ++ y := by rw [← hx]; simp
  have hlen : x.length = o.stop + m.head.length + 1 := by
    rw [← hx, h.stop]
    simp only [List.length_append, List.length_singleton]
  have hguard : insertTry l m.text (o.stop + m.head.length)
      (o.stop + m.head.length + 1 + m.body.length) index indent = x ++ z := by
    rw [text, htext, ← List.append_assoc, insertTry_append l x m.body _ hlen, ← hz]
    simp only [List.append_assoc]
  have hpos : memberStart (x ++ z) o = m.before.length := by
    rw [← h.pos, text, htext]
    refine memberStart_append ?_
    have := length_keyword
    rw [hlen, h.stop, h.start]
    simp only [List.length_append]
    omega
  have hword : o.keyword (x ++ z) = (m.before ++ m.member ++ m.lead).length := by
    have hfollow : ∀ c ∈ (m.head ++ ['{'] ++ z).head?, isBlank c = false := fun c hc =>
      (hm.follow c (by rwa [List.head?_append_of_ne_nil _ (by simp)] at hc)).1
    have hp := (@Frame.parts m hm ⟨o.start, (m.before ++ m.member ++ m.lead).length, o.stop⟩
      (m.head ++ ['{'] ++ z) h.start rfl h.stop hfollow).keyword_eq o.kind
    rw [← hx]
    simpa only [List.append_assoc] using hp
  unfold lockMethod
  rw [h.opening, h.closing]
  simp only [bind, Except.bind, pure, Except.pure]
  rw [hguard, insertDeclarations_append l (z := keyword ++ m.trail) (r := m.head ++ '{' :: z)
    (by rw [← htext]; simp only [List.append_assoc]) hpos h.start hword
    (by rw [h.stop]; simp only [List.append_assoc]), locked, hz]
  simp only [List.append_assoc]

/-! ## The frame of a method -/

/-- What follows the blanks after the keyword of a method. -/
theorem closing_of_method {s : Setting} {rest : List Char} {n : Nat}
    (hn : closingLength? rest = some n) (h : s.kind? rest = some .method) :
    s = .code ∧ ∃ trail r, rest = trail ++ r ∧ trail.length = n ∧ trail ≠ [] ∧
      (∀ c ∈ trail, isBlank c = true) ∧ ∀ c ∈ r.head?, isBlank c = false ∧ c ≠ '(' := by
  cases s with
  | comment => cases h
  | quoted => cases h
  | code =>
    refine ⟨rfl, ?_⟩
    rcases closingLength?_eq_some hn with ⟨r, rfl, rfl⟩ | ⟨b, l, r, rfl, rfl, hb, hr⟩
    · have hp : isBlank '(' = false := by decide
      simp [Setting.kind?, hp] at h
    · refine ⟨b :: l, r, rfl, rfl, by simp, hb, fun c hc => ⟨hr c hc, ?_⟩⟩
      rintro rfl
      have hfind : (b :: l ++ r).find? (fun c => !isBlank c) = some '(' := by
        obtain ⟨z, rfl⟩ := List.head?_eq_some_iff.1 hc
        rw [List.find?_append, List.find?_eq_none.2 fun c hc => by simp [hb c hc]]
        simp [hr '(' rfl]
      rw [Setting.kind?, hfind] at h
      cases h

theorem edge_of_memberStart {t x y : List Char} {o : Occurrence} (ht : t = x ++ y)
    (hx : memberStart t o = x.length) :
    x = [] ∨ (∃ w c, x = w ++ [c] ∧ isDelimiter c = true) ∨ ∃ c z, y = c :: z ∧ isLineBreak c = true := by
  rcases (memberStart_spec t o).2 with h | ⟨d, h, ⟨c, hc, hdelim⟩, -⟩ | ⟨c, hc, hbreak⟩
  · exact .inl (List.length_eq_zero_iff.1 (by omega))
  · rcases List.eq_nil_or_concat x with rfl | ⟨w, e, rfl⟩
    · exact .inl rfl
    · refine .inr (.inl ⟨w, e, List.concat_eq_append, ?_⟩)
      rw [List.concat_eq_append, List.length_append, List.length_singleton] at hx
      obtain rfl : d = w.length := by omega
      rw [ht] at hc
      simp only [List.concat_eq_append, List.append_assoc, List.getElem?_append_right (Nat.le_refl _),
        Nat.sub_self, List.singleton_append, List.getElem?_cons_zero, Option.some.injEq] at hc
      exact hc ▸ hdelim
  · rw [hx, ht, List.getElem?_append_right (Nat.le_refl _), Nat.sub_self] at hc
    cases y with
    | nil => cases hc
    | cons e z =>
      cases hc
      exact .inr (.inr ⟨c, z, rfl, hbreak⟩)

theorem braces_of_lockMethod {t t' : List Char} {o : Occurrence} {l : Locker} {index indent : Nat}
    (h : lockMethod l t o index indent = .ok t') :
    ∃ opening closing, openBrace t o = .ok opening ∧ closeBrace t o = .ok closing := by
  unfold lockMethod at h
  cases ho : openBrace t o with
  | error e => rw [ho] at h; cases h
  | ok opening =>
    cases hc : closeBrace t o with
    | error e => rw [ho, hc] at h; cases h
    | ok closing => exact ⟨opening, closing, rfl, rfl⟩

/-- A method that can be given a lock is the method of a frame. -/
theorem frame_of_lockMethod {t t' : List Char} {k : Token} {l : Locker} {index indent : Nat}
    (hk : k ∈ tokens t) (hkind : classify t k.start k.stop = .ok .method)
    (h : lockMethod l t k.method index indent = .ok t') :
    ∃ m : Frame, m.Sound ∧ m.Found k.method ∧ m.text = t ∧
      m.locked l index indent = t' := by
  obtain ⟨x, b, lead, rest, hp⟩ := parts_of_mem_tokens hk
  obtain ⟨n, hn, -⟩ := hp.stop
  rw [classify_eq hp] at hkind
  have hmethod : ((Reading.start.read x).setting b).kind? rest = some .method := by
    cases hs : ((Reading.start.read x).setting b).kind? rest with
    | none => rw [hs] at hkind; cases hkind
    | some kind => rw [hs] at hkind; cases hkind; rfl
  obtain ⟨hcode, trail, r, rfl, rfl, htrail, hblank, hfollow⟩ := closing_of_method hn hmethod
  -- the text after the occurrence, cut at its braces
  obtain ⟨opening, closing, hopen, hclose⟩ := braces_of_lockMethod h
  obtain ⟨head, body, after, hdrop, -, rfl, rfl⟩ := braces_parts hopen hclose
  replace hdrop := (hp.drop_stop hn).symm.trans hdrop
  rw [List.drop_left] at hdrop
  subst hdrop
  -- the text before the occurrence, cut where the member begins
  have hle : memberStart t k.method ≤ x.length :=
    Nat.le_trans (memberStart_spec t _).1 (Nat.le_of_eq hp.start)
  obtain ⟨before, member, rfl, hpos⟩ : ∃ before member, x = before ++ member ∧
      memberStart t k.method = before.length :=
    ⟨x.take _, x.drop _, (List.take_append_drop _ x).symm, by
      rw [List.length_take, Nat.min_eq_left hle]⟩
  let m : Frame := ⟨before, member, b :: lead, trail, head, body, after⟩
  have htext : m.text = t := by
    rw [hp.text]
    simp [m, Frame.text]
  have hsound : m.Sound := by
    refine ⟨hp.lead_ne, hp.blank, htrail, hblank, hp.firm, ?_, ?_, ?_⟩
    · rintro c ⟨⟩
      exact hcode
    · intro c hc
      refine hfollow c ?_
      rw [List.append_cons, List.head?_append_of_ne_nil _ (by simp)]
      exact hc
    · rcases @edge_of_memberStart t before (member ++ b :: lead ++ keyword ++ (trail ++ (head ++ '{' ::
        (body ++ '}' :: after)))) _ (by rw [hp.text]; simp) hpos with h | h | ⟨c, z, hz, hc⟩
      · exact .inl h
      · exact .inr (.inl h)
      · have hne : member ++ b :: lead ≠ [] := by simp
        obtain ⟨d, v, hv⟩ := List.exists_cons_of_ne_nil hne
        rw [List.append_assoc, hv] at hz
        cases hz
        exact .inr (.inr ⟨c, v, hv, hc⟩)
  have hfound : m.Found k.method := by
    refine ⟨by rw [htext]; exact hpos, hp.start, ?_, ?_, by rw [htext]; exact hopen,
      by rw [htext]; exact hclose⟩
    · rw [htext, hp.method_keyword, hp.word]
      exact List.length_append.symm
    · refine (hp.stop_eq hn).trans ?_
      simp [m]
      omega
  refine ⟨m, hsound, hfound, htext, ?_⟩
  have := m.lockMethod_eq hsound hfound l index indent
  rw [htext, h] at this
  cases this
  rfl

end LockMigration.Conversion
