/-
The tokens of a text are its delimited keywords: those with a blank before them and a blank or an
opening parenthesis behind them. A token takes in all the blanks around its keyword, so the blanks
between two keywords belong to both of their tokens. `found_iff` says the same of a search for the
pattern: the tokens are what is found if every search takes the leftmost match and the next one
begins right behind the keyword. Only the last token of a text can be without a kind, since
whatever follows an earlier one holds another keyword.
-/
import LockMigration.Proofs.Java.Kinds

namespace LockMigration.Java

open Text

attribute [local irreducible] keyword

/-! ## Runs of blanks -/

/-- Blanks stand from position `s` up to position `e`, and no further on either side. -/
structure BlankRun (t : List Char) (s e : Nat) : Prop where
  lt : s < e
  blank : ∀ i, s ≤ i → i < e → t[i]?.any isBlank = true
  first : ∀ i, i + 1 = s → t[i]?.any isBlank = false
  last : t[e]?.any isBlank = false

/-- A run is known by its end. -/
theorem BlankRun.start_unique {t : List Char} {s s' e : Nat} (h : BlankRun t s e)
    (h' : BlankRun t s' e) : s = s' := by
  have not_lt {a b : Nat} (ha : BlankRun t a e) (hb : BlankRun t b e) : ¬ a < b := by
    intro hlt
    obtain ⟨i, rfl⟩ := Nat.exists_eq_add_of_lt hlt
    have hblank := ha.blank (a + i) (Nat.le_add_right a i) (by have := hb.lt; omega)
    rw [hb.first _ rfl] at hblank
    cases hblank
  have := not_lt h h'
  have := not_lt h' h
  omega

theorem blankRun_middle {x l y : List Char} (hl : l ≠ []) (hblank : ∀ c ∈ l, isBlank c = true)
    (hx : ∀ c ∈ x.getLast?, isBlank c = false) (hy : ∀ c ∈ y.head?, isBlank c = false) :
    BlankRun (x ++ l ++ y) x.length (x.length + l.length) := by
  have hpos := List.length_pos_iff.2 hl
  refine ⟨by omega, fun i hi hlt => ?_, fun i hi => ?_, ?_⟩
  · rw [List.append_assoc, List.getElem?_append_right hi, List.getElem?_append_left (by omega),
      List.getElem?_eq_getElem (by omega), Option.any_some]
    exact hblank _ (List.getElem_mem _)
  · obtain ⟨w, c, rfl⟩ := (List.eq_nil_or_concat x).resolve_left (by rintro rfl; cases hi)
    rw [List.concat_eq_append, List.length_append, List.length_singleton, Nat.add_right_cancel_iff] at hi
    subst hi
    rw [List.concat_eq_append, List.getLast?_concat] at hx
    simpa using hx c rfl
  · rw [← List.length_append, List.getElem?_append_right (Nat.le_refl _), Nat.sub_self,
      ← List.head?_eq_getElem?]
    cases hhead : y.head? with
    | none => rfl
    | some c => exact hy c hhead

/-! ## Tokens and keywords -/

theorem getLast?_of_firm {x : List Char} (h : (Reading.start.read x).run = none) :
    ∀ c ∈ x.getLast?, isBlank c = false := by
  rcases List.eq_nil_or_concat x with rfl | ⟨w, d, rfl⟩
  · exact nofun
  · intro c hc
    rw [List.concat_eq_append] at h hc
    rw [List.getLast?_concat, Option.mem_some_iff] at hc
    exact hc ▸ (run_snoc _ _ _).1 h

theorem head?_keyword_append (y : List Char) : (keyword ++ y).head? = some 's' := by
  rw [keyword_eq]
  rfl

theorem getLast?_append_keyword (x : List Char) : (x ++ keyword).getLast? = some 'd' := by
  rw [List.getLast?_append, keyword_eq]
  rfl

namespace Parts

variable {t : List Char} {k : Token} {before lead rest : List Char}

theorem text_at_keyword (h : Parts t k before lead rest) : t.drop k.keyword = keyword ++ rest := by
  rw [h.text, h.word, ← List.length_append, List.append_assoc, List.drop_left]

theorem getElem?_rest (h : Parts t k before lead rest) (i : Nat) :
    t[k.keyword + keyword.length + i]? = rest[i]? := by
  rw [Nat.add_assoc, ← List.getElem?_drop, h.text_at_keyword,
    List.getElem?_append_right (Nat.le_add_right _ _), Nat.add_sub_cancel_left]

/-- The leading blanks of a token are all that stand before its keyword. -/
theorem blankRun_lead (h : Parts t k before lead rest) : BlankRun t k.start k.keyword := by
  have hrun := blankRun_middle h.lead_ne h.blank (getLast?_of_firm h.firm)
    (y := keyword ++ rest) fun c hc => by
      rw [head?_keyword_append, Option.mem_some_iff] at hc
      exact hc ▸ rfl
  rwa [← h.start, h.start, ← h.word, ← List.append_assoc, ← h.text, ← h.start] at hrun

/-- A token ends with the parenthesis behind its keyword, or with all the blanks there. -/
theorem ending (h : Parts t k before lead rest) :
    (t[k.keyword + keyword.length]? = some '(' → k.stop = k.keyword + keyword.length + 1) ∧
      (t[k.keyword + keyword.length]? ≠ some '(' →
        BlankRun t (k.keyword + keyword.length) k.stop) := by
  obtain ⟨n, hn, hstop⟩ := h.stop
  have hnext := h.getElem?_rest 0
  rw [Nat.add_zero] at hnext
  rw [hnext, hstop]
  rcases closingLength?_eq_some hn with ⟨r, rfl, rfl⟩ | ⟨b, l, r, rfl, rfl, hblank, hr⟩
  · exact ⟨fun _ => rfl, fun hne => absurd rfl hne⟩
  · refine ⟨fun hparen => ?_, fun _ => ?_⟩
    · exact absurd (Option.some.inj hparen) (isBlank_ne (hblank b List.mem_cons_self) (by decide))
    · have hrun := blankRun_middle (x := before ++ lead ++ keyword) (List.cons_ne_nil b l) hblank
        (fun c hc => by
          rw [getLast?_append_keyword, Option.mem_some_iff] at hc
          exact hc ▸ rfl) hr
      rw [List.append_assoc _ (b :: l), ← h.text, List.length_append, List.length_append, ← h.word,
        List.length_cons] at hrun
      exact hrun

/-- Where the keyword of a token stands, its first letter comes only once. -/
theorem end_le_of_head (h : Parts t k before lead rest) {j : Nat} (hlt : k.keyword < j)
    (hj : t[j]? = some 's') : k.keyword + keyword.length ≤ j := by
  by_contra hinside
  obtain ⟨i, rfl⟩ := Nat.exists_eq_add_of_lt hlt
  rw [Nat.add_assoc, ← List.getElem?_drop, h.text_at_keyword,
    List.getElem?_append_left (by omega), ← List.getElem?_tail] at hj
  have hmem := List.mem_of_getElem? hj
  rw [Java.keyword_eq] at hmem
  revert hmem
  decide

end Parts

/-- The pattern matches at a token: blanks, the keyword, and then the parenthesis or all the blanks
that stand there. -/
structure Match (t : List Char) (k : Token) : Prop where
  lt : k.start < k.keyword
  blank : ∀ i, k.start ≤ i → i < k.keyword → t[i]?.any isBlank = true
  word : ∃ rest n, t.drop k.keyword = keyword ++ rest ∧ closingLength? rest = some n ∧
    k.stop = k.keyword + keyword.length + n

theorem Parts.isMatch {t : List Char} {k : Token} {before lead rest : List Char}
    (h : Parts t k before lead rest) : Match t k := by
  have hrun := h.blankRun_lead
  obtain ⟨n, hn, hstop⟩ := h.stop
  exact ⟨hrun.lt, hrun.blank, rest, n, h.text_at_keyword, hn, hstop⟩

/-- The keyword of a match is delimited. -/
theorem Match.delimited {t : List Char} {k : Token} (h : Match t k) : Delimited t k.keyword := by
  obtain ⟨rest, n, hdrop, hn, -⟩ := h.word
  have hlt := h.lt
  refine ⟨mem_startsOf.2 ⟨?_, ?_⟩, ⟨by omega, h.blank _ (by omega) (by omega)⟩, ?_⟩
  · by_contra hge
    rw [List.drop_eq_nil_of_le (Nat.le_of_not_lt hge), keyword_eq] at hdrop
    cases hdrop
  · rw [hdrop]
    exact List.prefix_append _ _
  · rw [← List.getElem?_drop, hdrop, List.getElem?_append_right (Nat.le_refl _), Nat.sub_self]
    rcases closingLength?_eq_some hn with ⟨r, rfl, -⟩ | ⟨b, l, r, rfl, -, hblank, -⟩
    · rfl
    · simp [hblank b List.mem_cons_self]

/-- The tokens are those of the delimited keywords. -/
theorem mem_map_keyword_tokens {t : List Char} {k : Nat} :
    k ∈ (tokens t).map Token.keyword ↔ Delimited t k := by
  rw [List.mem_map]
  constructor
  · rintro ⟨tok, htok, rfl⟩
    obtain ⟨before, b, l, rest, hp⟩ := parts_of_mem_tokens htok
    exact hp.isMatch.delimited
  · exact fun h => h.exists_token

theorem pairwise_keyword_tokens (t : List Char) :
    ((tokens t).map Token.keyword).Pairwise (· < ·) := by
  have hroles := pairwise_rolesFrom 0 .start t []
  rw [show rolesFrom 0 .start t [] = roles t from rfl, ← tokens_roles, List.pairwise_map] at hroles
  exact List.pairwise_map.2 hroles

/-! ## The search -/

/-- What the searches from position `pos` on find, one after another: each takes the leftmost match,
and the next one begins right behind the keyword of that match. -/
inductive Found (t : List Char) : Nat → List Token → Prop where
  | none {pos : Nat} (h : ∀ j, Match t j → j.start < pos) : Found t pos []
  | next {pos : Nat} {k : Token} {ks : List Token} (hk : Match t k) (hpos : pos ≤ k.start)
      (leftmost : ∀ j, Match t j → pos ≤ j.start → k.start ≤ j.start)
      (h : Found t (k.keyword + keyword.length) ks) : Found t pos (k :: ks)

theorem Match.head {t : List Char} {k : Token} (h : Match t k) : t[k.keyword]? = some 's' := by
  obtain ⟨rest, n, hdrop, -⟩ := h.word
  rw [← Nat.add_zero k.keyword, ← List.getElem?_drop, hdrop, ← List.head?_eq_getElem?,
    head?_keyword_append]

/-- A match is known by its start. -/
theorem Match.unique {t : List Char} {j k : Token} (hj : Match t j) (hk : Match t k)
    (h : j.start = k.start) : j = k := by
  have not_lt {a b : Token} (ha : Match t a) (hb : Match t b) (hab : a.start = b.start) :
      ¬ a.keyword < b.keyword := by
    intro hlt
    have hblank := hb.blank a.keyword (by have := ha.lt; omega) hlt
    rw [ha.head] at hblank
    exact absurd hblank (by decide)
  have hword : j.keyword = k.keyword := by
    have := not_lt hj hk h
    have := not_lt hk hj h.symm
    omega
  obtain ⟨rest, n, hdrop, hn, hstop⟩ := hj.word
  obtain ⟨rest', n', hdrop', hn', hstop'⟩ := hk.word
  obtain rfl : rest = rest' := by
    rw [hword, hdrop'] at hdrop
    exact (List.append_cancel_left hdrop).symm
  obtain rfl := Option.some.inj (hn.symm.trans hn')
  rw [hword, ← hstop'] at hstop
  cases j
  cases k
  simp_all only

theorem Found.unique {t : List Char} {pos : Nat} {ks ks' : List Token} (h : Found t pos ks)
    (h' : Found t pos ks') : ks = ks' := by
  induction h generalizing ks' with
  | none hno =>
    cases h' with
    | none => rfl
    | next hk hpos => exact absurd (hno _ hk) (Nat.not_lt.2 hpos)
  | next hk hpos leftmost _ ih =>
    cases h' with
    | none hno => exact absurd (hno _ hk) (Nat.not_lt.2 hpos)
    | next hk' hpos' leftmost' hrest' =>
      obtain rfl := hk.unique hk'
        (Nat.le_antisymm (leftmost _ hk' hpos') (leftmost' _ hk hpos))
      rw [ih hrest']

/-- A match is a token, or the end of one with fewer of its leading blanks. -/
theorem Match.exists_token {t : List Char} {j : Token} (h : Match t j) :
    ∃ k ∈ tokens t, k.keyword = j.keyword ∧ k.start ≤ j.start := by
  obtain ⟨k, hk, hword⟩ := h.delimited.exists_token
  refine ⟨k, hk, hword, ?_⟩
  obtain ⟨before, b, l, rest, hp⟩ := parts_of_mem_tokens hk
  by_contra hlt
  obtain ⟨i, hi⟩ := Nat.exists_eq_add_of_lt (Nat.lt_of_not_le hlt)
  have hstart := hp.blankRun_lead.lt
  have hblank := h.blank (j.start + i) (Nat.le_add_right _ _) (by omega)
  rw [hp.blankRun_lead.first _ hi.symm] at hblank
  cases hblank

/-- The leading blanks of a token begin behind every keyword before it. -/
theorem end_le_start_of_lt {t : List Char} {j k : Token} (hj : j ∈ tokens t) (hk : k ∈ tokens t)
    (h : j.keyword < k.keyword) : j.keyword + keyword.length ≤ k.start := by
  obtain ⟨before, b, l, rest, hp⟩ := parts_of_mem_tokens hj
  obtain ⟨_, _, _, _, hp'⟩ := parts_of_mem_tokens hk
  have hle := hp.end_le_of_head h hp'.isMatch.head
  -- the last letter of the keyword is not blank
  have hlast : t[j.keyword + 11]? = some 'd' := by
    rw [← List.getElem?_drop, hp.text_at_keyword, keyword_eq]
    rfl
  rw [length_keyword] at hle ⊢
  exact lt_start_of_lt_keyword hk hlast (by decide) (by omega)

/-- What a search can still find belongs to a token ahead. -/
theorem Match.exists_ahead {t : List Char} {j : Token} (hj : Match t j) {pos : Nat}
    (hpos : pos ≤ j.start) {passed ahead : List Token} (h : tokens t = passed ++ ahead)
    (hpassed : ∀ k ∈ passed, k.keyword < pos) : ∃ k ∈ ahead, k.start ≤ j.start := by
  obtain ⟨k, hk, hword, hle⟩ := hj.exists_token
  rw [h, List.mem_append] at hk
  rcases hk with hk | hk
  · have := hpassed k hk
    have := hj.lt
    omega
  · exact ⟨k, hk, hle⟩

theorem found_ahead {t : List Char} {passed ahead : List Token} {pos : Nat}
    (h : tokens t = passed ++ ahead) (hpassed : ∀ k ∈ passed, k.keyword < pos)
    (hahead : ∀ k ∈ ahead, pos ≤ k.start) : Found t pos ahead := by
  induction ahead generalizing passed pos with
  | nil =>
    refine .none fun j hj => ?_
    by_contra hge
    obtain ⟨k, hk, -⟩ := hj.exists_ahead (Nat.le_of_not_lt hge) h hpassed
    cases hk
  | cons k ahead ih =>
    have hmem : ∀ j ∈ k :: ahead, j ∈ tokens t := fun j hj => h ▸ List.mem_append_right passed hj
    have hkmem := hmem k List.mem_cons_self
    obtain ⟨before, b, l, rest, hp⟩ := parts_of_mem_tokens hkmem
    have hstart := pairwise_tokens t
    have hword := List.pairwise_map.1 (pairwise_keyword_tokens t)
    rw [h, List.pairwise_append, List.pairwise_cons] at hstart hword
    refine .next hp.isMatch (hahead k List.mem_cons_self) (fun j hj hpos => ?_) ?_
    · obtain ⟨i, hi, hle⟩ := hj.exists_ahead hpos h hpassed
      rcases List.mem_cons.1 hi with rfl | hi
      · exact hle
      · exact Nat.le_trans (Nat.le_of_lt (hstart.2.1.1 i hi)) hle
    · have hsplit : tokens t = (passed ++ [k]) ++ ahead := by rw [h, List.append_assoc]; rfl
      refine ih hsplit (fun j hj => ?_) fun j hj =>
        end_le_start_of_lt hkmem (hmem j (List.mem_cons_of_mem k hj)) (hword.2.1.1 j hj)
      rw [length_keyword]
      rcases List.mem_append.1 hj with hj | hj
      · have := hword.2.2 j hj k List.mem_cons_self
        omega
      · rw [List.mem_singleton.1 hj]
        omega

/-- The tokens of a text are what a search of the whole text finds. -/
theorem found_iff {t : List Char} {ks : List Token} : Found t 0 ks ↔ ks = tokens t := by
  have htokens : Found t 0 (tokens t) :=
    found_ahead (List.nil_append _).symm nofun fun k _ => Nat.zero_le k.start
  constructor
  · exact fun h => h.unique htokens
  · rintro rfl
    exact htokens

/-! ## Tokens without a kind -/

theorem classify_eq_error {t : List Char} {k : Token} {before rest : List Char} {b : Char}
    {l : List Char} (h : Parts t k before (b :: l) rest) {e : Fault} :
    classify t k.start k.stop = .error e ↔ inComment t k.start = false ∧
      afterQuote t k.start = false ∧ (∀ c ∈ rest, isBlank c = true) ∧
      e = .unclassifiable (byteOffset t k.start) := by
  have hb : isBlank b = true := h.blank b List.mem_cons_self
  have ht : t = before ++ b :: (l ++ keyword ++ rest) := by rw [h.text]; simp
  have hcomment : inComment t k.start = ((Reading.start.read before).block ||
      (!isLineBreak b && (Reading.start.read before).slashes)) := by
    rw [ht, h.start]
    exact inComment_eq (isBlank_ne hb (by decide)) (isBlank_ne hb (by decide))
  have hquote : afterQuote t k.start = (Reading.start.read before).quote := by
    rw [ht, h.start]
    exact afterQuote_eq
  rw [classify_eq h, hcomment, hquote, Reading.setting]
  by_cases hc : ((Reading.start.read before).block ||
      (!isLineBreak b && (Reading.start.read before).slashes)) = true
  · rw [if_pos hc, hc]
    simp [Setting.kind?]
  by_cases hq : (Reading.start.read before).quote = true
  · rw [if_neg hc, if_pos hq, hq]
    simp [Setting.kind?]
  rw [if_neg hc, if_neg hq]
  have hfind : rest.find? (fun c => !isBlank c) = none ↔ ∀ c ∈ rest, isBlank c = true := by
    simp [List.find?_eq_none]
  rw [← hfind]
  cases hnext : rest.find? (fun c => !isBlank c) with
  | none =>
    simp only [Setting.kind?, hnext, Option.map_none]
    simp [hc, hq, eq_comm]
  | some c => simp [Setting.kind?, hnext]

theorem classified_eq_error {t : List Char} {k : Token} {e : Fault} :
    k.classified t = .error e ↔ classify t k.start k.stop = .error e := by
  unfold Token.classified
  cases classify t k.start k.stop <;> simp [Except.map]

theorem forall₂_of_positions {t : List Char} {os : List Occurrence}
    (h : positions t none false = .ok os) :
    List.Forall₂ (fun k o => k.classified t = .ok o) (tokens t) os := by
  rwa [positions_all, mapM_eq_ok_iff] at h

/-- Where the list of occurrences fails, it is the last token that has no kind. -/
theorem positions_eq_error {t : List Char} {e : Fault} (h : positions t none false = .error e) :
    ∃ ks k os, tokens t = ks ++ [k] ∧ ks.mapM (Token.classified t) = .ok os ∧
      k.classified t = .error e := by
  rw [positions_all] at h
  obtain ⟨ks, k, ahead, os, htokens, hks, hk⟩ := mapM_eq_error h
  refine ⟨ks, k, os, ?_, hks, hk⟩
  have hkmem : k ∈ tokens t := by rw [htokens]; simp
  obtain ⟨before, b, l, rest, hp⟩ := parts_of_mem_tokens hkmem
  obtain ⟨-, -, hblank, -⟩ := (classify_eq_error hp).1 (classified_eq_error.1 hk)
  -- a token ahead would have its keyword among the blanks
  cases ahead with
  | nil => exact htokens
  | cons j ahead =>
    exfalso
    have hjmem : j ∈ tokens t := by rw [htokens]; simp
    have hlt : k.keyword < j.keyword := by
      have hpair := pairwise_keyword_tokens t
      rw [htokens, List.map_append, List.pairwise_append] at hpair
      exact (List.pairwise_cons.1 hpair.2.1).1 _ (by simp)
    obtain ⟨_, _, _, _, hp'⟩ := parts_of_mem_tokens hjmem
    obtain ⟨i, hi⟩ := Nat.exists_eq_add_of_le (hp.end_le_of_head hlt hp'.isMatch.head)
    have hs := hp'.isMatch.head
    rw [hi, hp.getElem?_rest] at hs
    have := hblank _ (List.mem_of_getElem? hs)
    revert this
    decide

end LockMigration.Java
