/-
The list of occurrences of a text, and the search for the first one after a cursor. Both go through
the tokens in order: the list succeeds exactly when every token has a kind, and it then shows the
roles of the text; the search gives the first of the tokens that the cursor has not passed.
-/
import LockMigration.Proofs.Java.Roles
import LockMigration.Proofs.Outcomes

namespace LockMigration.Java

open Text

attribute [local irreducible] keyword

/-! ## All occurrences -/

/-- A listed occurrence is a token with its kind. -/
theorem exists_token_of_positions {t : List Char} {cursor : Option Nat} {onlyFirst : Bool}
    {os : List Occurrence} (h : positions t cursor onlyFirst = .ok os) {o : Occurrence}
    (ho : o ∈ os) : ∃ k ∈ tokens t, k.classified t = .ok o := by
  obtain ⟨k, hk, hc⟩ := exists_of_mem_mapM h ho
  refine ⟨k, ?_, hc⟩
  have hmem : k ∈ (tokens t).filter (fun k => isPast cursor k.start) := by
    cases onlyFirst with
    | false => exact hk
    | true => exact List.mem_of_mem_take hk
  exact List.mem_of_mem_filter hmem

theorem positions_all (t : List Char) :
    positions t none false = (tokens t).mapM (Token.classified t) := by
  have : (tokens t).filter (fun k => isPast none k.start) = tokens t :=
    List.filter_eq_self.2 fun _ _ => rfl
  simp only [positions, this]
  rfl

theorem classified_eq_ok {t : List Char} {k : Token} {o : Occurrence} :
    k.classified t = .ok o ↔
      classify t k.start k.stop = .ok o.kind ∧ o.start = k.start ∧ o.stop = k.stop := by
  unfold Token.classified
  cases classify t k.start k.stop with
  | error e => simp [Except.map]
  | ok kind =>
    obtain ⟨a, b, c⟩ := o
    simp only [Except.map, Except.ok.injEq, Occurrence.mk.injEq]
    constructor
    · rintro ⟨rfl, rfl, rfl⟩; exact ⟨rfl, rfl, rfl⟩
    · rintro ⟨rfl, rfl, rfl⟩; exact ⟨rfl, rfl, rfl⟩

/-- The keyword of an occurrence is the keyword of its token. -/
theorem Parts.keyword_eq {t : List Char} {k : Token} {before lead rest : List Char}
    (h : Parts t k before lead rest) (kind : Kind) :
    (⟨k.start, k.stop, kind⟩ : Occurrence).keyword t = k.keyword := by
  obtain ⟨n, hn, -⟩ := h.stop
  have hlead : marks (fun z => keyword.isPrefixOf (z ++ (keyword ++ rest.take n))) lead = [] := by
    refine List.eq_nil_iff_forall_not_mem.2 fun i hi => ?_
    obtain ⟨hlt, hp⟩ := mem_marks.1 hi
    rw [List.drop_eq_getElem_cons hlt, List.cons_append, List.isPrefixOf_iff_prefix] at hp
    exact not_keyword_of_isBlank (h.blank _ (List.getElem_mem hlt)) _ hp
  have hhead : (startsOf keyword (keyword ++ rest.take n)).head? = some 0 := by
    simp [startsOf, marks, Java.keyword_eq, marksFrom]
  unfold Occurrence.keyword
  rw [h.slice_eq hn, List.append_assoc]
  unfold startsOf at hhead ⊢
  rw [marks_append, hlead, List.nil_append, List.head?_map, hhead, h.word, h.start]
  simp

theorem keyword_of_classified {t : List Char} {k : Token} {o : Occurrence} (hk : k ∈ tokens t)
    (h : k.classified t = .ok o) : o.keyword t = k.keyword := by
  obtain ⟨before, b, l, rest, hp⟩ := parts_of_mem_tokens hk
  obtain ⟨-, hstart, hstop⟩ := classified_eq_ok.1 h
  have ho : o = ⟨k.start, k.stop, o.kind⟩ := by rw [← hstart, ← hstop]
  rw [ho]
  exact hp.keyword_eq o.kind

/-- The occurrence of a token that is a method. -/
def Token.method (k : Token) : Occurrence :=
  ⟨k.start, k.stop, .method⟩

theorem Parts.method_keyword {t : List Char} {k : Token} {before lead rest : List Char}
    (h : Parts t k before lead rest) : k.method.keyword t = k.keyword :=
  h.keyword_eq .method

/-- The listed occurrences show the roles of the text. -/
theorem roles_of_positions {t : List Char} {os : List Occurrence}
    (h : positions t none false = .ok os) :
    roles t = os.map fun o => (o.keyword t, some o.kind) := by
  rw [positions_all, mapM_eq_ok_iff] at h
  rw [← tokens_roles]
  have hp : ∀ k ∈ tokens t, ∃ before b l rest, Parts t k before (b :: l) rest :=
    fun k => parts_of_mem_tokens
  generalize tokens t = ks at h hp
  induction h with
  | nil => rfl
  | @cons k o ks os hk _ ih =>
    obtain ⟨before, b, l, rest, hparts⟩ := hp k (by simp)
    obtain ⟨hkind, hstart, hstop⟩ := classified_eq_ok.1 hk
    have ho : o = ⟨k.start, k.stop, o.kind⟩ := by rw [← hstart, ← hstop]
    rw [List.map_cons, List.map_cons, ih fun k hk => hp k (List.mem_cons_of_mem _ hk), hkind, ho,
      hparts.keyword_eq]
    rfl

/-- The list of occurrences succeeds exactly when every token has a kind. -/
theorem positions_ok_iff {t : List Char} :
    (∃ os, positions t none false = .ok os) ↔ ∀ e ∈ roles t, e.2 ≠ none := by
  constructor
  · rintro ⟨os, h⟩ e he
    rw [roles_of_positions h] at he
    obtain ⟨o, -, rfl⟩ := List.mem_map.1 he
    simp
  · intro h
    rw [positions_all]
    rw [← tokens_roles] at h
    generalize tokens t = ks at h
    induction ks with
    | nil => exact ⟨[], rfl⟩
    | cons k ks ih =>
      obtain ⟨os, hos⟩ := ih fun e he => h e (List.mem_cons_of_mem _ he)
      have hk := h _ (List.mem_cons_self ..)
      cases hc : classify t k.start k.stop with
      | error e => simp only [hc] at hk; exact absurd rfl hk
      | ok kind =>
        refine ⟨⟨k.start, k.stop, kind⟩ :: os, mapM_eq_ok_iff.2 (.cons ?_ (mapM_eq_ok_iff.1 hos))⟩
        exact classified_eq_ok.2 ⟨hc, rfl, rfl⟩

/-! ## The first occurrence after a cursor -/

theorem le_start_of_mem_tokensFrom {t : List Char} {i : Nat} {run : Option Nat} {k : Token}
    (hr : ∀ s ∈ run, s ≤ i) (h : k ∈ tokensFrom i run t) : run.getD i ≤ k.start := by
  induction t generalizing i run with
  | nil => cases h
  | cons c t ih =>
    rw [tokensFrom_cons] at h
    have hle : run.getD i ≤ i := by
      cases run with
      | none => exact Nat.le_refl i
      | some s => exact hr s rfl
    have next (h : k ∈ tokensFrom (i + 1) none t) : run.getD i ≤ k.start := by
      have := ih (by simp) h
      simp only [Option.getD_none] at this
      omega
    split at h
    · have := @ih (i + 1) (some (run.getD i)) (by rintro s ⟨⟩; omega) h
      simpa using this
    · split at h
      · rcases List.mem_cons.1 h with rfl | h
        · exact Nat.le_refl _
        · exact next h
      · exact next h

theorem pairwise_tokensFrom (t : List Char) {i : Nat} {run : Option Nat} (hr : ∀ s ∈ run, s < i) :
    (tokensFrom i run t).Pairwise (fun a b => a.start < b.start) := by
  induction t generalizing i run with
  | nil => exact .nil
  | cons c t ih =>
    rw [tokensFrom_cons]
    split
    · refine ih ?_
      rintro s ⟨⟩
      cases run with
      | none => simp
      | some s => have := hr s rfl; simp only [Option.getD_some]; omega
    · split
      · rename_i s n _
        refine List.pairwise_cons.2 ⟨fun k hk => ?_, ih (by simp)⟩
        have := le_start_of_mem_tokensFrom (by simp) hk
        have := hr s rfl
        simp only [Option.getD_none] at *
        omega
      · exact ih (by simp)

/-- The tokens of a text start at increasing positions. -/
theorem pairwise_tokens (t : List Char) :
    (tokens t).Pairwise (fun a b => a.start < b.start) :=
  pairwise_tokensFrom t (by simp)

/-- The ends of a token and its keyword, in order. -/
theorem span_of_mem_tokens {t : List Char} {k : Token} (hk : k ∈ tokens t) :
    k.start < k.keyword ∧ k.keyword < k.stop ∧ k.stop ≤ t.length := by
  obtain ⟨before, b, l, rest, hp⟩ := parts_of_mem_tokens hk
  obtain ⟨n, hn, hstop⟩ := hp.stop
  have hlen : n ≤ rest.length ∧ 0 < n := by
    rcases closingLength?_eq_some hn with ⟨r, rfl, rfl⟩ | ⟨c, l, r, rfl, rfl, -⟩
    · exact ⟨by rw [List.length_cons]; omega, Nat.zero_lt_one⟩
    · exact ⟨by rw [List.length_append, List.length_cons]; omega, Nat.succ_pos _⟩
  have htext : t.length = before.length + (b :: l).length + Java.keyword.length + rest.length := by
    rw [hp.text, List.length_append, List.length_append, List.length_append]
  refine ⟨start_lt_keyword hk, by omega, ?_⟩
  rw [hstop, hp.word, htext]
  omega

/-- The cursor that has passed the given tokens and no other. -/
def cursorAfter (passed : List Token) : Option Nat :=
  passed.getLast?.map Token.start

theorem filter_isPast {t : List Char} {passed ahead : List Token}
    (h : tokens t = passed ++ ahead) :
    (tokens t).filter (fun k => isPast (cursorAfter passed) k.start) = ahead := by
  have hp := pairwise_tokens t
  rw [h] at hp ⊢
  rcases List.eq_nil_or_concat passed with rfl | ⟨passed, k, rfl⟩
  · exact List.filter_eq_self.2 fun _ _ => rfl
  · rw [List.concat_eq_append] at hp ⊢
    have hc (j : Nat) : isPast (cursorAfter (passed ++ [k])) j = decide (k.start < j) := by
      simp [isPast, cursorAfter]
    simp only [hc]
    rw [List.pairwise_append, List.pairwise_append] at hp
    obtain ⟨⟨-, -, hk⟩, -, hpast⟩ := hp
    rw [List.filter_append, List.filter_eq_nil_iff.2, List.filter_eq_self.2, List.nil_append]
    · intro a ha
      simpa using hpast k (by simp) a ha
    · intro a ha
      rcases List.mem_append.1 ha with ha | ha
      · have := hk a ha k (by simp)
        simp only [decide_eq_true_eq]
        omega
      · simp only [List.mem_singleton] at ha
        simp [ha]

theorem firstPosition_nil {t : List Char} {passed : List Token} (h : tokens t = passed) :
    firstPosition t (cursorAfter passed) = .ok none := by
  have hpast := @filter_isPast t passed [] (by rw [h, List.append_nil])
  unfold firstPosition positions
  rw [hpast]
  rfl

/-- The search gives the first token that the cursor has not passed. -/
theorem firstPosition_cons {t : List Char} {k : Token} {passed ahead : List Token}
    (h : tokens t = passed ++ k :: ahead) :
    firstPosition t (cursorAfter passed) = (k.classified t).map some := by
  unfold firstPosition positions
  rw [filter_isPast h]
  simp only [if_true, List.take_succ_cons, List.take_zero, List.mapM_cons, List.mapM_nil]
  cases k.classified t <;> rfl

/-- What the search gives is a token past the cursor. -/
theorem firstPosition_eq_some {t : List Char} {cursor : Option Nat} {o : Occurrence}
    (h : firstPosition t cursor = .ok (some o)) :
    ∃ k ∈ tokens t, isPast cursor k.start = true ∧ k.classified t = .ok o := by
  unfold firstPosition positions at h
  rcases hf : (tokens t).filter (fun k => isPast cursor k.start) with _ | ⟨k, ks⟩
  · rw [hf] at h
    cases h
  · have hk := List.mem_filter.1 (by rw [hf]; simp : k ∈ (tokens t).filter _)
    refine ⟨k, hk.1, hk.2, ?_⟩
    rw [hf] at h
    simp only [if_true, List.take_succ_cons, List.take_zero, List.mapM_cons, List.mapM_nil] at h
    cases hc : k.classified t with
    | error e => rw [hc] at h; cases h
    | ok a => rw [hc] at h; cases h; rfl

end LockMigration.Java
