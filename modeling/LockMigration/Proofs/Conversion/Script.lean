/-
The run of a conversion as a script of edits. The steps that only move the cursor pass the tokens
of one text in order, so what counts is the sequence of texts: each is the one before it with a
lock on its first method, and the last one is settled, with no method left and no token without a
kind. The stated number of steps is always enough, so `finish_eq_ok` gives a whole script for every
run that succeeds, and `finish_of_settled` says that a settled text is finished as it is.
-/
import LockMigration.Conversion.Draft
import LockMigration.Proofs.Conversion.Keywords
import LockMigration.Proofs.Conversion.Readings

namespace LockMigration.Conversion

open Text Java

attribute [local irreducible] keyword

/-! ## Edits -/

/-- The tokens of the text have other kinds than method. -/
def Passed (t : List Char) (ks : List Token) : Prop :=
  ∀ k ∈ ks, ∃ kind, classify t k.start k.stop = .ok kind ∧ kind ≠ .method

/-- Nothing is left to convert, and every token has a kind. -/
def Settled (t : List Char) : Prop :=
  Passed t (tokens t)

/-- The token is a method, and no token before it is one. -/
def FirstMethod (t : List Char) (k : Token) : Prop :=
  ∃ passed ahead, tokens t = passed ++ k :: ahead ∧ Passed t passed ∧
    classify t k.start k.stop = .ok .method

/-- The first method of `t` is given lock `index`, which makes the text `u`. -/
def Edit (style : Style) (index : Nat) (t u : List Char) : Prop :=
  ∃ k, FirstMethod t k ∧
    lockMethod style.locker t k.method index style.indent = .ok u

/-- The texts `b 0`, ..., `b n` of a conversion whose first lock is `first`. -/
structure Script (style : Style) (first n : Nat) (b : Nat → List Char) : Prop where
  edit : ∀ i < n, Edit style (first + i) (b i) (b (i + 1))
  settled : Settled (b n)

theorem FirstMethod.frame {l : Locker} {index indent : Nat} {t u : List Char} {k : Token}
    (hk : FirstMethod t k) (h : lockMethod l t k.method index indent = .ok u) :
    ∃ m : Frame, m.Sound ∧ m.Found k.method ∧ m.text = t ∧ m.locked l index indent = u := by
  obtain ⟨passed, ahead, htokens, -, hkind⟩ := hk
  exact frame_of_lockMethod (by rw [htokens]; simp) hkind h

theorem Edit.frame {style : Style} {index : Nat} {t u : List Char} (h : Edit style index t u) :
    ∃ (k : Token) (m : Frame), FirstMethod t k ∧ m.Sound ∧ m.Found k.method ∧
      m.text = t ∧ m.locked style.locker index style.indent = u := by
  obtain ⟨k, hk, hlock⟩ := h
  obtain ⟨m, hm⟩ := hk.frame hlock
  exact ⟨k, m, hk, hm⟩

/-- An edit takes one keyword out of the text. -/
theorem Edit.kept {style : Style} {index : Nat} {t u : List Char} (h : Edit style index t u) :
    Kept 1 (atoms t) (atoms u) := by
  obtain ⟨k, m, -, hm, -, rfl, rfl⟩ := h.frame
  exact m.kept_locked hm _ _ _

theorem Edit.count {style : Style} {index : Nat} {t u : List Char} (h : Edit style index t u) :
    (startsOf keyword t).length = (startsOf keyword u).length + 1 := by
  have := h.kept.count_none
  rwa [count_atoms, count_atoms] at this

/-! ## Steps -/

theorem cursorAfter_concat (passed : List Token) (k : Token) :
    cursorAfter (passed ++ [k]) = some k.start := by
  simp [cursorAfter]

theorem step_nil {t : List Char} {passed : List Token} (h : tokens t = passed) (style : Style)
    (index : Nat) : Draft.step style ⟨t, cursorAfter passed, index⟩ = .ok none := by
  unfold Draft.step
  simp only [firstPosition_nil h]
  rfl

/-- One step with the cursor behind the tokens that were passed: a method is given its lock, and
any other token is passed. -/
theorem step_cons {t : List Char} {k : Token} {passed ahead : List Token}
    (h : tokens t = passed ++ k :: ahead) (style : Style) (index : Nat) :
    Draft.step style ⟨t, cursorAfter passed, index⟩ =
      match classify t k.start k.stop with
      | .error e => .error e
      | .ok .method =>
        (lockMethod style.locker t k.method index style.indent).map fun u =>
          some ⟨u, none, index + 1⟩
      | .ok _ => .ok (some ⟨t, cursorAfter (passed ++ [k]), index⟩) := by
  unfold Draft.step
  simp only [firstPosition_cons h, cursorAfter_concat, Token.classified]
  cases classify t k.start k.stop with
  | error e => rfl
  | ok kind =>
    cases kind with
    | method =>
      simp only [Except.map, bind, Except.bind, Token.method]
      cases lockMethod style.locker t ⟨k.start, k.stop, .method⟩ index style.indent <;> rfl
    | monitor => rfl
    | comment => rfl
    | quoted => rfl

theorem run_succ (style : Style) (n : Nat) (d : Draft) :
    Draft.run style (n + 1) d =
      match d.step style with
      | .error e => .error e
      | .ok none => .ok d
      | .ok (some next) => Draft.run style n next := by
  rw [Draft.run]
  cases d.step style with
  | error e => rfl
  | ok next => cases next <;> rfl

/-! ## The bound -/

theorem length_tokensFrom_le (t : List Char) (i : Nat) (run : Option Nat) :
    (tokensFrom i run t).length ≤ (startsOf keyword t).length := by
  induction t generalizing i run with
  | nil => rw [tokensFrom_nil]; exact Nat.zero_le _
  | cons c t ih =>
    have hlen (p : Prop) [Decidable p] : (if p then 0 :: marksFrom (keyword.isPrefixOf ·) 1 t else
        marksFrom (keyword.isPrefixOf ·) 1 t).length =
          (if p then 1 else 0) + (startsOf keyword t).length := by
      have : (marksFrom (keyword.isPrefixOf ·) 1 t).length = (startsOf keyword t).length := by
        rw [marksFrom_eq_map, List.length_map]
        rfl
      split
      · rw [List.length_cons, this, Nat.add_comm]
      · rw [this, Nat.zero_add]
    rw [tokensFrom_cons, startsOf, marks, marksFrom, Nat.zero_add, hlen]
    split
    · have := ih (i + 1) (some (run.getD i))
      omega
    · have := ih (i + 1) none
      split
      · rename_i hk
        obtain ⟨rest, m, hrest, -⟩ := keywordLength?_eq_some hk
        rw [List.length_cons, if_pos (List.isPrefixOf_iff_prefix.2 ⟨rest, hrest.symm⟩)]
        omega
      · omega

/-- A text has no more tokens than keywords. -/
theorem length_tokens_le (t : List Char) : (tokens t).length ≤ (startsOf keyword t).length :=
  length_tokensFrom_le t 0 none

/-! ## Whole runs -/

theorem Script.cons {style : Style} {first n : Nat} {t : List Char} {b : Nat → List Char}
    (h : Edit style first t (b 0)) (hs : Script style (first + 1) n b) :
    Script style first (n + 1) (fun i => i.casesOn t b) where
  edit := by
    intro i hi
    cases i with
    | zero => exact h
    | succ i =>
      rw [show first + (i + 1) = first + 1 + i by omega]
      exact hs.edit i (by omega)
  settled := hs.settled

/-- What a run with enough steps has done when it succeeds. A method costs a keyword and gives the
tokens of the new text to pass, of which there are no more than keywords are left. -/
theorem run_eq_ok {style : Style} {bound index : Nat} {t : List Char} {passed ahead : List Token}
    {d : Draft} (htokens : tokens t = passed ++ ahead) (hpassed : Passed t passed)
    (hbound : ahead.length + 1 + (startsOf keyword t).length * (startsOf keyword t).length ≤ bound)
    (h : Draft.run style bound ⟨t, cursorAfter passed, index⟩ = .ok d) :
    ∃ n b, b 0 = t ∧ Script style index n b ∧ d.text = b n ∧ d.index = index + n := by
  induction bound generalizing t passed ahead index with
  | zero => omega
  | succ bound ih =>
    rw [run_succ] at h
    cases ahead with
    | nil =>
      rw [List.append_nil] at htokens
      rw [step_nil htokens] at h
      cases h
      exact ⟨0, fun _ => t, rfl, ⟨fun i hi => absurd hi (Nat.not_lt_zero i), by
        rw [Settled, htokens]; exact hpassed⟩, rfl, rfl⟩
    | cons k ahead =>
      rw [step_cons htokens] at h
      rw [List.length_cons] at hbound
      have pass {kind : Kind} (hkind : classify t k.start k.stop = .ok kind) (hne : kind ≠ .method)
          (h : Draft.run style bound ⟨t, cursorAfter (passed ++ [k]), index⟩ = .ok d) :
          ∃ n b, b 0 = t ∧ Script style index n b ∧ d.text = b n ∧ d.index = index + n := by
        refine ih (by rw [htokens, List.append_cons]) (fun j hj => ?_) (by omega) h
        rcases List.mem_append.1 hj with hj | hj
        · exact hpassed j hj
        · rw [List.mem_singleton.1 hj]
          exact ⟨kind, hkind, hne⟩
      cases hkind : classify t k.start k.stop with
      | error e => rw [hkind] at h; cases h
      | ok kind =>
        rw [hkind] at h
        cases kind with
        | monitor => exact pass hkind (by decide) h
        | comment => exact pass hkind (by decide) h
        | quoted => exact pass hkind (by decide) h
        | method =>
          -- the search starts again, with one keyword less to find
          cases hlock : lockMethod style.locker t k.method index style.indent with
          | error e => simp only [hlock] at h; cases h
          | ok u =>
            simp only [hlock] at h
            have hedit : Edit style index t u := ⟨k, ⟨passed, ahead, htokens, hpassed, hkind⟩, hlock⟩
            have hcount := hedit.count
            have hlen := length_tokens_le u
            obtain ⟨n, b, rfl, hs, htext, hindex⟩ := @ih (index + 1) u [] (tokens u) rfl
              (fun k hk => by cases hk) (by rw [hcount, Nat.add_one_mul_add_one] at hbound; omega) h
            exact ⟨n + 1, _, rfl, hs.cons hedit, htext, by omega⟩

/-- A conversion that gets to its end has run a script. -/
theorem finish_eq_ok {style : Style} {source : List Char} {d : Draft}
    (h : Draft.finish style source = .ok d) :
    ∃ n b, b 0 = source ∧ Script style firstIndex n b ∧ d.text = b n ∧ d.index = firstIndex + n := by
  have hlen := length_tokens_le source
  refine @run_eq_ok style _ firstIndex source [] (tokens source) d rfl (fun k hk => by cases hk) ?_ h
  simp only [Draft.bound, Nat.add_one_mul_add_one]
  omega

/-- Tokens that are not methods are passed, one step each. -/
theorem run_passed {style : Style} {bound index : Nat} {t : List Char}
    {passed ps ahead : List Token} (htokens : tokens t = passed ++ (ps ++ ahead))
    (hps : Passed t ps) :
    Draft.run style (ps.length + bound) ⟨t, cursorAfter passed, index⟩ =
      Draft.run style bound ⟨t, cursorAfter (passed ++ ps), index⟩ := by
  induction ps generalizing passed with
  | nil => rw [List.length_nil, Nat.zero_add, List.append_nil]
  | cons k ps ih =>
    obtain ⟨kind, hkind, hne⟩ := hps k (by simp)
    have next := @ih (passed ++ [k]) (by rw [htokens]; simp)
      (fun j hj => hps j (List.mem_cons_of_mem _ hj))
    rw [List.append_assoc, List.singleton_append] at next
    rw [List.length_cons, Nat.add_right_comm, run_succ, step_cons htokens, hkind]
    cases kind with
    | method => exact absurd rfl hne
    | monitor => exact next
    | comment => exact next
    | quoted => exact next

/-- A settled text is finished as it is. -/
theorem finish_of_settled {style : Style} {t : List Char} (h : Settled t) :
    Draft.finish style t = .ok ⟨t, cursorAfter (tokens t), firstIndex⟩ := by
  have hlen := length_tokens_le t
  obtain ⟨n, hn⟩ : ∃ n, Draft.bound t = (tokens t).length + (n + 1) := by
    refine Nat.exists_eq_add_of_lt ?_
    simp only [Draft.bound, Nat.add_one_mul_add_one]
    omega
  have hrun := @run_passed style (n + 1) firstIndex t [] (tokens t) [] (by simp) h
  rw [List.nil_append, run_succ, step_nil rfl] at hrun
  rw [Draft.finish, hn]
  exact hrun

/-- From the top of a text the loop gets to its first method and gives it the lock. -/
theorem run_edit {style : Style} {index : Nat} {t u : List Char} (h : Edit style index t u) :
    ∃ s, ∀ bound, Draft.run style (s + bound) ⟨t, none, index⟩ =
      Draft.run style bound ⟨u, none, index + 1⟩ := by
  obtain ⟨k, ⟨passed, ahead, htokens, hpassed, hkind⟩, hlock⟩ := h
  refine ⟨passed.length + 1, fun bound => ?_⟩
  have hrun := @run_passed style (bound + 1) index t [] passed (k :: ahead) htokens hpassed
  rw [List.nil_append, run_succ, step_cons htokens, hkind] at hrun
  simp only [hlock] at hrun
  rw [Nat.add_assoc, Nat.add_comm 1]
  exact hrun

/-- The loop goes through all the texts of a sequence of edits. -/
theorem run_edits {style : Style} {first n : Nat} {b : Nat → List Char}
    (h : ∀ i < n, Edit style (first + i) (b i) (b (i + 1))) {i : Nat} (hi : i ≤ n) :
    ∃ s, ∀ bound, Draft.run style (s + bound) ⟨b 0, none, first⟩ =
      Draft.run style bound ⟨b i, none, first + i⟩ := by
  induction i with
  | zero => exact ⟨0, fun bound => by rw [Nat.zero_add, Nat.add_zero]⟩
  | succ i ih =>
    obtain ⟨s, hs⟩ := ih (by omega)
    obtain ⟨s', hs'⟩ := run_edit (h i (by omega))
    exact ⟨s + s', fun bound => by rw [Nat.add_assoc, hs, hs', Nat.add_assoc]⟩

theorem Script.run {style : Style} {first n : Nat} {b : Nat → List Char}
    (h : Script style first n b) {i : Nat} (hi : i ≤ n) :
    ∃ s, ∀ bound, Draft.run style (s + bound) ⟨b 0, none, first⟩ =
      Draft.run style bound ⟨b i, none, first + i⟩ :=
  run_edits h.edit hi

/-- A conversion that succeeds has run a script; the file is unchanged if the script is empty, and
gets its import if not. -/
theorem convert_eq_ok {style : Style} {source : List Char} {c : Content}
    (h : convert style source = .ok c) :
    ∃ n b cursor, b 0 = source ∧ Script style firstIndex n b ∧
      Draft.finish style source = .ok ⟨b n, cursor, firstIndex + n⟩ ∧
      (n = 0 ∧ c = ⟨source, false⟩ ∨
        0 < n ∧ c.changed = true ∧ insertImport style.locker (b n) = .ok c.text) := by
  unfold convert at h
  cases hd : Draft.finish style source with
  | error e => rw [hd] at h; cases h
  | ok d =>
    obtain ⟨n, b, hb, hs, htext, hindex⟩ := finish_eq_ok hd
    have hdraft : d = ⟨b n, d.cursor, firstIndex + n⟩ := by rw [← htext, ← hindex]
    rw [hd, hdraft] at h
    refine ⟨n, b, d.cursor, hb, hs, by rw [← hdraft], ?_⟩
    simp only [bind, Except.bind, pure, Except.pure] at h
    by_cases hn : n = 0
    · subst hn
      rw [if_pos (Nat.add_zero _)] at h
      cases h
      exact .inl ⟨rfl, by rw [hb]⟩
    · rw [if_neg (by omega)] at h
      cases hi : insertImport style.locker (b n) with
      | error e => rw [hi] at h; cases h
      | ok u =>
        rw [hi] at h
        cases h
        exact .inr ⟨by omega, rfl, rfl⟩

theorem convert_of_settled {style : Style} {t : List Char} (h : Settled t) :
    convert style t = .ok ⟨t, false⟩ := by
  unfold convert
  rw [finish_of_settled h]
  rfl

/-! ## The scans of the texts -/

theorem settled_iff_roles {t : List Char} :
    Settled t ↔ ∀ e ∈ roles t, e.2 ≠ none ∧ e.2 ≠ some .method := by
  have hkind (k : Token) : (∃ kind, classify t k.start k.stop = .ok kind ∧ kind ≠ .method) ↔
      (classify t k.start k.stop).toOption ≠ none ∧
        (classify t k.start k.stop).toOption ≠ some .method := by
    cases classify t k.start k.stop <;> simp [Except.toOption]
  unfold Settled Passed
  rw [← tokens_roles, List.forall_mem_map]
  simp only [hkind]

theorem settled_of_kinds {t u : List Char} (h : (roles u).map Prod.snd = (roles t).map Prod.snd)
    (ht : Settled t) : Settled u := by
  rw [settled_iff_roles] at ht ⊢
  intro e he
  have hmem : e.2 ∈ (roles t).map Prod.snd := by
    rw [← h]
    exact List.mem_map_of_mem he
  obtain ⟨e', he', hkind⟩ := List.mem_map.1 hmem
  rw [← hkind]
  exact ht e' he'

/-- A text is settled when its scan succeeds and shows no method. -/
theorem settled_iff {t : List Char} :
    Settled t ↔ ∃ os, positions t none false = .ok os ∧ ∀ o ∈ os, o.kind ≠ .method := by
  rw [settled_iff_roles]
  constructor
  · intro h
    obtain ⟨os, hos⟩ := positions_ok_iff.2 fun e he => (h e he).1
    rw [roles_of_positions hos, List.forall_mem_map] at h
    exact ⟨os, hos, fun o ho hk => (h o ho).2 (by rw [hk])⟩
  · rintro ⟨os, hos, hmethod⟩
    rw [roles_of_positions hos, List.forall_mem_map]
    exact fun o ho => ⟨by simp, by simpa using hmethod o ho⟩

/-- The first method is the first one that the scan shows. -/
theorem FirstMethod.find? {t : List Char} {k : Token} {os : List Occurrence}
    (h : FirstMethod t k) (hos : positions t none false = .ok os) :
    os.find? (·.kind = .method) = some k.method := by
  obtain ⟨passed, ahead, htokens, hpassed, hkind⟩ := h
  rw [positions_all, htokens, mapM_eq_ok_iff] at hos
  clear htokens
  induction passed generalizing os with
  | nil =>
    cases hos with
    | @cons _ o _ os hk _ =>
      have ho : k.classified t = .ok k.method :=
        classified_eq_ok.2 ⟨hkind, rfl, rfl⟩
      rw [hk] at ho
      cases ho
      rfl
  | cons j passed ih =>
    cases hos with
    | @cons _ o _ os hj hos =>
      obtain ⟨kind, hj', hne⟩ := hpassed j (by simp)
      have hkind := (classified_eq_ok.1 hj).1
      rw [hj', Except.ok.injEq] at hkind
      rw [List.find?_cons_of_neg (by rw [← hkind]; simpa using hne)]
      exact ih hos fun k hk => hpassed k (List.mem_cons_of_mem _ hk)

/-- An edit does not mend a scan that fails. -/
theorem Edit.positions_ok {style : Style} {index : Nat} {t u : List Char}
    (h : Edit style index t u) (hu : ∃ os, positions u none false = .ok os) :
    ∃ os, positions t none false = .ok os := by
  obtain ⟨k, m, -, hm, -, rfl, rfl⟩ := h.frame
  rw [positions_ok_iff] at hu ⊢
  intro e he hnone
  obtain ⟨e', he', hnone'⟩ := m.none_mem_roles_locked hm _ _ _ ⟨e, he, hnone⟩
  exact hu e' he' hnone'

theorem Script.positions_ok {style : Style} {first n : Nat} {b : Nat → List Char}
    (h : Script style first n b) {i : Nat} (hi : i ≤ n) :
    ∃ os, positions (b i) none false = .ok os := by
  obtain ⟨k, rfl⟩ := Nat.exists_eq_add_of_le hi
  have back (j : Nat) (hj : j ≤ k) : ∃ os, positions (b (i + k - j)) none false = .ok os := by
    induction j with
    | zero =>
      obtain ⟨os, hos, -⟩ := settled_iff.1 h.settled
      exact ⟨os, hos⟩
    | succ j ih =>
      have hedit := h.edit (i + k - (j + 1)) (by omega)
      rw [show i + k - (j + 1) + 1 = i + k - j by omega] at hedit
      exact hedit.positions_ok (ih (by omega))
  have := back k (Nat.le_refl k)
  rwa [Nat.add_sub_cancel] at this

/-! ## A small source -/

/-- A class with two methods, a monitor and a comment. -/
def smallSource : List Char :=
  "package p; c\x7b synchronized a()\x7b synchronized (c)\x7b\x7d\x7d /* synchronized */ synchronized b()\x7b\x7d\x7d".toList

theorem exists_ok_of_any {α : Type} {x : Except Fault α} {p : α → Bool}
    (h : x.toOption.any p = true) : ∃ a, x = .ok a ∧ p a = true := by
  cases x with
  | error e => cases h
  | ok a => exact ⟨a, rfl, h⟩

theorem eq_ok_of_toOption {α : Type} {x : Except Fault α} {a : α} (h : x.toOption = some a) :
    x = .ok a := by
  cases x with
  | error e => cases h
  | ok b => cases h; rfl

/-- A conversion goes through if locks were made and the search for the package declaration ends. -/
theorem convert_of_finish {style : Style} {source : List Char} {d : Draft} {e : Option Nat}
    (hd : Draft.finish style source = .ok d) (hindex : d.index ≠ firstIndex)
    (hend : packageEnd? d.text = .ok e) : ∃ c, convert style source = .ok c ∧ c.changed = true := by
  unfold convert insertImport
  rw [hd]
  simp only [bind, Except.bind, if_neg hindex, hend]
  exact ⟨_, rfl, rfl⟩

theorem finish_smallSource : ∃ d, Draft.finish ⟨0, .stampedLock⟩ smallSource = .ok d ∧
    d.index = 3 ∧ packageEnd? d.text = .ok (some 10) ∧
    inLineComment d.text 9 = false ∧ afterQuote d.text 9 = false := by
  have h : (Draft.finish ⟨0, .stampedLock⟩ smallSource).toOption.any (fun d => d.index = 3 ∧
      (packageEnd? d.text).toOption = some (some 10) ∧
      inLineComment d.text 9 = false ∧ afterQuote d.text 9 = false) = true := by
    have chars : smallSource = _ := String.toList_ofList
    rewrite [chars]
    set_option maxRecDepth 4000 in
    with_unfolding_all decide
  obtain ⟨d, hd, h⟩ := exists_ok_of_any h
  obtain ⟨hindex, hend, hline, hquote⟩ := of_decide_eq_true h
  exact ⟨d, hd, hindex, eq_ok_of_toOption hend, hline, hquote⟩

theorem convert_smallSource : ∃ c, convert ⟨0, .stampedLock⟩ smallSource = .ok c ∧
    c.changed = true := by
  obtain ⟨d, hd, hindex, hend, -⟩ := finish_smallSource
  exact convert_of_finish hd (by rw [hindex]; decide) hend

end LockMigration.Conversion
