/-
Scans that begin behind a cursor. A cursor only leaves occurrences out: it does not change how the
text is read, so `positions` gives the occurrences of the whole text that start after the cursor, and
`firstPosition` gives the first of them. Searching again and again, with the cursor on what was found
last, goes through all occurrences, each of them once (`cursor_scans`). A keyword without a kind
makes the whole scan fail, but it is the last one, and a search meets it only after all the others.
-/
import LockMigration.Proofs.Java.Octets
import LockMigration.Proofs.Java.Tokens

namespace LockMigration.Java

open Text

attribute [local irreducible] keyword

/-! ## One search -/

theorem firstPosition_eq (t : List Char) (cursor : Option Nat) :
    firstPosition t cursor =
      match (tokens t).find? (fun k => isPast cursor k.start) with
      | none => .ok none
      | some k => (k.classified t).map some := by
  rw [← List.head?_filter]
  unfold firstPosition positions
  cases (tokens t).filter fun k => isPast cursor k.start with
  | nil => rfl
  | cons k ks =>
    simp only [if_true, List.take_succ_cons, List.take_zero, List.mapM_cons, List.mapM_nil,
      List.head?_cons]
    cases k.classified t <;> rfl

/-- The start of the occurrence as a byte offset lies after the byte cursor. -/
def Occurrence.isAfter (t : List Char) (after : Option Nat) (o : Occurrence) : Bool :=
  isPast after (o.byteSpan t).1

theorem isAfter_of_classified {t : List Char} {k : Token} {o : Occurrence} (hk : k ∈ tokens t)
    (h : k.classified t = .ok o) (after : Option Nat) :
    o.isAfter t after = isPast (after.map (position t)) k.start := by
  have hspan := span_of_mem_tokens hk
  rw [← isPast_position (by omega), ← (classified_eq_ok.1 h).2.1]
  rfl

section Classified

variable {t : List Char} {ks : List Token} {os : List Occurrence} (hmem : ∀ k ∈ ks, k ∈ tokens t)
  (h : List.Forall₂ (fun k o => k.classified t = .ok o) ks os) (after : Option Nat)
include hmem h

/-- A cursor leaves the same out of the tokens and of their occurrences. -/
theorem forall₂_filter_isPast :
    List.Forall₂ (fun k o => k.classified t = .ok o)
      (ks.filter fun k => isPast (after.map (position t)) k.start)
      (os.filter (Occurrence.isAfter t after)) := by
  induction h with
  | nil => exact .nil
  | @cons k o ks os hk _ ih =>
    have hpast := isAfter_of_classified (hmem k List.mem_cons_self) hk after
    have hrest := ih fun j hj => hmem j (List.mem_cons_of_mem k hj)
    rw [List.filter_cons, List.filter_cons, hpast]
    split
    · exact .cons hk hrest
    · exact hrest

/-- The first token after a cursor is that of the first occurrence after it. -/
theorem find?_isPast :
    (ks.find? (fun k => isPast (after.map (position t)) k.start) = none ∧
        os.find? (Occurrence.isAfter t after) = none) ∨
      ∃ k o, ks.find? (fun k => isPast (after.map (position t)) k.start) = some k ∧
        os.find? (Occurrence.isAfter t after) = some o ∧ k.classified t = .ok o := by
  have hfilter := forall₂_filter_isPast hmem h after
  rw [← List.head?_filter, ← List.head?_filter]
  generalize ks.filter _ = left at hfilter ⊢
  generalize os.filter _ = right at hfilter ⊢
  cases hfilter with
  | nil => exact .inl ⟨rfl, rfl⟩
  | cons hk _ => exact .inr ⟨_, _, rfl, rfl, hk⟩

end Classified

/-- With a cursor, the occurrences are those of the whole text that start after it. -/
theorem positions_after {t : List Char} {os : List Occurrence}
    (h : positions t none false = .ok os) (after : Option Nat) (onlyFirst : Bool) :
    positions t (after.map (position t)) onlyFirst =
      .ok (if onlyFirst then (os.filter (Occurrence.isAfter t after)).take 1
        else os.filter (Occurrence.isAfter t after)) := by
  have hfilter := forall₂_filter_isPast (fun _ hk => hk) (forall₂_of_positions h) after
  unfold positions
  cases onlyFirst with
  | false => exact mapM_eq_ok_iff.2 hfilter
  | true => exact mapM_eq_ok_iff.2 (List.forall₂_take 1 hfilter)

theorem firstPosition_after {t : List Char} {os : List Occurrence}
    (h : positions t none false = .ok os) (after : Option Nat) :
    firstPosition t (after.map (position t)) = .ok (os.find? (Occurrence.isAfter t after)) := by
  rw [firstPosition, positions_after h, if_pos rfl, ← List.head?_filter]
  show Except.ok _ = _
  rw [List.head?_take, if_neg Nat.one_ne_zero]

/-- Where the last token has no kind, a search gives the first of the other occurrences after the
cursor, and fails only if the cursor has passed all of them but not that token. -/
theorem firstPosition_failing {t : List Char} {ks : List Token} {k : Token} {os : List Occurrence}
    {e : Fault} (htokens : tokens t = ks ++ [k]) (hks : ks.mapM (Token.classified t) = .ok os)
    (hk : k.classified t = .error e) (after : Option Nat) :
    firstPosition t (after.map (position t)) =
      match os.find? (Occurrence.isAfter t after) with
      | some o => .ok (some o)
      | none => if isPast after (byteOffset t k.start) then .error e else .ok none := by
  have hmem : ∀ j ∈ ks, j ∈ tokens t := fun j hj => htokens ▸ List.mem_append_left [k] hj
  have hspan := span_of_mem_tokens (t := t) (k := k) (by rw [htokens]; simp)
  rw [firstPosition_eq, isPast_position (by omega), htokens, List.find?_append]
  rcases find?_isPast hmem (mapM_eq_ok_iff.1 hks) after with ⟨hnone, hnone'⟩ | ⟨j, o, hj, ho, hjo⟩
  · rw [hnone, hnone', Option.none_or, List.find?_singleton]
    cases isPast (after.map (position t)) k.start with
    | true => simp only [if_true, hk]; rfl
    | false => rfl
  · rw [hj, ho, Option.some_or]
    simp only [hjo]
    rfl

/-! ## One search after another -/

/-- The answers of a number of searches one after another. A search that finds an occurrence puts the
byte cursor on its start; one that finds none, or fails, leaves the cursor where it is. -/
def answers (t : List Char) : Nat → Option Nat → List (Except Fault (Option Occurrence))
  | 0, _ => []
  | n + 1, after =>
    let answer := firstPosition t (after.map (position t))
    match answer with
    | .ok (some o) => answer :: answers t n (some (o.byteSpan t).1)
    | _ => answer :: answers t n after

/-- The byte cursor that has passed the given tokens and no other. -/
def byteCursorAfter (t : List Char) (passed : List Token) : Option Nat :=
  (cursorAfter passed).map (byteOffset t)

theorem position_byteCursorAfter {t : List Char} {passed ahead : List Token}
    (h : tokens t = passed ++ ahead) :
    (byteCursorAfter t passed).map (position t) = cursorAfter passed := by
  unfold byteCursorAfter cursorAfter
  cases hlast : passed.getLast? with
  | none => rfl
  | some k =>
    have hspan := span_of_mem_tokens (t := t) (k := k)
      (by rw [h]; exact List.mem_append_left _ (List.mem_of_getLast? hlast))
    rw [Option.map_some, Option.map_some, Option.map_some, position_byteOffset t _ (by omega)]

/-- A search that finds nothing is repeated. -/
theorem answers_of_not_some {t : List Char} {after : Option Nat}
    {answer : Except Fault (Option Occurrence)}
    (h : firstPosition t (after.map (position t)) = answer) (hno : ∀ o, answer ≠ .ok (some o))
    (n : Nat) : answers t n after = List.replicate n answer := by
  induction n with
  | zero => rfl
  | succ n ih =>
    rw [answers, h, List.replicate_succ, ← ih]
    rcases answer with e | _ | o
    · rfl
    · rfl
    · exact absurd rfl (hno o)

/-- As long as the tokens have kinds, the searches give their occurrences one by one. -/
theorem answers_append {t : List Char} {passed ks ahead : List Token} {os : List Occurrence}
    (h : tokens t = passed ++ (ks ++ ahead))
    (hks : List.Forall₂ (fun k o => k.classified t = .ok o) ks os) (n : Nat) :
    answers t (os.length + n) (byteCursorAfter t passed) =
      os.map (fun o => Except.ok (some o)) ++ answers t n (byteCursorAfter t (passed ++ ks)) := by
  induction hks generalizing passed with
  | nil => rw [List.append_nil, List.length_nil, Nat.zero_add, List.map_nil, List.nil_append]
  | @cons k o ks os hk _ ih =>
    have hfound : firstPosition t ((byteCursorAfter t passed).map (position t)) = .ok (some o) := by
      rw [position_byteCursorAfter h, firstPosition_cons h, hk]
      rfl
    have hcursor : some (o.byteSpan t).1 = byteCursorAfter t (passed ++ [k]) := by
      rw [byteCursorAfter, cursorAfter, List.getLast?_concat, Option.map_some, Option.map_some,
        ← (classified_eq_ok.1 hk).2.1]
      rfl
    have hsplit : tokens t = (passed ++ [k]) ++ (ks ++ ahead) := by
      rw [h, List.append_assoc]
      rfl
    rw [List.length_cons, Nat.add_right_comm, answers, hfound]
    simp only [hcursor, ih hsplit, List.map_cons, List.cons_append, List.append_assoc,
      List.nil_append]

/-- Scans behind a cursor agree with the scan of the whole text. Where that one succeeds, a scan
behind a byte cursor gives the occurrences that start after it, or the first of them, and repeated
searches give every occurrence once and then nothing more. Where it fails, every occurrence but the
failing one, which is the last, is found in the same way. -/
theorem cursor_scans (t : List Char) :
    (∀ os, positions t none false = .ok os →
      (∀ after,
        positions t (after.map (position t)) false = .ok (os.filter (Occurrence.isAfter t after)) ∧
        positions t (after.map (position t)) true =
          .ok ((os.filter (Occurrence.isAfter t after)).take 1) ∧
        firstPosition t (after.map (position t)) =
          .ok (os.find? (Occurrence.isAfter t after))) ∧
      ∀ n, answers t (os.length + n) none =
        os.map (fun o => .ok (some o)) ++ List.replicate n (.ok none)) ∧
    ∀ e, positions t none false = .error e →
      ∃ ks k os, tokens t = ks ++ [k] ∧ ks.mapM (Token.classified t) = .ok os ∧
        k.classified t = .error e ∧
        (∀ after, firstPosition t (after.map (position t)) =
          match os.find? (Occurrence.isAfter t after) with
          | some o => .ok (some o)
          | none => if isPast after (byteOffset t k.start) then .error e else .ok none) ∧
        ∀ n, answers t (os.length + n) none =
          os.map (fun o => .ok (some o)) ++ List.replicate n (.error e) := by
  constructor
  · intro os h
    refine ⟨fun after => ⟨?_, ?_, firstPosition_after h after⟩, fun n => ?_⟩
    · exact positions_after h after false
    · exact positions_after h after true
    · have htokens : tokens t = [] ++ (tokens t ++ []) := by
        rw [List.nil_append, List.append_nil]
      refine (answers_append htokens (forall₂_of_positions h) n).trans (congrArg _ ?_)
      refine answers_of_not_some ?_ (by simp) n
      rw [List.nil_append, position_byteCursorAfter (List.append_nil _).symm]
      exact firstPosition_nil rfl
  · intro e h
    obtain ⟨ks, k, os, htokens, hks, hk⟩ := positions_eq_error h
    refine ⟨ks, k, os, htokens, hks, hk, firstPosition_failing htokens hks hk, fun n => ?_⟩
    have hsplit : tokens t = [] ++ (ks ++ [k]) := htokens
    refine (answers_append hsplit (mapM_eq_ok_iff.1 hks) n).trans (congrArg _ ?_)
    refine answers_of_not_some ?_ (by simp) n
    rw [List.nil_append, position_byteCursorAfter htokens, firstPosition_cons htokens, hk]
    rfl

/-- Two keywords behind a letter of two bytes. -/
def accentedKeywords : List Char :=
  "é synchronized b; synchronized(c)".toList

/-- The same with a keyword at the end that has no kind. -/
def openEnd : List Char :=
  accentedKeywords ++ " synchronized ".toList

theorem cursor_scans_accentedKeywords :
    positions accentedKeywords none false = .ok [⟨1, 15, .method⟩, ⟨17, 31, .monitor⟩] ∧
      firstPosition accentedKeywords ((some 1).map (position accentedKeywords)) =
        .ok (some ⟨1, 15, .method⟩) ∧
      positions accentedKeywords ((some 2).map (position accentedKeywords)) false =
        .ok [⟨17, 31, .monitor⟩] ∧
      answers accentedKeywords 4 none = [.ok (some ⟨1, 15, .method⟩),
        .ok (some ⟨17, 31, .monitor⟩), .ok none, .ok none] ∧
      positions openEnd none false = .error (.unclassifiable 34) ∧
      answers openEnd 3 none = [.ok (some ⟨1, 15, .method⟩), .ok (some ⟨17, 31, .monitor⟩),
        .error (.unclassifiable 34)] := by
  have chars : accentedKeywords = _ := String.toList_ofList
  have hok : positions accentedKeywords none false =
      .ok [⟨1, 15, .method⟩, ⟨17, 31, .monitor⟩] := by
    rewrite [chars]
    with_unfolding_all decide
  have herror : positions openEnd none false = .error (.unclassifiable 34) := by
    rewrite [openEnd, chars]
    with_unfolding_all decide
  have htokens : tokens openEnd = [⟨1, 2, 15⟩, ⟨17, 18, 31⟩] ++ [⟨33, 34, 47⟩] := by
    rewrite [openEnd, chars]
    with_unfolding_all decide
  have hkinds : [⟨1, 2, 15⟩, ⟨17, 18, 31⟩].mapM (Token.classified openEnd) =
      .ok [⟨1, 15, .method⟩, ⟨17, 31, .monitor⟩] := by
    rewrite [openEnd, chars]
    decide
  obtain ⟨hafter, hanswers⟩ := (cursor_scans accentedKeywords).1 _ hok
  obtain ⟨ks, k, os, hsplit, hks, -, -, hfailing⟩ := (cursor_scans openEnd).2 _ herror
  obtain ⟨rfl, -⟩ := List.append_inj' (hsplit.symm.trans htokens) rfl
  obtain rfl := Except.ok.inj (hks.symm.trans hkinds)
  exact ⟨hok, (hafter (some 1)).2.2, (hafter (some 2)).1, hanswers 2, herror, hfailing 1⟩

end LockMigration.Java
