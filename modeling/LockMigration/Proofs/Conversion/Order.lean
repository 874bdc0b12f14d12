/-
The locks of a plain source, in order. Every edit gives the next lock to the first method that is
left, and carries the others along, so the locks go to the methods of the source one after the
other. The fields of a lock end with a delimiter, and the members of later methods begin behind
it, so the fields stand in the same order. Monitors and comments are neither lost nor made.
-/
import LockMigration.Proofs.Conversion.Carry
import LockMigration.Proofs.Conversion.Import
import LockMigration.Proofs.Conversion.Script
import Mathlib.Data.List.Count

namespace LockMigration.Conversion

open Text Java

attribute [local irreducible] keyword

/-! ## The first method among the roles -/

theorem FirstMethod.roles {t : List Char} {k : Token} (h : FirstMethod t k) :
    ∃ A B, roles t = A ++ (k.method.keyword t, some .method) :: B ∧
      ∀ e ∈ A, e.2 ≠ some .method := by
  obtain ⟨passed, ahead, htokens, hpassed, hkind⟩ := h
  obtain ⟨before, b, l, rest, hp⟩ := parts_of_mem_tokens (by rw [htokens]; simp : k ∈ tokens t)
  rw [hp.method_keyword, ← tokens_roles, htokens, List.map_append, List.map_cons, hkind]
  refine ⟨_, _, rfl, fun e he => ?_⟩
  obtain ⟨j, hj, rfl⟩ := List.mem_map.1 he
  obtain ⟨kind, hkind, hne⟩ := hpassed j hj
  rw [hkind]
  simpa [Except.toOption] using hne

/-- Two splits of a list with increasing positions at the same position are the same. -/
theorem split_unique {A A' B B' : List (Nat × Option Kind)} {i : Nat} {x x' : Option Kind}
    (hp : (A ++ (i, x) :: B).Pairwise (fun a b => a.1 < b.1))
    (h : A ++ (i, x) :: B = A' ++ (i, x') :: B') : A = A' ∧ B = B' := by
  have hfilter {C D : List (Nat × Option Kind)} {z : Option Kind}
      (hp : (C ++ (i, z) :: D).Pairwise (fun a b => a.1 < b.1)) :
      (C ++ (i, z) :: D).filter (fun e => e.1 < i) = C := by
    obtain ⟨-, hD, hC⟩ := List.pairwise_append.1 hp
    rw [List.filter_append, List.filter_eq_self.2 fun e he => by simpa using hC e he (i, z) (by simp),
      List.filter_eq_nil_iff.2 fun e he => ?_, List.append_nil]
    rcases List.mem_cons.1 he with rfl | he
    · simp
    · have := List.rel_of_pairwise_cons hD he
      simp only at this
      simp only [decide_eq_true_eq]
      omega
  have hA : A = A' := by rw [← hfilter hp, h, hfilter (h ▸ hp)]
  subst hA
  exact ⟨rfl, (List.cons.inj (List.append_cancel_left h)).2⟩

section Edit

variable {style : Style} {index : Nat} {t u : List Char} {k : Token}

/-- An edit of a smooth text takes its first method out of the roles and carries the others. -/
theorem roles_edit (hs : Smooth t) (hk : FirstMethod t k)
    (h : lockMethod style.locker t k.method index style.indent = .ok u) :
    ∃ A B, roles t = A ++ (k.method.keyword t, some .method) :: B ∧
      (∀ e ∈ A, e.2 ≠ some .method) ∧
      roles u = (A ++ B).map fun e => (carried style index t k.method e.1, e.2) := by
  obtain ⟨A, B, hroles, hA⟩ := hk.roles
  obtain ⟨m, hm, hf, rfl, rfl⟩ := hk.frame h
  obtain ⟨A', B', hroles', hcarried⟩ := Frame.roles_carried hm hf hs style index
  have hpair := pairwise_rolesFrom 0 .start m.text []
  rw [← roles, hroles] at hpair
  obtain ⟨rfl, rfl⟩ := split_unique hpair (hroles.symm.trans hroles')
  exact ⟨A, B, hroles, hA, hcarried hA⟩

/-- The positions of the keywords of methods. -/
def methods (t : List Char) : List Nat :=
  ((roles t).filter (·.2 = some .method)).map Prod.fst

/-- The first method goes, and the others are carried. -/
theorem methods_edit (hs : Smooth t) (hk : FirstMethod t k)
    (h : lockMethod style.locker t k.method index style.indent = .ok u) :
    ∃ rest, methods t = k.method.keyword t :: rest ∧
      methods u = rest.map (carried style index t k.method) := by
  obtain ⟨A, B, hroles, hA, hcarried⟩ := roles_edit hs hk h
  have hnone : A.filter (·.2 = some .method) = [] :=
    List.filter_eq_nil_iff.2 fun e he => by simpa using hA e he
  refine ⟨(B.filter (·.2 = some .method)).map Prod.fst, ?_, ?_⟩
  · rw [methods, hroles, List.filter_append, hnone, List.nil_append,
      List.filter_cons_of_pos (by simp), List.map_cons]
  · rw [methods, hcarried, List.filter_map, List.filter_append]
    simp only [Function.comp_def]
    rw [hnone, List.nil_append, List.map_map, List.map_map]
    rfl

/-- An edit keeps the number of tokens of every other kind. -/
theorem count_edit (hs : Smooth t) (hk : FirstMethod t k)
    (h : lockMethod style.locker t k.method index style.indent = .ok u) {kind : Kind}
    (hne : kind ≠ .method) :
    ((roles u).map Prod.snd).count (some kind) = ((roles t).map Prod.snd).count (some kind) := by
  obtain ⟨A, B, hroles, -, hcarried⟩ := roles_edit hs hk h
  rw [hcarried, hroles, List.map_map, List.map_append, List.map_append, List.map_cons,
    List.count_append, List.count_append, List.count_cons_of_ne (by simpa using hne.symm)]
  rfl

/-- The keyword of a method that is left stands behind the fields. -/
theorem lt_keyword_of_edit (hs : Smooth t) (hk : FirstMethod t k)
    (h : lockMethod style.locker t k.method index style.indent = .ok u) {k' : Token}
    (hk' : FirstMethod u k') :
    memberStart t k.method + (style.locker.declarations index style.indent).length ≤
      k'.method.keyword u := by
  obtain ⟨A, B, hroles, hA, hcarried⟩ := roles_edit hs hk h
  obtain ⟨A', B', hroles', -⟩ := hk'.roles
  have hmem : (k'.method.keyword u, some .method) ∈ roles u := by rw [hroles']; simp
  rw [hcarried] at hmem
  obtain ⟨e, he, hpos⟩ := List.mem_map.1 hmem
  obtain ⟨hpos, hkind⟩ := Prod.mk.inj hpos
  -- what stood before the first method was no method
  have heB : e ∈ B := (List.mem_append.1 he).resolve_left fun heA => hA e heA hkind
  have hlt : k.method.keyword t < e.1 := by
    have hpair := pairwise_rolesFrom 0 .start t []
    rw [← roles, hroles] at hpair
    exact List.rel_of_pairwise_cons (List.pairwise_append.1 hpair).2.1 heB
  obtain ⟨m, hm, hf, rfl, rfl⟩ := hk.frame h
  have hstart := hf.start
  have hword := hf.word
  simp only [List.length_append] at hstart hword
  rw [← hpos, m.carried_eq hf, hf.pos, if_neg (by omega), if_neg (by omega)]
  split
  · omega
  · split <;> omega

/-- The member of a method that is left begins behind the fields, or between their last delimiter
and the line break after it. -/
theorem memberStart_of_edit (hs : Smooth t) (hk : FirstMethod t k)
    (h : lockMethod style.locker t k.method index style.indent = .ok u) {k' : Token}
    (hk' : FirstMethod u k') :
    memberStart t k.method + (style.locker.declarations index style.indent).dropLast.length ≤
      memberStart u k'.method := by
  have hle := lt_keyword_of_edit hs hk h hk'
  obtain ⟨m, hm, hf, rfl, rfl⟩ := hk.frame h
  obtain ⟨w, hw⟩ := style.locker.declarations_ends index style.indent
  have hlen : (style.locker.declarations index style.indent).dropLast.length =
      ('\n' :: w).length + 1 ∧ (style.locker.declarations index style.indent).length =
        ('\n' :: w).length + 2 := by
    rw [List.length_dropLast, hw]
    simp
  have htext : ∃ y, m.locked style.locker index style.indent = (m.before ++ '\n' :: w) ++ ';' :: y :=
    ⟨_, by simp only [Frame.locked, hw, List.append_assoc, List.cons_append]; rfl⟩
  obtain ⟨y, hy⟩ := htext
  have hchar : (m.locked style.locker index style.indent)[(m.before ++ '\n' :: w).length]? =
      some ';' := by
    rw [hy, List.getElem?_append_right (Nat.le_refl _), Nat.sub_self]
    rfl
  -- the last delimiter of the fields is not in a comment
  have hdelim : DelimiterAt (m.locked style.locker index style.indent)
      (m.before ++ '\n' :: w).length := by
    have hquiet : ∀ c ∈ '\n' :: w, isQuiet c = true := fun c hc =>
      style.locker.quiet_declarations index style.indent c (by
        rw [hw, ← List.cons_append]; exact List.mem_append_left _ hc)
    obtain ⟨-, hblock, hslashes, -⟩ := read_quiet hquiet (by simp) .start
    refine ⟨⟨';', hchar, by decide⟩, ?_⟩
    rw [hy, inComment_eq (by decide) (by decide), Reading.read_append, m.read_before hm hf hs,
      hblock, hslashes]
    simp [Reading.start]
  obtain ⟨passed', ahead', htokens', -, -⟩ := id hk'
  have hmem : k' ∈ tokens (m.locked style.locker index style.indent) := by rw [htokens']; simp
  obtain ⟨before, b, l, rest, hp⟩ := parts_of_mem_tokens hmem
  rw [hf.pos, hp.method_keyword] at hle
  have hlt := lt_start_of_lt_keyword hmem hchar (by decide) (by rw [List.length_append]; omega)
  -- no later annotation or delimiter can take the member back before it
  have hsign := (m.smooth_locked hm style.locker index style.indent hs).not_mem_sign
  have := (memberStart_of_no_sign hsign k'.method).2 _ hdelim
    (by rw [List.length_append, List.length_cons]; omega) hlt
  rw [List.length_append] at this
  rw [hf.pos]
  omega

/-- An edit leaves the text before the member as it is and puts the fields behind it. -/
theorem take_edit (hk : FirstMethod t k)
    (h : lockMethod style.locker t k.method index style.indent = .ok u) :
    u.take (memberStart t k.method) = t.take (memberStart t k.method) ∧
      style.locker.declarations index style.indent <+: u.drop (memberStart t k.method) := by
  obtain ⟨m, hm, hf, rfl, rfl⟩ := hk.frame h
  rw [hf.pos]
  unfold Frame.locked Frame.text
  simp only [List.append_assoc, List.take_left, List.drop_left]
  exact ⟨trivial, List.prefix_append _ _⟩

theorem carried_lt_edit (hk : FirstMethod t k)
    (h : lockMethod style.locker t k.method index style.indent = .ok u) {p q : Nat}
    (hp : p < k.method.start ∨ k.method.stop ≤ p) (hq : q < k.method.start ∨ k.method.stop ≤ q)
    (hlt : p < q) : carried style index t k.method p < carried style index t k.method q := by
  obtain ⟨m, hm, hf, rfl, rfl⟩ := hk.frame h
  exact m.carried_lt_carried hf style index hp hq hlt

theorem getElem?_edit (hk : FirstMethod t k)
    (h : lockMethod style.locker t k.method index style.indent = .ok u) {q : Nat}
    (hq : q < k.method.start ∨ k.method.stop ≤ q) :
    u[carried style index t k.method q]? = t[q]? := by
  obtain ⟨m, hm, hf, rfl, rfl⟩ := hk.frame h
  exact m.getElem?_carried hf style index hq

end Edit

/-! ## A whole script -/

/-- Text that ends before `q` stays where it is while the first `q` characters do. -/
theorem standing_of_take {x t u : List Char} {p q : Nat} (h : x <+: t.drop p)
    (hle : p + x.length ≤ q) (htake : u.take q = t.take q) : x <+: u.drop p := by
  have hcut (w : List Char) : (w.drop p).take x.length = ((w.take q).take (p + x.length)).drop p := by
    rw [List.take_take, Nat.min_eq_left hle, List.drop_take, Nat.add_sub_cancel_left]
  rw [List.prefix_iff_eq_take] at h ⊢
  rw [hcut, htake, ← hcut]
  exact h

theorem Edit.smooth {style : Style} {index : Nat} {t u : List Char} (h : Edit style index t u)
    (hs : Smooth t) : Smooth u := by
  obtain ⟨k, m, -, hm, -, rfl, rfl⟩ := h.frame
  exact m.smooth_locked hm _ _ _ hs

/-- Where position `q` of the first of the texts is found after `i` edits. -/
def moved (style : Style) (b : Nat → List Char) (o : Nat → Occurrence) : Nat → Nat → Nat
  | 0, q => q
  | i + 1, q => carried style (i + 1) (b i) (o i) (moved style b o i q)

namespace Script

variable {style : Style} {n : Nat} {b : Nat → List Char}

theorem smooth (h : Script style firstIndex n b) (h0 : Smooth (b 0)) {i : Nat} (hi : i ≤ n) :
    Smooth (b i) := by
  induction i with
  | zero => exact h0
  | succ i ih => exact (h.edit i (by omega)).smooth (ih (by omega))

/-- A script keeps the number of tokens of every kind but methods. -/
theorem count (h : Script style firstIndex n b) (h0 : Smooth (b 0)) {kind : Kind}
    (hne : kind ≠ .method) {i : Nat} (hi : i ≤ n) :
    ((roles (b i)).map Prod.snd).count (some kind) =
      ((roles (b 0)).map Prod.snd).count (some kind) := by
  induction i with
  | zero => rfl
  | succ i ih =>
    obtain ⟨k, hk, hlock⟩ := h.edit i (by omega)
    rw [count_edit (h.smooth h0 (by omega)) hk hlock hne, ih (by omega)]

variable {k : Nat → Token} (h0 : Smooth (b 0)) (hfirst : ∀ i < n, FirstMethod (b i) (k i))
  (hlock : ∀ i < n, lockMethod style.locker (b i) (k i).method (i + 1) style.indent =
    .ok (b (i + 1)))
include h0 hfirst hlock

/-- After `i` edits the first `i` methods are gone, and the others are where they were carried. -/
theorem methods_eq (h : Script style firstIndex n b) {i : Nat} (hi : i ≤ n) :
    methods (b i) = ((methods (b 0)).drop i).map (moved style b (fun i => (k i).method) i) := by
  induction i with
  | zero => exact (List.map_id _).symm
  | succ i ih =>
    obtain ⟨rest, hrest, hnext⟩ :=
      methods_edit (h.smooth h0 (by omega)) (hfirst i (by omega)) (hlock i (by omega))
    -- the method that is edited is the head, and what is left moves on
    have htail : rest = ((methods (b 0)).drop (i + 1)).map (moved style b (fun i => (k i).method) i) := by
      rw [← List.tail_drop, List.map_tail, ← ih (by omega), hrest, List.tail_cons]
    rw [hnext, htail, List.map_map]
    rfl

/-- Every method of the source is edited, and nothing else. -/
theorem length_methods (h : Script style firstIndex n b) : (methods (b 0)).length = n := by
  have hle : (methods (b 0)).length ≤ n := by
    have hnone : methods (b n) = [] := by
      rw [methods, List.map_eq_nil_iff, List.filter_eq_nil_iff]
      exact fun e he => by simpa using (settled_iff_roles.1 h.settled e he).2
    rw [h.methods_eq h0 hfirst hlock (Nat.le_refl n), List.map_eq_nil_iff, List.drop_eq_nil_iff]
      at hnone
    exact hnone
  by_contra hne
  -- the edit after the last method of the source would have nothing to edit
  have hlt : (methods (b 0)).length < n := by omega
  obtain ⟨rest, hrest, -⟩ :=
    methods_edit (h.smooth h0 (Nat.le_of_lt hlt)) (hfirst _ hlt) (hlock _ hlt)
  rw [h.methods_eq h0 hfirst hlock (Nat.le_of_lt hlt), List.drop_length] at hrest
  cases hrest

/-- The keyword that goes in edit `i` is the one of method `i`. -/
theorem keyword_eq_moved (h : Script style firstIndex n b) {i : Nat} (hi : i < n) :
    ∃ q, (methods (b 0))[i]? = some q ∧
      (k i).method.keyword (b i) = moved style b (fun i => (k i).method) i q := by
  obtain ⟨rest, hrest, -⟩ :=
    methods_edit (h.smooth h0 (Nat.le_of_lt hi)) (hfirst i hi) (hlock i hi)
  have hlt : i < (methods (b 0)).length := by rwa [h.length_methods h0 hfirst hlock]
  rw [h.methods_eq h0 hfirst hlock (Nat.le_of_lt hi), List.drop_eq_getElem_cons hlt,
    List.map_cons] at hrest
  exact ⟨_, List.getElem?_eq_getElem hlt, (List.cons.inj hrest).1.symm⟩

/-- Later members begin behind the fields of earlier locks. -/
theorem memberStart_le (h : Script style firstIndex n b) {i j : Nat} (hij : i < j) (hj : j < n) :
    memberStart (b i) (k i).method +
        (style.locker.declarations (i + 1) style.indent).dropLast.length ≤
      memberStart (b j) (k j).method := by
  have hstep {i : Nat} (hi : i + 1 < n) :=
    memberStart_of_edit (h.smooth h0 (by omega)) (hfirst i (by omega)) (hlock i (by omega))
      (hfirst (i + 1) hi)
  induction j, hij using Nat.le_induction with
  | base => exact hstep hj
  | succ j hij ih => exact (ih (by omega)).trans ((Nat.le_add_right _ _).trans (hstep hj))

/-- The fields of a lock stay where they were put. -/
theorem standing_fields (h : Script style firstIndex n b) {i j : Nat} (hij : i < j) (hj : j ≤ n) :
    (style.locker.declarations (i + 1) style.indent).dropLast <+:
      (b j).drop (memberStart (b i) (k i).method) := by
  induction j, hij using Nat.le_induction with
  | base => exact (List.dropLast_prefix _).trans (take_edit (hfirst i hj) (hlock i hj)).2
  | succ j hij ih =>
    exact standing_of_take (ih (by omega)) (h.memberStart_le h0 hfirst hlock hij hj)
      (take_edit (hfirst j hj) (hlock j hj)).1

end Script

/-! ## What the scans show -/

theorem methods_of_positions {t : List Char} {os : List Occurrence}
    (h : positions t none false = .ok os) :
    methods t = (os.filter (·.kind = .method)).map (·.keyword t) := by
  rw [methods, roles_of_positions h, List.filter_map, List.map_map]
  simp only [Function.comp_def, Option.some.injEq]

theorem count_of_positions {t : List Char} {os : List Occurrence}
    (h : positions t none false = .ok os) (kind : Kind) :
    ((roles t).map Prod.snd).count (some kind) = (os.map (·.kind)).count kind := by
  rw [roles_of_positions h, List.map_map,
    ← List.count_map_of_injective (os.map (·.kind)) some fun _ _ => Option.some.inj,
    List.map_map]
  rfl

/-- The import of a smooth text changes no kind. -/
theorem kinds_insertImport {l : Locker} {t u : List Char} (h : insertImport l t = .ok u)
    (hs : Smooth t) : (roles u).map Prod.snd = (roles t).map Prod.snd := by
  rcases insertImport_eq_ok h with ⟨-, rfl⟩ | ⟨x, y, rfl, -, rfl⟩
  · exact kinds_import_top l hs.not_keyword
  · obtain ⟨hslashes, hquote⟩ := hs.calm (.of_head not_mem_keyword_semicolon)
    refine kinds_import_after l ?_ ?_
    · rw [inLineComment_eq (by decide), hslashes, Bool.and_false]
    · rw [afterQuote_eq, hquote]

/-- The course of a conversion that gives the methods `ms` of the source their locks: `b i` is the
text with `i` of them, and `o i` the method in it that is next. -/
structure InOrder (style : Style) (source : List Char) (ms : List Occurrence)
    (b : Nat → List Char) (o : Nat → Occurrence) : Prop where
  start : b 0 = source
  /-- The texts are those that the loop goes through. -/
  run : ∀ i ≤ ms.length, ∃ s, Draft.run style s (.start source) = .ok ⟨b i, none, i + 1⟩
  lock : ∀ i < ms.length, lockMethod style.locker (b i) (o i) (i + 1) style.indent = .ok (b (i + 1))
  /-- The next method is the first one that is left. -/
  first : ∀ i < ms.length, ∃ os, positions (b i) none false = .ok os ∧
    os.find? (·.kind = .method) = some (o i)
  /-- It is method `i` of the source, moved by the edits before it. -/
  same : ∀ i, ∀ a ∈ ms[i]?, (o i).keyword (b i) = moved style b o i (a.keyword source)
  /-- An edit moves the characters around its method, and changes none. -/
  moves : ∀ i < ms.length, ∀ q, q < (o i).start ∨ (o i).stop ≤ q →
    (b (i + 1))[carried style (i + 1) (b i) (o i) q]? = (b i)[q]?
  /-- It moves them in their order. -/
  mono : ∀ i < ms.length, ∀ p q, p < (o i).start ∨ (o i).stop ≤ p →
    q < (o i).start ∨ (o i).stop ≤ q → p < q →
      carried style (i + 1) (b i) (o i) p < carried style (i + 1) (b i) (o i) q
  /-- The fields of every lock, up to their last line break, stand in the last text. -/
  fields : ∀ i < ms.length, (style.locker.declarations (i + 1) style.indent).dropLast <+:
    (b ms.length).drop (memberStart (b i) (o i))
  order : ∀ i j, i < j → j < ms.length → memberStart (b i) (o i) < memberStart (b j) (o j) ∧
    memberStart (b i) (o i) + (style.locker.declarations (i + 1) style.indent).dropLast.length ≤
      memberStart (b j) (o j)

theorem Script.inOrder {style : Style} {n : Nat} {b : Nat → List Char} {os : List Occurrence}
    (h : Script style firstIndex n b) (h0 : Smooth (b 0)) (hos : positions (b 0) none false = .ok os) :
    (os.filter (·.kind = .method)).length = n ∧
      ∃ o, InOrder style (b 0) (os.filter (·.kind = .method)) b o := by
  have : Inhabited Token := ⟨⟨0, 0, 0⟩⟩
  choose! k hk using h.edit
  have hfirst : ∀ i < n, FirstMethod (b i) (k i) := fun i hi => (hk i hi).1
  have hlock : ∀ i < n, lockMethod style.locker (b i) (k i).method (i + 1) style.indent =
      .ok (b (i + 1)) := fun i hi => by
    have := (hk i hi).2
    rwa [firstIndex, Nat.add_comm 1] at this
  have hmethods := methods_of_positions hos
  have hlen : (os.filter (·.kind = .method)).length = n := by
    rw [← h.length_methods h0 hfirst hlock, hmethods, List.length_map]
  refine ⟨hlen, fun i => (k i).method, rfl, ?_, ?_, ?_, fun i a ha => ?_, ?_, ?_, ?_, ?_⟩
  all_goals try rw [hlen]
  · intro i hi
    obtain ⟨s, hs⟩ := h.run hi
    exact ⟨s, by rw [Nat.add_comm i]; exact hs 0⟩
  · exact hlock
  · intro i hi
    obtain ⟨os, hos⟩ := h.positions_ok (Nat.le_of_lt hi)
    exact ⟨os, hos, (hfirst i hi).find? hos⟩
  · have hi : i < n := by
      rw [← hlen]
      exact (List.getElem?_eq_some_iff.1 ha).1
    obtain ⟨q, hq, hsame⟩ := h.keyword_eq_moved h0 hfirst hlock hi
    rw [hmethods, List.getElem?_map, ha, Option.map_some, Option.some.injEq] at hq
    rw [hsame, hq]
  · exact fun i hi q hq => getElem?_edit (hfirst i hi) (hlock i hi) hq
  · exact fun i hi p q hp hq => carried_lt_edit (hfirst i hi) (hlock i hi) hp hq
  · exact fun i hi => h.standing_fields h0 hfirst hlock hi (Nat.le_refl n)
  · intro i j hij hj
    have hle := h.memberStart_le h0 hfirst hlock hij hj
    obtain ⟨w, hw⟩ := style.locker.declarations_ends (i + 1) style.indent
    have hpos : 0 < (style.locker.declarations (i + 1) style.indent).dropLast.length := by
      rw [List.length_dropLast, hw]
      simp
    exact ⟨by omega, hle⟩

/-- What the scan of the result shows: no methods, and as many tokens of another kind as before. -/
theorem Script.positions_result {style : Style} {n : Nat} {b : Nat → List Char} {u : List Char}
    {os : List Occurrence} (h : Script style firstIndex n b) (h0 : Smooth (b 0))
    (hos : positions (b 0) none false = .ok os)
    (hkinds : (roles u).map Prod.snd = (roles (b n)).map Prod.snd) :
    ∃ os', positions u none false = .ok os' ∧ (∀ a ∈ os', a.kind ≠ .method) ∧
      ∀ kind, kind ≠ .method → (os'.map (·.kind)).count kind = (os.map (·.kind)).count kind := by
  obtain ⟨os', hos', hmethod⟩ := settled_iff.1 (settled_of_kinds hkinds h.settled)
  refine ⟨os', hos', hmethod, fun kind hne => ?_⟩
  rw [← count_of_positions hos', ← count_of_positions hos, hkinds, h.count h0 hne (Nat.le_refl n)]

/-- A conversion of a plain source goes through the methods of the source in their order and gives
every one of them a lock, numbered from one. The fields of the locks end up in the same order, and
the scan of the result shows no method, and as many monitors and comments as the scan of the
source. -/
theorem convert_locks_in_order {style : Style} {source : List Char} {c : Content}
    (hplain : Plain source) (h : convert style source = .ok c) :
    ∃ os ms b o cursor os', positions source none false = .ok os ∧
      ms = os.filter (·.kind = .method) ∧ InOrder style source ms b o ∧
      Draft.finish style source = .ok ⟨b ms.length, cursor, ms.length + 1⟩ ∧
      positions c.text none false = .ok os' ∧ (∀ a ∈ os', a.kind ≠ .method) ∧
      (os'.map (·.kind)).count .monitor = (os.map (·.kind)).count .monitor ∧
      (os'.map (·.kind)).count .comment = (os.map (·.kind)).count .comment := by
  obtain ⟨n, b, cursor, rfl, hs, hfinish, hc⟩ := convert_eq_ok h
  have h0 := hplain.smooth
  obtain ⟨os, hos⟩ := hs.positions_ok (Nat.zero_le n)
  obtain ⟨hlen, o, horder⟩ := hs.inOrder h0 hos
  have hkinds : (roles c.text).map Prod.snd = (roles (b n)).map Prod.snd := by
    rcases hc with ⟨rfl, rfl⟩ | ⟨-, -, himport⟩
    · rfl
    · exact kinds_insertImport himport (hs.smooth h0 (Nat.le_refl n))
  obtain ⟨os', hos', hmethod, hcount⟩ := hs.positions_result h0 hos hkinds
  refine ⟨os, _, b, o, cursor, os', hos, rfl, horder, ?_, hos', hmethod, hcount _ (by decide),
    hcount _ (by decide)⟩
  rw [hlen, Nat.add_comm n]
  exact hfinish

/-- A source with a monitor in its first method and a comment before its second one. -/
theorem convert_locks_in_order_smallSource : ∃ c b o cursor os', Plain smallSource ∧
    convert ⟨0, .stampedLock⟩ smallSource = .ok c ∧
      InOrder ⟨0, .stampedLock⟩ smallSource [⟨13, 27, .method⟩, ⟨70, 84, .method⟩] b o ∧
      Draft.finish ⟨0, .stampedLock⟩ smallSource = .ok ⟨b 2, cursor, 3⟩ ∧
      positions c.text none false = .ok os' ∧ (∀ a ∈ os', a.kind ≠ .method) ∧
      (os'.map (·.kind)).count .monitor = 1 ∧ (os'.map (·.kind)).count .comment = 1 := by
  have chars : smallSource = _ := String.toList_ofList
  have hplain : Plain smallSource := by
    rewrite [chars]
    set_option maxRecDepth 2000 in
    refine ⟨?_, ?_, ?_, ?_⟩ <;> with_unfolding_all decide
  have hscan : (positions smallSource none false).toOption = some
      [⟨13, 27, .method⟩, ⟨31, 45, .monitor⟩, ⟨54, 68, .comment⟩, ⟨70, 84, .method⟩] := by
    rewrite [chars]
    with_unfolding_all decide
  obtain ⟨c, h, -⟩ := convert_smallSource
  obtain ⟨os, ms, b, o, cursor, os', hos, rfl, horder, hfinish, hos', hmethod, hmonitor, hcomment⟩ :=
    convert_locks_in_order hplain h
  rw [hos] at hscan
  cases hscan
  exact ⟨c, b, o, cursor, os', hplain, h, horder, hfinish, hos', hmethod, hmonitor, hcomment⟩

end LockMigration.Conversion
