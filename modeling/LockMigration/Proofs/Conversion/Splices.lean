/-
A conversion is a script of splices, each described on the text it is made in: the fields go where
the member begins, blanks take the place of the keyword, and the guard goes inside the braces of
the body. Nothing else is lost: the result has one keyword less for each splice, and the rest of
the source is still there but for its blanks.
-/
import LockMigration.Proofs.Conversion.Import
import LockMigration.Proofs.Conversion.Script

namespace LockMigration.Conversion

open Text Java

attribute [local irreducible] keyword

/-! ## One splice -/

/-- The text `u` is `t` with lock `index` on its first method. The places are all looked up in
`t`: `o` is the first method that the scan of `t` shows, `opening` and `closing` are the braces
of its body, and the fields go to the start of its member. -/
def Spliced (style : Style) (index : Nat) (t u : List Char) : Prop :=
  ∃ os o opening closing sep, positions t none false = .ok os ∧
    os.find? (·.kind = .method) = some o ∧
    openBrace t o = .ok opening ∧ closeBrace t o = .ok closing ∧
    memberStart t o ≤ o.start ∧ o.start < o.stop ∧ o.stop ≤ opening ∧ opening < closing ∧
    sep ≠ [] ∧ (∀ c ∈ sep, isBlank c = true) ∧
    u = t.take (memberStart t o) ++ style.locker.declarations index style.indent ++
      slice t (memberStart t o) o.start ++ sep ++ slice t o.stop (opening + 1) ++
      style.locker.openTry index style.indent ++ slice t (opening + 1) closing ++
      style.locker.closeTry index style.indent ++ t.drop closing

/-- A frame cut at the positions of its parts. -/
theorem Frame.locked_eq_splices {m : Frame} {o : Occurrence} (h : m.Found o) (l : Locker)
    (index indent : Nat) :
    m.locked l index indent =
      m.text.take (memberStart m.text o) ++ l.declarations index indent ++
        slice m.text (memberStart m.text o) o.start ++ separator m.lead ++
        slice m.text o.stop (o.stop + m.head.length + 1) ++ l.openTry index indent ++
        slice m.text (o.stop + m.head.length + 1) (o.stop + m.head.length + 1 + m.body.length) ++
        l.closeTry index indent ++ m.text.drop (o.stop + m.head.length + 1 + m.body.length) := by
  obtain ⟨w, hw⟩ : ∃ w, m.before ++ m.member ++ m.lead ++ keyword ++ m.trail = w := ⟨_, rfl⟩
  have hstop : o.stop = w.length := by rw [h.stop, hw]
  have hopen : o.stop + m.head.length + 1 = (w ++ (m.head ++ ['{'])).length := by
    rw [hstop]
    simp only [List.length_append, List.length_singleton, Nat.add_assoc]
  have htext : m.text = w ++ (m.head ++ ['{']) ++ m.body ++ '}' :: m.after := by
    rw [Frame.text_eq, hw]
    simp only [List.append_assoc, List.cons_append, List.nil_append]
  have hbefore : m.text.take m.before.length = m.before := by
    simp only [Frame.text, List.append_assoc, List.take_left]
  have hmember : slice m.text m.before.length o.start = m.member := by
    have := slice_middle m.before m.member (m.lead ++ keyword ++ m.trail ++ m.head ++
      '{' :: (m.body ++ '}' :: m.after))
    rw [h.start, List.length_append]
    simpa only [Frame.text, List.append_assoc] using this
  have hhead : slice m.text o.stop (o.stop + m.head.length + 1) = m.head ++ ['{'] := by
    rw [hopen, hstop, List.length_append, htext, List.append_assoc _ m.body]
    exact slice_middle _ _ _
  have hbody : slice m.text (o.stop + m.head.length + 1)
      (o.stop + m.head.length + 1 + m.body.length) = m.body := by
    rw [hopen, htext]
    exact slice_middle _ _ _
  have hafter : m.text.drop (o.stop + m.head.length + 1 + m.body.length) = '}' :: m.after := by
    rw [hopen, htext]
    exact List.drop_left' List.length_append
  rw [h.pos, hbefore, hmember, hhead, hbody, hafter, Frame.locked]
  simp only [List.append_assoc, List.cons_append, List.nil_append]

theorem Edit.spliced {style : Style} {index : Nat} {t u : List Char} (h : Edit style index t u)
    (hok : ∃ os, positions t none false = .ok os) : Spliced style index t u := by
  obtain ⟨k, m, hk, hm, hfound, rfl, rfl⟩ := h.frame
  obtain ⟨os, hos⟩ := hok
  have hne := separator_ne_nil hm.lead_ne hm.lead_blank
  have hblank := isBlank_of_mem_separator hm.lead_ne hm.lead_blank
  have hlt : k.method.start < k.method.stop := by
    have hstart := hfound.start
    have hstop := hfound.stop
    have := length_keyword
    simp only [List.length_append] at hstart hstop
    omega
  exact ⟨os, _, _, _, separator m.lead, hos, hk.find? hos, hfound.opening, hfound.closing,
    (memberStart_spec _ _).1, hlt, Nat.le_add_right _ _, by omega, hne, hblank,
    Frame.locked_eq_splices hfound _ _ _⟩

/-! ## What a script keeps -/

theorem Script.kept {style : Style} {first n : Nat} {b : Nat → List Char}
    (h : Script style first n b) {i : Nat} (hi : i ≤ n) : Kept i (atoms (b 0)) (atoms (b i)) := by
  induction i with
  | zero => exact .refl _
  | succ i ih => exact (ih (by omega)).trans (h.edit i (by omega)).kept

/-- A conversion that changes a source is a script of splices, numbered from one, on the source,
followed by the import. Its result has as many keywords less as there are splices: the source
falls into pieces with those keywords between them, and what is not blank in the pieces is still
there, in its order. -/
theorem convert_eq_splices {style : Style} {source : List Char} {c : Content}
    (h : convert style source = .ok c) (hc : c.changed = true) :
    ∃ (n : Nat) (b : Nat → List Char), 1 ≤ n ∧ b 0 = source ∧
      (∀ i < n, Spliced style (i + 1) (b i) (b (i + 1))) ∧
      insertImport style.locker (b n) = .ok c.text ∧
      (startsOf keyword c.text).length + n = (startsOf keyword source).length ∧
      ∃ pieces : List (List Char), pieces.length = n + 1 ∧
        List.intercalate keyword pieces = source ∧
        (pieces.flatten.filter (fun a => !isBlank a)).Sublist c.text := by
  obtain ⟨n, b, cursor, rfl, hs, -, hcontent⟩ := convert_eq_ok h
  rcases hcontent with ⟨-, rfl⟩ | ⟨hn, -, himport⟩
  · cases hc
  · have hkept : Kept n (atoms (b 0)) (atoms c.text) :=
      (hs.kept (Nat.le_refl n)).trans (kept_insertImport himport)
    have hcount := hkept.count_none
    rw [count_atoms, count_atoms] at hcount
    obtain ⟨pieces, hlen, hsource, hsub⟩ := hkept.pieces
    rw [spell_atoms] at hsource hsub
    refine ⟨n, b, hn, rfl, fun i hi => ?_, himport, hcount.symm, pieces, hlen, hsource, hsub⟩
    have hedit := hs.edit i hi
    rw [firstIndex, Nat.add_comm] at hedit
    exact hedit.spliced (hs.positions_ok (Nat.le_of_lt hi))

/-- A source that two splices and an import turn into its result. -/
theorem convert_eq_splices_smallSource : ∃ c, convert ⟨0, .stampedLock⟩ smallSource = .ok c ∧
    c.changed = true ∧ ∃ (n : Nat) (b : Nat → List Char), 1 ≤ n ∧ b 0 = smallSource ∧
      (∀ i < n, Spliced ⟨0, .stampedLock⟩ (i + 1) (b i) (b (i + 1))) ∧
      insertImport .stampedLock (b n) = .ok c.text ∧
      (startsOf keyword c.text).length + n = (startsOf keyword smallSource).length := by
  obtain ⟨c, h, hc⟩ := convert_smallSource
  obtain ⟨n, b, hn, hb, hsplices, himport, hcount, -⟩ := convert_eq_splices h hc
  exact ⟨c, h, hc, n, b, hn, hb, hsplices, himport, hcount⟩

end LockMigration.Conversion
