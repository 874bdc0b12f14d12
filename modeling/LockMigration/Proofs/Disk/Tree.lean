/-
What lies below a place of the tree. `FileBelow` says which names lead from a location to a file,
through directories and through links, and `FileUnder` gives such a file the path by which it is
found: the path of the root, with the names behind it.

To follow a path is to follow its beginning, and then the rest from the place that is reached, with
the links that are left (`follow_append`). So a path with a name behind it leads on from where the
path leads (`locate_of_join`), and what lies under a path that begins with a root lies under the root
(`FileUnder.of_under`).
-/
import LockMigration.Disk.Walk
import LockMigration.Proofs.Path

namespace LockMigration.Disk

open LockMigration.Path (pieces)

variable {d : Disk}

/-! ## Following steps -/

/-- One step to an entry of a directory. -/
theorem follow_name (links : Nat) (here : Location) (n : List Char) (rest : List Hop) :
    d.follow false links here (.name n :: rest) =
      if Text.byteLength n > nameLimit then .error .nameTooLong
      else
        match d.entry? (here ++ [n]) with
        | none => if rest.isEmpty then .ok (.absent (here ++ [n])) else .error .missing
        | some .directory => d.follow false links (here ++ [n]) rest
        | some (.file _) =>
          if rest.isEmpty then .ok (.found (here ++ [n])) else .error .notDirectory
        | some (.link target) =>
          match links with
          | 0 => .error .linkLoop
          | links + 1 =>
            d.follow false links (if target.isAbsolute then [] else here) (hops target ++ rest) := by
  rw [follow]
  rfl

/-- Steps that have more steps behind them lead to a place, and the others are followed from there
with no more links than before. -/
theorem follow_append {links : Nat} {here : Location} {hs ks : List Hop} {target : Target}
    (hks : ks ≠ []) (h : d.follow false links here (hs ++ ks) = .ok target) :
    ∃ loc left, left ≤ links ∧ d.follow false links here hs = .ok (.found loc) ∧
      ∀ js ≠ [], d.follow false links here (hs ++ js) = d.follow false left loc js := by
  induction links using Nat.strongRecOn generalizing here hs with
  | ind links ihlinks =>
    induction hs generalizing here with
    | nil => exact ⟨here, links, Nat.le_refl links, by rw [follow], fun js _ => rfl⟩
    | cons hop hs ih =>
      rw [List.cons_append] at h
      cases hop with
      | stay => simp only [List.cons_append, follow] at h ⊢; exact ih h
      | slash => simp only [List.cons_append, follow] at h ⊢; exact ih h
      | up => simp only [List.cons_append, follow] at h ⊢; exact ih h
      | name n =>
        have hrest : ¬ (hs ++ ks).isEmpty = true := by
          rw [List.isEmpty_iff, List.append_eq_nil_iff]
          exact fun hnil => hks hnil.2
        simp only [List.cons_append, follow_name] at h ⊢
        by_cases hlong : Text.byteLength n > nameLimit
        · rw [if_pos hlong] at h
          cases h
        simp only [if_neg hlong] at h ⊢
        cases hentry : d.entry? (here ++ [n]) with
        | none =>
          simp only [hentry, if_neg hrest] at h
          cases h
        | some e =>
          rw [hentry] at h
          cases e with
          | directory => exact ih h
          | file bytes =>
            simp only [if_neg hrest] at h
            cases h
          | link aim =>
            cases links with
            | zero => cases h
            | succ links =>
              -- the steps of the link come before the rest of the path
              have hassoc (ks : List Hop) : hops aim ++ (hs ++ ks) = hops aim ++ hs ++ ks :=
                (List.append_assoc _ _ _).symm
              simp only [hassoc] at h ⊢
              obtain ⟨loc, left, hleft, hfound, hjs⟩ := ihlinks links (Nat.lt_succ_self links) h
              exact ⟨loc, left, Nat.le_succ_of_le hleft, hfound, hjs⟩

/-- A place that is found is found with more links as well. -/
theorem follow_mono {links more : Nat} {here loc : Location} {hs : List Hop} (hle : links ≤ more)
    (h : d.follow false links here hs = .ok (.found loc)) :
    d.follow false more here hs = .ok (.found loc) := by
  induction links using Nat.strongRecOn generalizing more here hs with
  | ind links ihlinks =>
    induction hs generalizing here with
    | nil => rwa [follow] at h ⊢
    | cons hop hs ih =>
      cases hop with
      | stay => rw [follow] at h ⊢; exact ih h
      | slash => rw [follow] at h ⊢; exact ih h
      | up => rw [follow] at h ⊢; exact ih h
      | name n =>
        rw [follow_name] at h ⊢
        by_cases hlong : Text.byteLength n > nameLimit
        · rw [if_pos hlong] at h
          cases h
        rw [if_neg hlong] at h ⊢
        cases hentry : d.entry? (here ++ [n]) with
        | none =>
          rw [hentry] at h
          exact h
        | some e =>
          rw [hentry] at h
          cases e with
          | directory => exact ih h
          | file bytes => exact h
          | link aim =>
            cases links with
            | zero => cases h
            | succ links =>
              cases more with
              | zero => omega
              | succ more => exact ihlinks links (Nat.lt_succ_self links) (by omega) h

/-! ## Following paths -/

/-- The steps of a path without the slash at its end. -/
def inner (p : Path) : List Hop :=
  (pieces p.chars).filterMap hop?

theorem hops_eq (p : Path) :
    hops p = inner p ++ if p.chars.getLast? = some '/' then [.slash] else [] := by
  unfold hops inner pieces
  rw [List.filterMap_map]
  rfl

theorem hops_join {p : Path} {n : List Char} (hn : IsName n) :
    hops (p.join ⟨n⟩) = inner p ++ [.name n] := by
  have hrelative := Path.isAbsolute_of_lead (Path.lead_of_isName hn)
  have hhop : hop? n = some (.name n) := by
    unfold hop?
    split
    · exact absurd rfl hn.ne_nil
    · exact absurd rfl hn.ne_dot
    · exact absurd rfl hn.ne_dots
    · rfl
  have hlast : (p.join ⟨n⟩).chars.getLast? ≠ some '/' := by
    have hsuffix : n <:+ (p.join ⟨n⟩).chars := by
      rcases Path.join_cases p hrelative with ⟨-, hjoin⟩ | ⟨x, -, hjoin⟩ | ⟨-, hjoin⟩
      · exact ⟨[], by rw [hjoin, List.nil_append]⟩
      · rw [hjoin]
        exact ⟨x ++ ['/'], by simp⟩
      · rw [hjoin]
        exact ⟨p.chars ++ ['/'], by simp⟩
    obtain ⟨x, hx⟩ := hsuffix
    rw [← hx, List.getLast?_append_of_ne_nil _ hn.ne_nil]
    exact fun hslash => hn.no_slash (List.mem_of_getLast? hslash)
  rw [hops_eq, if_neg hlast, List.append_nil, inner, Path.filterMap_pieces_join rfl p hrelative,
    Path.pieces_of_no_slash hn.no_slash, List.filterMap_cons_some hhop]
  rfl

/-- The directory from which a path is followed. -/
def origin (d : Disk) (p : Path) : Location :=
  if p.isAbsolute then [] else d.current

theorem locate_eq_ok {p : Path} {loc : Location} : d.locate p = .ok loc ↔
    '\x00' ∉ p.chars ∧ p.chars ≠ [] ∧ Text.byteLength p.chars ≤ pathLimit ∧
      d.follow false linkLimit (d.origin p) (hops p) = .ok (.found loc) := by
  constructor
  · intro h
    unfold locate at h
    cases htarget : d.resolve false p with
    | error fault => rw [htarget] at h; cases h
    | ok target =>
      rw [htarget] at h
      cases target with
      | absent loc' => cases h
      | found loc' =>
        cases h
        unfold resolve at htarget
        split at htarget
        · cases htarget
        · rename_i hnul
          split at htarget
          · cases htarget
          · rename_i hnil
            split at htarget
            · cases htarget
            · rename_i hlong
              exact ⟨by simpa using hnul, by simpa using hnil, Nat.le_of_not_lt hlong, htarget⟩
  · rintro ⟨hnul, hnil, hle, h⟩
    unfold locate resolve
    rw [if_neg (by simpa using hnul), if_neg (by simpa using hnil), if_neg (by omega)]
    unfold origin at h
    rw [h]

theorem chars_join (p : Path) {n : List Char} (hn : IsName n) :
    ∃ rest, (p.join ⟨n⟩).chars = p.chars ++ rest := by
  rcases Path.join_cases p (Path.isAbsolute_of_lead (Path.lead_of_isName hn)) with
    ⟨hp, hjoin⟩ | ⟨x, hp, hjoin⟩ | ⟨-, hjoin⟩
  · exact ⟨n, by rw [hjoin, hp, List.nil_append]⟩
  · exact ⟨n, by rw [hjoin, hp, List.append_assoc]; rfl⟩
  · exact ⟨'/' :: n, by rw [hjoin]⟩

theorem chars_join_ne_nil {p : Path} (hp : p.chars ≠ []) {n : List Char} (hn : IsName n) :
    (p.join ⟨n⟩).chars ≠ [] := by
  obtain ⟨rest, hchars⟩ := chars_join p hn
  rw [hchars]
  exact List.append_ne_nil_of_left_ne_nil hp rest

theorem chars_under_ne_nil {p : Path} {names : List (List Char)} (hp : p.chars ≠ [])
    (hnames : ∀ n ∈ names, IsName n) : (p.under names).chars ≠ [] := by
  induction names generalizing p with
  | nil => exact hp
  | cons n names ih =>
    exact ih (chars_join_ne_nil hp (hnames n List.mem_cons_self))
      fun m hm => hnames m (List.mem_cons_of_mem n hm)

/-- A path with a name behind it leads to the entry of that name, from where the path leads. -/
theorem locate_of_join {p : Path} {n : List Char} {next : Location} (hn : IsName n)
    (hp : p.chars ≠ []) (h : d.locate (p.join ⟨n⟩) = .ok next) :
    ∃ loc, d.locate p = .ok loc ∧ d.follow false linkLimit loc [.name n] = .ok (.found next) := by
  obtain ⟨hnul, -, hle, hfollow⟩ := locate_eq_ok.1 h
  obtain ⟨rest, hchars⟩ := chars_join p hn
  rw [hchars, List.mem_append, not_or] at hnul
  rw [hchars, Text.byteLength_append] at hle
  have horigin : d.origin (p.join ⟨n⟩) = d.origin p := by
    rw [origin, origin, Path.isAbsolute, hchars, List.head?_append_of_ne_nil _ hp]
    rfl
  rw [hops_join hn, horigin] at hfollow
  obtain ⟨loc, left, hleft, hfound, hrest⟩ := follow_append (List.cons_ne_nil _ _) hfollow
  refine ⟨loc, locate_eq_ok.2 ⟨hnul.1, hp, by omega, ?_⟩, follow_mono hleft ?_⟩
  · rw [hops_eq]
    split
    · rw [hrest _ (List.cons_ne_nil _ _), follow, follow]
    · rw [List.append_nil, hfound]
  · rw [← hrest _ (List.cons_ne_nil _ _), hfollow]

/-- A path that leads somewhere begins with paths that do. -/
theorem locate_of_under {p : Path} {names : List (List Char)} {next : Location}
    (hnames : ∀ n ∈ names, IsName n) (hp : p.chars ≠ [])
    (h : d.locate (p.under names) = .ok next) : ∃ loc, d.locate p = .ok loc := by
  induction names generalizing p with
  | nil => exact ⟨next, h⟩
  | cons n names ih =>
    have hn := hnames n List.mem_cons_self
    obtain ⟨loc, hloc⟩ :=
      ih (fun m hm => hnames m (List.mem_cons_of_mem n hm)) (chars_join_ne_nil hp hn) h
    obtain ⟨loc', hloc', -⟩ := locate_of_join hn hp hloc
    exact ⟨loc', hloc'⟩

/-! ## Files -/

/-- The names lead from the location to a file: each of them to the place that the next one starts
from, where a link leads to its end. -/
inductive FileBelow (d : Disk) : Location → List (List Char) → Prop where
  /-- The file is here. -/
  | here {loc : Location} {bytes : ByteArray} (file : d.entry? loc = some (.file bytes)) :
      FileBelow d loc []
  /-- The first name leads to where the others lead from. -/
  | inside {loc next : Location} {n : List Char} {names : List (List Char)} (name : IsName n)
      (step : d.follow false linkLimit loc [.name n] = .ok (.found next))
      (rest : FileBelow d next names) : FileBelow d loc (n :: names)

theorem FileBelow.isName {loc : Location} {names : List (List Char)} (h : FileBelow d loc names) :
    ∀ n ∈ names, IsName n := by
  induction h with
  | here => intro n hn; cases hn
  | inside name step rest ih =>
    intro m hm
    rcases List.mem_cons.1 hm with rfl | hm
    · exact name
    · exact ih m hm

/-- The path is that of a root with the names of a file at or below the root behind it. -/
def FileUnder (d : Disk) (root p : Path) : Prop :=
  ∃ loc names, d.locate root = .ok loc ∧ FileBelow d loc names ∧ p = root.under names

/-- What names lead to from a place that was reached by names, they lead to together. -/
theorem FileBelow.of_under {root : Path} {loc next : Location} {ns ms : List (List Char)}
    (hns : ∀ n ∈ ns, IsName n) (hroot : d.locate root = .ok loc)
    (hnext : d.locate (root.under ns) = .ok next) (h : FileBelow d next ms) :
    FileBelow d loc (ns ++ ms) := by
  induction ns generalizing root loc with
  | nil =>
    obtain rfl := Except.ok.inj (hroot.symm.trans hnext)
    exact h
  | cons n ns ih =>
    have hn := hns n List.mem_cons_self
    have hns' : ∀ m ∈ ns, IsName m := fun m hm => hns m (List.mem_cons_of_mem n hm)
    have hchars := (locate_eq_ok.1 hroot).2.1
    obtain ⟨middle, hmiddle⟩ := locate_of_under hns' (chars_join_ne_nil hchars hn) hnext
    obtain ⟨loc', hloc', hstep⟩ := locate_of_join hn hchars hmiddle
    obtain rfl := Except.ok.inj (hroot.symm.trans hloc')
    exact .inside hn hstep (ih hns' hmiddle hnext)

/-- What lies under a path that begins with a root lies under the root. -/
theorem FileUnder.of_under {root p : Path} {names : List (List Char)}
    (hnames : ∀ n ∈ names, IsName n) (hroot : d.isThere root = true)
    (h : d.FileUnder (root.under names) p) : d.FileUnder root p := by
  obtain ⟨next, below, hnext, hbelow, rfl⟩ := h
  cases hloc : d.locate root with
  | error fault =>
    rw [isThere, hloc] at hroot
    cases hroot
  | ok loc =>
    exact ⟨loc, names ++ below, hloc, hbelow.of_under hnames hloc hnext,
      (Path.under_append root names below).symm⟩

end LockMigration.Disk
