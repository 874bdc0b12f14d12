/-
Package declarations: the word `package` at the start of a word, followed by a blank. The import
of a lock class goes after the semicolon of the first one that is not in a comment.
-/
import LockMigration.Java.Context
import LockMigration.Java.Fault
import LockMigration.Text.Blank
import LockMigration.Text.Offset
import LockMigration.Text.Word

namespace LockMigration.Java

open Text

/-- The word that begins a package declaration. -/
def packageWord : List Char := "package".toList

/-- True for a text that begins with the package word and a blank. -/
def beginsPackage (t : List Char) : Bool :=
  packageWord.isPrefixOf t && (t.drop packageWord.length).head?.any isBlank

/-- The positions of the package declarations of the text that begins at position `i`, where
`inWord` tells whether the character before it can stand inside a word. -/
def packagesFrom : (i : Nat) → (inWord : Bool) → List Char → List Nat
  | _, _, [] => []
  | i, inWord, c :: cs =>
    let rest := packagesFrom (i + 1) (isWordChar c) cs
    if !inWord && beginsPackage (c :: cs) then i :: rest else rest

/-- The position of the first package declaration that is not in a comment. -/
def packagePosition? (t : List Char) : Option Nat :=
  (packagesFrom 0 false t).find? (fun i => !inComment t i)

/-- The position after the package declaration, or none for a text without one. -/
def packageEnd? (t : List Char) : Except Fault (Option Nat) :=
  match packagePosition? t with
  | none => .ok none
  | some i =>
    match (t.drop i).findIdx? (· == ';') with
    | some k => .ok (some (i + k + 1))
    | none => .error (.packageUnterminated (byteOffset t i))

end LockMigration.Java
