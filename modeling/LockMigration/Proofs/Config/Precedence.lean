/-
What wins where the command line and the file both have something to say. A setting in front of the
others is found first (`get?_pushFront`), so settings that are put in front from the last to the
first are found in their order, and those of the file behind them (`get?_foldr_pushFront`). The lock
class goes in front of all, under a name that reads back as the class (`Locker.ofName_className`).

The main statement, `applyTo_precedence`, says for every configuration and every command line what
each lookup finds, which lock class is chosen and what the other fields are.
-/
import LockMigration.Config.Overrides

namespace LockMigration

namespace Metas

/-! ## Lookups -/

/-- A map with a single entry has it under any of the keys or not at all. -/
theorem entryOf?_singleton (keys : List String) (key value : String) :
    entryOf? keys [(key, value)] = if key ∈ keys then some (key, value) else none := by
  unfold entryOf?
  induction keys with
  | nil => rfl
  | cons k keys ih =>
    rw [List.findSome?_cons]
    by_cases hk : key = k
    · subst hk
      simp
    · have hmiss : [(key, value)].find? (·.1 == k) = none := by simpa using hk
      rw [hmiss, Option.map_none, ih]
      simp [hk]

theorem get?_pushFront (m : Metas) (key value : String) (keys : List String) :
    (m.pushFront key value).get? keys =
      if key ∈ keys then some (key, value) else m.get? keys := by
  unfold get? pushFront
  rw [List.findSome?_cons, entryOf?_singleton]
  by_cases hkey : key ∈ keys
  · rw [if_pos hkey, if_pos hkey]
  · rw [if_neg hkey, if_neg hkey]

/-- Settings in front of a map are found in the order in which they are given. -/
theorem get?_foldr_pushFront (m : Metas) (given : List (String × String)) (keys : List String) :
    (given.foldr (fun (key, value) m => m.pushFront key value) m).get? keys =
      (given.find? (·.1 ∈ keys)).or (m.get? keys) := by
  induction given with
  | nil => rfl
  | cons pair given ih =>
    rw [List.foldr_cons, get?_pushFront, ih, List.find?_cons]
    by_cases hpair : pair.1 ∈ keys
    · rw [if_pos hpair, decide_eq_true hpair, Option.some_or]
    · rw [if_neg hpair, decide_eq_false hpair]

end Metas

/-! ## Lock classes -/

/-- A lock class is found under its own name. -/
theorem Locker.ofName_className (l : Locker) : Locker.ofName l.className = .ok l := by
  have hname : Locker.ofName? l.className = some l := by
    cases l with
    | reentrantReadWriteLock => decide
    | stampedLock => decide
  unfold Locker.ofName
  rw [hname]

theorem Config.locker_eq (c : Config) : c.locker =
    match c.metas.get? [lockerKey] with
    | none => .ok .reentrantReadWriteLock
    | some entry => Locker.ofName entry.2 := by
  unfold locker Metas.value?
  cases c.metas.get? [lockerKey] with
  | none => rfl
  | some entry => rfl

/-! ## The command line over the file -/

namespace MigrateArgs

theorem get?_overrideMetas (args : MigrateArgs) (file : Metas) (keys : List String) :
    (args.overrideMetas file).get? keys =
      if args.locker.isSome ∧ lockerKey ∈ keys then args.locker.map (lockerKey, ·.className)
      else (args.metas.find? (·.1 ∈ keys)).or (file.get? keys) := by
  unfold overrideMetas
  cases args.locker with
  | none =>
    rw [if_neg fun h => Bool.false_ne_true h.1]
    exact Metas.get?_foldr_pushFront file args.metas keys
  | some l =>
    dsimp only
    rw [Metas.get?_pushFront, Metas.get?_foldr_pushFront]
    by_cases hkey : lockerKey ∈ keys
    · rw [if_pos hkey, if_pos ⟨rfl, hkey⟩]
      rfl
    · rw [if_neg hkey, if_neg fun h => hkey h.2]

theorem locker_applyTo (args : MigrateArgs) (c : Config) : (args.applyTo c).locker =
    match args.locker with
    | some l => .ok l
    | none =>
      match args.metas.find? (·.1 = lockerKey) with
      | some pair => Locker.ofName pair.2
      | none => c.locker := by
  have hget : (args.applyTo c).metas.get? [lockerKey] = _ :=
    args.get?_overrideMetas c.metas [lockerKey]
  simp only [List.mem_singleton, and_true] at hget
  rw [Config.locker_eq, hget]
  cases args.locker with
  | some l => exact l.ofName_className
  | none =>
    rw [if_neg (show ¬ (none : Option Locker).isSome = true from Bool.false_ne_true)]
    cases args.metas.find? (·.1 = lockerKey) with
    | some pair => rfl
    | none => exact c.locker_eq.symm

/-- Where the command line gives a value, it wins. A lookup finds the lock class of the command line
if its key is asked for, else the first setting of the command line with a wanted key, else what the
file has. So the lock class is the given one whatever names the file and the other settings have for
it, and without one the first of those names decides. Patterns come behind those of the file, and
what the command line does not give stays as it is. -/
theorem applyTo_precedence (args : MigrateArgs) (c : Config) :
    (∀ keys, (args.applyTo c).metas.get? keys =
      if args.locker.isSome ∧ lockerKey ∈ keys then args.locker.map (lockerKey, ·.className)
      else (args.metas.find? (·.1 ∈ keys)).or (c.metas.get? keys)) ∧
    ((args.applyTo c).locker =
      match args.locker with
      | some l => .ok l
      | none =>
        match args.metas.find? (·.1 = lockerKey) with
        | some pair => Locker.ofName pair.2
        | none => c.locker) ∧
    args.applyTo c = { c with
      startingPaths := if args.paths = [] then c.startingPaths else args.paths
      threads := args.threads.getD c.threads
      indent := args.indent.getD c.indent
      startVersion := args.startVersion.getD c.startVersion
      targetVersion := args.targetVersion.getD c.targetVersion
      excludePaths := c.excludePaths ++ args.exclude
      metas := (args.applyTo c).metas } := by
  refine ⟨args.get?_overrideMetas c.metas, args.locker_applyTo c, ?_⟩
  unfold applyTo
  simp only [List.isEmpty_iff]

/-- Of two settings with one key the first counts, and a map that shadows another one does so also
under the key that is asked for last. -/
example :
    let args : MigrateArgs :=
      { locker := some .stampedLock, metas := [("a", "1"), (lockerKey, "Mutex"), ("a", "2")] }
    let m := (args.applyTo { metas := ⟨[[("a", "3"), ("b", "4")], [("c", "5")]]⟩ }).metas
    m.get? ["b", "a"] = some ("a", "1") ∧ m.get? ["c", "b"] = some ("b", "4") ∧
      m.get? ["b", lockerKey] = some (lockerKey, "StampedLock") := by
  decide

end MigrateArgs

end LockMigration
