/-
Batches on a pool of workers. The tasks of a batch share one table of files, and a schedule lists
which of them takes its next step; reading a file and writing it are steps of their own, so other
tasks may do anything in between. A task begins only while a worker is free.

A pool comes to its end: `length_add_stepsLeft` bounds its schedules, and `exists_advance` says that
it is never stuck. `play_run` says that the order in which the library takes the files is one of the
schedules, and `play_dryRun` that no schedule of a dry run writes.
-/
import LockMigration.Batch.FileTable
import LockMigration.Proofs.Path
import Mathlib.Data.List.Basic
import Mathlib.Tactic.Common

namespace LockMigration

namespace Batch

/-! ## Files -/

namespace FileTable

theorem get?_congr {p q : Path} (h : p.same q = true) (t : FileTable) : t.get? p = t.get? q := by
  unfold get?
  simp only [Path.same_comm _ p, Path.same_comm _ q, Path.same_congr h]

theorem find?_of_same {rows : List (Path × List Char)} {p q : Path} {row : Path × List Char}
    (h : rows.find? (·.1.same q) = some row) : row.1.same p = p.same q := by
  have hrow : row.1.same q = true := by simpa using List.find?_some h
  rw [Path.same_congr hrow, Path.same_comm]

/-- Writing a file changes what is read from it, under any spelling of its path, and nothing
else. -/
theorem get?_put (p q : Path) (text : List Char) (t : FileTable) :
    (t.put p text).get? q = if p.same q then some text else t.get? q := by
  have hsame {row : Path × List Char} (hrow : row.1.same p = true) : row.1.same q = p.same q :=
    Path.same_congr hrow q
  unfold put get?
  split
  · rename_i hany
    obtain ⟨row, hrow, hp⟩ := List.any_eq_true.1 hany
    simp only [List.find?_map]
    have hkeys : ((fun row : Path × List Char => row.1.same q) ∘
        fun row : Path × List Char => if row.1.same p then (row.1, text) else row) =
        fun row => row.1.same q := by
      funext row
      rw [Function.comp_apply]
      split <;> rfl
    rw [hkeys]
    cases hf : t.rows.find? (·.1.same q) with
    | none =>
      -- the row that is there would have been found
      have := List.find?_eq_none.1 hf row hrow
      rw [hsame hp] at this
      simp [this]
    | some found =>
      have hfound := find?_of_same (p := p) hf
      simp only [Option.map_some, hfound]
      split <;> rfl
  · rename_i hnone
    rw [List.find?_append]
    cases hf : t.rows.find? (·.1.same q) with
    | none =>
      simp only [Option.none_or, List.find?_cons, List.find?_nil, Option.map_none]
      cases p.same q <;> rfl
    | some found =>
      have hfound := find?_of_same (p := p) hf
      have hp : found.1.same p = false := by
        rw [Bool.eq_false_iff]
        exact fun h => hnone (List.any_eq_true.2 ⟨found, List.mem_of_find?_eq_some hf, h⟩)
      rw [hfound] at hp
      simp [hp]

end FileTable

/-! ## What a batch says of a file and does to it -/

namespace Job

/-- What a batch says of the file at `path`, from the text that the file had before. -/
def verdict (job : Job) (path : Path) : Option (List Char) → Outcome
  | none => ⟨path, .failed (Error.fileSystem path .noEntry).message, 0⟩
  | some text =>
    let status := match Migration.applyAll job.migrations job.style text with
      | .error fault => .failed (Error.source fault).message
      | .ok content => if content.changed then .changed else .unchanged
    ⟨path, status, Text.byteLength text⟩

/-- The text that a batch gives to a file in place of `text`, if it gives it one. -/
def revision? (job : Job) (text : List Char) : Option (List Char) :=
  match Migration.applyAll job.migrations job.style text with
  | .error _ => none
  | .ok content => if content.changed && !job.dryRun then some content.text else none

/-- The text of a file after a batch that lists it, from its text before. -/
def after (job : Job) (text? : Option (List Char)) : Option (List Char) :=
  text?.map fun text => (job.revision? text).getD text

theorem consider_eq (job : Job) (path : Path) (text : List Char) :
    job.consider path text =
      match job.revision? text with
      | some new => .writing path (Text.byteLength text) new
      | none => .done (job.verdict path (some text)) := by
  simp only [consider, revision?, verdict]
  cases Migration.applyAll job.migrations job.style text with
  | error fault => rfl
  | ok content =>
    obtain ⟨new, changed⟩ := content
    cases changed <;> cases job.dryRun <;> rfl

theorem revision?_eq_some {job : Job} {text new : List Char} :
    job.revision? text = some new ↔ job.dryRun = false ∧ ∃ content : Content,
      Migration.applyAll job.migrations job.style text = .ok content ∧ content.changed = true ∧
        content.text = new := by
  unfold revision?
  cases Migration.applyAll job.migrations job.style text with
  | error fault => simp
  | ok content => cases job.dryRun <;> cases hc : content.changed <;> simp [hc]

/-- A file is given another text only if the verdict is that it changed. -/
theorem verdict_of_revision? {job : Job} {text new : List Char} (h : job.revision? text = some new)
    (path : Path) : job.verdict path (some text) = ⟨path, .changed, Text.byteLength text⟩ := by
  obtain ⟨-, content, happly, hchanged, -⟩ := revision?_eq_some.1 h
  simp only [verdict, happly, hchanged, if_true]

/-- A dry run gives no file another text. -/
theorem revision?_dryRun {job : Job} (hdry : job.dryRun = true) (text : List Char) :
    job.revision? text = none := by
  rw [Option.eq_none_iff_forall_ne_some]
  intro new hnew
  rw [(revision?_eq_some.1 hnew).1] at hdry
  cases hdry

/-- A file keeps its text unless the verdict is that it changed and the batch writes. -/
theorem after_eq_self {job : Job} {path : Path} {text? : Option (List Char)}
    (h : job.dryRun = false → (job.verdict path text?).status ≠ .changed) :
    job.after text? = text? := by
  cases text? with
  | none => rfl
  | some text =>
    have hnone : job.revision? text = none := by
      rw [Option.eq_none_iff_forall_ne_some]
      intro new hnew
      refine h (revision?_eq_some.1 hnew).1 ?_
      rw [verdict_of_revision? hnew]
    rw [after, Option.map_some, hnone, Option.getD_none]

/-- The first step of a task reads the file; the task is over at once unless there is a text to
write. -/
theorem step_waiting (job : Job) (files : FileTable) (path : Path) :
    (job.step files (.waiting path) = (files, .done (job.verdict path (files.get? path))) ∧
      job.after (files.get? path) = files.get? path) ∨
    ∃ source new, files.get? path = some source ∧ job.revision? source = some new ∧
      job.step files (.waiting path) = (files, .writing path (Text.byteLength source) new) := by
  cases hget : files.get? path with
  | none =>
    have hread : Storage.read files path = .error (.fileSystem path .noEntry) := by
      simp only [Storage.read, hget]
    refine .inl ⟨?_, rfl⟩
    simp only [step, hread]
    rfl
  | some source =>
    have hread : Storage.read files path = .ok source := by
      simp only [Storage.read, hget]
    have hstep : job.step files (.waiting path) = (files, job.consider path source) := by
      simp only [step, hread]
    rw [consider_eq] at hstep
    cases hnew : job.revision? source with
    | none =>
      rw [hnew] at hstep
      refine .inl ⟨hstep, ?_⟩
      rw [after, Option.map_some, hnew, Option.getD_none]
    | some new =>
      rw [hnew] at hstep
      exact .inr ⟨source, new, rfl, hnew, hstep⟩

/-- The second step of a task writes the text. -/
theorem step_writing (job : Job) (files : FileTable) (path : Path) (bytes : Nat)
    (text : List Char) : job.step files (.writing path bytes text) =
      (files.put path text, .done ⟨path, .changed, bytes⟩) :=
  rfl

/-- The outcome of a file is the verdict on the text that is there when the work on it begins. -/
theorem process_snd (job : Job) (files : FileTable) (path : Path) :
    (job.process files path).2 = job.verdict path (files.get? path) := by
  unfold process
  rcases job.step_waiting files path with ⟨hstep, -⟩ | ⟨source, new, hget, hnew, hstep⟩
  · rw [hstep]
    rfl
  · rw [hstep, hget, verdict_of_revision? hnew]
    rfl

end Job

/-! ## Pools -/

namespace Task

/-- True for a task that keeps a worker busy. -/
def isActive : Task → Bool
  | .writing .. => true
  | _ => false

/-- The outcome of a task that is over. -/
def outcome? : Task → Option Outcome
  | .done outcome => some outcome
  | _ => none

/-- The most steps that a task can still take. -/
def stepsLeft : Task → Nat
  | .waiting _ => 2
  | .writing .. => 1
  | .done _ => 0

end Task

/-- A batch in the middle of its run. The tasks stand in the order of the files. -/
structure Pool where
  files : FileTable
  tasks : List Task
deriving DecidableEq, Repr

namespace Pool

/-- A batch before its first step. -/
def start (files : FileTable) (paths : List Path) : Pool :=
  ⟨files, paths.map .waiting⟩

/-- The number of workers that are busy. -/
def busy (pool : Pool) : Nat :=
  pool.tasks.countP Task.isActive

/-- True for a task that can take a step: a task begins while a worker is free, and then goes on
until it is over. -/
def isReady (workers : Nat) (pool : Pool) : Task → Bool
  | .waiting _ => pool.busy < workers
  | .writing .. => true
  | .done _ => false

/-- One step of the task with number `i`, if it can take one. -/
def advance (job : Job) (workers : Nat) (pool : Pool) (i : Nat) : Option Pool :=
  pool.tasks[i]?.bind fun task =>
    if pool.isReady workers task then
      let (files, next) := job.step pool.files task
      some ⟨files, pool.tasks.set i next⟩
    else none

/-- The pool after a schedule, which lists the numbers of the tasks in the order in which they take
their steps; none if one of them cannot take its step. -/
def play (job : Job) (workers : Nat) (pool : Pool) (schedule : List Nat) : Option Pool :=
  schedule.foldlM (advance job workers) pool

/-- True when no task has a step left. -/
def isOver (pool : Pool) : Bool :=
  pool.tasks.all (·.outcome?.isSome)

/-- The outcomes of the tasks that are over, in the order of the files. -/
def report (pool : Pool) : Report :=
  ⟨pool.tasks.filterMap Task.outcome?⟩

/-- What one step does. -/
theorem advance_eq_some {job : Job} {workers : Nat} {pool next : Pool} {i : Nat} :
    pool.advance job workers i = some next ↔
      ∃ task, pool.tasks[i]? = some task ∧ pool.isReady workers task = true ∧
        next = ⟨(job.step pool.files task).1, pool.tasks.set i (job.step pool.files task).2⟩ := by
  unfold advance
  rw [Option.bind_eq_some_iff]
  constructor
  · rintro ⟨task, htask, h⟩
    split at h
    · rename_i hready
      cases h
      exact ⟨task, htask, hready, rfl⟩
    · cases h
  · rintro ⟨task, htask, hready, rfl⟩
    exact ⟨task, htask, if_pos hready⟩

theorem advance_of_isReady {workers : Nat} {pool : Pool} {i : Nat} {task : Task}
    (htask : pool.tasks[i]? = some task) (hready : pool.isReady workers task = true) (job : Job) :
    pool.advance job workers i =
      some ⟨(job.step pool.files task).1, pool.tasks.set i (job.step pool.files task).2⟩ :=
  advance_eq_some.2 ⟨task, htask, hready, rfl⟩

theorem play_cons {job : Job} {workers : Nat} {pool final : Pool} {i : Nat} {schedule : List Nat} :
    play job workers pool (i :: schedule) = some final ↔
      ∃ next, pool.advance job workers i = some next ∧
        play job workers next schedule = some final := by
  unfold play
  rw [List.foldlM_cons]
  exact Option.bind_eq_some_iff

theorem play_append {job : Job} {workers : Nat} {pool next final : Pool} {xs ys : List Nat}
    (hx : play job workers pool xs = some next) (hy : play job workers next ys = some final) :
    play job workers pool (xs ++ ys) = some final := by
  unfold play at *
  rw [List.foldlM_append, hx]
  exact hy

/-! ## Steps and schedules end -/

/-- The most steps that a pool can still take. -/
def stepsLeft (pool : Pool) : Nat :=
  pool.tasks.foldr (·.stepsLeft + ·) 0

theorem step_stepsLeft {workers : Nat} {pool : Pool} {task : Task}
    (h : pool.isReady workers task = true) (job : Job) :
    (job.step pool.files task).2.stepsLeft < task.stepsLeft := by
  cases task with
  | done outcome => cases h
  | writing path bytes text =>
    exact Nat.zero_lt_one
  | waiting path =>
    rcases job.step_waiting pool.files path with ⟨hstep, -⟩ | ⟨source, new, -, -, hstep⟩
    · rw [hstep]
      exact Nat.zero_lt_two
    · rw [hstep]
      exact Nat.one_lt_two

theorem foldr_set_stepsLeft {tasks : List Task} {i : Nat} {task next : Task}
    (htask : tasks[i]? = some task) (h : next.stepsLeft < task.stepsLeft) :
    (tasks.set i next).foldr (·.stepsLeft + ·) 0 < tasks.foldr (·.stepsLeft + ·) 0 := by
  induction tasks generalizing i with
  | nil => cases htask
  | cons first tasks ih =>
    cases i with
    | zero =>
      cases htask
      exact Nat.add_lt_add_right h _
    | succ i => exact Nat.add_lt_add_left (ih htask) _

theorem advance_stepsLeft {job : Job} {workers : Nat} {pool next : Pool} {i : Nat}
    (h : pool.advance job workers i = some next) : next.stepsLeft < pool.stepsLeft := by
  obtain ⟨task, htask, hready, rfl⟩ := advance_eq_some.1 h
  exact foldr_set_stepsLeft htask (step_stepsLeft hready job)

/-- No schedule is longer than the steps that are left. -/
theorem length_add_stepsLeft {job : Job} {workers : Nat} {pool final : Pool} {schedule : List Nat}
    (h : play job workers pool schedule = some final) :
    schedule.length + final.stepsLeft ≤ pool.stepsLeft := by
  induction schedule generalizing pool with
  | nil =>
    cases h
    exact Nat.le_of_eq (Nat.zero_add _)
  | cons i schedule ih =>
    obtain ⟨next, hnext, hplay⟩ := play_cons.1 h
    have := ih hplay
    have := advance_stepsLeft hnext
    rw [List.length_cons]
    omega

theorem stepsLeft_start (files : FileTable) (paths : List Path) :
    (start files paths).stepsLeft = 2 * paths.length := by
  unfold stepsLeft start
  induction paths with
  | nil => rfl
  | cons path paths ih =>
    show 2 + (paths.map Task.waiting).foldr (·.stepsLeft + ·) 0 = _
    rw [ih, List.length_cons]
    omega

theorem busy_of_idle {pool : Pool} (h : ∀ task ∈ pool.tasks, task.isActive = false) :
    pool.busy = 0 := by
  rw [busy, List.countP_eq_zero]
  intro task hmem hactive
  rw [h task hmem] at hactive
  cases hactive

/-- A pool with a worker goes on until all its tasks are over. -/
theorem exists_advance {workers : Nat} (hworkers : 1 ≤ workers) {pool : Pool}
    (h : pool.isOver = false) (job : Job) : ∃ i next, pool.advance job workers i = some next := by
  have take {task : Task} (hmem : task ∈ pool.tasks) (hready : pool.isReady workers task = true) :
      ∃ i next, pool.advance job workers i = some next := by
    obtain ⟨i, hi⟩ := List.getElem?_of_mem hmem
    exact ⟨i, _, advance_of_isReady hi hready job⟩
  by_cases hactive : ∃ task ∈ pool.tasks, task.isActive = true
  · obtain ⟨task, hmem, hactive⟩ := hactive
    cases task with
    | writing path bytes text => exact take hmem rfl
    | waiting path => cases hactive
    | done outcome => cases hactive
  · -- all workers are free, so any task that has not begun can begin
    have hbusy : pool.busy = 0 := by
      apply busy_of_idle
      intro task hmem
      exact Bool.eq_false_iff.2 fun hact => hactive ⟨task, hmem, hact⟩
    obtain ⟨task, hmem, hleft⟩ := List.all_eq_false.1 h
    cases task with
    | writing path bytes text => exact absurd ⟨_, hmem, rfl⟩ hactive
    | waiting path =>
      refine take hmem ?_
      rw [isReady, hbusy]
      exact decide_eq_true hworkers
    | done outcome => exact absurd rfl hleft

/-! ## The order of the files as a schedule -/

/-- A worker that takes a file when no other is busy can do all the work on it. -/
theorem play_process {workers : Nat} (hworkers : 1 ≤ workers) {pool : Pool}
    (hidle : ∀ task ∈ pool.tasks, task.isActive = false) {i : Nat} {path : Path}
    (htask : pool.tasks[i]? = some (.waiting path)) (job : Job) :
    ∃ schedule, play job workers pool schedule =
      some ⟨(job.process pool.files path).1,
        pool.tasks.set i (.done (job.process pool.files path).2)⟩ := by
  have hready : pool.isReady workers (.waiting path) = true := by
    rw [isReady, busy_of_idle hidle]
    exact decide_eq_true hworkers
  have hread := advance_of_isReady htask hready job
  have hlt : i < pool.tasks.length := (List.getElem?_eq_some_iff.1 htask).1
  unfold Job.process
  rcases job.step_waiting pool.files path with ⟨hstep, -⟩ | ⟨source, new, -, -, hstep⟩
  · rw [hstep] at hread ⊢
    exact ⟨[i], play_cons.2 ⟨_, hread, rfl⟩⟩
  · rw [hstep] at hread ⊢
    let reading : Pool := ⟨pool.files, pool.tasks.set i (.writing path (Text.byteLength source) new)⟩
    have htask' : reading.tasks[i]? = some (.writing path (Text.byteLength source) new) :=
      List.getElem?_set_self hlt
    have hwrite : reading.advance job workers i = _ := advance_of_isReady htask' rfl job
    rw [Job.step_writing, List.set_set] at hwrite
    exact ⟨[i, i], play_cons.2 ⟨_, hread, play_cons.2 ⟨_, hwrite, rfl⟩⟩⟩

/-- What the library does, one file after the other, is one of the schedules. -/
theorem play_run {workers : Nat} (hworkers : 1 ≤ workers) (job : Job) (paths : List Path)
    (files : FileTable) (past : List Outcome) :
    ∃ schedule, play job workers ⟨files, past.map .done ++ paths.map .waiting⟩ schedule =
      some ⟨(job.run files paths).1, (past ++ (job.run files paths).2).map .done⟩ := by
  -- the outcomes of the files that are over stand before the tasks that wait
  induction paths generalizing files past with
  | nil =>
    refine ⟨[], ?_⟩
    rw [List.map_nil, Job.run, List.append_nil, List.append_nil]
    rfl
  | cons path paths ih =>
    let pool : Pool := ⟨files, past.map .done ++ (path :: paths).map .waiting⟩
    have hidle : ∀ task ∈ pool.tasks, task.isActive = false := by
      simp [pool, Task.isActive, or_imp, forall_and]
    have htask : pool.tasks[past.length]? = some (.waiting path) := by
      simp [pool]
    obtain ⟨first, hfirst⟩ := play_process hworkers hidle htask job
    obtain ⟨rest, hrest⟩ := ih (job.process files path).1 (past ++ [(job.process files path).2])
    refine ⟨first ++ rest, play_append hfirst ?_⟩
    simpa [pool, Job.run, List.set_append] using hrest

/-! ## Dry runs -/

/-- No task of a dry run comes to a write. -/
theorem advance_dryRun {job : Job} (hdry : job.dryRun = true) {workers : Nat} {pool next : Pool}
    {i : Nat} (hidle : ∀ task ∈ pool.tasks, task.isActive = false)
    (hnext : pool.advance job workers i = some next) :
    next.files = pool.files ∧ ∀ task ∈ next.tasks, task.isActive = false := by
  obtain ⟨task, htask, hready, rfl⟩ := advance_eq_some.1 hnext
  have hstep : ∃ outcome, job.step pool.files task = (pool.files, .done outcome) := by
    cases task with
    | done outcome => cases hready
    | writing path bytes text => cases hidle _ (List.mem_of_getElem? htask)
    | waiting path =>
      rcases job.step_waiting pool.files path with ⟨hstep, -⟩ | ⟨source, new, -, hnew, -⟩
      · exact ⟨_, hstep⟩
      · rw [Job.revision?_dryRun hdry] at hnew
        cases hnew
  obtain ⟨outcome, hstep⟩ := hstep
  rw [hstep]
  refine ⟨rfl, fun task hmem => ?_⟩
  rcases List.mem_or_eq_of_mem_set hmem with hmem | rfl
  · exact hidle task hmem
  · rfl

/-- A dry run keeps its files as they are, whatever the schedule. -/
theorem play_dryRun {job : Job} (hdry : job.dryRun = true) {workers : Nat} {pool final : Pool}
    {schedule : List Nat} (hidle : ∀ task ∈ pool.tasks, task.isActive = false)
    (hplay : play job workers pool schedule = some final) : final.files = pool.files := by
  induction schedule generalizing pool with
  | nil =>
    cases hplay
    rfl
  | cons i schedule ih =>
    obtain ⟨next, hnext, hplay⟩ := play_cons.1 hplay
    obtain ⟨hfiles, hidle⟩ := advance_dryRun hdry hidle hnext
    rw [ih hidle hplay, hfiles]

end Pool

end Batch

end LockMigration
