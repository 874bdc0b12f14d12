/-
Tasks of a batch do not disturb each other. As no two of them name the same file, each finds its
file as it was before the batch and leaves every other file alone. `Sound` says so of a pool;
`Progress.step` is the step of one task, `Sound.advance` that of a pool, and `Sound.play` follows for
every schedule.

So what a batch does depends on neither the number of workers nor the schedule
(`every_schedule_settles`), and a dry run foretells what the same batch does when it writes
(`dry_run_foretells`).
-/
import LockMigration.Proofs.Batch.Pool

namespace LockMigration.Batch

namespace Pool

/-! ## Tasks and their files -/

/-- How far the task of the file at `path` is, and what that means for its file: `before` is the
table before the batch and `now` the table as it is. -/
inductive Progress (job : Job) (before now : FileTable) (path : Path) : Task → Prop
  | waiting (h : now.get? path = before.get? path) : Progress job before now path (.waiting path)
  | writing {source new : List Char} (hread : before.get? path = some source)
      (hnew : job.revision? source = some new) (h : now.get? path = before.get? path) :
      Progress job before now path (.writing path (Text.byteLength source) new)
  | done (h : now.get? path = job.after (before.get? path)) :
      Progress job before now path (.done (job.verdict path (before.get? path)))

theorem Progress.congr {job : Job} {before now now' : FileTable} {path : Path} {task : Task}
    (h : Progress job before now path task) (hnow : now'.get? path = now.get? path) :
    Progress job before now' path task := by
  cases h with
  | waiting h => exact .waiting (hnow.trans h)
  | writing hread hnew h => exact .writing hread hnew (hnow.trans h)
  | done h => exact .done (hnow.trans h)

/-- A step moves the task of a file on and touches no other file. -/
theorem Progress.step {job : Job} {before now : FileTable} {path : Path} {task : Task}
    (h : Progress job before now path task) :
    Progress job before (job.step now task).1 path (job.step now task).2 ∧
      ∀ q, path.same q = false → (job.step now task).1.get? q = now.get? q := by
  cases h with
  | done h => exact ⟨.done h, fun _ _ => rfl⟩
  | writing hread hnew h =>
    rename_i source new
    refine ⟨?_, fun q hq => ?_⟩
    · have hdone : (now.put path new).get? path = job.after (before.get? path) := by
        rw [FileTable.get?_put, if_pos path.same_refl, hread, Job.after, Option.map_some, hnew,
          Option.getD_some]
      have := Progress.done hdone
      rwa [hread, Job.verdict_of_revision? hnew] at this
    · show (now.put path new).get? q = _
      rw [FileTable.get?_put, hq, if_neg Bool.false_ne_true]
  | waiting h =>
    rcases job.step_waiting now path with ⟨hstep, hafter⟩ | ⟨source, new, hread, hnew, hstep⟩
    · rw [hstep, h]
      rw [h] at hafter
      exact ⟨.done (h.trans hafter.symm), fun _ _ => rfl⟩
    · rw [hstep]
      exact ⟨.writing (h.symm.trans hread) hnew h, fun _ _ => rfl⟩

/-- Every task has found its file as it was before the batch, and the files that no task names are
as they were. -/
structure Sound (job : Job) (before : FileTable) (paths : List Path) (pool : Pool) : Prop where
  length : pool.tasks.length = paths.length
  progress : ∀ (i : Nat) (path : Path) (task : Task), paths[i]? = some path →
    pool.tasks[i]? = some task → Progress job before pool.files path task
  other : ∀ q, (∀ path ∈ paths, path.same q = false) → pool.files.get? q = before.get? q

/-- No two paths of the list are the same. -/
def Distinct (paths : List Path) : Prop :=
  paths.Pairwise fun p q => p.same q = false

theorem Distinct.same_eq_false {paths : List Path} (h : Distinct paths) {i j : Nat} {p q : Path}
    (hp : paths[i]? = some p) (hq : paths[j]? = some q) (hne : i ≠ j) : p.same q = false := by
  obtain ⟨hi, rfl⟩ := List.getElem?_eq_some_iff.1 hp
  obtain ⟨hj, rfl⟩ := List.getElem?_eq_some_iff.1 hq
  rcases Nat.lt_or_gt_of_ne hne with hlt | hlt
  · exact List.pairwise_iff_getElem.1 h i j hi hj hlt
  · rw [Path.same_comm]
    exact List.pairwise_iff_getElem.1 h j i hj hi hlt

namespace Sound

variable {job : Job} {before : FileTable} {paths : List Path} {pool : Pool} {workers : Nat}

theorem start (job : Job) (before : FileTable) (paths : List Path) :
    Sound job before paths (Pool.start before paths) where
  length := List.length_map _
  progress := by
    intro i path task hpath htask
    simp only [Pool.start, List.getElem?_map, hpath, Option.map_some, Option.some.injEq] at htask
    rw [← htask]
    exact .waiting rfl
  other := fun _ _ => rfl

theorem advance (h : Sound job before paths pool) (hpaths : Distinct paths) {next : Pool} {i : Nat}
    (hnext : pool.advance job workers i = some next) : Sound job before paths next := by
  obtain ⟨task, htask, -, rfl⟩ := advance_eq_some.1 hnext
  have hlt : i < pool.tasks.length := (List.getElem?_eq_some_iff.1 htask).1
  obtain ⟨path, hpath⟩ : ∃ path, paths[i]? = some path :=
    ⟨_, List.getElem?_eq_getElem (h.length ▸ hlt)⟩
  obtain ⟨hstep, hother⟩ := (h.progress i path task hpath htask).step
  refine ⟨by rw [List.length_set, h.length], ?_, ?_⟩
  · intro j p t hp ht
    rw [List.getElem?_set] at ht
    by_cases hij : i = j
    · subst hij
      rw [if_pos rfl, if_pos hlt] at ht
      rw [hpath] at hp
      cases hp
      cases ht
      exact hstep
    · rw [if_neg hij] at ht
      exact (h.progress j p t hp ht).congr (hother p (hpaths.same_eq_false hpath hp hij))
  · intro q hq
    exact (hother q (hq path (List.mem_of_getElem? hpath))).trans (h.other q hq)

theorem play (h : Sound job before paths pool) (hpaths : Distinct paths) {final : Pool}
    {schedule : List Nat} (hplay : pool.play job workers schedule = some final) :
    Sound job before paths final := by
  induction schedule generalizing pool with
  | nil =>
    cases hplay
    exact h
  | cons i schedule ih =>
    obtain ⟨next, hnext, hplay⟩ := play_cons.1 hplay
    exact ih (h.advance hpaths hnext) hplay

/-! ## Pools that are over -/

theorem tasks_eq (h : Sound job before paths pool) (hover : pool.isOver = true) :
    pool.tasks = paths.map fun path => .done (job.verdict path (before.get? path)) := by
  apply List.ext_getElem?
  intro i
  rw [List.getElem?_map]
  cases hpath : paths[i]? with
  | none =>
    rw [Option.map_none, List.getElem?_eq_none_iff, h.length]
    exact List.getElem?_eq_none_iff.1 hpath
  | some path =>
    have hlt := (List.getElem?_eq_some_iff.1 hpath).1
    obtain ⟨task, htask⟩ : ∃ task, pool.tasks[i]? = some task :=
      ⟨_, List.getElem?_eq_getElem (h.length ▸ hlt)⟩
    have hdone := List.all_eq_true.1 hover _ (List.mem_of_getElem? htask)
    rw [htask, Option.map_some, Option.some.injEq]
    cases h.progress i path task hpath htask with
    | waiting h => cases hdone
    | writing hread hnew h => cases hdone
    | done h => rfl

/-- The outcomes of a pool that is over. -/
theorem report_eq (h : Sound job before paths pool) (hover : pool.isOver = true) :
    pool.report.outcomes = paths.map fun path => job.verdict path (before.get? path) := by
  rw [report, h.tasks_eq hover]
  show List.filterMap _ _ = _
  rw [List.filterMap_map]
  show List.filterMap (some ∘ fun path => job.verdict path (before.get? path)) paths = _
  rw [List.filterMap_eq_map]

/-- The files of a pool that is over. -/
theorem get?_files (h : Sound job before paths pool) (hover : pool.isOver = true) {path : Path}
    (hpath : path ∈ paths) : pool.files.get? path = job.after (before.get? path) := by
  obtain ⟨i, hi⟩ := List.getElem?_of_mem hpath
  have htask : pool.tasks[i]? = some (.done (job.verdict path (before.get? path))) := by
    rw [h.tasks_eq hover, List.getElem?_map, hi]
    rfl
  have hprogress := h.progress i path _ hi htask
  generalize job.verdict path (before.get? path) = outcome at hprogress
  cases hprogress with
  | done h => exact h

end Sound

end Pool

/-! ## Counts -/

namespace Report

theorem changed_add_failed (r : Report) :
    r.changed + r.failed + (r.outcomes.countP fun o => o.status == .unchanged) = r.discovered := by
  obtain ⟨outcomes⟩ := r
  unfold changed failed discovered
  induction outcomes with
  | nil => rfl
  | cons o outcomes ih =>
    obtain ⟨path, status, bytes⟩ := o
    rw [List.length_cons, ← ih]
    cases status <;> simp [Outcome.reason?] <;> omega

theorem unchanged_eq (r : Report) :
    r.unchanged = r.outcomes.countP fun o => o.status == .unchanged := by
  have := r.changed_add_failed
  unfold unchanged
  omega

theorem bytesRead_eq (r : Report) : r.bytesRead = (r.outcomes.map (·.bytes)).foldl (· + ·) 0 := by
  have hsum (n : Nat) (outcomes : List Outcome) :
      (outcomes.map (·.bytes)).foldl (· + ·) n = n + outcomes.foldr (·.bytes + ·) 0 := by
    induction outcomes generalizing n with
    | nil => rfl
    | cons o outcomes ih =>
      rw [List.map_cons, List.foldl_cons, ih, List.foldr_cons, Nat.add_assoc]
  rw [hsum, Nat.zero_add, bytesRead]

end Report

/-! ## What a batch has done -/

namespace Pool

/-- What a batch has done when it is over, said of the files before it. -/
structure Settled (job : Job) (before : FileTable) (paths : List Path) (pool : Pool) : Prop where
  /-- There is one outcome per path, in the order of the paths, and it is the one that the work on
  that file alone would have had. -/
  outcomes : pool.report.outcomes = paths.map fun path => (job.process before path).2
  /-- The outcomes are the verdicts on the texts before the batch. -/
  verdicts : pool.report.outcomes = paths.map fun path => job.verdict path (before.get? path)
  /-- A file that changed holds its new text. -/
  written : job.dryRun = false → ∀ path ∈ paths, ∀ source content,
    before.get? path = some source →
    Migration.applyAll job.migrations job.style source = .ok content → content.changed = true →
    pool.files.get? path = some content.text
  /-- Every other file is as it was. -/
  kept : ∀ q, (∀ path ∈ paths, path.same q = true → job.dryRun = false →
      (job.verdict path (before.get? path)).status ≠ .changed) →
    pool.files.get? q = before.get? q
  discovered : pool.report.discovered = paths.length
  counts : pool.report.changed + pool.report.failed + pool.report.unchanged = pool.report.discovered
  unchanged : pool.report.unchanged = pool.report.outcomes.countP fun o => o.status == .unchanged
  bytes : pool.report.bytesRead = (pool.report.outcomes.map (·.bytes)).foldl (· + ·) 0

variable {job : Job} {before : FileTable} {paths : List Path} {pool : Pool}

theorem Sound.kept (h : Sound job before paths pool) (hover : pool.isOver = true) {q : Path}
    (hq : ∀ path ∈ paths, path.same q = true → job.dryRun = false →
      (job.verdict path (before.get? path)).status ≠ .changed) :
    pool.files.get? q = before.get? q := by
  by_cases hlisted : ∃ path ∈ paths, path.same q = true
  · obtain ⟨path, hpath, hsame⟩ := hlisted
    rw [← FileTable.get?_congr hsame, ← FileTable.get?_congr hsame, h.get?_files hover hpath]
    exact Job.after_eq_self (hq path hpath hsame)
  · apply h.other
    intro path hpath
    exact Bool.eq_false_iff.2 fun hsame => hlisted ⟨path, hpath, hsame⟩

theorem Sound.settled (h : Sound job before paths pool) (hover : pool.isOver = true) :
    Settled job before paths pool where
  outcomes := by
    simp only [Job.process_snd]
    exact h.report_eq hover
  verdicts := h.report_eq hover
  written := by
    intro hdry path hpath source content hsource happly hchanged
    have hnew : job.revision? source = some content.text :=
      Job.revision?_eq_some.2 ⟨hdry, content, happly, hchanged, rfl⟩
    rw [h.get?_files hover hpath, hsource, Job.after, Option.map_some, hnew, Option.getD_some]
  kept := fun q hq => h.kept hover hq
  discovered := by
    rw [Report.discovered, h.report_eq hover, List.length_map]
  counts := by
    rw [Report.unchanged_eq, Report.changed_add_failed]
  unchanged := Report.unchanged_eq _
  bytes := Report.bytesRead_eq _

/-- The pool in which the library leaves a batch. -/
theorem play_report {workers : Nat} (hworkers : 1 ≤ workers) (job : Job) (files : FileTable)
    (paths : List Path) : ∃ schedule pool, (start files paths).play job workers schedule = some pool ∧
      pool.isOver = true ∧ job.report files paths = (pool.files, pool.report) := by
  obtain ⟨schedule, hplay⟩ := play_run hworkers job paths files []
  refine ⟨schedule, _, hplay, ?_, ?_⟩
  · simp [isOver, Task.outcome?]
  · simp [Job.report, report, List.filterMap_map, Function.comp_def, Task.outcome?]

/-- The report of a batch over distinct files is read off the files before it. -/
theorem report_eq_verdicts (hpaths : Distinct paths) (job : Job) (files : FileTable) :
    (job.report files paths).2 = ⟨paths.map fun path => job.verdict path (files.get? path)⟩ := by
  obtain ⟨_, pool, hplay, hover, heq⟩ := play_report (Nat.le_refl 1) job files paths
  rw [heq]
  exact congrArg Report.mk (((Sound.start job files paths).play hpaths hplay).report_eq hover)

/-- The report is the same for every schedule. -/
theorem report_eq_report (hpaths : Distinct paths) {workers : Nat} {schedule : List Nat}
    (hplay : (start before paths).play job workers schedule = some pool)
    (hover : pool.isOver = true) : pool.report = (job.report before paths).2 := by
  rw [report_eq_verdicts hpaths]
  exact congrArg Report.mk (((Sound.start job before paths).play hpaths hplay).report_eq hover)

/-- A batch over distinct files does the same under every schedule of any number of workers: it
comes to its end, and then there is one outcome per file, the changed files hold their new texts and
nothing else is touched. -/
theorem every_schedule_settles {paths : List Path} (hpaths : Distinct paths) {workers : Nat}
    (hworkers : 1 ≤ workers) (job : Job) (files : FileTable) :
    (∃ schedule pool, (start files paths).play job workers schedule = some pool ∧
      pool.isOver = true ∧ job.report files paths = (pool.files, pool.report)) ∧
    ∀ schedule pool, (start files paths).play job workers schedule = some pool →
      schedule.length ≤ 2 * paths.length ∧
      (pool.isOver = false → ∃ i next, pool.advance job workers i = some next) ∧
      (pool.isOver = true →
        pool.report = (job.report files paths).2 ∧ Settled job files paths pool) := by
  refine ⟨play_report hworkers job files paths, fun schedule pool hplay => ⟨?_, ?_, ?_⟩⟩
  · have := length_add_stepsLeft hplay
    rw [stepsLeft_start] at this
    omega
  · exact fun hover => exists_advance hworkers hover job
  · intro hover
    exact ⟨report_eq_report hpaths hplay hover,
      ((Sound.start job files paths).play hpaths hplay).settled hover⟩

/-- Two workers on five files. While one file that changes waits for its write, another, which is
listed under a different spelling, is converted and written; of the others one needs no change, one
has a method without a body, and one is not there. -/
theorem two_workers_settle :
    let files : FileTable := ⟨[(.ofString "src/A", "package p; synchronized a()\x7b\x7d".toList),
      (.ofString "src/B", "b()\x7b\x7d".toList), (.ofString "src/C", " synchronized c()".toList),
      (.ofString "src/E", "package p; synchronized e()\x7b\x7d".toList),
      (.ofString "src/F", "f".toList)]⟩
    let paths : List Path := ["src/A", "src/B", "src/C", "src/D", "src//E"].map .ofString
    let job : Job := ⟨[.synchronizedToLock], ⟨0, .stampedLock⟩, false⟩
    ∃ pool, (start files paths).play job 2 [0, 4, 4, 2, 1, 0, 3] = some pool ∧
      (pool.isOver ∧ pool.report.changed = 2 ∧ pool.report.failed = 2) ∧
      Settled job files paths pool := by
  intro files paths job
  have hpaths : Distinct paths := by
    unfold Distinct
    decide
  have hplay : ((start files paths).play job 2 [0, 4, 4, 2, 1, 0, 3]).any (fun pool =>
      pool.isOver && pool.report.changed == 2 && pool.report.failed == 2) = true := by
    decide
  obtain ⟨pool, hpool, hover⟩ := Option.any_eq_true _ _ |>.1 hplay
  simp only [Bool.and_eq_true, beq_iff_eq, and_assoc] at hover
  have h := (every_schedule_settles hpaths (by decide : 1 ≤ 2) job files).2 _ pool hpool
  exact ⟨pool, hpool, hover, (h.2.2 hover.1).2⟩

/-! ## Dry runs -/

/-- A dry run leaves every file as it was, at every moment of every schedule, and its report is that
of the same batch when it writes, whatever the two schedules are. -/
theorem dry_run_foretells {paths : List Path} (hpaths : Distinct paths) (job : Job)
    (files : FileTable) :
    let dry : Job := { job with dryRun := true }
    let real : Job := { job with dryRun := false }
    dry.report files paths = (files, (real.report files paths).2) ∧
    (∀ workers schedule pool, (start files paths).play dry workers schedule = some pool →
      pool.files = files) ∧
    ∀ dryWorkers drySchedule dryPool realWorkers realSchedule realPool,
      (start files paths).play dry dryWorkers drySchedule = some dryPool →
      (start files paths).play real realWorkers realSchedule = some realPool →
      dryPool.isOver = true → realPool.isOver = true → dryPool.report = realPool.report := by
  intro dry real
  have hidle : ∀ task ∈ (start files paths).tasks, task.isActive = false := by
    simp [start, Task.isActive]
  -- verdicts do not depend on whether the batch writes
  have hreport : (dry.report files paths).2 = (real.report files paths).2 := by
    rw [report_eq_verdicts hpaths, report_eq_verdicts hpaths]
    rfl
  refine ⟨?_, ?_, ?_⟩
  · obtain ⟨_, pool, hplay, -, heq⟩ := play_report (Nat.le_refl 1) dry files paths
    have hfiles : pool.files = files := play_dryRun rfl hidle hplay
    rw [← hreport, heq, hfiles]
  · intro workers schedule pool hplay
    exact play_dryRun rfl hidle hplay
  · intro _ _ dryPool _ _ realPool hdry hreal hdryOver hrealOver
    rw [report_eq_report hpaths hdry hdryOver, report_eq_report hpaths hreal hrealOver, hreport]

/-- One worker looks at three files from the last to the first, and two workers then convert them: a
file that changes, one whose method has no body and one that needs no change. -/
theorem dry_run_foretells_three :
    let files : FileTable := ⟨[(.ofString "A", "package p; synchronized a()\x7b\x7d".toList),
      (.ofString "B", " synchronized b()".toList), (.ofString "C", "c()\x7b\x7d".toList)]⟩
    let paths : List Path := ["A", "B", "C"].map .ofString
    let dry : Job := ⟨[.synchronizedToLock], ⟨0, .stampedLock⟩, true⟩
    let real : Job := ⟨[.synchronizedToLock], ⟨0, .stampedLock⟩, false⟩
    ∃ dryPool realPool, (start files paths).play dry 1 [2, 1, 0] = some dryPool ∧
      (start files paths).play real 2 [0, 1, 2, 0] = some realPool ∧
      dryPool.files = files ∧ realPool.files ≠ files ∧
      dryPool.report.changed = 1 ∧ dryPool.report = realPool.report := by
  intro files paths dry real
  have hpaths : Distinct paths := by
    unfold Distinct
    decide
  have hdry : ((start files paths).play dry 1 [2, 1, 0]).any (fun pool =>
      pool.isOver && pool.report.changed == 1) = true := by
    decide
  have hreal : ((start files paths).play real 2 [0, 1, 2, 0]).any (fun pool =>
      pool.isOver && pool.files != files) = true := by
    decide
  obtain ⟨dryPool, hdry, hd⟩ := Option.any_eq_true _ _ |>.1 hdry
  obtain ⟨realPool, hreal, hr⟩ := Option.any_eq_true _ _ |>.1 hreal
  simp only [Bool.and_eq_true, beq_iff_eq, bne_iff_ne] at hd hr
  obtain ⟨-, hfiles, hreports⟩ := dry_run_foretells hpaths real files
  exact ⟨dryPool, realPool, hdry, hreal, hfiles _ _ _ hdry, hr.2, hd.2,
    hreports _ _ _ _ _ _ hdry hreal hd.1 hr.1⟩

end Pool

end LockMigration.Batch
