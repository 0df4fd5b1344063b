import SystemsRepository.Steal.Agreement

/-! # The jobs are handed out once

Which worker gets which job of the queue, along any run of the workers.
-/

namespace SystemsRepository.Steal

variable {File : Type u} [DecidableEq File] {Worker : Type v} [DecidableEq Worker]

/-- A worker has read the job at an index of `job_queue` and calls `copy_files`
with it. -/
structure Handed (Worker : Type v) where
  worker : Worker
  index : Nat
  job : CopyJob
  deriving DecidableEq, Repr

omit [DecidableEq File] [DecidableEq Worker] in
/-- What a step of a worker hands out to it. -/
def System.handed (system after : System Worker File) (worker : Worker) :
    Option (Handed Worker) :=
  match system.workers worker, after.workers worker with
  | .locking, .copying (.openSource job) => some { worker, index := system.jobIndex, job }
  | _, _ => none

/-- The systems that the workers can reach, with all that has been handed out. -/
inductive System.Run (kernel : Kernel File) (start : System Worker File) :
    List (Handed Worker) → System Worker File → Prop
  | start : Run kernel start [] start
  | step {log : List (Handed Worker)} {system after : System Worker File} {worker : Worker}
      {result : Result} (run : Run kernel start log system)
      (stepped : system.step kernel worker result = some after) :
      Run kernel start (log ++ (system.handed after worker).toList) after

variable {kernel : Kernel File} {system after : System Worker File} {worker : Worker}
  {result : Result}

/-- A step takes the next job off the queue, finds the queue empty, or leaves the
queue alone. -/
theorem System.step_cases (stepped : system.step kernel worker result = some after) :
    (∃ job, system.queue[system.jobIndex]? = some job ∧
      system.handed after worker = some { worker, index := system.jobIndex, job } ∧
      after.jobIndex = system.jobIndex + 1 ∧ after.workers worker ≠ .exited ∧
      system.Alone worker after) ∨
    (system.queue.length ≤ system.jobIndex ∧ system.handed after worker = none ∧
      after.jobIndex = system.jobIndex ∧ system.Alone worker after) ∨
    (system.handed after worker = none ∧ after.jobIndex = system.jobIndex ∧
      after.workers worker ≠ .exited ∧ system.Alone worker after) := by
  have others : ∀ {files : Files File} {jobIndex : Nat} {state : WorkerState File},
      system.Alone worker (System.update { system with files, jobIndex } worker state) :=
    ⟨rfl, fun other different => Function.update_of_ne different _ _⟩
  cases state : system.workers worker with
  | exited =>
      rw [System.step, state] at stepped
      cases stepped
  | locking =>
      rw [System.step, state] at stepped
      cases found : system.queue[system.jobIndex]? with
      | none =>
          simp only [found, Option.some.injEq] at stepped
          subst stepped
          refine .inr (.inl ⟨List.getElem?_eq_none_iff.mp found, ?_, rfl, others⟩)
          simp [System.handed, System.update, state]
      | some job =>
          simp only [found, Option.some.injEq] at stepped
          subst stepped
          refine .inl ⟨job, rfl, ?_, rfl, ?_, others⟩
          · simp [System.handed, System.update, state]
          · simp [System.update]
  | copying copy =>
      have alone := System.step_copying state stepped
      refine .inr (.inr ⟨by simp [System.handed, state], alone.2.1, ?_, alone.1⟩)
      rcases alone.2.2 with locking | ⟨next, copying⟩
      · rw [locking]
        intro same
        cases same
      · rw [copying]
        intro same
        cases same

/-- The first `jobIndex` jobs have been handed out, in order, and a worker leaves
its loop only when none are left. -/
structure Distributed (queue : List CopyJob) (log : List (Handed Worker))
    (system : System Worker File) : Prop where
  sameQueue : system.queue = queue
  indices : log.map Handed.index = List.range system.jobIndex
  jobs : ∀ handed ∈ log, queue[handed.index]? = some handed.job
  bound : system.jobIndex ≤ queue.length
  exited : ∀ worker, system.workers worker = .exited → system.jobIndex = queue.length

theorem Distributed.step {queue : List CopyJob} {log : List (Handed Worker)}
    (distributed : Distributed queue log system)
    (stepped : system.step kernel worker result = some after) :
    Distributed queue (log ++ (system.handed after worker).toList) after := by
  have stays : after.jobIndex = system.jobIndex → system.Alone worker after →
      (after.workers worker = .exited → system.jobIndex = queue.length) →
      ∀ other, after.workers other = .exited → after.jobIndex = queue.length := by
    intro same alone leaves other exited
    rw [same]
    by_cases here : other = worker
    · exact leaves (here ▸ exited)
    · exact distributed.exited other (alone.others other here ▸ exited)
  rcases System.step_cases stepped with
    ⟨job, found, handed, index, active, alone⟩ | ⟨drained, handed, index, alone⟩ |
      ⟨handed, index, active, alone⟩
  · rw [distributed.sameQueue] at found
    have inside := (List.getElem?_eq_some_iff.mp found).1
    rw [handed, Option.toList_some]
    refine ⟨alone.queue.trans distributed.sameQueue, ?_, ?_, by omega, ?_⟩
    · rw [List.map_append, distributed.indices, index, List.range_succ]
      rfl
    · intro given member
      rcases List.mem_append.mp member with earlier | now
      · exact distributed.jobs given earlier
      · rw [List.mem_singleton.mp now]
        exact found
    · intro other exited
      by_cases here : other = worker
      · exact absurd (here ▸ exited) active
      · have drained := distributed.exited other (alone.others other here ▸ exited)
        omega
  · rw [handed, Option.toList_none, List.append_nil]
    refine ⟨alone.queue.trans distributed.sameQueue, index ▸ distributed.indices, distributed.jobs,
      index ▸ distributed.bound, stays index alone fun _ => ?_⟩
    rw [distributed.sameQueue] at drained
    exact Nat.le_antisymm distributed.bound drained
  · rw [handed, Option.toList_none, List.append_nil]
    exact ⟨alone.queue.trans distributed.sameQueue, index ▸ distributed.indices, distributed.jobs,
      index ▸ distributed.bound, stays index alone fun exited => absurd exited active⟩

private theorem System.Run.distributed {files : Files File} {queue : List CopyJob}
    {log : List (Handed Worker)} (run : System.Run kernel (System.start files queue) log system) :
    Distributed queue log system := by
  induction run with
  | start => exact ⟨rfl, rfl, nofun, Nat.zero_le _, nofun⟩
  | step _ stepped induction => exact induction.step stepped

omit [DecidableEq File] [DecidableEq Worker] in
private theorem Distributed.filter_index {queue : List CopyJob} {log : List (Handed Worker)}
    (distributed : Distributed queue log system) {index : Nat} (given : index < system.jobIndex) :
    ∃ handed, log.filter (fun other => other.index = index) = [handed] ∧ handed.index = index := by
  have once : (log.map Handed.index).filter (fun other => other = index) = [index] := by
    rw [distributed.indices, List.filter_eq,
      List.count_eq_one_of_mem List.nodup_range (List.mem_range.mpr given), List.replicate_one]
  rw [List.filter_map] at once
  rcases List.map_eq_singleton_iff.mp once with ⟨handed, filtered, equal⟩
  exact ⟨handed, filtered, equal⟩

/-- In every run of any number of workers, the cursor counts the jobs handed out
and never passes the queue, and each was read at its own index. Once some worker
has returned, every job has been handed out to exactly one worker, once. -/
theorem handed_out_once {files : Files File} {queue : List CopyJob} {log : List (Handed Worker)}
    (run : System.Run kernel (System.start files queue) log system) :
    system.jobIndex = log.length ∧ system.jobIndex ≤ queue.length ∧
      (∀ handed ∈ log, handed.index < queue.length ∧
        queue[handed.index]? = some handed.job) ∧
      ∀ returned, system.workers returned = .exited →
        ∀ index job, queue[index]? = some job →
          ∃ worker, log.filter (fun handed => handed.index = index) = [{ worker, index, job }] := by
  have distributed := run.distributed
  refine ⟨?_, distributed.bound, ?_, ?_⟩
  · rw [← List.length_range (n := system.jobIndex), ← distributed.indices, List.length_map]
  · intro handed member
    have found := distributed.jobs handed member
    exact ⟨(List.getElem?_eq_some_iff.mp found).1, found⟩
  · intro returned exited index job found
    have given : index < system.jobIndex := by
      rw [distributed.exited returned exited]
      exact (List.getElem?_eq_some_iff.mp found).1
    rcases distributed.filter_index given with ⟨⟨worker, other, taken⟩, filtered, same⟩
    simp only at same
    subst same
    have member : (⟨worker, other, taken⟩ : Handed Worker) ∈
        log.filter (fun handed => handed.index = other) := by
      rw [filtered]
      exact List.mem_singleton_self _
    have sameJob := distributed.jobs _ (List.mem_of_mem_filter member)
    rw [found] at sameJob
    cases sameJob
    exact ⟨worker, filtered⟩

/-- Two workers take one job each; the sources cannot be opened. -/
theorem handed_out_once_of_two :
    let queue := [copyJob ['d'] ['a', '/', 'x'], copyJob ['d'] ['b', '/', 'y']]
    ∃ (log : List (Handed Bool)) (system : System Bool Path),
      System.Run plainKernel (System.start twoFiles queue) log system ∧
      (∀ worker, system.workers worker = .exited) ∧
      log.map Handed.worker = [true, false] ∧
      ∀ index job, queue[index]? = some job →
        ∃ worker, log.filter (fun handed => handed.index = index) = [{ worker, index, job }] := by
  intro queue
  have idle : System.Run plainKernel (System.start twoFiles queue) []
      (System.start twoFiles queue : System Bool Path) := .start
  have first := idle.step (rfl : System.step plainKernel _ true (.done 0) = some _)
  have second := first.step (rfl : System.step plainKernel _ false (.done 0) = some _)
  have firstMissing := second.step (rfl : System.step plainKernel _ true .failed = some _)
  have bothMissing := firstMissing.step (rfl : System.step plainKernel _ false .failed = some _)
  have created := bothMissing.step (rfl : System.step plainKernel _ true (.done 0) = some _)
  have failed := created.step (rfl : System.step plainKernel _ true .failed = some _)
  have drained := failed.step (rfl : System.step plainKernel _ true (.done 0) = some _)
  have createdToo := drained.step (rfl : System.step plainKernel _ false (.done 0) = some _)
  have failedToo := createdToo.step (rfl : System.step plainKernel _ false .failed = some _)
  have returned := failedToo.step (rfl : System.step plainKernel _ false (.done 0) = some _)
  refine ⟨_, _, returned, ?_, rfl, (handed_out_once returned).2.2.2 true rfl⟩
  intro worker
  cases worker <;> rfl

end SystemsRepository.Steal
