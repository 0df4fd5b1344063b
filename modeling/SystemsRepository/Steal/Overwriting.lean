import SystemsRepository.Steal.Sources

/-! # Source files that are overwritten

Where all sources are readable files and some bytes can reach one that is also a
destination, both programs have a run that changes it.
-/

namespace SystemsRepository.Steal

open Relation (ReflTransGen)

variable {File : Type u} [DecidableEq File]

structure Overwriting (kernel : Kernel File) (initial : Files File) (job : CopyJob)
    (source dest : File) : Prop where
  reads : kernel.locate job.src = some source
  writes : kernel.locate job.dest = some dest
  sourceExists : (initial source).isSome
  destExists : (initial dest).isSome
  bytes : initial.bytes dest ≠ [] ∨ initial.bytes source ≠ []

variable {kernel : Kernel File} {initial files after : Files File} {jobs : List CopyJob}
  {job : CopyJob} {sources : List Path} {folder : Path} {source dest : File}

def Readable (kernel : Kernel File) (initial : Files File) (sources : List Path) : Prop :=
  ∀ path ∈ sources, ∃ file, kernel.locate path = some file ∧ (initial file).isSome

omit [DecidableEq File] in
theorem Readable.mono (readable : Readable kernel initial sources)
    (exist : ∀ file, (initial file).isSome → (files file).isSome) :
    Readable kernel files sources := by
  intro path member
  rcases readable path member with ⟨file, located, present⟩
  exact ⟨file, located, exist file present⟩

omit [DecidableEq File] in
private theorem Fed.exists_overwriting (readable : Readable kernel initial sources)
    (fromSources : ∀ job ∈ jobs, job.src ∈ sources) {file : File}
    (fed : Fed kernel initial jobs file) :
    (∃ path ∈ sources, kernel.locate path = some file) → IsDest kernel jobs file →
    ∃ job ∈ jobs, ∃ source dest, Overwriting kernel initial job source dest ∧
      ∃ path ∈ sources, kernel.locate path = some dest := by
  have exist : ∀ {file : File}, (∃ path ∈ sources, kernel.locate path = some file) →
      (initial file).isSome := by
    rintro file ⟨path, member, located⟩
    rcases readable path member with ⟨other, otherLocated, present⟩
    rw [located] at otherLocated
    cases otherLocated
    exact present
  induction fed with
  | @nonempty file bytes =>
      rintro isSource ⟨job, member, located⟩
      rcases readable job.src (fromSources job member) with ⟨source, read, present⟩
      exact ⟨job, member, source, file, ⟨read, located, present, exist isSource, .inl bytes⟩,
        isSource⟩
  | @copied source dest paired fed induction =>
      intro isSource _
      rcases paired with ⟨job, member, read, written⟩
      have readSource : ∃ path ∈ sources, kernel.locate path = some source :=
        ⟨job.src, fromSources job member, read⟩
      by_cases bytes : initial.bytes source = []
      · cases fed with
        | nonempty some => exact absurd bytes some
        | copied earlier _ => exact induction readSource earlier.isDest
      · exact ⟨job, member, source, dest,
          ⟨read, written, exist readSource, exist isSource, .inr bytes⟩, isSource⟩

omit [DecidableEq File] in
private theorem exists_overwriting_of_disturbed (readable : Readable kernel initial sources)
    (fromSources : ∀ job ∈ jobs, job.src ∈ sources)
    (disturbed : ¬Undisturbed kernel initial sources jobs) :
    ∃ job ∈ jobs, ∃ source dest, Overwriting kernel initial job source dest ∧
      ∃ path ∈ sources, kernel.locate path = some dest := by
  unfold Undisturbed at disturbed
  push Not at disturbed
  rcases disturbed with ⟨path, member, file, located, _, isDest, fed⟩
  exact fed.exists_overwriting readable fromSources ⟨path, member, located⟩ isDest

/-! ## One copy -/

/-- With some results of its calls, the program part returns and leaves these
files. -/
inductive Finishes {State : Type v}
    (step : Files File → State → Result → Option (Files File × Progress State)) :
    Files File → State → Files File → Prop
  | stop {files after : Files File} {state : State} {result : Result} {status : Nat}
      (stepped : step files state result = some (after, .returned status)) :
      Finishes step files state after
  | next {files middle after : Files File} {state further : State} {result : Result}
      (stepped : step files state result = some (middle, .running further))
      (rest : Finishes step middle further after) : Finishes step files state after

private theorem CopyLoop.finishes_at_once (files : Files File) (source : File)
    (dest : Option File) : Finishes CopyLoop.step files (CopyLoop.start source dest) files :=
  .stop (rfl : CopyLoop.step files _ .failed = some (files, .returned 0))

private theorem CopyLoop.finishes_one_byte {byte : UInt8} {rest : Bytes}
    (bytes : files.bytes source = byte :: rest) :
    Finishes CopyLoop.step files (CopyLoop.start source (some dest))
      (files.write dest 0 [byte]) := by
  have read : (CopyLoop.start source (some dest)).step files (.done 1) =
      some (files, .running
        { source := { file := source, offset := 1 }, dest := some { file := dest, offset := 0 },
          turn := .write [byte] }) := by
    simp [CopyLoop.step, CopyLoop.start, CopyLoop.read, Descriptor.advance, bytes]
  have written : CopyLoop.step files
        { source := { file := source, offset := 1 }, dest := some { file := dest, offset := 0 },
          turn := .write [byte] } (.done 1) =
      some (files.write dest 0 [byte], .running
        { source := { file := source, offset := 1 }, dest := some { file := dest, offset := 1 },
          turn := .read }) := by
    simp [CopyLoop.step, CopyLoop.write, Descriptor.advance]
  have ended : ∀ {written : Files File} {loop : CopyLoop File}, loop.turn = .read →
      Finishes CopyLoop.step written loop written := by
    intro written loop reading
    have ends : loop.step written .failed = some (written, .returned 0) := by
      rw [CopyLoop.step, reading]
      rfl
    exact .stop ends
  exact .next read (.next written (ended rfl))

/-- Once the destination is open, the copy can end with other contents. -/
theorem Overwriting.finishes (overwriting : Overwriting kernel initial job source dest) :
    ∃ final, Finishes CopyLoop.step (initial.store dest []) (CopyLoop.start source (some dest))
        final ∧
      final dest ≠ initial dest ∧ ∀ file, (initial file).isSome → (final file).isSome := by
  by_cases empty : initial.bytes dest = []
  · have sourceBytes : initial.bytes source ≠ [] :=
      overwriting.bytes.resolve_left fun some => some empty
    have different : source ≠ dest := fun same => sourceBytes (same ▸ empty)
    cases bytes : initial.bytes source with
    | nil => exact absurd bytes sourceBytes
    | cons byte rest =>
        have sameBytes : (initial.store dest []).bytes source = byte :: rest := by
          rw [← bytes, Files.bytes, Files.store_other _ different]
          rfl
        refine ⟨_, CopyLoop.finishes_one_byte sameBytes, ?_, ?_⟩
        · intro same
          have holds : initial.bytes dest = [byte] := by
            rw [Files.bytes, ← same, Files.write, Files.store_self, Files.bytes, Files.store_self]
            rfl
          rw [empty] at holds
          cases holds
        · exact fun file exist => Files.isSome_store _ (Files.isSome_store _ exist)
  · refine ⟨_, CopyLoop.finishes_at_once _ source (some dest), ?_, ?_⟩
    · intro same
      apply empty
      rw [Files.bytes, ← same, Files.store_self]
      rfl
    · exact fun file exist => Files.isSome_store _ exist

theorem Overwriting.openWrite (overwriting : Overwriting kernel initial job source dest) :
    kernel.openWrite initial job.dest (.done 0) = (initial.store dest [], some dest) := by
  simp [Kernel.openWrite, overwriting.writes]

/-! ## One file after the other -/

private theorem Stealing.finish_loop {loop : CopyLoop File}
    (finishes : Finishes CopyLoop.step files loop after) (path : Path) (rest : List Path)
    (success : Nat) :
    ReflTransGen (Stealing.Step kernel folder)
      { files, remaining := path :: rest, state := .copying loop, success }
      { files := after, remaining := rest, state := .openSource, success := success + 1 } := by
  induction finishes with
  | @stop files after loop result status stepped =>
      refine .single ⟨result, ?_⟩
      simp [Stealing.step, stepped]
  | @next files middle after loop further result stepped _ induction =>
      refine .head ⟨result, ?_⟩ induction
      simp [Stealing.step, stepped]

private theorem Stealing.copy_argument {path : Path} {result : Result} {middle : Files File}
    {opened : Option File} (located : kernel.locate path = some source)
    (exist : (files source).isSome)
    (opens : kernel.openWrite files (destinationFile folder path) result = (middle, opened))
    (finishes : Finishes CopyLoop.step middle (CopyLoop.start source opened) after)
    (rest : List Path) (success : Nat) :
    ReflTransGen (Stealing.Step kernel folder)
      { files, remaining := path :: rest, state := .openSource, success }
      { files := after, remaining := rest, state := .openSource, success := success + 1 } := by
  have openSource : Stealing.Step kernel folder
      { files, remaining := path :: rest, state := .openSource, success }
      { files, remaining := path :: rest, state := .stat (some source), success } :=
    ⟨.done 0, by simp [Stealing.step, Kernel.openRead, located, exist]⟩
  have stat : Stealing.Step kernel folder
      { files, remaining := path :: rest, state := .stat (some source), success }
      { files, remaining := path :: rest, state := .openDest source, success } :=
    ⟨.done 0, by simp [Stealing.step, Kernel.stat, located, exist]⟩
  have openDest : Stealing.Step kernel folder
      { files, remaining := path :: rest, state := .openDest source, success }
      { files := middle, remaining := path :: rest, state := .copying (.start source opened),
        success } :=
    ⟨result, by simp [Stealing.step, opens]⟩
  exact .head openSource (.head stat (.head openDest
    (Stealing.finish_loop finishes path rest success)))

/-- `steal.c` passes over arguments whose destination cannot be opened. -/
theorem Stealing.skip (rest : List Path) : ∀ {remaining : List Path} (success : Nat),
    Readable kernel files remaining → ∃ count,
    ReflTransGen (Stealing.Step kernel folder)
      { files, remaining := remaining ++ rest, state := .openSource, success }
      { files, remaining := rest, state := .openSource, success := count }
  | [], success, _ => ⟨success, .refl⟩
  | path :: paths, success, readable => by
      rcases readable path List.mem_cons_self with ⟨file, located, exist⟩
      have closed : kernel.openWrite files (destinationFile folder path) .failed = (files, none) :=
        rfl
      rcases Stealing.skip rest (success + 1) fun other member =>
        readable other (List.mem_cons_of_mem _ member) with ⟨count, others⟩
      exact ⟨count, (Stealing.copy_argument located exist closed
        (CopyLoop.finishes_at_once files file none) (paths ++ rest) success).trans others⟩

private theorem Overwriting.steal_run (readable : Readable kernel initial sources) {path : Path}
    (member : path ∈ sources)
    (overwriting : Overwriting kernel initial (stealJob folder path) source dest) :
    ∃ final, ReflTransGen (Stealing.Step kernel folder) (Stealing.start initial sources) final ∧
      final.state = .returned 0 ∧ final.files dest ≠ initial dest := by
  rcases List.append_of_mem member with ⟨before, behind, split⟩
  subst split
  rcases overwriting.finishes with ⟨after, finishes, changed, exist⟩
  have early : Readable kernel initial before := fun other inside =>
    readable other (List.mem_append_left _ inside)
  have late : Readable kernel after behind := by
    apply Readable.mono _ exist
    intro other inside
    exact readable other (List.mem_append_right _ (List.mem_cons_of_mem _ inside))
  rcases @Stealing.skip _ _ kernel initial folder (path :: behind) before 0 early with
    ⟨count, skipped⟩
  have copied := Stealing.copy_argument overwriting.reads overwriting.sourceExists
    overwriting.openWrite finishes behind count
  rcases @Stealing.skip _ _ kernel after folder [] behind (count + 1) late with ⟨total, others⟩
  rw [List.append_nil] at others
  have returned : Stealing.Step kernel folder
      { files := after, remaining := [], state := .openSource, success := total }
      { files := after, remaining := [], state := .returned 0, success := total } :=
    ⟨.done 0, rfl⟩
  exact ⟨_, (skipped.trans copied).trans (others.tail returned), rfl, changed⟩

private theorem stealKeeps_undisturbed (readable : Readable kernel initial sources)
    (keeps : StealKeeps kernel initial sources folder) :
    Undisturbed kernel initial sources (sources.map (stealJob folder)) := by
  apply Classical.byContradiction
  intro disturbed
  have fromSources : ∀ job ∈ sources.map (stealJob folder), job.src ∈ sources := by
    intro job member
    rcases List.mem_map.mp member with ⟨path, inside, rfl⟩
    exact inside
  rcases exists_overwriting_of_disturbed readable fromSources disturbed with
    ⟨job, member, source, dest, overwriting, path, isSource, located⟩
  rcases List.mem_map.mp member with ⟨argument, inside, rfl⟩
  rcases overwriting.steal_run readable inside with ⟨final, run, returned, changed⟩
  exact changed (keeps final 0 run returned path isSource dest located overwriting.destExists)

/-! ## Workers -/

private theorem CopyFiles.finishes_loop {loop : CopyLoop File}
    (finishes : Finishes CopyLoop.step files loop after) :
    Finishes (CopyFiles.step kernel) files (.copying loop) after := by
  induction finishes with
  | @stop files after loop result status stepped =>
      have returns : CopyFiles.step kernel files (.copying loop) result =
          some (after, .returned status) := by
        simp [CopyFiles.step, stepped]
      exact .stop returns
  | @next files middle after loop further result stepped _ induction =>
      have runs : CopyFiles.step kernel files (.copying loop) result =
          some (middle, .running (.copying further)) := by
        simp [CopyFiles.step, stepped]
      exact .next runs induction

private theorem CopyFiles.finishes_failing (kernel : Kernel File) (files : Files File)
    (job : CopyJob) : Finishes (CopyFiles.step kernel) files (.openSource job) files := by
  have openSource : CopyFiles.step kernel files (.openSource job) .failed =
      some (files, .running (.openDest job none)) := rfl
  have openDest : CopyFiles.step kernel files (.openDest job none) .failed =
      some (files, .running (.stat none none)) := rfl
  have stat : CopyFiles.step kernel files (.stat none none) .failed =
      some (files, .returned 1) := rfl
  exact .next openSource (.next openDest (.stop stat))

private theorem Overwriting.finishes_job (overwriting : Overwriting kernel initial job source dest)
    (finishes : Finishes CopyLoop.step (initial.store dest []) (CopyLoop.start source (some dest))
      after) :
    Finishes (CopyFiles.step kernel) initial (.openSource job) after := by
  have openSource : CopyFiles.step kernel initial (.openSource job) (.done 0) =
      some (initial, .running (.openDest job (some source))) := by
    simp [CopyFiles.step, Kernel.openRead, overwriting.reads, overwriting.sourceExists]
  have openDest : CopyFiles.step kernel initial (.openDest job (some source)) (.done 0) =
      some (initial.store dest [], .running (.stat (some source) (some dest))) := by
    simp [CopyFiles.step, overwriting.openWrite]
  have stat : CopyFiles.step kernel (initial.store dest []) (.stat (some source) (some dest))
      (.done 0) =
      some (initial.store dest [], .running (.copying (.start source (some dest)))) := rfl
  exact .next openSource (.next openDest (.next stat (CopyFiles.finishes_loop finishes)))

section Workers

variable {Worker : Type v} [DecidableEq Worker] {worker : Worker} {system : System Worker File}

/-- While the others wait, a worker has come this far in the queue, is about to lock
it, and the files are these. -/
structure System.Advanced (kernel : Kernel File) (worker : Worker) (system : System Worker File)
    (jobIndex : Nat) (files : Files File) (next : System Worker File) : Prop where
  run : ReflTransGen (System.Step kernel) system next
  locking : next.workers worker = .locking
  index : next.jobIndex = jobIndex
  files : next.files = files
  alone : system.Alone worker next

private theorem System.finish_copy {copy : CopyFiles File}
    (finishes : Finishes (CopyFiles.step kernel) files copy after) :
    ∀ {system : System Worker File}, system.files = files →
      system.workers worker = .copying copy →
      ∃ next, System.Advanced kernel worker system system.jobIndex after next := by
  induction finishes with
  | @stop files after copy result status stepped =>
      intro system sameFiles copying
      refine ⟨({ system with files := after } : System Worker File).update worker .locking,
        .single ⟨worker, result, ?_⟩, Function.update_self _ _ _, rfl, rfl, rfl, ?_⟩
      · simp only [System.step, copying, sameFiles, stepped]
      · exact fun other different => Function.update_of_ne different _ _
  | @next files middle after copy further result stepped _ induction =>
      intro system sameFiles copying
      have moved : System.Step kernel system
          (({ system with files := middle } : System Worker File).update worker
            (.copying further)) := by
        refine ⟨worker, result, ?_⟩
        simp only [System.step, copying, sameFiles, stepped]
      have alone : system.Alone worker
          (({ system with files := middle } : System Worker File).update worker
            (.copying further)) :=
        ⟨rfl, fun other different => Function.update_of_ne different _ _⟩
      rcases @induction (({ system with files := middle } : System Worker File).update worker
        (.copying further)) rfl (Function.update_self _ _ _) with ⟨next, advanced⟩
      exact ⟨next, .head moved advanced.run, advanced.locking, advanced.index, advanced.files,
        alone.trans advanced.alone⟩

private theorem System.do_job (locking : system.workers worker = .locking)
    (found : system.queue[system.jobIndex]? = some job)
    (finishes : Finishes (CopyFiles.step kernel) system.files (.openSource job) after) :
    ∃ next, System.Advanced kernel worker system (system.jobIndex + 1) after next := by
  let taken := ({ system with jobIndex := system.jobIndex + 1 } : System Worker File).update worker
    (.copying (.openSource job))
  have takes : System.Step kernel system taken := by
    refine ⟨worker, .done 0, ?_⟩
    simp only [System.step, locking, found, taken]
  have alone : system.Alone worker taken :=
    ⟨rfl, fun other different => Function.update_of_ne different _ _⟩
  rcases System.finish_copy finishes (rfl : taken.files = system.files)
    (Function.update_self _ _ _) with ⟨next, advanced⟩
  exact ⟨next, .head takes advanced.run, advanced.locking, advanced.index, advanced.files,
    alone.trans advanced.alone⟩

private theorem System.skip_jobs (kernel : Kernel File) :
    ∀ (count : Nat) {system : System Worker File},
    system.workers worker = .locking → system.jobIndex + count ≤ system.queue.length →
    ∃ next, System.Advanced kernel worker system (system.jobIndex + count) system.files next
  | 0, system, locking, _ => ⟨system, .refl, locking, rfl, rfl, rfl, fun _ _ => rfl⟩
  | count + 1, system, locking, room => by
      have found := List.getElem?_eq_getElem (show system.jobIndex < system.queue.length by omega)
      rcases System.do_job locking found (CopyFiles.finishes_failing kernel system.files _) with
        ⟨middle, first⟩
      have queue := first.alone.queue
      have index := first.index
      rcases System.skip_jobs kernel count first.locking (by rw [queue]; omega) with ⟨next, rest⟩
      exact ⟨next, first.run.trans rest.run, rest.locking, by rw [rest.index]; omega,
        rest.files.trans first.files, first.alone.trans rest.alone⟩

private theorem System.exit_workers (kernel : Kernel File) (system : System Worker File)
    (drained : system.queue.length ≤ system.jobIndex)
    (waiting : ∀ worker, system.workers worker = .locking) (workers : List Worker) :
    ∃ next, ReflTransGen (System.Step kernel) system next ∧ next.files = system.files ∧
      next.queue = system.queue ∧ next.jobIndex = system.jobIndex ∧
      ∀ worker, next.workers worker = if worker ∈ workers then .exited else .locking := by
  induction workers with
  | nil => exact ⟨system, .refl, rfl, rfl, rfl, fun worker => by simp [waiting worker]⟩
  | cons worker workers induction =>
      rcases induction with ⟨middle, run, files, queue, index, left⟩
      by_cases already : worker ∈ workers
      · refine ⟨middle, run, files, queue, index, fun other => ?_⟩
        by_cases same : other = worker
        · simp [left, same, already]
        · simp [left, same]
      · have locking : middle.workers worker = .locking := by
          rw [left, if_neg already]
        have nothing : middle.queue[middle.jobIndex]? = none := by
          rw [queue, index]
          exact List.getElem?_eq_none drained
        have leaves : System.Step kernel middle (middle.update worker .exited) := by
          refine ⟨worker, .done 0, ?_⟩
          simp only [System.step, locking, nothing]
        refine ⟨middle.update worker .exited, run.tail leaves, files, queue, index, ?_⟩
        intro other
        by_cases same : other = worker
        · simp [System.update, same]
        · simp [System.update, same, left]

end Workers

private theorem Overwriting.threaded_run {queue : List CopyJob} (member : job ∈ queue)
    (overwriting : Overwriting kernel initial job source dest) :
    ∃ final : System (Fin numThreads) File,
      ReflTransGen (System.Step kernel) (System.start initial queue) final ∧
      (∀ worker, final.workers worker = .exited) ∧ final.files dest ≠ initial dest := by
  rcases List.getElem_of_mem member with ⟨index, inside, found⟩
  rcases overwriting.finishes with ⟨after, finishes, changed, _⟩
  let start : System (Fin numThreads) File := System.start initial queue
  rcases System.skip_jobs kernel index (rfl : start.workers 0 = .locking)
    (by simp only [start, System.start]; omega) with ⟨early, skipped⟩
  have reached : early.jobIndex = index := skipped.index.trans (Nat.zero_add index)
  have atJob : early.queue[early.jobIndex]? = some job := by
    rw [reached, skipped.alone.queue, ← found]
    exact List.getElem?_eq_getElem inside
  have finishesJob : Finishes (CopyFiles.step kernel) early.files (.openSource job) after := by
    rw [skipped.files]
    exact overwriting.finishes_job finishes
  rcases System.do_job skipped.locking atJob finishesJob with ⟨middle, copied⟩
  have alone := skipped.alone.trans copied.alone
  have size : middle.queue.length = queue.length := congrArg List.length alone.queue
  have position : middle.jobIndex = index + 1 := by rw [copied.index, reached]
  rcases System.skip_jobs kernel (queue.length - (index + 1)) copied.locking (by omega) with
    ⟨late, rest⟩
  have whole := alone.trans rest.alone
  have waiting : ∀ worker, late.workers worker = .locking := by
    intro worker
    by_cases first : worker = 0
    · rw [first, rest.locking]
    · rw [whole.others worker first]
      rfl
  have drained : late.queue.length ≤ late.jobIndex := by
    rw [rest.index, rest.alone.queue]
    omega
  rcases System.exit_workers kernel late drained waiting (List.finRange numThreads) with
    ⟨final, exits, files, _, _, exited⟩
  refine ⟨final, ((skipped.run.trans copied.run).trans rest.run).trans exits, ?_, ?_⟩
  · intro worker
    rw [exited, if_pos (List.mem_finRange worker)]
  · rw [files, rest.files, copied.files]
    exact changed

private theorem threadedKeeps_undisturbed (directory : kernel.isDirectory folder = true)
    (readable : Readable kernel initial sources)
    (keeps : ThreadedKeeps kernel initial sources folder) :
    sources.length ≤ maxJobs ∧
      Undisturbed kernel initial sources (sources.map (copyJob folder)) := by
  have room : sources.length ≤ maxJobs := by
    apply Nat.not_lt.mp
    intro many
    rw [ThreadedKeeps, launch_overflows directory many] at keeps
    exact keeps
  refine ⟨room, Classical.byContradiction fun disturbed => ?_⟩
  have fromSources : ∀ job ∈ sources.map (copyJob folder), job.src ∈ sources := by
    intro job member
    rcases List.mem_map.mp member with ⟨path, inside, rfl⟩
    rcases readable path inside with ⟨file, located, _⟩
    rw [copyJob, trimSlashes_eq (kernel.noSlash located), snprintf_eq (kernel.short located)]
    exact inside
  rcases exists_overwriting_of_disturbed readable fromSources disturbed with
    ⟨job, member, source, dest, overwriting, path, isSource, located⟩
  have nonempty : sources ≠ [] := List.ne_nil_of_mem isSource
  rw [ThreadedKeeps, launch_eq directory nonempty room] at keeps
  rcases overwriting.threaded_run member with ⟨final, run, exited, changed⟩
  exact changed (keeps final run exited path isSource dest located overwriting.destExists)

/-- The sources survive every run of both programs if no bytes can reach a source
that is also a destination, and the arguments fit the queue; among readable sources
that is also necessary. -/
theorem sources_survive (directory : kernel.isDirectory folder = true) :
    (Undisturbed kernel initial sources (sources.map (stealJob folder)) →
      StealKeeps kernel initial sources folder) ∧
    (sources.length ≤ maxJobs →
      Undisturbed kernel initial sources (sources.map (copyJob folder)) →
      ThreadedKeeps kernel initial sources folder) ∧
    (Readable kernel initial sources →
      (StealKeeps kernel initial sources folder →
        Undisturbed kernel initial sources (sources.map (stealJob folder))) ∧
      (ThreadedKeeps kernel initial sources folder → sources.length ≤ maxJobs ∧
        Undisturbed kernel initial sources (sources.map (copyJob folder)))) :=
  ⟨stealKeeps_of_undisturbed, threadedKeeps_of_undisturbed directory, fun readable =>
    ⟨stealKeeps_undisturbed readable, threadedKeeps_undisturbed directory readable⟩⟩

theorem sources_survive_of_two :
    StealKeeps plainKernel twoFiles [['a', '/', 'x'], ['b', '/', 'y']] ['d'] ∧
      ThreadedKeeps plainKernel twoFiles [['a', '/', 'x'], ['b', '/', 'y']] ['d'] := by
  have located : ∀ path ∈ [['a', '/', 'x'], ['b', '/', 'y']],
      plainKernel.locate path = some path := by decide
  have undisturbed : ∀ jobs : List CopyJob,
      (∀ job ∈ jobs, ∀ path ∈ [['a', '/', 'x'], ['b', '/', 'y']],
        plainKernel.locate job.dest ≠ some path) →
      Undisturbed plainKernel twoFiles [['a', '/', 'x'], ['b', '/', 'y']] jobs := by
    rintro jobs apart path member file same _ ⟨job, inside, isDest⟩
    rw [located path member] at same
    cases same
    exact absurd isDest (apart job inside path member)
  have survive := @sources_survive Path _ plainKernel twoFiles
    [['a', '/', 'x'], ['b', '/', 'y']] ['d'] rfl
  exact ⟨survive.1 (undisturbed _ (by decide)),
    survive.2.1 (by decide) (undisturbed _ (by decide))⟩

def oneFile : Files Path := fun path => if path = ['d', '/', 'x'] then some [1] else none

/-- Copying a file to the folder it is in empties it, without any call failing. -/
theorem source_in_folder_emptied :
    (∃ final, ReflTransGen (Stealing.CleanStep plainKernel ['d'])
        (Stealing.start oneFile [['d', '/', 'x']]) final ∧
      final.state = .returned 0 ∧ final.files ['d', '/', 'x'] = some []) ∧
    oneFile ['d', '/', 'x'] = some [1] ∧
    ¬StealKeeps plainKernel oneFile [['d', '/', 'x']] ['d'] ∧
    ¬ThreadedKeeps plainKernel oneFile [['d', '/', 'x']] ['d'] := by
  have readable : Readable plainKernel oneFile [['d', '/', 'x']] := by
    intro path member
    rw [List.mem_singleton.mp member]
    exact ⟨['d', '/', 'x'], rfl, rfl⟩
  have disturbed : ∀ jobs : List CopyJob,
      (∃ job ∈ jobs, plainKernel.locate job.dest = some ['d', '/', 'x']) →
      ¬Undisturbed plainKernel oneFile [['d', '/', 'x']] jobs := by
    intro jobs isDest undisturbed
    exact undisturbed _ List.mem_cons_self ['d', '/', 'x'] rfl rfl isDest (.nonempty (by decide))
  refine ⟨?_, rfl, ?_, ?_⟩
  · have start : ReflTransGen (Stealing.CleanStep plainKernel ['d'])
        (Stealing.start oneFile [['d', '/', 'x']]) (Stealing.start oneFile [['d', '/', 'x']]) :=
      .refl
    have openSource := start.tail ⟨.done 0, nofun, rfl⟩
    have stat := openSource.tail ⟨.done 0, nofun, rfl⟩
    have openDest := stat.tail ⟨.done 0, nofun, rfl⟩
    have read := openDest.tail ⟨.done 0, nofun, rfl⟩
    exact ⟨_, read.tail ⟨.done 0, nofun, rfl⟩, rfl, rfl⟩
  · intro keeps
    exact disturbed _ ⟨_, List.mem_cons_self, rfl⟩ (stealKeeps_undisturbed readable keeps)
  · intro keeps
    exact disturbed _ ⟨_, List.mem_cons_self, rfl⟩
      (threadedKeeps_undisturbed rfl readable keeps).2

end SystemsRepository.Steal
