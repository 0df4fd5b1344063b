import SystemsRepository.Steal.Files

/-! # The copy programs

`steal.c` and `threaded_steal.c`, one system call a step. A step is given the
result of its call and is `none` where the call cannot have this result. What
is printed is left out.
-/

namespace SystemsRepository.Steal

abbrev bufSize : Nat := 4096

abbrev maxJobs : Nat := 1024

abbrev numThreads : Nat := 8

variable {File : Type u} [DecidableEq File]

/-! ## The copy loop -/

/-- The call that the loop makes next. -/
inductive Turn
  | read
  | write (buffer : Bytes)

/-- `dest` is `none` for the descriptor -1. -/
structure CopyLoop (File : Type u) where
  source : Descriptor File
  dest : Option (Descriptor File)
  turn : Turn

def CopyLoop.start (source : File) (dest : Option File) : CopyLoop File where
  source := { file := source, offset := 0 }
  dest := dest.map fun file => { file, offset := 0 }
  turn := .read

/-- `read(src_fd, buffer, BUF_SIZE)`; an error ends the loop like the end of the
file. -/
def CopyLoop.read (files : Files File) (loop : CopyLoop File) :
    Result → Option (Files File × Progress (CopyLoop File))
  | .failed => some (files, .returned 0)
  | .done count =>
      let left := (files.bytes loop.source.file).drop loop.source.offset
      if count ≤ bufSize ∧ count ≤ left.length ∧ (count = 0 → left = []) then
        if count = 0 then some (files, .returned 0)
        else
          some (files, .running { loop with
            source := loop.source.advance count
            turn := .write (left.take count) })
      else none

def CopyLoop.write (files : Files File) (loop : CopyLoop File) (buffer : Bytes) :
    Result → Option (Files File × Progress (CopyLoop File))
  | .failed => some (files, .returned 1)
  | .done count =>
      match loop.dest with
      | none => none
      | some dest =>
          if count ≤ buffer.length then
            let written := files.write dest.file dest.offset (buffer.take count)
            if count = buffer.length then
              some (written, .running { loop with
                dest := some (dest.advance count)
                turn := .read })
            else some (written, .returned 1)
          else none

def CopyLoop.step (files : Files File) (loop : CopyLoop File) (result : Result) :
    Option (Files File × Progress (CopyLoop File)) :=
  match loop.turn with
  | .read => loop.read files result
  | .write buffer => loop.write files buffer result

/-! ## `steal.c` -/

inductive StealState (File : Type u)
  | openSource
  | stat (source : Option File)
  | openDest (source : File)
  | copying (loop : CopyLoop File)
  | returned (status : Nat)

/-- `remaining` begins with the file being copied; `success` is the counter of that
name. -/
structure Stealing (File : Type u) where
  files : Files File
  remaining : List Path
  state : StealState File
  success : Nat

def destinationFile (folder path : Path) : Path :=
  if folder.getLast? = some '/' then snprintf (folder ++ basename path)
  else snprintf (folder ++ '/' :: basename path)

def Stealing.step (kernel : Kernel File) (folder : Path) (stealing : Stealing File)
    (result : Result) : Option (Stealing File) :=
  match stealing.state, stealing.remaining with
  | .openSource, [] => some { stealing with state := .returned 0 }
  | .openSource, path :: _ =>
      some { stealing with state := .stat (kernel.openRead stealing.files path result) }
  | .stat source, path :: _ =>
      if kernel.stat stealing.files path result then
        match source with
        | none => some { stealing with state := .returned 1 }
        | some source => some { stealing with state := .openDest source }
      else some { stealing with state := .returned 1 }
  | .openDest source, path :: _ =>
      match kernel.openWrite stealing.files (destinationFile folder path) result with
      | (files, dest) =>
          some { stealing with files, state := .copying (.start source dest) }
  | .copying loop, _ =>
      match loop.step stealing.files result with
      | none => none
      | some (files, .running loop) => some { stealing with files, state := .copying loop }
      | some (files, .returned _) =>
          some { stealing with
            files
            remaining := stealing.remaining.tail
            state := .openSource
            success := stealing.success + 1 }
  | _, _ => none

/-- `main` after the usage message and the check of the folder. -/
def Stealing.start (files : Files File) (sources : List Path) : Stealing File where
  files
  remaining := sources
  state := .openSource
  success := 0

/-! ## `threaded_steal.c` -/

structure CopyJob where
  src : Path
  dest : Path
  deriving DecidableEq, Repr

inductive CopyFiles (File : Type u)
  | openSource (job : CopyJob)
  | openDest (job : CopyJob) (source : Option File)
  | stat (source dest : Option File)
  | copying (loop : CopyLoop File)

def CopyFiles.step (kernel : Kernel File) (files : Files File) (copy : CopyFiles File)
    (result : Result) : Option (Files File × Progress (CopyFiles File)) :=
  match copy with
  | .openSource job =>
      some (files, .running (.openDest job (kernel.openRead files job.src result)))
  | .openDest job source =>
      match kernel.openWrite files job.dest result with
      | (files, dest) => some (files, .running (.stat source dest))
  | .stat source dest =>
      match source, result with
      | some source, .done _ => some (files, .running (.copying (.start source dest)))
      | _, _ => some (files, .returned 1)
  | .copying loop =>
      match loop.step files result with
      | none => none
      | some (files, .running loop) => some (files, .running (.copying loop))
      | some (files, .returned status) => some (files, .returned status)

/-- A worker is about to lock the queue, has a job, or has left its loop. -/
inductive WorkerState (File : Type u)
  | locking
  | copying (copy : CopyFiles File)
  | exited

/-- `queue` has the first `job_count` entries of `job_queue`. -/
structure System (Worker : Type v) (File : Type u) where
  files : Files File
  queue : List CopyJob
  jobIndex : Nat
  workers : Worker → WorkerState File

def System.update {Worker : Type v} [DecidableEq Worker] (system : System Worker File)
    (worker : Worker) (state : WorkerState File) : System Worker File :=
  { system with workers := Function.update system.workers worker state }

/-- One step of a worker. What it does with the queue locked is one step. -/
def System.step {Worker : Type v} [DecidableEq Worker] (kernel : Kernel File)
    (system : System Worker File) (worker : Worker) (result : Result) :
    Option (System Worker File) :=
  match system.workers worker with
  | .locking =>
      match system.queue[system.jobIndex]? with
      | none => some (system.update worker .exited)
      | some job =>
          some (System.update { system with jobIndex := system.jobIndex + 1 } worker
            (.copying (.openSource job)))
  | .copying copy =>
      match copy.step kernel system.files result with
      | none => none
      | some (files, .running copy) =>
          some (System.update { system with files } worker (.copying copy))
      | some (files, .returned _) =>
          some (System.update { system with files } worker .locking)
  | .exited => none

def System.start {Worker : Type v} (files : Files File) (queue : List CopyJob) :
    System Worker File where
  files
  queue
  jobIndex := 0
  workers := fun _ => .locking

def copyJob (folder path : Path) : CopyJob where
  src := snprintf (trimSlashes path)
  dest := snprintf (folder ++ '/' :: basename path)

/-- The loop over the arguments; there is no check for room in `job_queue`. -/
def enqueue (folder : Path) : List Path → List CopyJob → Option (List CopyJob)
  | [], queue => some queue
  | path :: paths, queue =>
      if queue.length < maxJobs then enqueue folder paths (queue ++ [copyJob folder path])
      else none

/-- What `main` comes to before it spawns the workers. -/
inductive Launch
  | usage
  | notFolder
  | noJobs
  | undefined
  | spawn (queue : List CopyJob)
  deriving DecidableEq, Repr

def launch (kernel : Kernel File) (sources : List Path) (folder : Path) : Launch :=
  if sources = [] then .usage
  else if kernel.isDirectory folder then
    match enqueue folder sources [] with
    | none => .undefined
    | some [] => .noJobs
    | some queue => .spawn queue
  else .notFolder

/-! ## What a call can do -/

section Calls

variable {kernel : Kernel File} {files after : Files File} {loop : CopyLoop File}
  {result : Result}

theorem CopyLoop.read_cases {progress : Progress (CopyLoop File)} (turn : loop.turn = .read)
    (stepped : loop.step files result = some (after, progress)) :
    after = files ∧
      (result = .failed ∧ progress = .returned 0 ∨
        (files.bytes loop.source.file).drop loop.source.offset = [] ∧ progress = .returned 0 ∨
        ∃ buffer, buffer ≠ [] ∧
          buffer <+: (files.bytes loop.source.file).drop loop.source.offset ∧
          progress = .running { loop with
            source := loop.source.advance buffer.length
            turn := .write buffer }) := by
  rw [CopyLoop.step, turn] at stepped
  cases result with
  | failed =>
      cases stepped
      exact ⟨rfl, .inl ⟨rfl, rfl⟩⟩
  | done count =>
      simp only [CopyLoop.read] at stepped
      split at stepped
      next possible =>
        split at stepped
        next zero =>
          cases stepped
          exact ⟨rfl, .inr (.inl ⟨possible.2.2 zero, rfl⟩)⟩
        next positive =>
          cases stepped
          have size : (((files.bytes loop.source.file).drop loop.source.offset).take
              count).length = count := List.length_take_of_le possible.2.1
          refine ⟨rfl, .inr (.inr ⟨_, ?_, List.take_prefix count _, by rw [size]⟩)⟩
          intro empty
          rw [empty] at size
          exact positive size.symm
      next => cases stepped

/-- A `write` fails, falls short, or writes the whole buffer and goes on. -/
theorem CopyLoop.write_cases {progress : Progress (CopyLoop File)} {buffer : Bytes}
    (turn : loop.turn = .write buffer) (stepped : loop.step files result = some (after, progress)) :
    (result = .failed ∧ after = files ∧ progress = .returned 1) ∨
    ∃ dest, loop.dest = some dest ∧
      ((∃ count, count ≠ buffer.length ∧ result = .done count ∧
        after = files.write dest.file dest.offset (buffer.take count) ∧ progress = .returned 1) ∨
      result = .done buffer.length ∧ after = files.write dest.file dest.offset buffer ∧
        progress = .running { loop with
          dest := some (dest.advance buffer.length)
          turn := .read }) := by
  rw [CopyLoop.step, turn] at stepped
  cases result with
  | failed =>
      cases stepped
      exact .inl ⟨rfl, rfl, rfl⟩
  | done count =>
      simp only [CopyLoop.write] at stepped
      split at stepped
      next => cases stepped
      next dest opened =>
        refine .inr ⟨dest, opened, ?_⟩
        split at stepped
        next =>
          split at stepped
          next whole =>
            cases stepped
            subst whole
            exact .inr ⟨rfl, by rw [List.take_length], rfl⟩
          next short =>
            cases stepped
            exact .inl ⟨count, short, rfl, rfl, rfl⟩
        next => cases stepped

theorem CopyFiles.copying_cases {progress : Progress (CopyFiles File)}
    (stepped : CopyFiles.step kernel files (.copying loop) result = some (after, progress)) :
    (∃ next, loop.step files result = some (after, .running next) ∧
      progress = .running (.copying next)) ∨
    ∃ status, loop.step files result = some (after, .returned status) ∧
      progress = .returned status := by
  simp only [CopyFiles.step] at stepped
  split at stepped
  next => cases stepped
  next copied =>
    cases stepped
    exact .inl ⟨_, copied, rfl⟩
  next copied =>
    cases stepped
    exact .inr ⟨_, copied, rfl⟩

end Calls

end SystemsRepository.Steal
