import SystemsRepository.Steal.Agreement

/-! # What happens to the source files

The destination of a copy is emptied before anything is read, and nothing keeps it
from being a source file. The sources survive if no bytes can reach a source that
is also a destination.
-/

namespace SystemsRepository.Steal

open Relation (ReflTransGen)

variable {File : Type u} [DecidableEq File]

def stealJob (folder path : Path) : CopyJob where
  src := path
  dest := destinationFile folder path

def Paired (kernel : Kernel File) (jobs : List CopyJob) (source dest : File) : Prop :=
  ∃ job ∈ jobs, kernel.locate job.src = some source ∧ kernel.locate job.dest = some dest

def IsDest (kernel : Kernel File) (jobs : List CopyJob) (file : File) : Prop :=
  ∃ job ∈ jobs, kernel.locate job.dest = some file

omit [DecidableEq File] in
theorem Paired.isDest {kernel : Kernel File} {jobs : List CopyJob} {source dest : File}
    (paired : Paired kernel jobs source dest) : IsDest kernel jobs dest := by
  rcases paired with ⟨job, member, _, located⟩
  exact ⟨job, member, located⟩

/-- The file has bytes, or a chain of jobs brings some to it. -/
inductive Fed (kernel : Kernel File) (initial : Files File) (jobs : List CopyJob) : File → Prop
  | nonempty {file : File} (bytes : initial.bytes file ≠ []) : Fed kernel initial jobs file
  | copied {source dest : File} (paired : Paired kernel jobs source dest)
      (fed : Fed kernel initial jobs source) : Fed kernel initial jobs dest

/-- No bytes can reach an existing source file that is also a destination. -/
def Undisturbed (kernel : Kernel File) (initial : Files File) (sources : List Path)
    (jobs : List CopyJob) : Prop :=
  ∀ path ∈ sources, ∀ file, kernel.locate path = some file → (initial file).isSome →
    IsDest kernel jobs file → ¬Fed kernel initial jobs file

def Kept (kernel : Kernel File) (initial : Files File) (sources : List Path)
    (files : Files File) : Prop :=
  ∀ path ∈ sources, ∀ file, kernel.locate path = some file → (initial file).isSome →
    files file = initial file

def Stealing.Step (kernel : Kernel File) (folder : Path) (stealing next : Stealing File) : Prop :=
  ∃ result, stealing.step kernel folder result = some next

def System.Step {Worker : Type v} [DecidableEq Worker] (kernel : Kernel File)
    (system next : System Worker File) : Prop :=
  ∃ worker result, system.step kernel worker result = some next

/-- Whatever its calls return, `steal.c` leaves the sources as they were. -/
def StealKeeps (kernel : Kernel File) (initial : Files File) (sources : List Path)
    (folder : Path) : Prop :=
  ∀ final status,
    ReflTransGen (Stealing.Step kernel folder) (Stealing.start initial sources) final →
    final.state = .returned status → Kept kernel initial sources final.files

/-- Whatever the calls return and whatever the schedule, `threaded_steal.c` leaves
the sources as they were. -/
def ThreadedKeeps (kernel : Kernel File) (initial : Files File) (sources : List Path)
    (folder : Path) : Prop :=
  match launch kernel sources folder with
  | .undefined => False
  | .spawn queue =>
      ∀ final : System (Fin numThreads) File,
        ReflTransGen (System.Step kernel) (System.start initial queue) final →
        (∀ worker, final.workers worker = .exited) → Kept kernel initial sources final.files
  | _ => True

variable {kernel : Kernel File} {initial files after : Files File} {jobs : List CopyJob}
  {sources : List Path} {folder : Path} {result : Result}

/-! ## Where bytes can get -/

structure Files.Confined (kernel : Kernel File) (jobs : List CopyJob)
    (files initial : Files File) : Prop where
  fed : ∀ file, files.bytes file ≠ [] → Fed kernel initial jobs file
  exist : ∀ file, (initial file).isSome → (files file).isSome
  others : ∀ file, ¬IsDest kernel jobs file → files file = initial file

omit [DecidableEq File] in
private theorem confined_initial (kernel : Kernel File) (initial : Files File)
    (jobs : List CopyJob) : initial.Confined kernel jobs initial :=
  ⟨fun _ bytes => .nonempty bytes, fun _ exist => exist, fun _ _ => rfl⟩

omit [DecidableEq File] in
theorem Files.Confined.kept (confined : files.Confined kernel jobs initial)
    (undisturbed : Undisturbed kernel initial sources jobs) :
    Kept kernel initial sources files := by
  intro path member file located exist
  by_cases isDest : IsDest kernel jobs file
  · have notFed := undisturbed path member file located exist isDest
    have empty : ∀ {contents : Files File}, (contents file).isSome →
        (contents.bytes file ≠ [] → Fed kernel initial jobs file) → contents file = some [] := by
      intro contents present fed
      rcases Option.isSome_iff_exists.mp present with ⟨bytes, holds⟩
      have none : contents.bytes file = [] := Classical.not_not.mp fun some => notFed (fed some)
      rw [Files.bytes, holds] at none
      rw [holds, show bytes = [] from none]
    rw [empty (confined.exist file exist) (confined.fed file), empty exist .nonempty]
  · exact confined.others file isDest

theorem Files.Confined.store (confined : files.Confined kernel jobs initial) {file : File}
    {bytes : Bytes} (isDest : IsDest kernel jobs file)
    (fed : bytes ≠ [] → Fed kernel initial jobs file) :
    (files.store file bytes).Confined kernel jobs initial where
  fed other some := by
    by_cases same : other = file
    · subst same
      rw [Files.bytes, Files.store_self] at some
      exact fed some
    · rw [Files.bytes, Files.store_other _ same] at some
      exact confined.fed other some
  exist other exist := Files.isSome_store bytes (confined.exist other exist)
  others other notDest := by
    have different : other ≠ file := fun same => notDest (same ▸ isDest)
    rw [Files.store_other _ different]
    exact confined.others other notDest

/-- The loop copies for a job, and what it has in its buffer came from a file that
is fed. -/
structure CopyLoop.Confined (kernel : Kernel File) (jobs : List CopyJob)
    (initial : Files File) (loop : CopyLoop File) : Prop where
  paired : ∀ dest, loop.dest = some dest → Paired kernel jobs loop.source.file dest.file
  fed : ∀ buffer, loop.turn = .write buffer → Fed kernel initial jobs loop.source.file

private theorem CopyLoop.step_confined {loop : CopyLoop File} {progress : Progress (CopyLoop File)}
    (confined : files.Confined kernel jobs initial)
    (loopConfined : loop.Confined kernel jobs initial)
    (stepped : loop.step files result = some (after, progress)) :
    after.Confined kernel jobs initial ∧
      ∀ next, progress = .running next → next.Confined kernel jobs initial := by
  rcases loop with ⟨source, dest, turn⟩
  cases turn with
  | read =>
      rcases CopyLoop.read_cases rfl stepped with ⟨rfl, outcome⟩
      refine ⟨confined, ?_⟩
      rcases outcome with ⟨_, rfl⟩ | ⟨_, rfl⟩ | ⟨buffer, nonempty, taken, rfl⟩
      · exact nofun
      · exact nofun
      · intro next same
        cases same
        refine ⟨loopConfined.paired, fun _ _ => confined.fed source.file ?_⟩
        intro empty
        rw [empty, List.drop_nil, List.prefix_nil] at taken
        exact nonempty taken
  | write buffer =>
      have sourceFed := loopConfined.fed buffer rfl
      rcases CopyLoop.write_cases rfl stepped with ⟨_, rfl, rfl⟩ | ⟨file, opened, outcome⟩
      · exact ⟨confined, nofun⟩
      · have paired := loopConfined.paired file opened
        have written : ∀ bytes, (files.store file.file bytes).Confined kernel jobs initial := by
          intro bytes
          exact confined.store paired.isDest fun _ => .copied paired sourceFed
        rcases outcome with ⟨_, _, _, rfl, rfl⟩ | ⟨_, rfl, rfl⟩
        · exact ⟨written _, nofun⟩
        · refine ⟨written _, ?_⟩
          intro next same
          cases same
          refine ⟨?_, nofun⟩
          intro other same
          cases same
          exact paired

omit [DecidableEq File] in
private theorem CopyLoop.start_confined {source : File} {dest : Option File}
    (paired : ∀ file, dest = some file → Paired kernel jobs source file) :
    (CopyLoop.start source dest).Confined kernel jobs initial := by
  refine ⟨?_, nofun⟩
  intro other same
  cases dest with
  | none => cases same
  | some file =>
      cases same
      exact paired file rfl

omit [DecidableEq File] in
private theorem Kernel.openRead_located {path : Path} {file : File}
    (opened : kernel.openRead files path result = some file) : kernel.locate path = some file := by
  cases result with
  | failed => cases opened
  | done count => exact (Option.filter_eq_some_iff.mp opened).1

/-- An open for writing empties the file that the path names, or does nothing. -/
theorem Kernel.openWrite_cases {path : Path} {dest : Option File}
    (opened : kernel.openWrite files path result = (after, dest)) :
    (∃ file, kernel.locate path = some file ∧ after = files.store file [] ∧ dest = some file) ∨
      (after = files ∧ dest = none) := by
  cases result with
  | failed =>
      cases opened
      exact .inr ⟨rfl, rfl⟩
  | done count =>
      simp only [Kernel.openWrite] at opened
      split at opened
      next file located =>
        cases opened
        exact .inl ⟨file, located, rfl, rfl⟩
      next =>
        cases opened
        exact .inr ⟨rfl, rfl⟩

theorem Files.Confined.openWrite (confined : files.Confined kernel jobs initial) {job : CopyJob}
    (member : job ∈ jobs) {dest : Option File}
    (opened : kernel.openWrite files job.dest result = (after, dest)) :
    after.Confined kernel jobs initial ∧ ∀ file, dest = some file →
      kernel.locate job.dest = some file := by
  rcases Kernel.openWrite_cases opened with ⟨file, located, rfl, rfl⟩ | ⟨rfl, rfl⟩
  · refine ⟨confined.store ⟨job, member, located⟩ (absurd rfl), ?_⟩
    intro other same
    cases same
    exact located
  · exact ⟨confined, nofun⟩

/-! ## One file after the other -/

def StealState.Confined (kernel : Kernel File) (jobs : List CopyJob) (initial : Files File) :
    StealState File → List Path → Prop
  | .stat source, path :: _ => ∀ file, source = some file → kernel.locate path = some file
  | .openDest source, path :: _ => kernel.locate path = some source
  | .copying loop, _ => loop.Confined kernel jobs initial
  | _, _ => True

structure Stealing.Confined (kernel : Kernel File) (initial : Files File) (folder : Path)
    (jobs : List CopyJob) (stealing : Stealing File) : Prop where
  files : stealing.files.Confined kernel jobs initial
  remaining : ∀ path ∈ stealing.remaining, stealJob folder path ∈ jobs
  state : stealing.state.Confined kernel jobs initial stealing.remaining

theorem Stealing.Confined.step {stealing next : Stealing File}
    (confined : stealing.Confined kernel initial folder jobs)
    (stepped : stealing.Step kernel folder next) : next.Confined kernel initial folder jobs := by
  rcases stepped with ⟨result, stepped⟩
  rcases stealing with ⟨files, remaining, state, success⟩
  rcases confined with ⟨filesConfined, jobsLeft, stateConfined⟩
  simp only [Stealing.step] at stepped filesConfined jobsLeft stateConfined
  cases state with
  | returned status => cases stepped
  | copying loop =>
      cases looped : loop.step files result with
      | none =>
          simp only [looped] at stepped
          cases stepped
      | some outcome =>
          rcases outcome with ⟨written, progress⟩
          have kept := CopyLoop.step_confined filesConfined stateConfined looped
          simp only [looped] at stepped
          cases progress with
          | running further =>
              cases stepped
              exact ⟨kept.1, jobsLeft, kept.2 further rfl⟩
          | returned status =>
              cases stepped
              refine ⟨kept.1, ?_, trivial⟩
              intro path member
              exact jobsLeft path (List.mem_of_mem_tail member)
  | openSource =>
      cases remaining with
      | nil =>
          cases stepped
          exact ⟨filesConfined, jobsLeft, trivial⟩
      | cons path rest =>
          cases stepped
          exact ⟨filesConfined, jobsLeft, fun file opened => Kernel.openRead_located opened⟩
  | stat source =>
      cases remaining with
      | nil => cases stepped
      | cons path rest =>
          simp only at stepped
          split at stepped
          next =>
            cases source with
            | none =>
                cases stepped
                exact ⟨filesConfined, jobsLeft, trivial⟩
            | some source =>
                cases stepped
                exact ⟨filesConfined, jobsLeft, stateConfined source rfl⟩
          next =>
            cases stepped
            exact ⟨filesConfined, jobsLeft, trivial⟩
  | openDest source =>
      cases remaining with
      | nil => cases stepped
      | cons path rest =>
          have member : stealJob folder path ∈ jobs := jobsLeft path List.mem_cons_self
          rcases opened : kernel.openWrite files (destinationFile folder path) result with
            ⟨written, dest⟩
          have kept := filesConfined.openWrite member opened
          simp only [opened] at stepped
          cases stepped
          refine ⟨kept.1, jobsLeft, CopyLoop.start_confined ?_⟩
          intro file same
          exact ⟨_, member, stateConfined, kept.2 file same⟩

theorem Stealing.Confined.reaches {stealing final : Stealing File}
    (confined : stealing.Confined kernel initial folder jobs)
    (run : ReflTransGen (Stealing.Step kernel folder) stealing final) :
    final.Confined kernel initial folder jobs := by
  induction run with
  | refl => exact confined
  | tail _ stepped induction => exact induction.step stepped

theorem stealKeeps_of_undisturbed
    (undisturbed : Undisturbed kernel initial sources (sources.map (stealJob folder))) :
    StealKeeps kernel initial sources folder := by
  intro final status run _
  have confined : (Stealing.start initial sources).Confined kernel initial folder
      (sources.map (stealJob folder)) :=
    ⟨confined_initial kernel initial _, fun path member => List.mem_map_of_mem member, trivial⟩
  exact (confined.reaches run).files.kept undisturbed

/-! ## Workers -/

def CopyFiles.Confined (kernel : Kernel File) (jobs : List CopyJob) (initial : Files File) :
    CopyFiles File → Prop
  | .openSource job => job ∈ jobs
  | .openDest job source => job ∈ jobs ∧ ∀ file, source = some file →
      kernel.locate job.src = some file
  | .stat source dest => ∀ file other, source = some file → dest = some other →
      Paired kernel jobs file other
  | .copying loop => loop.Confined kernel jobs initial

private theorem CopyFiles.step_confined {copy : CopyFiles File}
    {progress : Progress (CopyFiles File)} (confined : files.Confined kernel jobs initial)
    (copyConfined : copy.Confined kernel jobs initial)
    (stepped : copy.step kernel files result = some (after, progress)) :
    after.Confined kernel jobs initial ∧
      ∀ next, progress = .running next → next.Confined kernel jobs initial := by
  cases copy with
  | openSource job =>
      cases stepped
      refine ⟨confined, ?_⟩
      intro next same
      cases same
      exact ⟨copyConfined, fun file opened => Kernel.openRead_located opened⟩
  | openDest job source =>
      rcases opened : kernel.openWrite files job.dest result with ⟨written, dest⟩
      have kept := confined.openWrite copyConfined.1 opened
      simp only [CopyFiles.step, opened] at stepped
      cases stepped
      refine ⟨kept.1, ?_⟩
      intro next same
      cases same
      intro file other sourceEq destEq
      exact ⟨job, copyConfined.1, copyConfined.2 file sourceEq, kept.2 other destEq⟩
  | stat source dest =>
      simp only [CopyFiles.step] at stepped
      split at stepped
      next file count =>
        cases stepped
        refine ⟨confined, ?_⟩
        intro next same
        cases same
        exact CopyLoop.start_confined fun other destEq => copyConfined file other rfl destEq
      next =>
        cases stepped
        exact ⟨confined, fun _ same => by cases same⟩
  | copying loop =>
      rcases CopyFiles.copying_cases stepped with
        ⟨further, looped, rfl⟩ | ⟨status, looped, rfl⟩
      · have kept := CopyLoop.step_confined confined copyConfined looped
        refine ⟨kept.1, ?_⟩
        intro next same
        cases same
        exact kept.2 further rfl
      · exact ⟨(CopyLoop.step_confined confined copyConfined looped).1, fun _ same => by cases same⟩

section Workers

variable {Worker : Type v} [DecidableEq Worker]

structure System.Confined (kernel : Kernel File) (initial : Files File) (jobs : List CopyJob)
    (system : System Worker File) : Prop where
  files : system.files.Confined kernel jobs initial
  queue : system.queue = jobs
  workers : ∀ worker copy, system.workers worker = .copying copy →
    copy.Confined kernel jobs initial

theorem System.Confined.step {system next : System Worker File}
    (confined : system.Confined kernel initial jobs) (stepped : system.Step kernel next) :
    next.Confined kernel initial jobs := by
  rcases stepped with ⟨worker, result, stepped⟩
  have updated : ∀ {files : Files File} {jobIndex : Nat} {state : WorkerState File},
      files.Confined kernel jobs initial →
      (∀ copy, state = .copying copy → copy.Confined kernel jobs initial) →
      (({ system with files, jobIndex } : System Worker File).update worker state).Confined
        kernel initial jobs := by
    intro files jobIndex state filesConfined own
    refine ⟨filesConfined, confined.queue, ?_⟩
    intro other copy copying
    by_cases same : other = worker
    · subst same
      simp only [System.update, Function.update_self] at copying
      exact own copy copying
    · simp only [System.update, Function.update_of_ne same] at copying
      exact confined.workers other copy copying
  unfold System.step at stepped
  split at stepped
  next =>
    split at stepped
    next =>
      cases stepped
      exact updated confined.files fun _ same => by cases same
    next job found =>
      cases stepped
      refine updated confined.files ?_
      intro copy same
      cases same
      have member := List.mem_of_getElem? found
      rw [confined.queue] at member
      exact member
  next copy copying =>
    have copyConfined := confined.workers worker copy copying
    split at stepped
    next => cases stepped
    next files further copied =>
      have kept := CopyFiles.step_confined confined.files copyConfined copied
      cases stepped
      refine updated kept.1 ?_
      intro other same
      cases same
      exact kept.2 further rfl
    next files status copied =>
      have kept := CopyFiles.step_confined confined.files copyConfined copied
      cases stepped
      exact updated kept.1 fun _ same => by cases same
  next => cases stepped

theorem System.Confined.reaches {system final : System Worker File}
    (confined : system.Confined kernel initial jobs)
    (run : ReflTransGen (System.Step kernel) system final) :
    final.Confined kernel initial jobs := by
  induction run with
  | refl => exact confined
  | tail _ stepped induction => exact induction.step stepped

end Workers

theorem threadedKeeps_of_undisturbed (directory : kernel.isDirectory folder = true)
    (room : sources.length ≤ maxJobs)
    (undisturbed : Undisturbed kernel initial sources (sources.map (copyJob folder))) :
    ThreadedKeeps kernel initial sources folder := by
  unfold ThreadedKeeps
  by_cases nonempty : sources = []
  · subst nonempty
    trivial
  · rw [launch_eq directory nonempty room]
    intro final run _
    have confined : (System.start initial (sources.map (copyJob folder)) :
        System (Fin numThreads) File).Confined kernel initial (sources.map (copyJob folder)) :=
      ⟨confined_initial kernel initial _, rfl, nofun⟩
    exact (confined.reaches run).files.kept undisturbed

end SystemsRepository.Steal
