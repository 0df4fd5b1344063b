import SystemsRepository.Steal.Copiers
import SystemsRepository.Steal.Programs
import Mathlib.Data.List.Forall2
import Mathlib.Data.Fintype.Basic

/-! # The programs refine the copiers

While no call fails, `steal.c` is a single copier and `threaded_steal.c` one for
each worker.
-/

namespace SystemsRepository.Steal

open SystemsRepository.Foundation

variable {File : Type u} [DecidableEq File]

/-! ## Runs without errors -/

def CopyLoop.Clean (loop : CopyLoop File) (result : Result) : Prop :=
  match loop.turn with
  | .read => result ≠ .failed
  | .write buffer => result = .done buffer.length

def StealState.Clean : StealState File → Result → Prop
  | .copying loop, result => loop.Clean result
  | _, result => result ≠ .failed

def WorkerState.Clean : WorkerState File → Result → Prop
  | .copying (.copying loop), result => loop.Clean result
  | _, result => result ≠ .failed

def Stealing.CleanStep (kernel : Kernel File) (folder : Path) (stealing next : Stealing File) :
    Prop :=
  ∃ result, stealing.state.Clean result ∧ stealing.step kernel folder result = some next

def System.CleanStep {Worker : Type v} [DecidableEq Worker] (kernel : Kernel File)
    (system next : System Worker File) : Prop :=
  ∃ worker result, (system.workers worker).Clean result ∧
    system.step kernel worker result = some next

/-! ## The copy loop -/

inductive CopyLoop.Related : CopyLoop File → Task File → Nat → Bytes → Prop
  | read (task : Task File) (offset : Nat) :
      Related ⟨⟨task.source, offset⟩, some ⟨task.dest, offset⟩, .read⟩ task offset []
  | write (task : Task File) (offset : Nat) {buffer : Bytes} (nonempty : buffer ≠ []) :
      Related ⟨⟨task.source, offset + buffer.length⟩, some ⟨task.dest, offset⟩, .write buffer⟩
        task offset buffer

omit [DecidableEq File] in
theorem CopyLoop.start_related (task : Task File) :
    (CopyLoop.start task.source (some task.dest)).Related task 0 [] := .read task 0

section Loop

variable {Agent : Type v} [DecidableEq Agent] {agent : Agent} {loop : CopyLoop File}
  {task : Task File} {offset : Nat} {buffer : Bytes}

private theorem CopyLoop.step_related (pool : Pool Agent File)
    (related : loop.Related task offset buffer)
    (copying : pool.activity agent = .copying task offset buffer) {result : Result}
    (clean : loop.Clean result) {files : Files File} {progress : Progress (CopyLoop File)}
    (stepped : loop.step pool.files result = some (files, progress)) :
    (∃ next reached left, progress = .running next ∧ next.Related task reached left ∧
      pool.Step (Pool.act { pool with files } agent (.copying task reached left))) ∨
      ∃ status, progress = .returned status ∧
        pool.Step (Pool.act { pool with files } agent .idle) := by
  cases related with
  | read =>
      rcases CopyLoop.read_cases rfl stepped with ⟨rfl, outcome⟩
      rcases outcome with ⟨failed, _⟩ | ⟨ended, rfl⟩ | ⟨buffer, nonempty, taken, rfl⟩
      · exact absurd failed clean
      · exact .inr ⟨0, rfl, .finish copying ended⟩
      · exact .inl ⟨_, _, _, rfl, .write task offset nonempty,
          .read copying nonempty taken⟩
  | write _ _ nonempty =>
      simp only [CopyLoop.Clean] at clean
      subst clean
      simp only [CopyLoop.step, CopyLoop.write, Nat.le_refl, if_true, List.take_length] at stepped
      cases stepped
      exact .inl ⟨_, _, _, rfl, .read task _, .write copying nonempty⟩

private theorem CopyLoop.exists_step (related : loop.Related task offset buffer)
    (files : Files File) : ∃ result, loop.Clean result ∧ (loop.step files result).isSome := by
  cases related with
  | read =>
      by_cases exhausted : (files.bytes task.source).drop offset = []
      · refine ⟨.done 0, (fun failed => by cases failed), ?_⟩
        simp [CopyLoop.step, CopyLoop.read, exhausted]
      · refine ⟨.done 1, (fun failed => by cases failed), ?_⟩
        have positive := List.length_pos_iff.mpr exhausted
        simp only [CopyLoop.step, CopyLoop.read]
        rw [if_pos ⟨by decide, positive, fun zero => absurd zero (by decide)⟩,
          if_neg (by decide)]
        rfl
  | write _ _ nonempty =>
      refine ⟨_, rfl, ?_⟩
      simp only [CopyLoop.step, CopyLoop.write, Nat.le_refl, if_true]
      rfl

end Loop

/-! ## Located tasks -/

structure Locates (kernel : Kernel File) (initial : Files File) (src dest : Path)
    (task : Task File) : Prop where
  source : kernel.locate src = some task.source
  dest : kernel.locate dest = some task.dest
  readable : (initial task.source).isSome

omit [DecidableEq File] in
theorem Locates.openRead {kernel : Kernel File} {initial files : Files File} {src dest : Path}
    {task : Task File} (locates : Locates kernel initial src dest task)
    (exist : ∀ file, (initial file).isSome → (files file).isSome) (count : Nat) :
    kernel.openRead files src (.done count) = some task.source := by
  rw [Kernel.openRead, locates.source, Option.filter_some,
    if_pos (exist _ locates.readable)]

omit [DecidableEq File] in
theorem Locates.stat {kernel : Kernel File} {initial files : Files File} {src dest : Path}
    {task : Task File} (locates : Locates kernel initial src dest task)
    (exist : ∀ file, (initial file).isSome → (files file).isSome) (count : Nat) :
    kernel.stat files src (.done count) = true := by
  rw [Kernel.stat, locates.source]
  exact exist _ locates.readable

theorem Locates.openWrite {kernel : Kernel File} {initial files : Files File} {src dest : Path}
    {task : Task File} (locates : Locates kernel initial src dest task) (count : Nat) :
    kernel.openWrite files dest (.done count) =
      (files.store task.dest [], some task.dest) := by
  rw [Kernel.openWrite, locates.dest]

/-! ## The workers -/

inductive WorkerState.Related (kernel : Kernel File) (initial : Files File) :
    WorkerState File → Activity File → Prop
  | locking : Related kernel initial .locking .idle
  | exited : Related kernel initial .exited .idle
  | openSource {job : CopyJob} {task : Task File}
      (locates : Locates kernel initial job.src job.dest task) :
      Related kernel initial (.copying (.openSource job)) (.opening task)
  | openDest {job : CopyJob} {task : Task File}
      (locates : Locates kernel initial job.src job.dest task) :
      Related kernel initial (.copying (.openDest job (some task.source))) (.opening task)
  | stat (task : Task File) :
      Related kernel initial (.copying (.stat (some task.source) (some task.dest)))
        (.copying task 0 [])
  | copying {loop : CopyLoop File} {task : Task File} {offset : Nat} {buffer : Bytes}
      (related : loop.Related task offset buffer) :
      Related kernel initial (.copying (.copying loop)) (.copying task offset buffer)

structure System.Related {Worker : Type v} (kernel : Kernel File) (initial : Files File)
    (system : System Worker File) (pool : Pool Worker File) : Prop where
  files : system.files = pool.files
  exist : ∀ file, (initial file).isSome → (pool.files file).isSome
  queue : List.Forall₂ (fun job task => Locates kernel initial job.src job.dest task)
    (system.queue.drop system.jobIndex) pool.waiting
  workers : ∀ worker, (system.workers worker).Related kernel initial (pool.activity worker)
  exited : ∀ worker, system.workers worker = .exited → pool.waiting = []

def WorkerState.rank : WorkerState File → Nat
  | .locking => 1
  | .copying (.openSource _) => 1
  | .copying (.stat _ _) => 1
  | _ => 0

section Workers

variable {Worker : Type v} [DecidableEq Worker] {kernel : Kernel File} {initial : Files File}
  {system : System Worker File} {pool : Pool Worker File}

omit [DecidableEq File] [DecidableEq Worker] in
theorem System.Related.store (related : system.Related kernel initial pool) {files : Files File}
    (exist : ∀ file, (pool.files file).isSome → (files file).isSome) :
    System.Related kernel initial { system with files } { pool with files } where
  files := rfl
  exist := fun file found => exist file (related.exist file found)
  queue := related.queue
  workers := related.workers
  exited := related.exited

omit [DecidableEq File] in
theorem System.Related.update (related : system.Related kernel initial pool) (worker : Worker)
    {state : WorkerState File} {activity : Activity File}
    (moved : state.Related kernel initial activity)
    (exited : state = .exited → pool.waiting = []) :
    (system.update worker state).Related kernel initial (pool.act worker activity) where
  files := related.files
  exist := related.exist
  queue := related.queue
  workers := by
    intro other
    by_cases same : other = worker
    · subst same
      simp only [System.update, Pool.act, Function.update_self]
      exact moved
    · simp only [System.update, Pool.act, Function.update_of_ne same]
      exact related.workers other
  exited := by
    intro other
    by_cases same : other = worker
    · subst same
      simp only [System.update, Function.update_self]
      exact exited
    · simp only [System.update, Function.update_of_ne same]
      exact related.exited other

omit [DecidableEq File] in
private theorem System.Related.update_same (related : system.Related kernel initial pool)
    {worker : Worker} {state : WorkerState File}
    (moved : state.Related kernel initial (pool.activity worker))
    (exited : state = .exited → pool.waiting = []) :
    (system.update worker state).Related kernel initial pool := by
  have updated := related.update worker moved exited
  have same : pool.act worker (pool.activity worker) = pool := by
    rw [Pool.act, Function.update_eq_self]
  rwa [same] at updated

def System.rank [Fintype Worker] (system : System Worker File) : Nat :=
  ∑ worker, (system.workers worker).rank

omit [DecidableEq File] in
private theorem System.rank_update_lt [Fintype Worker] {worker : Worker} {state : WorkerState File}
    (lower : state.rank < (system.workers worker).rank) :
    (system.update worker state).rank < system.rank := by
  have change := sum_update WorkerState.rank system.workers worker state
  simp only [System.rank, System.update]
  omega

/-- Every step without an error is one of the copiers, or a call they do not
make. -/
theorem System.Related.matched [Fintype Worker] (related : system.Related kernel initial pool)
    {after : System Worker File} (stepped : system.CleanStep kernel after) :
    (∃ next, pool.Step next ∧ after.Related kernel initial next) ∨
      (after.Related kernel initial pool ∧ after.rank < system.rank) := by
  rcases pool with ⟨files, tasks, activities⟩
  cases (related.files : system.files = files)
  rcases stepped with ⟨worker, result, clean, stepped⟩
  have moved : (system.workers worker).Related kernel initial (activities worker) :=
    related.workers worker
  unfold System.step at stepped
  generalize state : system.workers worker = current at moved stepped clean
  generalize activity : activities worker = doing at moved
  cases moved with
  | locking =>
      cases found : system.queue[system.jobIndex]? with
      | none =>
          rw [found] at stepped
          cases stepped
          have nothing : tasks = [] := by
            have queue := related.queue
            rw [List.drop_eq_nil_of_le (List.getElem?_eq_none_iff.mp found)] at queue
            exact List.forall₂_nil_left_iff.mp queue
          exact .inr ⟨related.update_same (by simp only [activity]; exact .exited) fun _ => nothing,
            System.rank_update_lt (by rw [state]; exact Nat.zero_lt_one)⟩
      | some job =>
          rw [found] at stepped
          cases stepped
          have queue := related.queue
          rcases List.getElem?_eq_some_iff.mp found with ⟨inside, rfl⟩
          rw [List.drop_eq_getElem_cons inside] at queue
          rcases List.forall₂_cons_left_iff.mp queue with ⟨task, rest, locates, others, waiting⟩
          have picked : System.Related kernel initial
              { system with jobIndex := system.jobIndex + 1 }
              ⟨system.files, rest, activities⟩ := by
            refine ⟨rfl, related.exist, others, related.workers, ?_⟩
            intro other exited
            rw [related.exited other exited] at waiting
            cases waiting
          exact .inl ⟨_, .take activity waiting,
            picked.update worker (.openSource locates) fun exited => by cases exited⟩
  | exited => cases stepped
  | @openSource job task locates =>
      cases result with
      | failed => exact absurd rfl clean
      | done count =>
          simp only [CopyFiles.step, locates.openRead related.exist count] at stepped
          cases stepped
          exact .inr ⟨related.update_same (by simp only [activity]; exact .openDest locates)
              (fun exited => by cases exited),
            System.rank_update_lt (by rw [state]; exact Nat.zero_lt_one)⟩
  | @openDest job task locates =>
      cases result with
      | failed => exact absurd rfl clean
      | done count =>
          simp only [CopyFiles.step, locates.openWrite count] at stepped
          cases stepped
          exact .inl ⟨_, .truncate activity,
            (related.store fun _ found => Files.isSome_store _ found).update worker (.stat task)
              fun exited => by cases exited⟩
  | stat task =>
      cases result with
      | failed => exact absurd rfl clean
      | done count =>
          cases stepped
          exact .inr ⟨related.update_same
            (by simp only [activity]; exact .copying (CopyLoop.start_related task))
              (fun exited => by cases exited),
            System.rank_update_lt (by rw [state]; exact Nat.zero_lt_one)⟩
  | @copying loop task offset buffer loopRelated =>
      cases looped : loop.step system.files result with
      | none =>
          simp only [CopyFiles.step, looped] at stepped
          cases stepped
      | some outcome =>
          rcases outcome with ⟨files, progress⟩
          simp only [CopyFiles.step, looped] at stepped
          rcases CopyLoop.step_related ⟨system.files, tasks, activities⟩ loopRelated activity clean
              looped with
            ⟨next, reached, left, rfl, nextRelated, poolStepped⟩ | ⟨status, rfl, poolStepped⟩
          · cases stepped
            exact .inl ⟨_, poolStepped, (related.store fun _ found =>
              poolStepped.exist found).update worker (.copying nextRelated)
                fun exited => by cases exited⟩
          · cases stepped
            exact .inl ⟨_, poolStepped, (related.store fun _ found =>
              poolStepped.exist found).update worker .locking
                fun exited => by cases exited⟩

theorem System.Related.can_step (related : system.Related kernel initial pool) {worker : Worker}
    (active : system.workers worker ≠ .exited) :
    ∃ result, (system.workers worker).Clean result ∧
      (system.step kernel worker result).isSome := by
  have moved := related.workers worker
  unfold System.step
  generalize system.workers worker = current at moved active ⊢
  generalize pool.activity worker = doing at moved
  cases moved with
  | locking =>
      refine ⟨.done 0, nofun, ?_⟩
      simp only
      cases system.queue[system.jobIndex]? <;> rfl
  | exited => exact absurd rfl active
  | openSource _ => exact ⟨.done 0, nofun, rfl⟩
  | openDest _ => exact ⟨.done 0, nofun, rfl⟩
  | stat _ => exact ⟨.done 0, nofun, rfl⟩
  | @copying loop _ _ _ loopRelated =>
      rcases CopyLoop.exists_step loopRelated system.files with ⟨result, clean, possible⟩
      refine ⟨result, clean, ?_⟩
      rcases Option.isSome_iff_exists.mp possible with ⟨⟨files, progress⟩, stepped⟩
      cases progress <;> simp [CopyFiles.step, stepped]

private theorem System.Related.exited_of_stuck (related : system.Related kernel initial pool)
    (stuck : Stuck (System.CleanStep kernel) system) (worker : Worker) :
    system.workers worker = .exited := by
  apply Classical.byContradiction
  intro active
  rcases related.can_step active with ⟨result, clean, possible⟩
  rcases Option.isSome_iff_exists.mp possible with ⟨after, stepped⟩
  exact stuck after ⟨worker, result, clean, stepped⟩

omit [DecidableEq File] [DecidableEq Worker] in
theorem System.start_related {queue : List CopyJob} {tasks : List (Task File)}
    (located : List.Forall₂ (fun job task => Locates kernel initial job.src job.dest task)
      queue tasks) :
    (System.start initial queue : System Worker File).Related kernel initial
      (Pool.start initial tasks) where
  files := rfl
  exist := fun _ found => found
  queue := located
  workers := fun _ => .locking
  exited := nofun

/-- Whatever the schedule, the workers come to an end, and then everything has been
copied. -/
theorem System.Related.ends [Fintype Worker] [Nonempty Worker] {before : Files File}
    {tasks : List (Task File)} (related : system.Related kernel initial pool)
    (compatible : Compatible before tasks) (consistent : pool.Consistent before tasks) :
    Ends (System.CleanStep kernel) (fun final => final.files = copied before tasks) system := by
  apply Ends.of_simulation (System.Related kernel initial) System.rank _ _
    (consistent.ends compatible) _ related
  · exact fun system pool after related stepped => related.matched stepped
  · intro system pool related stuck
    have exited := related.exited_of_stuck stuck
    have idle : ∀ worker, pool.activity worker = .idle := by
      intro worker
      have moved := related.workers worker
      rw [exited worker] at moved
      generalize pool.activity worker = doing at moved
      cases moved
      rfl
    have nothing := related.exited (Classical.arbitrary Worker) (exited _)
    exact ⟨Pool.stuck_of_idle idle nothing, fun same => related.files.trans same⟩

end Workers

/-! ## One after the other -/

inductive StealState.Related (kernel : Kernel File) (initial : Files File) (folder : Path) :
    StealState File → List Path → Activity File → List (Task File) → Prop
  | openSource {remaining : List Path} {tasks : List (Task File)}
      (located : List.Forall₂ (fun path =>
        Locates kernel initial path (destinationFile folder path)) remaining tasks) :
      Related kernel initial folder .openSource remaining .idle tasks
  | stat {path : Path} {rest : List Path} {task : Task File} {tasks : List (Task File)}
      (locates : Locates kernel initial path (destinationFile folder path) task)
      (located : List.Forall₂ (fun path =>
        Locates kernel initial path (destinationFile folder path)) rest tasks) :
      Related kernel initial folder (.stat (some task.source)) (path :: rest) (.opening task)
        tasks
  | openDest {path : Path} {rest : List Path} {task : Task File} {tasks : List (Task File)}
      (locates : Locates kernel initial path (destinationFile folder path) task)
      (located : List.Forall₂ (fun path =>
        Locates kernel initial path (destinationFile folder path)) rest tasks) :
      Related kernel initial folder (.openDest task.source) (path :: rest) (.opening task) tasks
  | copying {loop : CopyLoop File} {task : Task File} {offset : Nat} {buffer : Bytes}
      {path : Path} {rest : List Path} {tasks : List (Task File)}
      (related : loop.Related task offset buffer)
      (located : List.Forall₂ (fun path =>
        Locates kernel initial path (destinationFile folder path)) rest tasks) :
      Related kernel initial folder (.copying loop) (path :: rest) (.copying task offset buffer)
        tasks
  | returned : Related kernel initial folder (.returned 0) [] .idle []

structure Stealing.Related (kernel : Kernel File) (initial : Files File) (folder : Path)
    (stealing : Stealing File) (pool : Pool Unit File) : Prop where
  files : stealing.files = pool.files
  exist : ∀ file, (initial file).isSome → (pool.files file).isSome
  state : stealing.state.Related kernel initial folder stealing.remaining (pool.activity ())
    pool.waiting

def Stealing.rank (stealing : Stealing File) : Nat :=
  match stealing.state with
  | .openSource => 1
  | .stat _ => 1
  | _ => 0

section Sequential

variable {kernel : Kernel File} {initial : Files File} {folder : Path}
  {stealing : Stealing File} {pool : Pool Unit File}

theorem Stealing.Related.matched (related : stealing.Related kernel initial folder pool)
    {after : Stealing File} (stepped : stealing.CleanStep kernel folder after) :
    (∃ next, pool.Step next ∧ after.Related kernel initial folder next) ∨
      (after.Related kernel initial folder pool ∧ after.rank < stealing.rank) := by
  rcases pool with ⟨files, tasks, activities⟩
  rcases stealing with ⟨files, remaining, state, success⟩
  rcases related with ⟨same, exist, moved⟩
  cases (same : _ = _)
  rcases stepped with ⟨result, clean, stepped⟩
  simp only [Stealing.step] at stepped moved clean exist
  generalize activity : activities () = doing at moved
  cases moved with
  | openSource located =>
      cases located with
      | nil =>
          cases stepped
          exact .inr ⟨⟨rfl, exist, by simp only [activity]; exact .returned⟩, Nat.zero_lt_one⟩
      | cons locates located =>
          cases result with
          | failed => exact absurd rfl clean
          | done count =>
              simp only [locates.openRead exist count] at stepped
              cases stepped
              refine .inl ⟨_, .take activity rfl, rfl, exist, ?_⟩
              rw [Pool.act_self]
              exact .stat locates located
  | stat locates located =>
      cases result with
      | failed => exact absurd rfl clean
      | done count =>
          simp only [locates.stat exist count, if_true] at stepped
          cases stepped
          exact .inr ⟨⟨rfl, exist, by simp only [activity]; exact .openDest locates located⟩,
            Nat.zero_lt_one⟩
  | @openDest path rest task tasks locates located =>
      cases result with
      | failed => exact absurd rfl clean
      | done count =>
          simp only [locates.openWrite count] at stepped
          cases stepped
          refine .inl ⟨_, .truncate activity, rfl, ?_, ?_⟩
          · exact fun file found => Files.isSome_store _ (exist file found)
          · rw [Pool.act_self]
            exact .copying (CopyLoop.start_related task) located
  | @copying loop task offset buffer path rest tasks loopRelated located =>
      cases looped : loop.step files result with
      | none =>
          simp only [looped] at stepped
          cases stepped
      | some outcome =>
          rcases outcome with ⟨written, progress⟩
          simp only [looped] at stepped
          rcases CopyLoop.step_related ⟨files, tasks, activities⟩ loopRelated activity clean
            looped with ⟨next, reached, left, rfl, nextRelated, poolStepped⟩ |
            ⟨status, rfl, poolStepped⟩
          · cases stepped
            refine .inl ⟨_, poolStepped, rfl, ?_, ?_⟩
            · exact fun file found => poolStepped.exist (exist file found)
            · rw [Pool.act_self]
              exact .copying nextRelated located
          · cases stepped
            refine .inl ⟨_, poolStepped, rfl, ?_, ?_⟩
            · exact fun file found => poolStepped.exist (exist file found)
            · rw [Pool.act_self]
              exact .openSource located
  | returned => cases stepped

theorem Stealing.Related.idle_of_stuck (related : stealing.Related kernel initial folder pool)
    (stuck : Stuck (Stealing.CleanStep kernel folder) stealing) :
    pool.activity () = .idle ∧ pool.waiting = [] := by
  have never : ∀ result, stealing.state.Clean result →
      ¬(stealing.step kernel folder result).isSome := by
    intro result clean possible
    rcases Option.isSome_iff_exists.mp possible with ⟨after, stepped⟩
    exact stuck after ⟨result, clean, stepped⟩
  have clean : Result.done 0 ≠ .failed := fun same => by cases same
  rcases stealing with ⟨files, remaining, state, success⟩
  have moved := related.state
  simp only [Stealing.step] at never moved
  generalize pool.activity () = doing at moved
  generalize pool.waiting = tasks at moved
  cases moved with
  | openSource located =>
      apply absurd _ (never (.done 0) clean)
      cases located <;> rfl
  | stat _ _ =>
      apply absurd _ (never (.done 0) clean)
      simp only
      split <;> rfl
  | openDest _ _ => exact absurd rfl (never (.done 0) clean)
  | @copying loop _ _ _ _ _ _ loopRelated _ =>
      rcases CopyLoop.exists_step loopRelated files with ⟨result, clean, possible⟩
      apply absurd _ (never result clean)
      rcases Option.isSome_iff_exists.mp possible with ⟨⟨written, progress⟩, stepped⟩
      cases progress <;> simp [stepped]
  | returned => exact ⟨rfl, rfl⟩

theorem stealing_ends {sources : List Path} {tasks : List (Task File)}
    (compatible : Compatible initial tasks)
    (located : List.Forall₂ (fun path =>
      Locates kernel initial path (destinationFile folder path)) sources tasks) :
    Ends (Stealing.CleanStep kernel folder)
      (fun stealing => stealing.files = copied initial tasks)
      (Stealing.start initial sources) := by
  apply Ends.of_simulation (Stealing.Related kernel initial folder) Stealing.rank _ _
    ((Pool.start_consistent initial tasks).ends compatible) _
    ⟨rfl, fun _ found => found, .openSource located⟩
  · exact fun stealing pool after related stepped => related.matched stepped
  · intro stealing pool related stuck
    have final := related.idle_of_stuck stuck
    exact ⟨Pool.stuck_of_idle (fun _ => final.1) final.2, fun same => related.files.trans same⟩

end Sequential

end SystemsRepository.Steal
