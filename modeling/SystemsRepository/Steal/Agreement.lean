import SystemsRepository.Steal.Refinement

/-! # Threaded and sequential copies agree

The workers leave the files that `steal.c` leaves if the arguments fit the queue
and no two jobs disagree about a file. Where no source is a destination, that is
also necessary.
-/

namespace SystemsRepository.Steal

open SystemsRepository.Foundation
open Relation (ReflTransGen)

variable {File : Type u} [DecidableEq File]

/-! ## Arguments -/

def taskOf (kernel : Kernel File) (folder path : Path) : Option (Task File) :=
  match kernel.locate path, kernel.locate (destinationFile folder path) with
  | some source, some dest => some { source, dest }
  | _, _ => none

def tasksOf (kernel : Kernel File) (folder : Path) (sources : List Path) : List (Task File) :=
  sources.filterMap (taskOf kernel folder)

/-- The sources are readable files, the destination is a directory, and files can be
opened there. -/
structure Valid (kernel : Kernel File) (initial : Files File) (sources : List Path)
    (folder : Path) : Prop where
  directory : kernel.isDirectory folder = true
  readable : ∀ path ∈ sources, ∃ file, kernel.locate path = some file ∧ (initial file).isSome
  writable : ∀ path ∈ sources, (kernel.locate (destinationFile folder path)).isSome

/-- `threaded_steal.c` always puts a slash behind the folder. -/
def SlashFits (sources : List Path) (folder : Path) : Prop :=
  ∀ path ∈ sources, folder.getLast? = some '/' →
    (folder ++ '/' :: basename path).length < pathMax

variable {kernel : Kernel File} {initial : Files File} {sources : List Path} {folder : Path}

omit [DecidableEq File] in
theorem Valid.located (valid : Valid kernel initial sources folder) :
    List.Forall₂ (fun path => Locates kernel initial path (destinationFile folder path)) sources
      (tasksOf kernel folder sources) := by
  rcases valid with ⟨_, readable, writable⟩
  induction sources with
  | nil => exact .nil
  | cons path sources induction =>
      rcases readable path List.mem_cons_self with ⟨source, located, exist⟩
      rcases Option.isSome_iff_exists.mp (writable path List.mem_cons_self) with ⟨dest, opened⟩
      have task : taskOf kernel folder path = some { source, dest } := by
        simp only [taskOf, located, opened]
      rw [tasksOf, List.filterMap_cons_some task]
      exact .cons ⟨located, opened, exist⟩ (induction
        (fun path member => readable path (List.mem_cons_of_mem _ member))
        (fun path member => writable path (List.mem_cons_of_mem _ member)))

omit [DecidableEq File] in
private theorem locate_copyJob (kernel : Kernel File) {folder path : Path}
    (fits : folder.getLast? = some '/' → (folder ++ '/' :: basename path).length < pathMax) :
    kernel.locate (copyJob folder path).dest = kernel.locate (destinationFile folder path) := by
  unfold destinationFile
  split
  next slash =>
    have short := fits slash
    have shorter : (folder ++ basename path).length < pathMax := by
      rw [List.length_append] at short ⊢
      rw [List.length_cons] at short
      omega
    rw [copyJob, snprintf_eq short, snprintf_eq shorter]
    exact kernel.slashes slash (basename path) short
  next => rfl

omit [DecidableEq File] in
private theorem Valid.locatedJobs (valid : Valid kernel initial sources folder)
    (fits : SlashFits sources folder) :
    List.Forall₂ (fun job task => Locates kernel initial job.src job.dest task)
      (sources.map (copyJob folder)) (tasksOf kernel folder sources) := by
  rw [List.forall₂_map_left_iff]
  apply ((List.forall₂_and_left _ _).mpr ⟨fits, valid.located⟩).imp
  rintro path task ⟨pathFits, locates⟩
  refine ⟨?_, (locate_copyJob kernel pathFits).trans locates.dest, locates.readable⟩
  rw [copyJob, trimSlashes_eq (kernel.noSlash locates.source),
    snprintf_eq (kernel.short locates.source)]
  exact locates.source

private theorem enqueue_eq (folder : Path) {sources : List Path} {queue : List CopyJob}
    (room : queue.length + sources.length ≤ maxJobs) :
    enqueue folder sources queue = some (queue ++ sources.map (copyJob folder)) := by
  induction sources generalizing queue with
  | nil => simp [enqueue]
  | cons path sources induction =>
      rw [List.length_cons] at room
      rw [enqueue, if_pos (by omega),
        induction (by rw [List.length_append, List.length_singleton]; omega)]
      simp

private theorem enqueue_overflows (folder : Path) {sources : List Path} {queue : List CopyJob}
    (initially : queue.length ≤ maxJobs) (full : maxJobs < queue.length + sources.length) :
    enqueue folder sources queue = none := by
  induction sources generalizing queue with
  | nil =>
      rw [List.length_nil] at full
      omega
  | cons path sources induction =>
      rw [List.length_cons] at full
      rw [enqueue]
      split
      next room =>
        apply induction <;> rw [List.length_append, List.length_singleton] <;> omega
      next => rfl

/-! ## What the programs leave -/

def StealLeaves (kernel : Kernel File) (initial : Files File) (sources : List Path)
    (folder : Path) (final : Files File) : Prop :=
  Ends (Stealing.CleanStep kernel folder) (fun stealing => stealing.files = final)
    (Stealing.start initial sources)

/-- Every run of `threaded_steal.c` in which no call fails leaves these files,
whatever the schedule of its workers. -/
def ThreadedLeaves (kernel : Kernel File) (initial : Files File) (sources : List Path)
    (folder : Path) (final : Files File) : Prop :=
  match launch kernel sources folder with
  | .undefined => False
  | .spawn queue =>
      Ends (System.CleanStep kernel)
        (fun system : System (Fin numThreads) File => system.files = final)
        (System.start initial queue)
  | _ => initial = final

def Agree (kernel : Kernel File) (initial : Files File) (sources : List Path) (folder : Path) :
    Prop :=
  ∃ final, StealLeaves kernel initial sources folder final ∧
    ThreadedLeaves kernel initial sources folder final

omit [DecidableEq File] in
theorem launch_eq (directory : kernel.isDirectory folder = true) (nonempty : sources ≠ [])
    (room : sources.length ≤ maxJobs) :
    launch kernel sources folder = .spawn (sources.map (copyJob folder)) := by
  rw [launch, if_neg nonempty, if_pos directory, enqueue_eq folder (by simpa using room)]
  cases sources with
  | nil => exact absurd rfl nonempty
  | cons path sources => rfl

omit [DecidableEq File] in
theorem launch_overflows (directory : kernel.isDirectory folder = true)
    (many : maxJobs < sources.length) : launch kernel sources folder = .undefined := by
  have nonempty : sources ≠ [] := by
    rintro rfl
    cases many
  rw [launch, if_neg nonempty, if_pos directory,
    enqueue_overflows folder (Nat.zero_le _) (by simpa using many)]

private theorem agree_of_compatible (valid : Valid kernel initial sources folder)
    (fits : SlashFits sources folder) (room : sources.length ≤ maxJobs)
    (compatible : Compatible initial (tasksOf kernel folder sources)) :
    Agree kernel initial sources folder := by
  refine ⟨_, stealing_ends compatible valid.located, ?_⟩
  unfold ThreadedLeaves
  by_cases nonempty : sources = []
  · subst nonempty
    rfl
  · rw [launch_eq valid.directory nonempty room]
    exact (System.start_related (valid.locatedJobs fits)).ends compatible
      (Pool.start_consistent _ _)

/-! ## One job last -/

section Schedules

variable {Worker : Type v} [DecidableEq Worker] [Fintype Worker] {tasks : List (Task File)}
  {system : System Worker File} {Good : System Worker File → Prop}

def System.Sound (kernel : Kernel File) (initial : Files File) (tasks : List (Task File))
    (system : System Worker File) : Prop :=
  ∃ pool, system.Related kernel initial pool ∧ pool.Owned initial tasks

theorem System.Sound.step (sound : system.Sound kernel initial tasks)
    {after : System Worker File} (stepped : system.CleanStep kernel after) :
    after.Sound kernel initial tasks := by
  rcases sound with ⟨pool, related, owned⟩
  rcases related.matched stepped with ⟨next, poolStepped, nextRelated⟩ | ⟨nextRelated, _⟩
  · exact ⟨next, nextRelated, poolStepped.owned owned⟩
  · exact ⟨pool, nextRelated, owned⟩

theorem System.Sound.reaches (sound : system.Sound kernel initial tasks)
    {after : System Worker File} (run : ReflTransGen (System.CleanStep kernel) system after) :
    after.Sound kernel initial tasks := by
  induction run with
  | refl => exact sound
  | tail _ stepped induction => exact induction.step stepped

structure System.Alone (worker : Worker) (system after : System Worker File) : Prop where
  queue : after.queue = system.queue
  others : ∀ other, other ≠ worker → after.workers other = system.workers other

omit [DecidableEq File] [DecidableEq Worker] [Fintype Worker] in
theorem System.Alone.trans {worker : Worker} {middle after : System Worker File}
    (first : system.Alone worker middle) (second : middle.Alone worker after) :
    system.Alone worker after where
  queue := second.queue.trans first.queue
  others := fun other different => (second.others other different).trans
    (first.others other different)

omit [Fintype Worker] in
theorem System.step_copying {worker : Worker} {copy : CopyFiles File}
    (copying : system.workers worker = .copying copy) {result : Result}
    {after : System Worker File} (stepped : system.step kernel worker result = some after) :
    system.Alone worker after ∧ after.jobIndex = system.jobIndex ∧
      (after.workers worker = .locking ∨ ∃ next, after.workers worker = .copying next) := by
  unfold System.step at stepped
  rw [copying] at stepped
  simp only at stepped
  split at stepped
  next => cases stepped
  next files next _ =>
    cases stepped
    refine ⟨⟨rfl, fun other different => Function.update_of_ne different _ _⟩, rfl, .inr ⟨next, ?_⟩⟩
    exact Function.update_self _ _ _
  next files status _ =>
    cases stepped
    refine ⟨⟨rfl, fun other different => Function.update_of_ne different _ _⟩, rfl, .inl ?_⟩
    exact Function.update_self _ _ _

private theorem System.Sound.finish_job (ends : Ends (System.CleanStep kernel) Good system)
    (sound : system.Sound kernel initial tasks) {worker : Worker} {copy : CopyFiles File}
    (copying : system.workers worker = .copying copy) :
    ∃ after, ReflTransGen (System.CleanStep kernel) system after ∧
      after.workers worker = .locking ∧ after.jobIndex = system.jobIndex ∧
      system.Alone worker after := by
  induction ends generalizing copy with
  | @intro system _ _ induction =>
      rcases sound with ⟨pool, related, owned⟩
      have active : system.workers worker ≠ .exited := by
        rw [copying]
        exact nofun
      rcases related.can_step active with ⟨result, clean, possible⟩
      rcases Option.isSome_iff_exists.mp possible with ⟨next, stepped⟩
      have cleanStep : system.CleanStep kernel next := ⟨worker, result, clean, stepped⟩
      rcases System.step_copying copying stepped with ⟨alone, index, locking | ⟨copy, further⟩⟩
      · exact ⟨next, .single cleanStep, locking, index, alone⟩
      · have nextSound := System.Sound.step ⟨pool, related, owned⟩ cleanStep
        rcases induction next cleanStep nextSound further with
          ⟨after, run, locking, sameIndex, others⟩
        exact ⟨after, .head cleanStep run, locking, sameIndex.trans index, alone.trans others⟩

omit [Fintype Worker] in
private theorem System.take_job {worker : Worker} (locking : system.workers worker = .locking)
    {job : CopyJob} (found : system.queue[system.jobIndex]? = some job) :
    ∃ after, system.CleanStep kernel after ∧
      after.workers worker = .copying (.openSource job) ∧
      after.jobIndex = system.jobIndex + 1 ∧ system.Alone worker after := by
  refine ⟨System.update { system with jobIndex := system.jobIndex + 1 } worker
    (.copying (.openSource job)), ⟨worker, .done 0, ?_, ?_⟩, Function.update_self _ _ _, rfl, rfl,
    fun other different => Function.update_of_ne different _ _⟩
  · rw [locking]
    exact nofun
  · rw [System.step, locking]
    simp only [found]

private theorem System.Sound.run_queue (ends : Ends (System.CleanStep kernel) Good system)
    (sound : system.Sound kernel initial tasks) {worker : Worker}
    (locking : system.workers worker = .locking) (count : Nat)
    (room : system.jobIndex + count ≤ system.queue.length) :
    ∃ after, ReflTransGen (System.CleanStep kernel) system after ∧
      after.workers worker = .locking ∧ after.jobIndex = system.jobIndex + count ∧
      system.Alone worker after := by
  induction count generalizing system with
  | zero => exact ⟨system, .refl, locking, rfl, rfl, fun _ _ => rfl⟩
  | succ count induction =>
      have found := List.getElem?_eq_getElem (show system.jobIndex < system.queue.length by omega)
      rcases System.take_job locking found with ⟨taken, take, copying, index, alone⟩
      have takenEnds := ends.next take
      rcases System.Sound.finish_job takenEnds (sound.step take) copying with
        ⟨idle, finish, idleLocking, idleIndex, idleAlone⟩
      have queue := (alone.trans idleAlone).queue
      rcases induction (takenEnds.reaches finish) ((sound.step take).reaches finish) idleLocking
        (by rw [queue]; omega) with ⟨after, run, afterLocking, afterIndex, afterAlone⟩
      exact ⟨after, .head take (finish.trans run), afterLocking, by omega,
        (alone.trans idleAlone).trans afterAlone⟩

omit [DecidableEq File] in
theorem Locates.unique {src dest : Path} {task other : Task File}
    (locates : Locates kernel initial src dest task)
    (same : Locates kernel initial src dest other) : other = task := by
  have source := Option.some.inj (same.source.symm.trans locates.source)
  have target := Option.some.inj (same.dest.symm.trans locates.dest)
  cases task
  cases other
  cases source
  cases target
  rfl

/-- No file is both read and written. -/
def Separate (tasks : List (Task File)) : Prop :=
  ∀ task ∈ tasks, ∀ other ∈ tasks, task.source ≠ other.dest

private theorem compatible_singleton (files : Files File) (task : Task File) :
    Compatible files [task] where
  sameDest := by
    intro first firstMember second secondMember _
    rw [List.mem_singleton.mp firstMember, List.mem_singleton.mp secondMember]
  readWritten := by
    intro first firstMember second secondMember same
    rw [List.mem_singleton.mp firstMember, List.mem_singleton.mp secondMember] at same ⊢
    exact ⟨if_pos same, if_pos same⟩

private theorem copied_singleton (files : Files File) (task : Task File) :
    copied files [task] task.dest = some (task.content files) := by
  simp [copied]

structure System.Last (worker : Worker) (job : CopyJob) (system : System Worker File) :
    Prop where
  taken : system.workers worker = .copying (.openSource job)
  others : ∀ other, other ≠ worker → system.workers other = .locking
  exhausted : system.queue.drop system.jobIndex = []

private theorem exists_run_to_last {first second : Worker} (different : first ≠ second)
    {queue : List CopyJob}
    (sound : (System.start initial queue : System Worker File).Sound kernel initial tasks)
    (ends : Ends (System.CleanStep kernel) Good (System.start initial queue)) {index : Nat}
    (inside : index < queue.length) :
    ∃ last, ReflTransGen (System.CleanStep kernel) (System.start initial queue) last ∧
      last.Last first queue[index] := by
  -- The first worker does the jobs in front of this one and takes it.
  have locking : (System.start initial queue : System Worker File).workers first = .locking := rfl
  rcases sound.run_queue ends locking index (by simp only [System.start]; omega) with
    ⟨early, earlyRun, earlyLocking, earlyIndex, earlyAlone⟩
  have reached : early.jobIndex = index := by
    rw [earlyIndex]
    exact Nat.zero_add index
  have found : early.queue[early.jobIndex]? = some queue[index] := by
    rw [reached, earlyAlone.queue]
    exact List.getElem?_eq_getElem inside
  rcases System.take_job earlyLocking found with ⟨taken, take, copying, takenIndex, takenAlone⟩
  have alone := earlyAlone.trans takenAlone
  have takenRun := ReflTransGen.tail earlyRun take
  -- The second worker does the rest.
  have secondLocking : taken.workers second = .locking := alone.others second different.symm
  have size : taken.queue.length = queue.length := by
    rw [alone.queue]
    rfl
  rcases (sound.reaches takenRun).run_queue (ends.reaches takenRun) secondLocking
    (queue.length - (index + 1)) (by omega) with
    ⟨last, lastRun, lastLocking, lastIndex, lastAlone⟩
  refine ⟨last, takenRun.trans lastRun, ?_, ?_, ?_⟩
  · rw [lastAlone.others first different, copying]
  · intro other notFirst
    by_cases isSecond : other = second
    · rw [isSecond, lastLocking]
    · rw [lastAlone.others other isSecond, alone.others other notFirst]
      rfl
  · apply List.drop_eq_nil_of_le
    rw [lastAlone.queue]
    omega

theorem System.Last.ends {worker : Worker} {job : CopyJob} {task : Task File} [Nonempty Worker]
    (last : system.Last worker job) (locates : Locates kernel initial job.src job.dest task)
    {pool : Pool Worker File} (related : system.Related kernel initial pool) :
    Ends (System.CleanStep kernel)
      (fun final => final.files task.dest = some (task.content pool.files)) system := by
  have opening : pool.activity worker = .opening task := by
    have moved := related.workers worker
    rw [last.taken] at moved
    generalize pool.activity worker = doing at moved
    cases moved with
    | openSource same => rw [locates.unique same]
  have idle : ∀ other, other ≠ worker → pool.activity other = .idle := by
    intro other different
    have moved := related.workers other
    rw [last.others other different] at moved
    generalize pool.activity other = doing at moved
    cases moved
    rfl
  have nothing : pool.waiting = [] := by
    have queue := related.queue
    rw [last.exhausted] at queue
    exact List.forall₂_nil_left_iff.mp queue
  have consistent : pool.Consistent pool.files [task] := by
    refine ⟨⟨?_, ?_, fun _ _ => rfl⟩, ?_, fun _ _ => .inl rfl, ?_⟩
    · rw [nothing]
      exact nofun
    · intro other
      by_cases same : other = worker
      · rw [same, opening]
        exact List.mem_cons_self
      · rw [idle other same]
        trivial
    · intro other
      by_cases same : other = worker
      · rw [same, opening]
        trivial
      · rw [idle other same]
        trivial
    · intro other member
      rw [List.mem_singleton.mp member]
      exact .inr (.inl ⟨worker, opening⟩)
  have whole := related.ends (compatible_singleton pool.files task) consistent
  exact whole.mono fun final files => by rw [files, copied_singleton]

private theorem exists_run_with_last {first second : Worker} (different : first ≠ second)
    {queue : List CopyJob}
    (located : List.Forall₂ (fun job task => Locates kernel initial job.src job.dest task)
      queue tasks) (separate : Separate tasks)
    (ends : Ends (System.CleanStep kernel) Good (System.start initial queue)) {task : Task File}
    (member : task ∈ tasks) :
    ∃ final, Good final ∧ final.files task.dest = some (task.content initial) := by
  rcases List.getElem_of_mem member with ⟨index, inside, found⟩
  have inQueue : index < queue.length := by
    rw [located.length_eq]
    exact inside
  have locates : Locates kernel initial queue[index].src queue[index].dest task := by
    rw [← found]
    exact located.get inQueue inside
  have sound : (System.start initial queue : System Worker File).Sound kernel initial tasks :=
    ⟨_, System.start_related located, (Pool.start_consistent initial tasks).owned⟩
  rcases exists_run_to_last different sound ends inQueue with ⟨last, run, isLast⟩
  rcases sound.reaches run with ⟨pool, related, owned⟩
  have nonempty : Nonempty Worker := ⟨first⟩
  have lastEnds := isLast.ends locates related
  rcases lastEnds.exists_final with ⟨final, finalRun, stuck⟩
  refine ⟨final, ends.good (run.trans finalRun) stuck, ?_⟩
  have untouched : pool.files task.source = initial task.source := by
    apply owned.others
    exact fun other otherMember same => separate task member other otherMember same.symm
  have content : task.content pool.files = task.content initial := by
    unfold Task.content Files.bytes
    rw [untouched]
  rw [← content]
  exact lastEnds.good finalRun stuck

end Schedules

private theorem agree_room (directory : kernel.isDirectory folder = true)
    (agree : Agree kernel initial sources folder) : sources.length ≤ maxJobs := by
  rcases agree with ⟨final, _, threaded⟩
  apply Nat.not_lt.mp
  intro many
  rw [ThreadedLeaves, launch_overflows directory many] at threaded
  exact threaded

private theorem agree_compatible (valid : Valid kernel initial sources folder)
    (fits : SlashFits sources folder) (separate : Separate (tasksOf kernel folder sources))
    (agree : Agree kernel initial sources folder) :
    Compatible initial (tasksOf kernel folder sources) := by
  have room := agree_room valid.directory agree
  rcases agree with ⟨final, _, threaded⟩
  have holds : ∀ task ∈ tasksOf kernel folder sources,
      final task.dest = some (task.content initial) := by
    intro task member
    have nonempty : sources ≠ [] := by
      rintro rfl
      cases member
    rw [ThreadedLeaves, launch_eq valid.directory nonempty room] at threaded
    rcases exists_run_with_last (by decide : (0 : Fin numThreads) ≠ 1) (valid.locatedJobs fits)
      separate threaded member with ⟨last, files, dest⟩
    rw [← files]
    exact dest
  constructor
  · intro task member other otherMember same
    have left := holds task member
    rw [same, holds other otherMember] at left
    exact (Option.some.inj left).symm
  · intro task member other otherMember same
    exact absurd same (separate task member other otherMember)

/-- The workers leave the files that `steal.c` leaves if there is room in the queue
and the jobs are compatible; they do not if there is no room, or if two jobs that
read no destination are incompatible. -/
theorem threaded_agrees (valid : Valid kernel initial sources folder) :
    (SlashFits sources folder → sources.length ≤ maxJobs →
      Compatible initial (tasksOf kernel folder sources) → Agree kernel initial sources folder) ∧
    (Agree kernel initial sources folder → sources.length ≤ maxJobs ∧
      (SlashFits sources folder → Separate (tasksOf kernel folder sources) →
        Compatible initial (tasksOf kernel folder sources))) :=
  ⟨fun fits room compatible => agree_of_compatible valid fits room compatible,
    fun agree => ⟨agree_room valid.directory agree,
      fun fits separate => agree_compatible valid fits separate agree⟩⟩

/-! ## Two arguments -/

def squeeze : Path → Path
  | [] => []
  | [char] => [char]
  | char :: next :: rest =>
      if char = '/' ∧ next = '/' then squeeze (next :: rest) else char :: squeeze (next :: rest)

private theorem squeeze_slashes (name : Path) : ∀ {folder : Path}, folder.getLast? = some '/' →
    squeeze (folder ++ '/' :: name) = squeeze (folder ++ name)
  | [], slash => by cases slash
  | [char], slash => by
      have equal : char = '/' := Option.some.inj slash
      rw [equal, List.singleton_append, List.singleton_append, squeeze, if_pos ⟨rfl, rfl⟩]
  | char :: next :: rest, slash => by
      have later : (next :: rest).getLast? = some '/' := by
        rw [← slash]
        simp
      have same := squeeze_slashes name later
      simp only [List.cons_append, squeeze] at same ⊢
      rw [same]

/-- A system in which every path without repeated slashes is a file of its own. -/
def plainKernel : Kernel Path where
  locate := fun path =>
    if path.length < pathMax ∧ path.getLast? ≠ some '/' then some (squeeze path) else none
  isDirectory := fun path => path = ['d']
  short := by
    intro path file located
    split at located
    next fits => exact fits.1
    next => cases located
  noSlash := by
    intro path file located
    split at located
    next fits => exact fits.2
    next => cases located
  slashes := by
    intro folder slash name short
    have shorter : (folder ++ name).length < pathMax := by
      rw [List.length_append] at short ⊢
      rw [List.length_cons] at short
      omega
    have sameEnd : (folder ++ '/' :: name).getLast? = (folder ++ name).getLast? := by
      cases name with
      | nil => simp [slash]
      | cons char name => simp
    simp only [short, shorter, true_and, sameEnd, squeeze_slashes name slash]

def twoFiles : Files Path := fun path =>
  if path = ['a', '/', 'x'] then some [1]
  else if path = ['b', '/', 'y'] then some [2]
  else if path = ['b', '/', 'x'] then some [3]
  else none

private theorem plainKernel_valid {first second : Path} (firstExists : (twoFiles first).isSome)
    (secondExists : (twoFiles second).isSome) (firstPlain : plainKernel.locate first = some first)
    (secondPlain : plainKernel.locate second = some second)
    (writable : ∀ path ∈ [first, second],
      (plainKernel.locate (destinationFile ['d'] path)).isSome) :
    Valid plainKernel twoFiles [first, second] ['d'] where
  directory := rfl
  readable := by
    intro path member
    rcases List.mem_pair.mp member with rfl | rfl
    · exact ⟨path, firstPlain, firstExists⟩
    · exact ⟨path, secondPlain, secondExists⟩
  writable := writable

theorem threaded_agrees_of_two :
    Agree plainKernel twoFiles [['a', '/', 'x'], ['b', '/', 'y']] ['d'] := by
  have valid : Valid plainKernel twoFiles [['a', '/', 'x'], ['b', '/', 'y']] ['d'] :=
    plainKernel_valid rfl rfl rfl rfl (by decide)
  have tasks : tasksOf plainKernel ['d'] [['a', '/', 'x'], ['b', '/', 'y']] =
      [⟨['a', '/', 'x'], ['d', '/', 'x']⟩, ⟨['b', '/', 'y'], ['d', '/', 'y']⟩] := rfl
  apply (threaded_agrees valid).1
  · intro path member slash
    cases slash
  · decide
  · rw [tasks]
    constructor <;> simp

theorem same_basename_disagrees :
    ¬Agree plainKernel twoFiles [['a', '/', 'x'], ['b', '/', 'x']] ['d'] := by
  intro agree
  have valid : Valid plainKernel twoFiles [['a', '/', 'x'], ['b', '/', 'x']] ['d'] :=
    plainKernel_valid rfl rfl rfl rfl (by decide)
  have tasks : tasksOf plainKernel ['d'] [['a', '/', 'x'], ['b', '/', 'x']] =
      [⟨['a', '/', 'x'], ['d', '/', 'x']⟩, ⟨['b', '/', 'x'], ['d', '/', 'x']⟩] := rfl
  have fits : SlashFits [['a', '/', 'x'], ['b', '/', 'x']] ['d'] := by
    intro path member slash
    cases slash
  have separate : Separate (tasksOf plainKernel ['d'] [['a', '/', 'x'], ['b', '/', 'x']]) := by
    rw [tasks]
    simp [Separate]
  have compatible := agree_compatible valid fits separate agree
  rw [tasks] at compatible
  have same := compatible.sameDest _ List.mem_cons_self _
    (List.mem_cons_of_mem _ List.mem_cons_self) rfl
  exact absurd same (by decide)

end SystemsRepository.Steal
