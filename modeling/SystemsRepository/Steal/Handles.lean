import SystemsRepository.Foundation.Execution
import SystemsRepository.Foundation.Ownership
import SystemsRepository.Steal.Distribution

/-! # Descriptors of the copying threads

The threads of `threaded_steal.c` share one table of descriptors. The system gives out numbers as
it likes, and gives out those again that have been closed.
-/

namespace SystemsRepository.Steal

open SystemsRepository.Foundation

/-! ## The process -/

/-- The two variables of `copy_files` for descriptors. -/
inductive Side
  | source
  | dest
  deriving DecidableEq, Repr

/-- The variables of the copy of a job: `src_fd` and `dest_fd`. -/
abbrev Variable := Nat × Side

/-- `descriptors` says for an open descriptor which copy has opened it, and `handles` which number a
variable has until it is closed, also where the copy is over. `closing` has the calls of `close`
that a worker makes before it is back in its loop, `abandoned` the jobs whose copy returned where
`fstat` failed, and what it had opened. -/
structure Process (Worker : Type v) (File : Type u) where
  system : System Worker File
  descriptors : Nat → Option Variable
  handles : Variable → Option Nat
  job : Worker → Nat
  closing : Worker → List Side
  abandoned : List (Nat × (Side → Bool))
  fault : Bool

/-- A worker takes a step, with the number of the descriptor if it opens one, or it closes what it
has opened. -/
inductive HandleEvent (Worker : Type v)
  | call (worker : Worker) (result : Result) (number : Nat)
  | close (worker : Worker)

section Process

variable {File : Type u} {Worker : Type v}

def CopyFiles.opened : CopyFiles File → Side → Bool
  | .openDest _ source, .source => source.isSome
  | .stat source _, .source => source.isSome
  | .stat _ dest, .dest => dest.isSome
  | .copying _, .source => true
  | .copying loop, .dest => loop.dest.isSome
  | _, _ => false

namespace Process

def start (files : Files File) (queue : List CopyJob) : Process Worker File where
  system := .start files queue
  descriptors _ := none
  handles _ := none
  job _ := 0
  closing _ := []
  abandoned := []
  fault := false

/-- A call of `open` has given this number, which was not in use. -/
def opens (process : Process Worker File) (target : Variable) (number : Nat) :
    Option (Process Worker File) :=
  if process.descriptors number = none then
    some { process with
      descriptors := Function.update process.descriptors number (some target)
      handles := Function.update process.handles target (some number) }
  else none

variable [DecidableEq Worker]

/-- What a step of a worker does to the descriptors, by its states before and after it. -/
def follow (process : Process Worker File) (worker : Worker) (number : Nat) :
    WorkerState File → WorkerState File → Option (Process Worker File)
  | .copying (.openSource _), .copying (.openDest _ (some _)) =>
      process.opens (process.job worker, .source) number
  | .copying (.openDest _ _), .copying (.stat _ (some _)) =>
      process.opens (process.job worker, .dest) number
  | .copying (.stat source dest), .locking =>
      some { process with
        abandoned := (process.job worker, (CopyFiles.stat source dest).opened) ::
          process.abandoned }
  | .copying (.copying _), .locking =>
      some { process with
        closing := Function.update process.closing worker [.source, .dest] }
  | _, _ => some process

def take (process : Process Worker File) (worker : Worker) (system : System Worker File) :
    Process Worker File :=
  { process with
    system
    job := if process.system.jobIndex < system.jobIndex then
      Function.update process.job worker process.system.jobIndex else process.job }

variable [DecidableEq File]

def call (kernel : Kernel File) (process : Process Worker File) (worker : Worker)
    (result : Result) (number : Nat) : Option (Process Worker File) :=
  if process.closing worker = [] then
    match process.system.step kernel worker result with
    | none => none
    | some system =>
        (process.take worker system).follow worker number
          (process.system.workers worker) (system.workers worker)
  else none

/-- `close(src_fd)` or `close(dest_fd)`; -1 is refused, and any other number is closed. -/
def close (process : Process Worker File) (worker : Worker) : Option (Process Worker File) :=
  match process.closing worker with
  | [] => none
  | side :: sides =>
      let closed := { process with closing := Function.update process.closing worker sides }
      match process.handles (process.job worker, side) with
      | none => some closed
      | some number =>
          some { closed with
            descriptors := Function.update process.descriptors number none
            handles := Function.update process.handles (process.job worker, side) none
            fault := process.fault ||
              process.descriptors number != some (process.job worker, side) }

def step (kernel : Kernel File) (process : Process Worker File) :
    HandleEvent Worker → Option (Process Worker File)
  | .call worker result number => process.call kernel worker result number
  | .close worker => process.close worker

def machine (kernel : Kernel File) : Machine (Process Worker File) (HandleEvent Worker) where
  execute event process := process.step kernel event

end Process

end Process

/-! ## The invariant -/

namespace Process

variable {File : Type u} {Worker : Type v} {process : Process Worker File}
  {system : System Worker File} {worker other : Worker} {copy : CopyFiles File}

def Busy (process : Process Worker File) (worker : Worker) : Prop :=
  (∃ copy, process.system.workers worker = .copying copy) ∨ process.closing worker ≠ []

def held (process : Process Worker File) (target : Variable) : Option (Nat × Variable) :=
  (process.handles target).map fun number => (number, target)

def gone (process : Process Worker File) : List Nat := process.abandoned.map Prod.fst

/-- Each open descriptor is in one variable, and the variable is that of a copy that is being made
or was abandoned. -/
structure Tidy (process : Process Worker File) : Prop where
  owned : Owned process.descriptors process.held
  known : ∀ index side number, process.handles (index, side) = some number →
    index < process.system.jobIndex ∧
      (index ∈ process.gone ∨ ∃ worker, process.Busy worker ∧ process.job worker = index)
  current : ∀ worker, process.Busy worker →
    process.job worker < process.system.jobIndex ∧ process.job worker ∉ process.gone
  alone : ∀ worker other, process.Busy worker → process.Busy other →
    process.job worker = process.job other → worker = other
  opened : ∀ worker copy, process.system.workers worker = .copying copy →
    ∀ side, (process.handles (process.job worker, side)).isSome = copy.opened side
  closing : ∀ worker, process.closing worker ≠ [] →
    process.system.workers worker = .locking ∧
      ∀ side, side ∉ process.closing worker → process.handles (process.job worker, side) = none
  old : ∀ index ∈ process.gone, index < process.system.jobIndex
  left : ∀ index opened, (index, opened) ∈ process.abandoned →
    ∀ side, (process.handles (index, side)).isSome = opened side
  sound : process.fault = false

private theorem busy_of_copying (copying : process.system.workers worker = .copying copy) :
    process.Busy worker := .inl ⟨copy, copying⟩

private theorem busy_other (same : ∀ other, other ≠ worker →
      system.workers other = process.system.workers other) (different : other ≠ worker) :
    ({ process with system } : Process Worker File).Busy other ↔ process.Busy other := by
  unfold Busy
  rw [same other different]

private theorem not_busy (locking : ∀ copy, process.system.workers worker ≠ .copying copy)
    (finished : process.closing worker = []) : ¬process.Busy worker := by
  rintro (⟨copy, copying⟩ | closing)
  · exact locking copy copying
  · exact closing finished

namespace Tidy

theorem ofStart (files : Files File) (queue : List CopyJob) :
    (start files queue : Process Worker File).Tidy where
  owned := .empty
  known _ _ _ has := by cases has
  current worker busy := by
    rcases busy with ⟨copy, copying⟩ | closing
    · cases copying
    · exact absurd rfl closing
  alone worker _ busy := by
    rcases busy with ⟨copy, copying⟩ | closing
    · cases copying
    · exact absurd rfl closing
  opened _ _ copying := by cases copying
  closing _ unfinished := absurd rfl unfinished
  old _ member := by cases member
  left _ _ member := by cases member
  sound := rfl

private theorem rebuild (tidy : process.Tidy) {next : Process Worker File}
    (jobs : next.job = process.job) (index : next.system.jobIndex = process.system.jobIndex)
    (abandoned : next.abandoned = process.abandoned)
    (busy : ∀ holder, next.Busy holder ↔ process.Busy holder)
    (known : ∀ job side number, next.handles (job, side) = some number →
      process.handles (job, side) = some number ∨
        ∃ worker, process.Busy worker ∧ process.job worker = job)
    (owned : Owned next.descriptors next.held)
    (opened : ∀ worker copy, next.system.workers worker = .copying copy →
      ∀ side, (next.handles (process.job worker, side)).isSome = copy.opened side)
    (closing : ∀ worker, next.closing worker ≠ [] → next.system.workers worker = .locking ∧
      ∀ side, side ∉ next.closing worker → next.handles (process.job worker, side) = none)
    (left : ∀ index ∈ process.gone, ∀ side,
      next.handles (index, side) = process.handles (index, side))
    (sound : next.fault = process.fault) : next.Tidy where
  owned := owned
  known := by
    intro job side number has
    rw [jobs, index, gone, abandoned]
    have holder : ∀ {worker}, process.Busy worker → process.job worker = job →
        job < process.system.jobIndex ∧
          (job ∈ process.gone ∨ ∃ worker, next.Busy worker ∧ process.job worker = job) :=
      fun {worker} holds own => ⟨own ▸ (tidy.current worker holds).1,
        .inr ⟨worker, (busy worker).mpr holds, own⟩⟩
    rcases known job side number has with before | ⟨worker, holds, own⟩
    · rcases tidy.known job side number before with ⟨less, left | ⟨worker, holds, own⟩⟩
      · exact ⟨less, .inl left⟩
      · exact holder holds own
    · exact holder holds own
  current := by
    intro worker holds
    rw [jobs, index, gone, abandoned]
    exact tidy.current worker ((busy worker).mp holds)
  alone := by
    intro first second firstBusy secondBusy same
    rw [jobs] at same
    exact tidy.alone first second ((busy first).mp firstBusy) ((busy second).mp secondBusy) same
  opened := by
    rw [jobs]
    exact opened
  closing := by
    rw [jobs]
    exact closing
  old := by
    rw [gone, abandoned, index]
    exact tidy.old
  left := by
    rw [abandoned]
    intro index opened member side
    rw [left index (List.mem_map.mpr ⟨_, member, rfl⟩) side]
    exact tidy.left index opened member side
  sound := sound.trans tidy.sound

variable [DecidableEq Worker]

/-- A worker that is in no copy goes on; if it has taken a job, no variable of it is in use. -/
theorem takes (tidy : process.Tidy) (alone : process.system.Alone worker system)
    (locking : process.system.workers worker = .locking) (finished : process.closing worker = [])
    {job : CopyJob} (taken : system.workers worker = .copying (.openSource job))
    (index : system.jobIndex = process.system.jobIndex + 1) :
    ({ process with
      system
      job := Function.update process.job worker process.system.jobIndex } :
        Process Worker File).Tidy := by
  have idle : ¬process.Busy worker := not_busy (by simp [locking]) finished
  have others : ∀ {other}, other ≠ worker →
      Function.update process.job worker process.system.jobIndex other = process.job other :=
    fun different => Function.update_of_ne different _ _
  have mine : Function.update process.job worker process.system.jobIndex worker =
      process.system.jobIndex := Function.update_self _ _ _
  have busy : ∀ {other}, other ≠ worker →
      (({ process with system } : Process Worker File).Busy other ↔ process.Busy other) :=
    fun different => busy_other alone.others different
  refine ⟨tidy.owned, ?_, ?_, ?_, ?_, ?_, ?_, tidy.left, tidy.sound⟩
  · intro earlier side number has
    rcases tidy.known earlier side number has with ⟨less, left | ⟨holder, holds, same⟩⟩
    · exact ⟨by simp only [index]; omega, .inl left⟩
    · have different : holder ≠ worker := fun equal => idle (equal ▸ holds)
      exact ⟨by simp only [index]; omega, .inr ⟨holder, (busy different).mpr holds,
        (others different).trans same⟩⟩
  · intro holder holds
    by_cases different : holder = worker
    · subst different
      simp only [mine, index]
      exact ⟨by omega, fun left => absurd (tidy.old _ left) (Nat.lt_irrefl _)⟩
    · have before := tidy.current holder ((busy different).mp holds)
      simp only [others different, index]
      exact ⟨by omega, before.2⟩
  · intro first second firstBusy secondBusy same
    by_cases isFirst : first = worker <;> by_cases isSecond : second = worker
    · rw [isFirst, isSecond]
    · have less := (tidy.current second ((busy isSecond).mp secondBusy)).1
      simp only [isFirst, mine, others isSecond] at same
      omega
    · have less := (tidy.current first ((busy isFirst).mp firstBusy)).1
      simp only [isSecond, mine, others isFirst] at same
      omega
    · simp only [others isFirst, others isSecond] at same
      exact tidy.alone first second ((busy isFirst).mp firstBusy) ((busy isSecond).mp secondBusy)
        same
  · intro holder copy copying side
    by_cases different : holder = worker
    · subst different
      rw [taken] at copying
      cases copying
      simp only [mine]
      cases has : process.handles (process.system.jobIndex, side) with
      | none => rfl
      | some number => exact absurd (tidy.known _ _ _ has).1 (Nat.lt_irrefl _)
    · simp only [others different]
      exact tidy.opened holder copy ((alone.others holder different).symm.trans copying) side
  · intro holder unfinished
    have different : holder ≠ worker := fun equal => unfinished (equal ▸ finished)
    rcases tidy.closing holder unfinished with ⟨locked, closed⟩
    refine ⟨(alone.others holder different).trans locked, fun side outside => ?_⟩
    simp only [others different]
    exact closed side outside
  · intro left member
    have less := tidy.old left member
    simp only [index]
    omega

/-- The worker goes on with its copy; what may change are the variables of this copy. -/
theorem goes (tidy : process.Tidy) (alone : process.system.Alone worker system)
    (copying : process.system.workers worker = .copying copy) {later : CopyFiles File}
    (after : system.workers worker = .copying later)
    (index : system.jobIndex = process.system.jobIndex) {descriptors : Nat → Option Variable}
    {handles : Variable → Option Nat}
    (owned : Owned descriptors ({ process with handles } : Process Worker File).held)
    (others : ∀ job side, job ≠ process.job worker →
      handles (job, side) = process.handles (job, side))
    (opened : ∀ side, (handles (process.job worker, side)).isSome = later.opened side) :
    ({ process with system, descriptors, handles } : Process Worker File).Tidy := by
  have mine := busy_of_copying copying
  have busy : ∀ holder, ({ process with system } : Process Worker File).Busy holder ↔
      process.Busy holder := by
    intro holder
    by_cases same : holder = worker
    · rw [same]
      exact iff_of_true (.inl ⟨later, after⟩) mine
    · exact busy_other alone.others same
  have apart : ∀ {holder}, holder ≠ worker → process.Busy holder →
      process.job holder ≠ process.job worker :=
    fun different holds same => different (tidy.alone _ _ holds mine same)
  refine tidy.rebuild rfl index rfl busy ?_ owned ?_ ?_ ?_ rfl
  · intro job side number has
    by_cases same : job = process.job worker
    · exact .inr ⟨worker, mine, same.symm⟩
    · exact .inl ((others job side same).symm.trans has)
  · intro holder copy copying side
    by_cases same : holder = worker
    · rw [same, after] at copying
      cases copying
      rw [same]
      exact opened side
    · have before := (alone.others holder same).symm.trans copying
      have kept := others _ side (apart same (busy_of_copying before))
      exact (congrArg Option.isSome kept).trans (tidy.opened holder copy before side)
  · intro holder unfinished
    rcases tidy.closing holder unfinished with ⟨locked, closed⟩
    have different : holder ≠ worker := by
      intro same
      rw [same, copying] at locked
      cases locked
    refine ⟨(alone.others holder different).trans locked, fun side outside => ?_⟩
    exact (others _ side (apart different (.inr unfinished))).trans (closed side outside)
  · intro job member side
    exact others job side fun same => (tidy.current worker mine).2 (same ▸ member)

theorem stays (tidy : process.Tidy) (alone : process.system.Alone worker system)
    (copying : process.system.workers worker = .copying copy) {later : CopyFiles File}
    (after : system.workers worker = .copying later)
    (index : system.jobIndex = process.system.jobIndex) (same : later.opened = copy.opened) :
    ({ process with system } : Process Worker File).Tidy := by
  refine tidy.goes alone copying after index tidy.owned (fun _ _ _ => rfl) fun side => ?_
  rw [same]
  exact tidy.opened worker copy copying side

theorem opens (tidy : process.Tidy) (alone : process.system.Alone worker system)
    (copying : process.system.workers worker = .copying copy) {later : CopyFiles File}
    (after : system.workers worker = .copying later)
    (index : system.jobIndex = process.system.jobIndex) {side : Side} {number : Nat}
    (fresh : copy.opened side = false)
    (same : later.opened = Function.update copy.opened side true)
    (unused : process.descriptors number = none) :
    ({ process with
      system
      descriptors := Function.update process.descriptors number (some (process.job worker, side))
      handles := Function.update process.handles (process.job worker, side) (some number) } :
        Process Worker File).Tidy := by
  have empty : process.handles (process.job worker, side) = none := by
    have closed := tidy.opened worker copy copying side
    rw [fresh] at closed
    exact Option.isNone_iff_eq_none.mp (Option.isSome_eq_false_iff.mp closed)
  refine tidy.goes alone copying after index ?_ ?_ ?_
  · refine tidy.owned.acquire (process.job worker, side) unused ?_ ?_ ?_
    · rw [held, empty]
      rfl
    · simp [held]
    · intro target different
      simp [held, Function.update_of_ne different]
  · intro job other different
    exact Function.update_of_ne (fun equal => different (congrArg Prod.fst equal)) _ _
  · intro other
    rw [same]
    by_cases equal : other = side
    · rw [equal, Function.update_self, Function.update_self]
      rfl
    · have apart : (process.job worker, other) ≠ (process.job worker, side) :=
        fun pair => equal (congrArg Prod.snd pair)
      rw [Function.update_of_ne equal, Function.update_of_ne apart]
      exact tidy.opened worker copy copying other

private theorem abandons (tidy : process.Tidy) (alone : process.system.Alone worker system)
    (copying : process.system.workers worker = .copying copy)
    (after : system.workers worker = .locking)
    (index : system.jobIndex = process.system.jobIndex) :
    ({ process with
      system
      abandoned := (process.job worker, copy.opened) :: process.abandoned } :
        Process Worker File).Tidy := by
  have mine := busy_of_copying copying
  have finished : process.closing worker = [] := by
    cases unfinished : process.closing worker with
    | nil => rfl
    | cons side sides =>
        have locked := (tidy.closing worker (by rw [unfinished]; exact List.cons_ne_nil _ _)).1
        rw [copying] at locked
        cases locked
  have idle : ¬({ process with system } : Process Worker File).Busy worker :=
    not_busy (by simp [after]) finished
  have different : ∀ {holder}, ({ process with system } : Process Worker File).Busy holder →
      holder ≠ worker := fun holds same => idle (same ▸ holds)
  have before : ∀ {holder}, ({ process with system } : Process Worker File).Busy holder →
      process.Busy holder := fun holds => (busy_other alone.others (different holds)).mp holds
  refine ⟨tidy.owned, ?_, ?_, ?_, ?_, ?_, ?_, ?_, tidy.sound⟩
  · intro job side number has
    rcases tidy.known job side number has with ⟨less, left | ⟨holder, holds, own⟩⟩
    · exact ⟨index ▸ less, .inl (List.mem_cons_of_mem _ left)⟩
    · refine ⟨index ▸ less, ?_⟩
      by_cases same : holder = worker
      · rw [← own, same]
        exact .inl List.mem_cons_self
      · exact .inr ⟨holder, (busy_other alone.others same).mpr holds, own⟩
  · intro holder holds
    have known := tidy.current holder (before holds)
    refine ⟨index ▸ known.1, fun member => ?_⟩
    rcases List.mem_cons.mp member with same | left
    · exact different holds (tidy.alone _ _ (before holds) mine same)
    · exact known.2 left
  · intro first second firstBusy secondBusy same
    exact tidy.alone first second (before firstBusy) (before secondBusy) same
  · intro holder copy copying side
    have still := (alone.others holder (different (.inl ⟨copy, copying⟩))).symm.trans copying
    exact tidy.opened holder copy still side
  · intro holder unfinished
    rcases tidy.closing holder unfinished with ⟨locked, closed⟩
    exact ⟨(alone.others holder (different (.inr unfinished))).trans locked, closed⟩
  · intro left member
    rcases List.mem_cons.mp member with same | old
    · rw [same, index]
      exact (tidy.current worker mine).1
    · exact index ▸ tidy.old left old
  · intro job opened member side
    rcases List.mem_cons.mp member with same | before
    · cases same
      exact tidy.opened worker copy copying side
    · exact tidy.left job opened before side

theorem finishes (tidy : process.Tidy) (alone : process.system.Alone worker system)
    (copying : process.system.workers worker = .copying copy)
    (after : system.workers worker = .locking)
    (index : system.jobIndex = process.system.jobIndex) :
    ({ process with
      system
      closing := Function.update process.closing worker [.source, .dest] } :
        Process Worker File).Tidy := by
  have mine := busy_of_copying copying
  have busy : ∀ holder, ({ process with
      system
      closing := Function.update process.closing worker [.source, .dest] } :
        Process Worker File).Busy holder ↔ process.Busy holder := by
    intro holder
    by_cases same : holder = worker
    · rw [same]
      refine iff_of_true (.inr ?_) mine
      simp
    · unfold Busy
      simp only [alone.others holder same, Function.update_of_ne same]
  refine tidy.rebuild rfl index rfl busy (fun _ _ _ has => .inl has) tidy.owned ?_ ?_
    (fun _ _ _ => rfl) rfl
  · intro holder copy copying side
    have different : holder ≠ worker := by
      intro same
      rw [same, after] at copying
      cases copying
    exact tidy.opened holder copy ((alone.others holder different).symm.trans copying) side
  · intro holder unfinished
    by_cases same : holder = worker
    · rw [same]
      refine ⟨after, fun side outside => ?_⟩
      cases side <;> simp at outside
    · simp only [Function.update_of_ne same] at unfinished ⊢
      rcases tidy.closing holder unfinished with ⟨locked, closed⟩
      exact ⟨(alone.others holder same).trans locked, closed⟩

theorem leaves (tidy : process.Tidy) (alone : process.system.Alone worker system)
    (locking : process.system.workers worker = .locking) (finished : process.closing worker = [])
    (after : system.workers worker = .exited)
    (index : system.jobIndex = process.system.jobIndex) :
    ({ process with system } : Process Worker File).Tidy := by
  have idle : ¬process.Busy worker := not_busy (by simp [locking]) finished
  have still : ¬({ process with system } : Process Worker File).Busy worker :=
    not_busy (by simp [after]) finished
  have busy : ∀ holder, ({ process with system } : Process Worker File).Busy holder ↔
      process.Busy holder := by
    intro holder
    by_cases same : holder = worker
    · rw [same]
      exact iff_of_false still idle
    · exact busy_other alone.others same
  refine tidy.rebuild rfl index rfl busy (fun _ _ _ has => .inl has) tidy.owned ?_ ?_
    (fun _ _ _ => rfl) rfl
  · intro holder copy copying side
    have different : holder ≠ worker := by
      intro same
      rw [same, after] at copying
      cases copying
    exact tidy.opened holder copy ((alone.others holder different).symm.trans copying) side
  · intro holder unfinished
    rcases tidy.closing holder unfinished with ⟨locked, closed⟩
    have different : holder ≠ worker := fun same => unfinished (same ▸ finished)
    exact ⟨(alone.others holder different).trans locked, closed⟩

theorem closes (tidy : process.Tidy) {side : Side} {sides : List Side}
    (unfinished : process.closing worker = side :: sides) {descriptors : Nat → Option Variable}
    {handles : Variable → Option Nat}
    (owned : Owned descriptors ({ process with handles } : Process Worker File).held)
    (closed : handles (process.job worker, side) = none)
    (others : ∀ target, target ≠ (process.job worker, side) →
      handles target = process.handles target) :
    ({ process with
      descriptors
      handles
      closing := Function.update process.closing worker sides } : Process Worker File).Tidy := by
  have behind : process.closing worker ≠ [] := by
    rw [unfinished]
    exact List.cons_ne_nil _ _
  have mine : process.Busy worker := .inr behind
  have before : ∀ {holder}, ({ process with
      closing := Function.update process.closing worker sides } : Process Worker File).Busy holder →
        process.Busy holder := by
    intro holder holds
    by_cases same : holder = worker
    · rw [same]
      exact mine
    · rcases holds with copying | closing
      · exact .inl copying
      · simp only [Function.update_of_ne same] at closing
        exact .inr closing
  have after : ∀ {holder}, process.Busy holder → (holder = worker → sides ≠ []) →
      ({ process with
        closing := Function.update process.closing worker sides } :
          Process Worker File).Busy holder := by
    intro holder holds more
    by_cases same : holder = worker
    · refine .inr ?_
      rw [same]
      simpa using more same
    · rcases holds with copying | closing
      · exact .inl copying
      · refine .inr ?_
        simpa only [Function.update_of_ne same] using closing
  have kept : ∀ {job other number}, handles (job, other) = some number →
      process.handles (job, other) = some number := by
    intro job other number has
    refine (others _ fun same => ?_).symm.trans has
    rw [same, closed] at has
    cases has
  have empty : ∀ {job other}, process.handles (job, other) = none →
      handles (job, other) = none := by
    intro job other missing
    cases has : handles (job, other) with
    | none => rfl
    | some number =>
        rw [kept has] at missing
        cases missing
  refine ⟨owned, ?_, ?_, ?_, ?_, ?_, tidy.old, ?_, tidy.sound⟩
  · intro job other number has
    rcases tidy.known job other number (kept has) with ⟨less, left | ⟨holder, holds, own⟩⟩
    · exact ⟨less, .inl left⟩
    · refine ⟨less, .inr ⟨holder, after holds fun same last => ?_, own⟩⟩
      -- The last variable that the worker closes is the last one in use.
      change handles (job, other) = some number at has
      rw [same] at own
      rw [← own] at has
      have outside : other ∉ process.closing worker := by
        rw [unfinished, last, List.mem_singleton]
        intro equal
        rw [equal, closed] at has
        cases has
      rw [empty ((tidy.closing worker behind).2 other outside)] at has
      cases has
  · exact fun holder holds => tidy.current holder (before holds)
  · exact fun first second firstBusy secondBusy same =>
      tidy.alone first second (before firstBusy) (before secondBusy) same
  · intro holder copy copying other
    have different : (process.job holder, other) ≠ (process.job worker, side) := by
      intro same
      have equal := tidy.alone _ _ (busy_of_copying copying) mine (congrArg Prod.fst same)
      rw [equal, (tidy.closing worker behind).1] at copying
      cases copying
    exact (congrArg Option.isSome (others _ different)).trans
      (tidy.opened holder copy copying other)
  · intro holder more
    by_cases same : holder = worker
    · subst same
      refine ⟨(tidy.closing holder behind).1, fun other outside => ?_⟩
      simp only [Function.update_self] at outside
      by_cases equal : other = side
      · rw [equal]
        exact closed
      · refine empty ((tidy.closing holder behind).2 other ?_)
        rw [unfinished, List.mem_cons, not_or]
        exact ⟨equal, outside⟩
    · simp only [Function.update_of_ne same] at more ⊢
      rcases tidy.closing holder more with ⟨locked, finished⟩
      exact ⟨locked, fun other outside => empty (finished other outside)⟩
  · intro job opened member other
    have different : (job, other) ≠ (process.job worker, side) := by
      intro same
      have left := List.mem_map_of_mem (f := Prod.fst) member
      rw [show job = process.job worker from congrArg Prod.fst same] at left
      exact (tidy.current worker mine).2 left
    exact (congrArg Option.isSome (others _ different)).trans (tidy.left job opened member other)

end Tidy

/-! ## Steps -/

variable [DecidableEq Worker]

theorem Tidy.close (tidy : process.Tidy) {next : Process Worker File}
    (stepped : process.close worker = some next) : next.Tidy := by
  unfold Process.close at stepped
  split at stepped
  next => cases stepped
  next side sides unfinished =>
    split at stepped
    next empty =>
      cases stepped
      exact tidy.closes unfinished tidy.owned empty fun _ _ => rfl
    next number has =>
      have holds : process.held (process.job worker, side) =
          some (number, (process.job worker, side)) := by
        rw [held, has]
        rfl
      have own := tidy.owned.here holds
      have sound : (process.fault ||
          process.descriptors number != some (process.job worker, side)) = process.fault := by
        rw [own]
        simp
      cases stepped
      dsimp only
      rw [sound]
      refine tidy.closes unfinished (tidy.owned.release holds ?_ ?_) ?_ ?_
      · simp [held]
      · intro target different
        simp [held, Function.update_of_ne different]
      · exact Function.update_self _ _ _
      · exact fun target different => Function.update_of_ne different _ _

theorem opened_of_running {File : Type u} [DecidableEq File] {files after : Files File}
    {loop later : CopyLoop File} {result : Result}
    (stepped : loop.step files result = some (after, .running later)) :
    (CopyFiles.copying later).opened = (CopyFiles.copying loop).opened := by
  have same : later.dest.isSome = loop.dest.isSome := by
    cases turn : loop.turn with
    | read =>
        rcases (CopyLoop.read_cases turn stepped).2 with ⟨_, ended⟩ | ⟨_, ended⟩ | ⟨_, _, _, goes⟩
        · cases ended
        · cases ended
        · cases goes
          rfl
    | write buffer =>
        rcases CopyLoop.write_cases turn stepped with
          ⟨_, _, ended⟩ | ⟨dest, isDest, ⟨_, _, _, _, ended⟩ | ⟨_, _, goes⟩⟩
        · cases ended
        · cases ended
        · cases goes
          rw [isDest]
          rfl
  funext side
  cases side with
  | source => rfl
  | dest => exact same

private theorem take_of_same (index : system.jobIndex = process.system.jobIndex) :
    process.take worker system = { process with system } := by
  rw [take, if_neg (by omega)]

private theorem take_of_next (index : system.jobIndex = process.system.jobIndex + 1) :
    process.take worker system = { process with
      system
      job := Function.update process.job worker process.system.jobIndex } := by
  rw [take, if_pos (by omega)]

theorem Tidy.opening (tidy : process.Tidy) {next : Process Worker File} (side : Side)
    (alone : process.system.Alone worker system)
    (copying : process.system.workers worker = .copying copy) {later : CopyFiles File}
    (after : system.workers worker = .copying later)
    (index : system.jobIndex = process.system.jobIndex) {number : Nat}
    (fresh : copy.opened side = false)
    (same : later.opened = Function.update copy.opened side true)
    (opened : ({ process with system } : Process Worker File).opens
      (process.job worker, side) number = some next) : next.Tidy := by
  unfold Process.opens at opened
  split at opened
  next unused =>
    cases opened
    exact tidy.opens alone copying after index fresh same unused
  next => cases opened

variable [DecidableEq File] {kernel : Kernel File}

theorem copying_cases (state : process.system.workers worker = .copying copy) {result : Result}
    (moved : process.system.step kernel worker result = some system) :
    ∃ files, (∃ later, copy.step kernel process.system.files result = some (files, .running later) ∧
        system.workers worker = .copying later) ∨
      ∃ status, copy.step kernel process.system.files result = some (files, .returned status) ∧
        system.workers worker = .locking := by
  rw [System.step, state] at moved
  dsimp only at moved
  split at moved
  next => cases moved
  next files later stepped =>
    cases moved
    exact ⟨files, .inl ⟨later, stepped, Function.update_self _ _ _⟩⟩
  next files status stepped =>
    cases moved
    exact ⟨files, .inr ⟨status, stepped, Function.update_self _ _ _⟩⟩

theorem Tidy.copies (tidy : process.Tidy) {next : Process Worker File} {result : Result}
    {number : Nat} (state : process.system.workers worker = .copying copy)
    (moved : process.system.step kernel worker result = some system)
    (stepped : ({ process with system } : Process Worker File).follow worker number
      (.copying copy) (system.workers worker) = some next) : next.Tidy := by
  rcases System.step_copying state moved with ⟨alone, index, _⟩
  rcases copying_cases state moved with ⟨files, ⟨later, ran, after⟩ | ⟨status, ran, after⟩⟩
  · rw [after] at stepped
    cases copy with
    | openSource job =>
        simp only [CopyFiles.step, Option.some.injEq, Prod.mk.injEq, Progress.running.injEq] at ran
        rcases ran with ⟨_, rfl⟩
        generalize kernel.openRead process.system.files job.src result = source at after stepped
        cases source with
        | none =>
            cases stepped
            exact tidy.stays alone state after index (funext fun side => by cases side <;> rfl)
        | some source =>
            exact tidy.opening .source alone state after index rfl
              (funext fun side => by cases side <;> rfl) stepped
    | openDest job source =>
        simp only [CopyFiles.step, Option.some.injEq, Prod.mk.injEq, Progress.running.injEq] at ran
        rcases ran with ⟨_, rfl⟩
        generalize (kernel.openWrite process.system.files job.dest result).2 = dest at after stepped
        cases dest with
        | none =>
            cases stepped
            exact tidy.stays alone state after index (funext fun side => by cases side <;> rfl)
        | some dest =>
            exact tidy.opening .dest alone state after index rfl
              (funext fun side => by cases side <;> rfl) stepped
    | stat source dest =>
        have found : ∃ file, source = some file ∧ later = .copying (.start file dest) := by
          simp only [CopyFiles.step] at ran
          split at ran
          next file _ =>
            cases ran
            exact ⟨file, rfl, rfl⟩
          next => cases ran
        rcases found with ⟨file, rfl, rfl⟩
        cases stepped
        refine tidy.stays alone state after index (funext fun side => ?_)
        cases side with
        | source => rfl
        | dest => cases dest <;> rfl
    | copying loop =>
        rcases CopyFiles.copying_cases ran with ⟨further, looped, same⟩ | ⟨_, _, same⟩
        · cases same
          cases stepped
          exact tidy.stays alone state after index (opened_of_running looped)
        · cases same
  · rw [after] at stepped
    cases copy with
    | openSource job => simp [CopyFiles.step] at ran
    | openDest job source => simp [CopyFiles.step] at ran
    | stat source dest =>
        cases stepped
        exact tidy.abandons alone state after index
    | copying loop =>
        cases stepped
        exact tidy.finishes alone state after index

theorem Tidy.call (tidy : process.Tidy) {next : Process Worker File} {result : Result}
    {number : Nat} (stepped : process.call kernel worker result number = some next) :
    next.Tidy := by
  unfold Process.call at stepped
  split at stepped
  next finished =>
    split at stepped
    next => cases stepped
    next system moved =>
      cases state : process.system.workers worker with
      | exited =>
          rw [System.step, state] at moved
          cases moved
      | locking =>
          have ran := moved
          rw [System.step, state] at ran
          dsimp only at ran
          have others : ∀ {jobIndex : Nat} {after : WorkerState File}, process.system.Alone worker
              (System.update { process.system with jobIndex } worker after) :=
            ⟨rfl, fun other different => Function.update_of_ne different _ _⟩
          split at ran
          next =>
            have same := Option.some.inj ran
            have index : system.jobIndex = process.system.jobIndex := same ▸ rfl
            have after : system.workers worker = .exited := same ▸ Function.update_self _ _ _
            rw [take_of_same index, state, after] at stepped
            cases stepped
            exact tidy.leaves (same ▸ others) state finished after index
          next job _ =>
            have same := Option.some.inj ran
            have index : system.jobIndex = process.system.jobIndex + 1 := same ▸ rfl
            have after : system.workers worker = .copying (.openSource job) :=
              same ▸ Function.update_self _ _ _
            rw [take_of_next index, state, after] at stepped
            cases stepped
            exact tidy.takes (same ▸ others) state finished after index
      | copying copy =>
          rcases System.step_copying state moved with ⟨_, index, _⟩
          rw [take_of_same index, state] at stepped
          exact tidy.copies state moved stepped
  next => cases stepped

/-! ## Runs -/

theorem Tidy.step (tidy : process.Tidy) {next : Process Worker File} {event : HandleEvent Worker}
    (stepped : process.step kernel event = some next) : next.Tidy := by
  cases event with
  | call worker result number => exact tidy.call stepped
  | close worker => exact tidy.close stepped

omit [DecidableEq Worker] [DecidableEq File] in
private theorem opens_system {next : Process Worker File} {target : Variable} {number : Nat}
    (opened : process.opens target number = some next) : next.system = process.system := by
  unfold Process.opens at opened
  split at opened
  next =>
    cases opened
    rfl
  next => cases opened

omit [DecidableEq File] in
private theorem follow_system {next : Process Worker File} {number : Nat}
    {before after : WorkerState File}
    (stepped : process.follow worker number before after = some next) :
    next.system = process.system := by
  unfold Process.follow at stepped
  split at stepped
  next => exact opens_system stepped
  next => exact opens_system stepped
  all_goals
    cases stepped
    rfl

omit [DecidableEq File] in
private theorem close_system {next : Process Worker File}
    (stepped : process.close worker = some next) : next.system = process.system := by
  unfold Process.close at stepped
  split at stepped
  next => cases stepped
  next =>
    split at stepped
    all_goals
      cases stepped
      rfl

private theorem step_system {next : Process Worker File} {event : HandleEvent Worker}
    (stepped : process.step kernel event = some next) :
    next.system = process.system ∨
      ∃ worker result, process.system.step kernel worker result = some next.system := by
  cases event with
  | close worker => exact .inl (close_system stepped)
  | call worker result number =>
      change process.call kernel worker result number = some next at stepped
      unfold Process.call at stepped
      split at stepped
      next =>
        split at stepped
        next => cases stepped
        next system moved =>
          have same : next.system = system := follow_system stepped
          exact .inr ⟨worker, result, same ▸ moved⟩
      next => cases stepped

private theorem machine_run {files : Files File} {queue : List CopyJob}
    {events : List (HandleEvent Worker)} {final : Process Worker File}
    (ran : (machine kernel).run events (start files queue) = some final) :
    final.Tidy ∧ ∃ log, System.Run kernel (System.start files queue) log final.system := by
  refine @Machine.run_induction _ _ (machine kernel) _ (fun _ process =>
    process.Tidy ∧ ∃ log, System.Run kernel (System.start files queue) log process.system)
    ⟨.ofStart files queue, [], .start⟩ ?_ _ _ ran
  rintro _ process event next ⟨tidy, log, run⟩ stepped
  refine ⟨tidy.step stepped, ?_⟩
  rcases step_system stepped with same | ⟨worker, result, moved⟩
  · exact ⟨log, same ▸ run⟩
  · exact ⟨_, run.step moved⟩

end Process

open Process in
/-- Whatever numbers `open` gives, each descriptor of the table is in one variable, no copy closes
or uses a descriptor that is not its own, and when the workers are done, what is still open is what
the copies had opened that returned where `fstat` failed. -/
theorem copies_close_own {File : Type u} {Worker : Type v} [DecidableEq File]
    [DecidableEq Worker] {kernel : Kernel File} {files : Files File} {queue : List CopyJob}
    {events : List (HandleEvent Worker)} {final : Process Worker File}
    (ran : (machine kernel).run events (start files queue) = some final) :
    (∃ log, System.Run kernel (System.start files queue) log final.system) ∧
      final.fault = false ∧
      (∀ number target,
        final.descriptors number = some target ↔ final.handles target = some number) ∧
      (∀ worker copy, final.system.workers worker = .copying copy →
        ∀ side, (final.handles (final.job worker, side)).isSome = copy.opened side) ∧
      ((∀ worker, final.system.workers worker = .exited) → ∀ index side,
        (∃ number, final.descriptors number = some (index, side)) ↔
          ∃ opened, (index, opened) ∈ final.abandoned ∧ opened side = true) := by
  rcases machine_run ran with ⟨tidy, run⟩
  have agree : ∀ number target,
      final.descriptors number = some target ↔ final.handles target = some number := by
    intro number target
    rw [tidy.owned.held]
    constructor
    · rintro ⟨holder, holds⟩
      rcases Option.map_eq_some_iff.mp holds with ⟨_, has, equal⟩
      cases equal
      exact has
    · intro has
      exact ⟨target, by rw [held, has]; rfl⟩
  refine ⟨run, tidy.sound, agree, tidy.opened, fun exited index side => ?_⟩
  have idle : ∀ worker, ¬final.Busy worker := by
    intro worker
    refine not_busy (fun copy copying => ?_) ?_
    · rw [exited worker] at copying
      cases copying
    · cases sides : final.closing worker with
      | nil => rfl
      | cons side more =>
          have locking := (tidy.closing worker (by rw [sides]; exact List.cons_ne_nil _ _)).1
          rw [exited worker] at locking
          cases locking
  simp only [agree]
  constructor
  · rintro ⟨number, has⟩
    rcases (tidy.known index side number has).2 with left | ⟨worker, busy, _⟩
    · rcases List.mem_map.mp left with ⟨⟨job, opened⟩, member, rfl⟩
      refine ⟨opened, member, ?_⟩
      rw [← tidy.left job opened member side, has]
      rfl
    · exact absurd busy (idle worker)
  · rintro ⟨opened, member, was⟩
    have some := tidy.left index opened member side
    rw [was] at some
    exact Option.isSome_iff_exists.mp some

/-- Two workers and one job, whose files are opened and then `fstat` fails. -/
theorem copies_close_own_of_abandoned :
    ∃ (events : List (HandleEvent Bool)) (final : Process Bool Path),
      (Process.machine plainKernel).run events
        (Process.start twoFiles [copyJob ['d'] ['b', '/', 'x']]) = some final ∧
      (∀ worker, final.system.workers worker = .exited) ∧ final.fault = false ∧
      final.descriptors 4 = some (0, .dest) ∧
      ∃ opened, (0, opened) ∈ final.abandoned ∧ opened .dest = true := by
  have ran : (Process.machine plainKernel).run
      [.call true (.done 0) 0, .call true (.done 0) 3, .call false (.done 0) 0,
        .call true (.done 0) 4, .call true .failed 0, .call true (.done 0) 0]
      (Process.start twoFiles [copyJob ['d'] ['b', '/', 'x']] : Process Bool Path) = some _ := rfl
  rcases copies_close_own ran with ⟨_, sound, _, _, left⟩
  refine ⟨_, _, ran, ?_, sound, rfl, (left ?_ 0 .dest).mp ⟨4, rfl⟩⟩
  all_goals
    intro worker
    cases worker <;> rfl

end SystemsRepository.Steal
