import SystemsRepository.Foundation.Execution
import SystemsRepository.Steal.Agreement
import SystemsRepository.Steal.Sources

/-! # What the copies report

A copy returns 0 or 1 and `steal.c` counts its copies. The results of the system
calls decide whether the reports are true, and what a failed copy leaves behind.
-/

namespace SystemsRepository.Steal

open SystemsRepository.Foundation

variable {File : Type u} [DecidableEq File] {kernel : Kernel File} {files after : Files File}
  {source dest : File}

/-! ## Calls to their end -/

/-- The files and the status when a program part returns, with these results of its system
calls from the first to the last. -/
def finish {State : Type v}
    (step : Files File → State → Result → Option (Files File × Progress State)) :
    Files File → State → List Result → Option (Files File × Nat)
  | _, _, [] => none
  | files, state, result :: results =>
      match step files state result with
      | none => none
      | some (files, .running state) => finish step files state results
      | some (files, .returned status) => if results = [] then some (files, status) else none

/-- The bytes that the reads of a copy loop deliver: a `write` follows every `read` but the
last one. -/
def delivered : List Result → Nat
  | .done count :: _ :: results => count + delivered results
  | _ => 0

def ReadsToEnd (content : Bytes) (results : List Result) : Prop :=
  results.getLast? = some .failed → content.length ≤ delivered results

structure CopyLoop.Copying (files : Files File) (content : Bytes) (source dest : File)
    (offset : Nat) (loop : CopyLoop File) : Prop where
  state : loop = ⟨⟨source, offset⟩, some ⟨dest, offset⟩, .read⟩
  source : files.bytes source = content
  dest : files dest = some (content.take offset)
  inside : offset ≤ content.length

omit [DecidableEq File] in
theorem finish_cons {State : Type v}
    {step : Files File → State → Result → Option (Files File × Progress State)} {state : State}
    {result : Result} {results : List Result} {status : Nat} :
    finish step files state (result :: results) = some (after, status) ↔
      (∃ middle further, step files state result = some (middle, .running further) ∧
        finish step middle further results = some (after, status)) ∨
      step files state result = some (after, .returned status) ∧ results = [] := by
  rw [finish]
  split
  next stepped => simp [stepped]
  next middle further stepped => simp [stepped]
  next middle other stepped =>
    rw [stepped]
    split
    next ended => simp [ended]
    next more => simp [more]

private theorem CopyLoop.read_running {loop next : CopyLoop File} {result : Result}
    (turn : loop.turn = .read) (stepped : loop.step files result = some (after, .running next)) :
    ∃ count, result = .done count ∧
      count ≤ ((files.bytes loop.source.file).drop loop.source.offset).length ∧ after = files ∧
      next = { loop with
        source := loop.source.advance count
        turn := .write (((files.bytes loop.source.file).drop loop.source.offset).take count) } := by
  rw [CopyLoop.step, turn] at stepped
  cases result with
  | failed => cases stepped
  | done count =>
      simp only [CopyLoop.read] at stepped
      split at stepped
      next possible =>
        split at stepped
        next => cases stepped
        next =>
          cases stepped
          exact ⟨count, rfl, possible.2.1, rfl, rfl⟩
      next => cases stepped

private theorem CopyLoop.write_running {loop next : CopyLoop File} {buffer : Bytes}
    {result : Result} (turn : loop.turn = .write buffer)
    (stepped : loop.step files result = some (after, .running next)) :
    ∃ written, loop.dest = some written ∧ result = .done buffer.length ∧
      after = files.write written.file written.offset buffer ∧
      next = { loop with dest := some (written.advance buffer.length), turn := .read } := by
  rcases CopyLoop.write_cases turn stepped with ⟨_, _, ended⟩ | ⟨written, opened, outcome⟩
  · cases ended
  · rcases outcome with ⟨_, _, _, _, ended⟩ | ⟨whole, same, goesOn⟩
    · cases ended
    · exact ⟨written, opened, whole, same, Progress.running.inj goesOn⟩

private theorem CopyLoop.write_returned {loop : CopyLoop File} {buffer : Bytes} {result : Result}
    {status : Nat} (turn : loop.turn = .write buffer)
    (stepped : loop.step files result = some (after, .returned status)) :
    result ≠ .done buffer.length ∧ status = 1 := by
  rcases CopyLoop.write_cases turn stepped with ⟨failed, _, ended⟩ | ⟨_, _, outcome⟩
  · exact ⟨failed ▸ nofun, Progress.returned.inj ended⟩
  · rcases outcome with ⟨count, short, result, _, ended⟩ | ⟨_, _, goesOn⟩
    · exact ⟨fun whole => short (Result.done.inj (result.symm.trans whole)),
        Progress.returned.inj ended⟩
    · cases goesOn

theorem CopyLoop.Copying.advance {content : Bytes} {offset count : Nat} {loop : CopyLoop File}
    (copying : loop.Copying files content source dest offset) (different : source ≠ dest)
    (possible : count ≤ (content.drop offset).length) :
    CopyLoop.Copying (files.write dest offset ((content.drop offset).take count)) content source
      dest (offset + count)
      ⟨⟨source, offset + count⟩, some ⟨dest, offset + count⟩, .read⟩ where
  state := rfl
  source := by
    rw [Files.bytes, Files.write, Files.store_other _ different]
    exact copying.source
  dest := by
    have length : (content.take offset).length = offset := List.length_take_of_le copying.inside
    have bytes : files.bytes dest = content.take offset := by
      rw [Files.bytes, copying.dest, Option.getD_some]
    rw [Files.write, Files.store_self, bytes]
    calc
      some (writeAt 0 (content.take offset) offset ((content.drop offset).take count)) =
          some (writeAt 0 (content.take offset) (content.take offset).length
            ((content.drop offset).take count)) := by rw [length]
      _ = some (content.take (offset + count)) := by rw [writeAt_end, ← List.take_add]
  inside := by
    have inside := copying.inside
    rw [List.length_drop] at possible
    omega

/-- What a loop that returns 0 has copied: what its reads have delivered, and everything if
the last of them has not failed. -/
theorem CopyLoop.Copying.finish {content : Bytes} (different : source ≠ dest) :
    ∀ {results : List Result} {offset : Nat} {files : Files File} {loop : CopyLoop File},
      loop.Copying files content source dest offset →
      finish CopyLoop.step files loop results = some (after, 0) →
      after dest = some (content.take (offset + delivered results)) ∧
        (results.getLast? ≠ some .failed → content.length ≤ offset + delivered results)
  | [], _, _, _, _, finished => nomatch finished
  | [result], offset, files, loop, copying, finished => by
      rcases finish_cons.mp finished with ⟨_, _, _, more⟩ | ⟨stepped, _⟩
      · cases more
      · have turn : loop.turn = .read := by rw [copying.state]
        rcases CopyLoop.read_cases turn stepped with ⟨rfl, outcome⟩
        have nothing : delivered [result] = 0 := by cases result <;> rfl
        rw [nothing, Nat.add_zero]
        refine ⟨copying.dest, ?_⟩
        intro read
        rcases outcome with ⟨failed, _⟩ | ⟨ended, _⟩ | ⟨_, _, _, running⟩
        · exact absurd (congrArg some failed) read
        · rw [copying.state, copying.source, List.drop_eq_nil_iff] at ended
          exact ended
        · cases running
  | first :: second :: results, offset, files, loop, copying, finished => by
      rcases finish_cons.mp finished with ⟨middle, further, reading, rest⟩ | ⟨_, more⟩
      · have turn : loop.turn = .read := by rw [copying.state]
        rcases CopyLoop.read_running turn reading with ⟨count, rfl, possible, rfl, rfl⟩
        rcases finish_cons.mp rest with ⟨written, next, writing, rest⟩ | ⟨returned, _⟩
        · rcases CopyLoop.write_running rfl writing with ⟨descriptor, opened, rfl, rfl, rfl⟩
          have state := copying.state
          subst state
          cases opened
          rw [copying.source] at possible rest
          have further := copying.advance different possible
          have length : ((content.drop offset).take count).length = count :=
            List.length_take_of_le possible
          simp only [Descriptor.advance, length] at rest
          have copied := further.finish different rest
          rw [delivered, ← Nat.add_assoc]
          cases results with
          | nil => cases rest
          | cons third results =>
              rw [List.getLast?_cons_cons, List.getLast?_cons_cons]
              exact copied
        · cases (CopyLoop.write_returned rfl returned).2
      · cases more

private theorem CopyLoop.finish_unchanged {loop : CopyLoop File} {results : List Result}
    (turn : loop.turn = .read)
    (blocked : loop.dest = none ∨
      (files.bytes loop.source.file).drop loop.source.offset = [])
    (finished : finish CopyLoop.step files loop results = some (after, 0)) : after = files := by
  cases results with
  | nil => cases finished
  | cons first results =>
      rcases finish_cons.mp finished with ⟨middle, further, reading, rest⟩ | ⟨stepped, _⟩
      · rcases CopyLoop.read_cases turn reading with ⟨rfl, outcome⟩
        rcases outcome with ⟨_, ended⟩ | ⟨_, ended⟩ | ⟨buffer, nonempty, taken, running⟩
        · cases ended
        · cases ended
        · cases running
          rcases blocked with noDest | exhausted
          · cases results with
            | nil => cases rest
            | cons second results =>
                rcases finish_cons.mp rest with ⟨written, next, writing, _⟩ | ⟨returned, _⟩
                · rcases CopyLoop.write_running rfl writing with ⟨_, opened, _⟩
                  rw [noDest] at opened
                  cases opened
                · cases (CopyLoop.write_returned rfl returned).2
          · rw [exhausted, List.prefix_nil] at taken
            exact absurd taken nonempty
      · exact (CopyLoop.read_cases turn stepped).1

/-! ## Copies between paths -/

/-- `steal.c` opens the destination and calls `copy_files`. -/
def openedCopy (kernel : Kernel File) (files : Files File) (source : File) (path : Path) :
    List Result → Option (Files File × Nat)
  | [] => none
  | opened :: results =>
      match kernel.openWrite files path opened with
      | (files, dest) => finish CopyLoop.step files (CopyLoop.start source dest) results

/-- The destination holds exactly the bytes that the source had. -/
def Complete (kernel : Kernel File) (files : Files File) (source : File) (path : Path)
    (after : Files File) : Prop :=
  (kernel.locate path).bind after = files source

/-- A report of success is true: nothing was left to read when the last `read` failed, and the
destination is open and another file than the source. Otherwise it is true by accident. -/
def TrueReport (kernel : Kernel File) (files : Files File) (source : File) (path : Path)
    (opened : Result) (results : List Result) : Prop :=
  match (kernel.openWrite files path opened).2 with
  | some dest =>
      if source = dest then files.bytes source = []
      else ReadsToEnd (files.bytes source) results
  | none => (kernel.locate path).bind files = files source

theorem openedCopy_complete_iff {path : Path} {opened : Result} {results : List Result}
    (exist : (files source).isSome)
    (finished : openedCopy kernel files source path (opened :: results) = some (after, 0)) :
    Complete kernel files source path after ↔
      TrueReport kernel files source path opened results := by
  rcases Option.isSome_iff_exists.mp exist with ⟨content, holds⟩
  have bytes : files.bytes source = content := by rw [Files.bytes, holds, Option.getD_some]
  cases outcome : kernel.openWrite files path opened with
  | mk truncated target =>
      rw [openedCopy, outcome] at finished
      rw [Complete, TrueReport, outcome]
      rcases Kernel.openWrite_cases outcome with ⟨dest, located, rfl, rfl⟩ | ⟨rfl, rfl⟩
      · dsimp only at finished ⊢
        rw [located, Option.bind_some]
        by_cases same : source = dest
        · subst same
          have emptied : (files.store source []).bytes source = [] := by
            rw [Files.bytes, Files.store_self, Option.getD_some]
          have unchanged := CopyLoop.finish_unchanged rfl
            (.inr (by rw [CopyLoop.start, emptied, List.drop_nil])) finished
          rw [if_pos rfl, unchanged, Files.store_self, bytes, holds, Option.some.injEq]
          exact eq_comm
        · have copying : CopyLoop.Copying (files.store dest []) content source dest 0
              (CopyLoop.start source (some dest)) :=
            { state := rfl
              source := by rw [Files.bytes, Files.store_other _ same, holds, Option.getD_some]
              dest := Files.store_self _ _ _
              inside := Nat.zero_le _ }
          rcases copying.finish same finished with ⟨copied, toEnd⟩
          rw [Nat.zero_add] at copied toEnd
          rw [if_neg same, copied, holds, bytes, Option.some.injEq, List.take_eq_self_iff,
            ReadsToEnd]
          constructor
          · exact fun whole _ => whole
          · intro reads
            by_cases failed : results.getLast? = some .failed
            · exact reads failed
            · exact toEnd failed
      · have unchanged := CopyLoop.finish_unchanged rfl (.inl rfl) finished
        rw [unchanged]

/-! ## `copy_files` of `threaded_steal.c` -/

private theorem CopyFiles.finish_copying {results : List Result} :
    ∀ {files : Files File} {loop : CopyLoop File},
      finish (CopyFiles.step kernel) files (.copying loop) results =
        finish CopyLoop.step files loop results := by
  induction results with
  | nil => exact fun {_ _} => rfl
  | cons result results induction =>
      intro files loop
      rw [finish, finish, CopyFiles.step]
      cases loop.step files result with
      | none => rfl
      | some outcome =>
          rcases outcome with ⟨middle, next | status⟩
          · exact induction
          · rfl

omit [DecidableEq File] in
private theorem Kernel.openRead_exists {path : Path} {result : Result}
    (opened : kernel.openRead files path result = some source) : (files source).isSome := by
  cases result with
  | failed => cases opened
  | done count => exact (Option.filter_eq_some_iff.mp opened).2

/-- The calls in front of the copy loop: two `open`s and the `fstat` of the source, which
fails without one. -/
theorem CopyFiles.finish_cases {job : CopyJob} {opened created : Result}
    {results : List Result} {status : Nat} :
    finish (CopyFiles.step kernel) files (.openSource job) (opened :: created :: results) =
        some (after, status) →
      (∃ source stat copies, kernel.openRead files job.src opened = some source ∧
        results = stat :: copies ∧
        openedCopy kernel files source job.dest (created :: copies) = some (after, status)) ∨
      (∃ stat, results = [stat]) ∧ status = 1 ∧
        after = (kernel.openWrite files job.dest created).1 := by
  intro finished
  cases results with
  | nil => cases finished
  | cons stat copies =>
      change finish (CopyFiles.step kernel) (kernel.openWrite files job.dest created).1
        (.stat (kernel.openRead files job.src opened) (kernel.openWrite files job.dest created).2)
        (stat :: copies) = some (after, status) at finished
      rcases finish_cons.mp finished with ⟨middle, further, stepped, rest⟩ | ⟨stepped, rfl⟩
      · cases source : kernel.openRead files job.src opened with
        | none =>
            rw [source] at stepped
            cases stepped
        | some file =>
            cases stat with
            | failed =>
                rw [source] at stepped
                cases stepped
            | done count =>
                rw [source] at stepped
                cases stepped
                rw [CopyFiles.finish_copying] at rest
                exact .inl ⟨file, _, copies, rfl, rfl, rest⟩
      · refine .inr ⟨⟨stat, rfl⟩, ?_⟩
        cases source : kernel.openRead files job.src opened with
        | none =>
            rw [source] at stepped
            cases stepped
            exact ⟨rfl, rfl⟩
        | some file =>
            cases stat with
            | failed =>
                rw [source] at stepped
                cases stepped
                exact ⟨rfl, rfl⟩
            | done count =>
                rw [source] at stepped
                cases stepped

/-! ## The count of `steal.c` -/

/-- What `copy_files` returns, if it returns with this call. -/
def Stealing.copyStatus (stealing : Stealing File) (result : Result) : Option Nat :=
  match stealing.state with
  | .copying loop =>
      match loop.step stealing.files result with
      | some (_, .returned status) => some status
      | _ => none
  | _ => none

def stealMachine (kernel : Kernel File) (folder : Path) :
    Foundation.Machine (Stealing File × Nat) Result where
  execute result state :=
    (state.1.step kernel folder result).map fun next =>
      (next, if state.1.copyStatus result = some 0 then state.2 + 1 else state.2)

def Stealing.WritesWhole (stealing : Stealing File) (result : Result) : Prop :=
  match stealing.state with
  | .copying { turn := .write buffer, .. } => result = .done buffer.length
  | _ => True

section Counting

variable {folder : Path} {stealing next : Stealing File} {result : Result}

private theorem Stealing.step_success (stepped : stealing.step kernel folder result = some next) :
    next.success =
      if (stealing.copyStatus result).isSome then stealing.success + 1 else stealing.success := by
  rcases stealing with ⟨files, remaining, state, success⟩
  unfold Stealing.copyStatus
  cases state with
  | copying loop =>
      simp only [Stealing.step] at stepped
      split at stepped
      next => cases stepped
      next running =>
        cases stepped
        simp [running]
      next returned =>
        cases stepped
        simp [returned]
  | openSource =>
      cases remaining with
      | nil => cases stepped; rfl
      | cons => cases stepped; rfl
  | stat source =>
      cases remaining with
      | nil => cases stepped
      | cons path rest =>
          simp only [Stealing.step] at stepped
          split at stepped
          · split at stepped
            · cases stepped; rfl
            · cases stepped; rfl
          · cases stepped; rfl
  | openDest source =>
      cases remaining with
      | nil => cases stepped
      | cons => cases stepped; rfl
  | returned status => cases remaining <;> cases stepped

private theorem Stealing.copyStatus_eq_zero_iff {status : Nat}
    (returned : stealing.copyStatus result = some status) :
    status = 0 ↔ stealing.WritesWhole result := by
  rcases stealing with ⟨files, remaining, state, success⟩
  cases state with
  | copying loop =>
      rcases loop with ⟨source, dest, turn⟩
      simp only [Stealing.copyStatus] at returned
      split at returned
      next stepped =>
        cases returned
        cases turn with
        | read =>
            refine iff_of_true ?_ trivial
            rcases CopyLoop.read_cases rfl stepped with ⟨_, outcome⟩
            rcases outcome with ⟨_, ended⟩ | ⟨_, ended⟩ | ⟨_, _, _, running⟩
            · cases ended; rfl
            · cases ended; rfl
            · cases running
        | write buffer =>
            rcases CopyLoop.write_returned rfl stepped with ⟨short, failed⟩
            rw [failed]
            exact iff_of_false (by decide) short
      next => cases returned
  | openSource => cases returned
  | stat source => cases returned
  | openDest source => cases returned
  | returned status => cases returned

private theorem Stealing.copyStatus_of_short
    (stepped : stealing.step kernel folder result = some next)
    (short : ¬stealing.WritesWhole result) : stealing.copyStatus result = some 1 := by
  rcases stealing with ⟨files, remaining, state, success⟩
  cases state with
  | copying loop =>
      rcases loop with ⟨source, dest, turn⟩
      cases turn with
      | read => exact absurd trivial short
      | write buffer =>
          simp only [Stealing.step] at stepped
          simp only [Stealing.copyStatus]
          split at stepped
          next => cases stepped
          next running =>
            rcases CopyLoop.write_running rfl running with ⟨_, _, whole, _⟩
            exact absurd whole short
          next returned =>
            rw [returned, (CopyLoop.write_returned rfl returned).2]
  | openSource => exact absurd trivial short
  | stat source => exact absurd trivial short
  | openDest source => exact absurd trivial short
  | returned status => exact absurd trivial short

private theorem success_counted_iff (kernel : Kernel File) (folder : Path) (files : Files File)
    (sources : List Path) {results : List Result} {final : Stealing File × Nat}
    (ran : (stealMachine kernel folder).run results (Stealing.start files sources, 0) =
      some final) :
    (stealMachine kernel folder).Always (fun state => state.1.success = state.2)
        (Stealing.start files sources, 0) results ↔
      (stealMachine kernel folder).Permits (fun state result => state.1.WritesWhole result)
        (Stealing.start files sources, 0) results := by
  apply Machine.always_iff_permits _ (fun state => state.1.success = state.2)
    (fun _ same => same) ?_ ?_ rfl ran
  · intro state result next same executed whole
    rcases Option.map_eq_some_iff.mp executed with ⟨after, stepped, rfl⟩
    have counted := Stealing.step_success stepped
    cases status : state.1.copyStatus result with
    | none =>
        rw [status] at counted
        simp [counted, same]
    | some value =>
        rw [status] at counted
        have zero := (Stealing.copyStatus_eq_zero_iff status).mpr whole
        simp [counted, same, zero]
  · intro state result next same executed short
    rcases Option.map_eq_some_iff.mp executed with ⟨after, stepped, rfl⟩
    have counted := Stealing.step_success stepped
    have status := Stealing.copyStatus_of_short stepped short
    rw [status] at counted
    simp [counted, same, status]

private theorem stealMachine_copy {path : Path} {rest : List Path} {status success copied : Nat} :
    ∀ {results : List Result} {files : Files File} {loop : CopyLoop File},
      finish CopyLoop.step files loop results = some (after, status) →
      (stealMachine kernel folder).run results
          (⟨files, path :: rest, .copying loop, success⟩, copied) =
        some (⟨after, rest, .openSource, success + 1⟩,
          if status = 0 then copied + 1 else copied)
  | [], _, _, finished => nomatch finished
  | result :: results, files, loop, finished => by
      rcases finish_cons.mp finished with ⟨middle, further, stepped, more⟩ | ⟨stepped, rfl⟩
      · have executed : (stealMachine kernel folder).execute result
            (⟨files, path :: rest, .copying loop, success⟩, copied) =
            some (⟨middle, path :: rest, .copying further, success⟩, copied) := by
          simp [stealMachine, Stealing.step, Stealing.copyStatus, stepped]
        rw [Machine.run, executed, Option.bind_some]
        exact stealMachine_copy more
      · simp [Machine.run, stealMachine, Stealing.step, Stealing.copyStatus, stepped]

end Counting

/-- When a copy that returned 0 is complete, in both programs, and when the count of `steal.c`
is the number of copies that returned 0. -/
theorem reported_copies_iff (kernel : Kernel File) :
    (∀ files source path opened results after, (files source).isSome →
      openedCopy kernel files source path (opened :: results) = some (after, 0) →
      (Complete kernel files source path after ↔
        TrueReport kernel files source path opened results)) ∧
    (∀ files job opened created results after,
      finish (CopyFiles.step kernel) files (.openSource job) (opened :: created :: results) =
        some (after, 0) →
      ∃ source stat copies, kernel.openRead files job.src opened = some source ∧
        results = stat :: copies ∧
        (Complete kernel files source job.dest after ↔
          TrueReport kernel files source job.dest created copies)) ∧
    ∀ folder files sources results final,
      (stealMachine kernel folder).run results (Stealing.start files sources, 0) = some final →
      ((stealMachine kernel folder).Always (fun state => state.1.success = state.2)
          (Stealing.start files sources, 0) results ↔
        (stealMachine kernel folder).Permits (fun state result => state.1.WritesWhole result)
          (Stealing.start files sources, 0) results) := by
  refine ⟨?_, ?_, ?_⟩
  · intro files source path opened results after exist finished
    exact openedCopy_complete_iff exist finished
  · intro files job opened created results after finished
    rcases CopyFiles.finish_cases finished with
      ⟨source, stat, copies, isOpen, same, copied⟩ | ⟨_, failed, _⟩
    · exact ⟨source, stat, copies, isOpen, same,
        openedCopy_complete_iff (Kernel.openRead_exists isOpen) copied⟩
    · cases failed
  · intro folder files sources results final ran
    exact success_counted_iff kernel folder files sources ran

/-- The read fails and nothing has been copied; both copies return 0. -/
theorem failed_read_reported :
    (∃ after, finish (CopyFiles.step plainKernel) twoFiles
        (.openSource ⟨['a', '/', 'x'], ['d', '/', 'x']⟩)
        [.done 0, .done 0, .done 0, .failed] = some (after, 0) ∧
      openedCopy plainKernel twoFiles ['a', '/', 'x'] ['d', '/', 'x'] [.done 0, .failed] =
        some (after, 0) ∧
      after ['d', '/', 'x'] = some [] ∧ twoFiles ['a', '/', 'x'] = some [1] ∧
      ¬Complete plainKernel twoFiles ['a', '/', 'x'] ['d', '/', 'x'] after) ∧
    ∃ final, (stealMachine plainKernel ['d']).run
        [.done 0, .done 0, .done 0, .done 1, .failed, .done 0]
        (Stealing.start twoFiles [['a', '/', 'x']], 0) = some final ∧
      final.1.success = 1 ∧ final.2 = 0 := by
  refine ⟨⟨twoFiles.store ['d', '/', 'x'] [], rfl, rfl, rfl, rfl, ?_⟩, _, rfl, rfl, rfl⟩
  intro complete
  cases complete

/-! ## Copies that fail at once -/

private theorem Files.store_eq_self_iff {bytes : Bytes} :
    files.store dest bytes = files ↔ files dest = some bytes := by
  constructor
  · intro same
    rw [← same, Files.store_self]
  · intro holds
    funext file
    by_cases same : file = dest
    · rw [same, Files.store_self, holds]
    · rw [Files.store_other _ same]

private theorem CopyFiles.finish_unreadable {job : CopyJob} {opened created : Result}
    {results : List Result} {status : Nat}
    (unreadable : kernel.openRead files job.src opened = none)
    (finished : finish (CopyFiles.step kernel) files (.openSource job)
      (opened :: created :: results) = some (after, status)) :
    status = 1 ∧ after = (kernel.openWrite files job.dest created).1 := by
  rcases CopyFiles.finish_cases finished with ⟨source, _, _, isOpen, _⟩ | ⟨_, failed, left⟩
  · rw [unreadable] at isOpen
    cases isOpen
  · exact ⟨failed, left⟩

private theorem Stealing.unreadable_stops {folder : Path} {stealing next final : Stealing File}
    {path : Path} {rest : List Path} {opened stat : Result}
    (state : stealing.state = .openSource) (remaining : stealing.remaining = path :: rest)
    (unreadable : kernel.openRead stealing.files path opened = none)
    (first : stealing.step kernel folder opened = some next)
    (second : next.step kernel folder stat = some final) :
    final.state = .returned 1 ∧ final.files = stealing.files := by
  rcases stealing with ⟨files, _, _, success⟩
  cases state
  cases remaining
  cases first
  simp only [Stealing.step, unreadable] at second
  split at second
  · cases second
    exact ⟨rfl, rfl⟩
  · cases second
    exact ⟨rfl, rfl⟩

/-- Where the source cannot be opened, `copy_files` of `threaded_steal.c` fails and leaves all
files alone exactly when it does not open the destination or finds it empty; `steal.c` always
leaves them alone. -/
theorem unreadable_source_iff (kernel : Kernel File) :
    (∀ files job opened created results after status,
      kernel.openRead files job.src opened = none →
      finish (CopyFiles.step kernel) files (.openSource job) (opened :: created :: results) =
        some (after, status) →
      (status ≠ 0 ∧ after = files ↔
        ∀ dest, (kernel.openWrite files job.dest created).2 = some dest →
          files dest = some [])) ∧
    ∀ folder (stealing next final : Stealing File) path rest opened stat,
      stealing.state = .openSource → stealing.remaining = path :: rest →
      kernel.openRead stealing.files path opened = none →
      stealing.step kernel folder opened = some next →
      next.step kernel folder stat = some final →
      final.state = .returned 1 ∧ final.files = stealing.files := by
  refine ⟨?_, fun _ _ _ _ _ _ _ _ => Stealing.unreadable_stops⟩
  intro files job opened created results after status unreadable finished
  rcases CopyFiles.finish_unreadable unreadable finished with ⟨rfl, rfl⟩
  cases outcome : kernel.openWrite files job.dest created with
  | mk truncated target =>
      rcases Kernel.openWrite_cases outcome with ⟨dest, _, rfl, rfl⟩ | ⟨rfl, rfl⟩
      · simp only [ne_eq, Nat.one_ne_zero, not_false_eq_true, true_and, Option.some.injEq,
          forall_eq', Files.store_eq_self_iff]
      · simp

/-- The source is missing, and the destination is emptied. -/
theorem missing_source_empties_destination :
    ∃ after, plainKernel.openRead twoFiles ['c', '/', 'z'] (.done 0) = none ∧
      finish (CopyFiles.step plainKernel) twoFiles
        (.openSource ⟨['c', '/', 'z'], ['b', '/', 'y']⟩) [.done 0, .done 0, .failed] =
          some (after, 1) ∧
      twoFiles ['b', '/', 'y'] = some [2] ∧ after ['b', '/', 'y'] = some [] :=
  ⟨twoFiles.store ['b', '/', 'y'] [], rfl, rfl, rfl, rfl⟩

end SystemsRepository.Steal
