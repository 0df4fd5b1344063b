import SystemsRepository.Foundation.Endings
import SystemsRepository.Steal.Files
import Mathlib.Algebra.BigOperators.Group.Finset.Basic
import Mathlib.Algebra.Order.BigOperators.Group.List
import Mathlib.Algebra.Order.Ring.Nat

/-! # Copiers that share files

Agents take tasks from a list. For each they empty the destination file, read the
source piece by piece and write the pieces at their own offset. Nothing keeps two
agents from working on one file.
-/

namespace SystemsRepository.Steal

open SystemsRepository.Foundation

structure Task (File : Type u) where
  source : File
  dest : File
  deriving DecidableEq

/-- What an agent is doing: it has copied `offset` bytes and has the next ones, if
any, in its buffer. -/
inductive Activity (File : Type u)
  | idle
  | opening (task : Task File)
  | copying (task : Task File) (offset : Nat) (buffer : Bytes)

structure Pool (Agent : Type v) (File : Type u) where
  files : Files File
  waiting : List (Task File)
  activity : Agent → Activity File

variable {Agent : Type v} {File : Type u}

/-! ## Partly written files -/

def Pool.Pending (pool : Pool Agent File) (file : File) (position : Nat) : Prop :=
  ∃ agent task offset buffer, pool.activity agent = .copying task offset buffer ∧
    task.dest = file ∧ offset ≤ position

def Pool.Partial (pool : Pool Agent File) (file : File) (content : Bytes) : Prop :=
  ∃ bytes, pool.files file = some bytes ∧ bytes.length ≤ content.length ∧
    ∀ position < content.length,
      bytes[position]? = content[position]? ∨ pool.Pending file position

private theorem Pool.Partial.of_same {pool after : Pool Agent File} {file : File} {content : Bytes}
    (part : pool.Partial file content) (same : after.files file = pool.files file)
    (kept : ∀ position < content.length, pool.Pending file position →
      after.Pending file position) : after.Partial file content := by
  rcases part with ⟨bytes, holds, short, covered⟩
  refine ⟨bytes, same.trans holds, short, fun position inside => ?_⟩
  exact (covered position inside).imp_right (kept position inside)

theorem Pool.Partial.bytes_eq_nil {pool : Pool Agent File} {file : File}
    (part : pool.Partial file []) : pool.files.bytes file = [] := by
  rcases part with ⟨bytes, holds, short, _⟩
  rw [Files.bytes, holds]
  exact List.eq_nil_of_length_eq_zero (Nat.le_zero.mp short)

theorem Pool.Partial.complete {pool : Pool Agent File} {file : File} {content : Bytes}
    (part : pool.Partial file content) (idle : ∀ agent, pool.activity agent = .idle) :
    pool.files file = some content := by
  rcases part with ⟨bytes, holds, short, covered⟩
  have same : bytes = content := by
    apply List.ext_getElem?
    intro position
    by_cases inside : position < content.length
    · rcases covered position inside with equal | ⟨agent, _, _, _, copying, _⟩
      · exact equal
      · rw [idle agent] at copying
        cases copying
    · rw [List.getElem?_eq_none (Nat.not_lt.mp inside), List.getElem?_eq_none (by omega)]
  rw [holds, same]

section Agents

variable [DecidableEq Agent]

def Pool.act (pool : Pool Agent File) (agent : Agent) (activity : Activity File) :
    Pool Agent File :=
  { pool with activity := Function.update pool.activity agent activity }

theorem Pool.act_self (pool : Pool Agent File) (agent : Agent) (activity : Activity File) :
    (pool.act agent activity).activity agent = activity := Function.update_self _ _ _

private theorem Pool.act_other (pool : Pool Agent File) {agent other : Agent}
    (different : other ≠ agent) (activity : Activity File) :
    (pool.act agent activity).activity other = pool.activity other :=
  Function.update_of_ne different _ _

private theorem Pool.Pending.of_act {pool after : Pool Agent File} {file : File} {position : Nat}
    {agent : Agent} {activity : Activity File} (pending : pool.Pending file position)
    (acts : after.activity = (pool.act agent activity).activity)
    (kept : ∀ task offset buffer, pool.activity agent = .copying task offset buffer →
      task.dest = file → offset ≤ position →
      ∃ reached next, activity = .copying task reached next ∧ reached ≤ position) :
    after.Pending file position := by
  rcases pending with ⟨other, task, offset, buffer, copying, dest, reached⟩
  by_cases same : other = agent
  · subst same
    rcases kept task offset buffer copying dest reached with ⟨next, left, copies, bound⟩
    exact ⟨other, task, next, left, by rw [acts, Pool.act_self, copies], dest, bound⟩
  · exact ⟨other, task, offset, buffer, by rw [acts, Pool.act_other _ same, copying], dest,
      reached⟩

end Agents

variable [DecidableEq Agent] [DecidableEq File]

inductive Pool.Step : Pool Agent File → Pool Agent File → Prop
  | take {pool : Pool Agent File} {agent : Agent} {task : Task File} {rest : List (Task File)}
      (idle : pool.activity agent = .idle) (waiting : pool.waiting = task :: rest) :
      Step pool (Pool.act { pool with waiting := rest } agent (.opening task))
  | truncate {pool : Pool Agent File} {agent : Agent} {task : Task File}
      (opening : pool.activity agent = .opening task) :
      Step pool (Pool.act { pool with files := pool.files.store task.dest [] } agent
        (.copying task 0 []))
  | read {pool : Pool Agent File} {agent : Agent} {task : Task File} {offset : Nat}
      {buffer : Bytes} (copying : pool.activity agent = .copying task offset [])
      (nonempty : buffer ≠ [])
      (available : buffer <+: (pool.files.bytes task.source).drop offset) :
      Step pool (pool.act agent (.copying task offset buffer))
  | write {pool : Pool Agent File} {agent : Agent} {task : Task File} {offset : Nat}
      {buffer : Bytes} (copying : pool.activity agent = .copying task offset buffer)
      (nonempty : buffer ≠ []) :
      Step pool (Pool.act { pool with files := pool.files.write task.dest offset buffer } agent
        (.copying task (offset + buffer.length) []))
  | finish {pool : Pool Agent File} {agent : Agent} {task : Task File} {offset : Nat}
      (copying : pool.activity agent = .copying task offset [])
      (exhausted : (pool.files.bytes task.source).drop offset = []) :
      Step pool (pool.act agent .idle)

/-! ## What is to be copied -/

/-- A file that is copied onto itself is emptied before it is read. -/
def Task.content (initial : Files File) (task : Task File) : Bytes :=
  if task.source = task.dest then [] else initial.bytes task.source

/-- Tasks with one destination copy the same bytes, and only empty files are both
read and written. -/
structure Compatible (initial : Files File) (tasks : List (Task File)) : Prop where
  sameDest : ∀ task ∈ tasks, ∀ other ∈ tasks, task.dest = other.dest →
    task.content initial = other.content initial
  readWritten : ∀ task ∈ tasks, ∀ other ∈ tasks, task.source = other.dest →
    task.content initial = [] ∧ other.content initial = []

def copied (initial : Files File) (tasks : List (Task File)) : Files File := fun file =>
  match tasks.find? fun task => task.dest = file with
  | some task => some (task.content initial)
  | none => initial file

/-! ## Whose files are changed -/

def Activity.Belongs (tasks : List (Task File)) : Activity File → Prop
  | .idle => True
  | .opening task => task ∈ tasks
  | .copying task _ _ => task ∈ tasks

structure Pool.Owned (initial : Files File) (tasks : List (Task File)) (pool : Pool Agent File) :
    Prop where
  waiting : ∀ task ∈ pool.waiting, task ∈ tasks
  activity : ∀ agent, (pool.activity agent).Belongs tasks
  others : ∀ file, (∀ task ∈ tasks, task.dest ≠ file) → pool.files file = initial file

variable {initial : Files File} {tasks : List (Task File)} {pool after : Pool Agent File}

omit [DecidableEq File] in
private theorem Pool.belongs_of_act {agent : Agent} {activity : Activity File}
    (acts : after.activity = (pool.act agent activity).activity)
    (own : activity.Belongs tasks) (belongs : ∀ other, (pool.activity other).Belongs tasks)
    (other : Agent) : (after.activity other).Belongs tasks := by
  rw [acts]
  by_cases same : other = agent
  · rw [same, Pool.act_self]
    exact own
  · rw [Pool.act_other _ same]
    exact belongs other

theorem Pool.Step.owned (owned : pool.Owned initial tasks) (stepped : pool.Step after) :
    after.Owned initial tasks := by
  have changed : ∀ task ∈ tasks, ∀ bytes file, (∀ other ∈ tasks, other.dest ≠ file) →
      pool.files.store task.dest bytes file = initial file := by
    intro task member bytes file notDest
    rw [Files.store_other _ (notDest task member).symm]
    exact owned.others file notDest
  cases stepped with
  | @take agent taken rest idle waiting =>
      have inTasks := owned.waiting
      rw [waiting] at inTasks
      exact ⟨fun task member => inTasks task (List.mem_cons_of_mem _ member),
        Pool.belongs_of_act rfl (inTasks taken List.mem_cons_self) owned.activity, owned.others⟩
  | @truncate agent opened opening =>
      have own := owned.activity agent
      rw [opening] at own
      exact ⟨owned.waiting, Pool.belongs_of_act rfl own owned.activity, changed opened own _⟩
  | @read agent reading offset buffer copying nonempty available =>
      have own := owned.activity agent
      rw [copying] at own
      exact ⟨owned.waiting, Pool.belongs_of_act rfl own owned.activity, owned.others⟩
  | @write agent writing offset buffer copying nonempty =>
      have own := owned.activity agent
      rw [copying] at own
      exact ⟨owned.waiting, Pool.belongs_of_act rfl own owned.activity, changed writing own _⟩
  | @finish agent finished offset copying exhausted =>
      exact ⟨owned.waiting, Pool.belongs_of_act rfl trivial owned.activity, owned.others⟩

/-! ## The invariant -/

def Pool.Carries (pool : Pool Agent File) (initial : Files File) : Activity File → Prop
  | .copying task offset buffer =>
      pool.Partial task.dest (task.content initial) ∧
        buffer <+: (task.content initial).drop offset ∧
        offset ≤ (task.content initial).length
  | _ => True

structure Pool.Consistent (initial : Files File) (tasks : List (Task File))
    (pool : Pool Agent File) : Prop where
  owned : pool.Owned initial tasks
  carries : ∀ agent, pool.Carries initial (pool.activity agent)
  dests : ∀ task ∈ tasks, pool.files task.dest = initial task.dest ∨
    pool.Partial task.dest (task.content initial)
  begun : ∀ task ∈ tasks, task ∈ pool.waiting ∨ (∃ agent, pool.activity agent = .opening task) ∨
    pool.Partial task.dest (task.content initial)

omit [DecidableEq Agent] in
theorem Pool.Consistent.copying (consistent : pool.Consistent initial tasks) {agent : Agent}
    {task : Task File} {offset : Nat} {buffer : Bytes}
    (copying : pool.activity agent = .copying task offset buffer) :
    task ∈ tasks ∧ pool.Partial task.dest (task.content initial) ∧
      buffer <+: (task.content initial).drop offset ∧
      offset ≤ (task.content initial).length := by
  have belongs := consistent.owned.activity agent
  have carries := consistent.carries agent
  rw [copying] at belongs carries
  exact ⟨belongs, carries⟩

omit [DecidableEq Agent] in
private theorem Pool.Consistent.bytes_source (compatible : Compatible initial tasks)
    (consistent : pool.Consistent initial tasks) {task : Task File} (member : task ∈ tasks)
    (emptied : pool.Partial task.dest (task.content initial)) :
    pool.files.bytes task.source = task.content initial := by
  by_cases itself : task.source = task.dest
  · have nothing : task.content initial = [] := if_pos itself
    rw [nothing] at emptied ⊢
    rw [itself]
    exact emptied.bytes_eq_nil
  · have content : task.content initial = initial.bytes task.source := if_neg itself
    by_cases written : ∃ other ∈ tasks, task.source = other.dest
    · rcases written with ⟨other, otherMember, source⟩
      have nothing := compatible.readWritten task member other otherMember source
      rcases consistent.dests other otherMember with untouched | part
      · rw [content, Files.bytes, source, untouched]
        rfl
      · rw [nothing.2] at part
        rw [nothing.1, source]
        exact part.bytes_eq_nil
    · have untouched := consistent.owned.others task.source fun other otherMember same =>
        written ⟨other, otherMember, same.symm⟩
      rw [content, Files.bytes, untouched]
      rfl

private theorem partial_of_truncate (pool : Pool Agent File) {agent : Agent} {task : Task File}
    (content : Bytes)
    (acts : after.activity = (pool.act agent (.copying task 0 [])).activity)
    (files : after.files = pool.files.store task.dest []) :
    after.Partial task.dest content := by
  refine ⟨[], by rw [files, Files.store_self], Nat.zero_le _, fun position _ => .inr ?_⟩
  exact ⟨agent, task, 0, [], by rw [acts, Pool.act_self], rfl, Nat.zero_le _⟩

private theorem partial_of_write {agent : Agent} {task : Task File} {offset : Nat}
    {buffer content : Bytes} (part : pool.Partial task.dest content)
    (copying : pool.activity agent = .copying task offset buffer)
    (right : buffer <+: content.drop offset) (inside : offset ≤ content.length)
    (acts : after.activity =
      (pool.act agent (.copying task (offset + buffer.length) [])).activity)
    (files : after.files = pool.files.write task.dest offset buffer) :
    after.Partial task.dest content := by
  rcases part with ⟨bytes, holds, short, covered⟩
  have room : offset + buffer.length ≤ content.length := by
    have bound := right.length_le
    rw [List.length_drop] at bound
    omega
  refine ⟨writeAt 0 bytes offset buffer, ?_, writeAt_length_le room short, ?_⟩
  · rw [files, Files.write, Files.store_self, Files.bytes, holds]
    rfl
  · intro position insideContent
    rcases Nat.lt_or_ge position offset with before | reached
    · rcases covered position insideContent with equal | pending
      · have insideBytes : position < bytes.length := by
          rw [List.getElem?_eq_getElem insideContent] at equal
          exact (List.getElem?_eq_some_iff.mp equal).1
        exact .inl ((writeAt_getElem?_lt before insideBytes).trans equal)
      · apply Or.inr
        apply pending.of_act acts
        intro other start next copies _ bound
        rw [copying] at copies
        cases copies
        omega
    · rcases Nat.lt_or_ge position (offset + buffer.length) with written | behind
      · rcases right with ⟨rest, piece⟩
        have found : content[position]? = buffer[position - offset]? := by
          rw [← List.getElem?_append_left (by omega : position - offset < buffer.length), piece,
            List.getElem?_drop]
          congr 1
          omega
        exact .inl ((writeAt_getElem?_written reached written).trans found.symm)
      · rcases covered position insideContent with equal | pending
        · exact .inl ((writeAt_getElem?_ge behind).trans equal)
        · apply Or.inr
          apply pending.of_act acts
          intro other start next copies _ _
          rw [copying] at copies
          cases copies
          exact ⟨_, _, rfl, behind⟩

private theorem Pool.Step.partial_kept (compatible : Compatible initial tasks)
    (consistent : pool.Consistent initial tasks) (stepped : pool.Step after)
    {task : Task File} (member : task ∈ tasks)
    (part : pool.Partial task.dest (task.content initial)) :
    after.Partial task.dest (task.content initial) := by
  cases stepped with
  | @take agent taken rest idle waiting =>
      refine part.of_same rfl ?_
      intro position _ pending
      apply pending.of_act rfl
      intro other offset buffer copies
      rw [idle] at copies
      cases copies
  | @truncate agent opened opening =>
      by_cases same : task.dest = opened.dest
      · rw [same]
        exact partial_of_truncate pool _ rfl rfl
      · refine part.of_same (Files.store_other _ same _) ?_
        intro position _ pending
        apply pending.of_act rfl
        intro other offset buffer copies
        rw [opening] at copies
        cases copies
  | @read agent reading offset buffer copying nonempty available =>
      refine part.of_same rfl ?_
      intro position _ pending
      apply pending.of_act rfl
      intro other start next copies _ bound
      rw [copying] at copies
      cases copies
      exact ⟨_, _, rfl, bound⟩
  | @write agent writing offset buffer copying nonempty =>
      have own := consistent.copying copying
      by_cases same : task.dest = writing.dest
      · have content := compatible.sameDest task member writing own.1 same
        rw [content, same] at part ⊢
        exact partial_of_write part copying own.2.2.1 own.2.2.2 rfl rfl
      · refine part.of_same (Files.store_other _ same _) ?_
        intro position _ pending
        apply pending.of_act rfl
        intro other start next copies dest _
        rw [copying] at copies
        cases copies
        exact absurd dest.symm same
  | @finish agent finished offset copying exhausted =>
      have own := consistent.copying copying
      rw [consistent.bytes_source compatible own.1 own.2.1, List.drop_eq_nil_iff] at exhausted
      refine part.of_same rfl ?_
      intro position inside pending
      apply pending.of_act rfl
      intro other start next copies dest bound
      rw [copying] at copies
      cases copies
      have content := compatible.sameDest task member finished own.1 dest.symm
      rw [content] at inside
      omega

private theorem Pool.carries_of_act {agent : Agent} {activity : Activity File}
    (acts : after.activity = (pool.act agent activity).activity)
    (own : after.Carries initial activity)
    (kept : ∀ other, after.Carries initial (pool.activity other)) (other : Agent) :
    after.Carries initial (after.activity other) := by
  rw [acts]
  by_cases same : other = agent
  · rw [same, Pool.act_self]
    exact own
  · rw [Pool.act_other _ same]
    exact kept other

omit [DecidableEq File] in
private theorem Pool.opening_of_act {agent : Agent} {activity : Activity File} {task : Task File}
    (acts : after.activity = (pool.act agent activity).activity)
    (different : pool.activity agent ≠ .opening task)
    (opening : ∃ other, pool.activity other = .opening task) :
    ∃ other, after.activity other = .opening task := by
  rcases opening with ⟨other, opening⟩
  have others : other ≠ agent := by
    rintro rfl
    exact different opening
  exact ⟨other, by rw [acts, Pool.act_other _ others, opening]⟩

private theorem Pool.Consistent.begun_of_act (consistent : pool.Consistent initial tasks)
    {agent : Agent}
    {activity : Activity File} (acts : after.activity = (pool.act agent activity).activity)
    (waiting : after.waiting = pool.waiting)
    (notOpening : ∀ task, pool.activity agent ≠ .opening task)
    (kept : ∀ task ∈ tasks, pool.Partial task.dest (task.content initial) →
      after.Partial task.dest (task.content initial)) :
    ∀ task ∈ tasks, task ∈ after.waiting ∨ (∃ other, after.activity other = .opening task) ∨
      after.Partial task.dest (task.content initial) := by
  intro task member
  rcases consistent.begun task member with inWaiting | opening | part
  · rw [waiting]
    exact .inl inWaiting
  · exact .inr (.inl (Pool.opening_of_act acts (notOpening task) opening))
  · exact .inr (.inr (kept task member part))

omit [DecidableEq Agent] in
private theorem Pool.Consistent.dests_of_store (consistent : pool.Consistent initial tasks)
    {stored : Task File} {bytes : Bytes} (files : after.files = pool.files.store stored.dest bytes)
    (part : ∀ task ∈ tasks, task.dest = stored.dest →
      after.Partial task.dest (task.content initial))
    (kept : ∀ task ∈ tasks, pool.Partial task.dest (task.content initial) →
      after.Partial task.dest (task.content initial)) :
    ∀ task ∈ tasks, after.files task.dest = initial task.dest ∨
      after.Partial task.dest (task.content initial) := by
  intro task member
  by_cases same : task.dest = stored.dest
  · exact .inr (part task member same)
  · rcases consistent.dests task member with untouched | still
    · rw [files, Files.store_other _ same]
      exact .inl untouched
    · exact .inr (kept task member still)

theorem Pool.Step.consistent (compatible : Compatible initial tasks)
    (consistent : pool.Consistent initial tasks) (stepped : pool.Step after) :
    after.Consistent initial tasks := by
  have owned := stepped.owned consistent.owned
  have kept : ∀ task ∈ tasks, pool.Partial task.dest (task.content initial) →
      after.Partial task.dest (task.content initial) :=
    fun task member => stepped.partial_kept compatible consistent member
  have carries : ∀ other, after.Carries initial (pool.activity other) := by
    intro other
    cases activity : pool.activity other with
    | idle => trivial
    | opening task => trivial
    | copying task offset buffer =>
        have own := consistent.copying activity
        exact ⟨kept task own.1 own.2.1, own.2.2⟩
  cases stepped with
  | @take agent taken rest idle waiting =>
      refine ⟨owned, Pool.carries_of_act rfl trivial carries, ?_, ?_⟩
      · exact fun task member => (consistent.dests task member).imp_right (kept task member)
      · intro task member
        rcases consistent.begun task member with inWaiting | opening | part
        · rw [waiting, List.mem_cons] at inWaiting
          rcases inWaiting with rfl | inRest
          · exact .inr (.inl ⟨agent, Pool.act_self _ _ _⟩)
          · exact .inl inRest
        · exact .inr (.inl (Pool.opening_of_act rfl (by rw [idle]; exact nofun) opening))
        · exact .inr (.inr (kept task member part))
  | @truncate agent opened opening =>
      have emptied : ∀ task : Task File, task.dest = opened.dest →
          Pool.Partial (Pool.act { pool with files := pool.files.store opened.dest [] } agent
            (.copying opened 0 [])) task.dest (task.content initial) := by
        intro task same
        rw [same]
        exact partial_of_truncate pool _ rfl rfl
      refine ⟨owned, Pool.carries_of_act rfl ?_ carries, ?_, ?_⟩
      · exact ⟨emptied opened rfl, List.nil_prefix, Nat.zero_le _⟩
      · exact consistent.dests_of_store rfl (fun task _ same => emptied task same) kept
      · intro task member
        rcases consistent.begun task member with inWaiting | others | part
        · exact .inl inWaiting
        · by_cases same : opened = task
          · exact .inr (.inr (emptied task (by rw [same])))
          · apply Or.inr
            apply Or.inl
            apply Pool.opening_of_act rfl _ others
            rw [opening]
            exact fun equal => same (Activity.opening.inj equal)
        · exact .inr (.inr (kept task member part))
  | @read agent reading offset buffer copying nonempty available =>
      have own := consistent.copying copying
      rw [consistent.bytes_source compatible own.1 own.2.1] at available
      refine ⟨owned, Pool.carries_of_act rfl ?_ carries, ?_, ?_⟩
      · exact ⟨kept reading own.1 own.2.1, available, own.2.2.2⟩
      · exact fun task member => (consistent.dests task member).imp_right (kept task member)
      · exact consistent.begun_of_act rfl rfl (by rw [copying]; exact nofun) kept
  | @write agent writing offset buffer copying nonempty =>
      have own := consistent.copying copying
      have room : offset + buffer.length ≤ (writing.content initial).length := by
        have bound := own.2.2.1.length_le
        have inside := own.2.2.2
        rw [List.length_drop] at bound
        omega
      refine ⟨owned, Pool.carries_of_act rfl ?_ carries, ?_, ?_⟩
      · exact ⟨kept writing own.1 own.2.1, List.nil_prefix, room⟩
      · apply consistent.dests_of_store rfl _ kept
        intro task member same
        apply kept task member
        rw [compatible.sameDest task member writing own.1 same, same]
        exact own.2.1
      · exact consistent.begun_of_act rfl rfl (by rw [copying]; exact nofun) kept
  | @finish agent finished offset copying exhausted =>
      refine ⟨owned, Pool.carries_of_act rfl trivial carries, ?_, ?_⟩
      · exact fun task member => (consistent.dests task member).imp_right (kept task member)
      · exact consistent.begun_of_act rfl rfl (by rw [copying]; exact nofun) kept

/-! ## Every run ends with the files copied -/

def Pool.start (initial : Files File) (tasks : List (Task File)) : Pool Agent File where
  files := initial
  waiting := tasks
  activity := fun _ => .idle

omit [DecidableEq Agent] in
theorem Pool.start_consistent (initial : Files File) (tasks : List (Task File)) :
    (Pool.start initial tasks : Pool Agent File).Consistent initial tasks where
  owned := ⟨fun _ member => member, fun _ => trivial, fun _ _ => rfl⟩
  carries := fun _ => trivial
  dests := fun _ _ => .inl rfl
  begun := fun _ member => .inl member

omit [DecidableEq Agent] in
private theorem Pool.Consistent.files_eq (consistent : pool.Consistent initial tasks)
    (nothing : pool.waiting = []) (idle : ∀ agent, pool.activity agent = .idle) :
    pool.files = copied initial tasks := by
  have done : ∀ task ∈ tasks, pool.files task.dest = some (task.content initial) := by
    intro task member
    rcases consistent.begun task member with inWaiting | ⟨agent, opening⟩ | part
    · rw [nothing] at inWaiting
      cases inWaiting
    · rw [idle agent] at opening
      cases opening
    · exact part.complete idle
  funext file
  unfold copied
  cases found : tasks.find? fun task => task.dest = file with
  | none =>
      apply consistent.owned.others
      intro task member
      simpa using List.find?_eq_none.mp found task member
  | some task =>
      have dest : task.dest = file := by simpa using List.find?_some found
      rw [← dest]
      exact done task (List.mem_of_find?_eq_some found)

theorem Pool.idle_of_stuck (stuck : Stuck Pool.Step pool) (agent : Agent) :
    pool.activity agent = .idle := by
  cases activity : pool.activity agent with
  | idle => rfl
  | opening task => exact absurd (.truncate activity) (stuck _)
  | copying task offset buffer =>
      cases buffer with
      | cons byte rest => exact absurd (.write activity nofun) (stuck _)
      | nil =>
          by_cases exhausted : (pool.files.bytes task.source).drop offset = []
          · exact absurd (.finish activity exhausted) (stuck _)
          · exact absurd (.read activity exhausted List.prefix_rfl) (stuck _)

theorem Pool.stuck_of_idle (idle : ∀ agent, pool.activity agent = .idle)
    (nothing : pool.waiting = []) : Stuck Pool.Step pool := by
  intro after stepped
  cases stepped with
  | take _ waiting =>
      rw [nothing] at waiting
      cases waiting
  | @truncate agent _ opening =>
      rw [idle agent] at opening
      cases opening
  | @read agent _ _ _ copying _ _ =>
      rw [idle agent] at copying
      cases copying
  | @write agent _ _ _ copying _ =>
      rw [idle agent] at copying
      cases copying
  | @finish agent _ _ copying _ =>
      rw [idle agent] at copying
      cases copying

theorem Pool.Step.exist (stepped : pool.Step after) {file : File}
    (exist : (pool.files file).isSome) : (after.files file).isSome := by
  cases stepped with
  | take _ _ => exact exist
  | truncate _ => exact Files.isSome_store _ exist
  | read _ _ _ => exact exist
  | write _ _ => exact Files.isSome_store _ exist
  | finish _ _ => exact exist

private theorem Pool.waiting_of_stuck [Nonempty Agent] (stuck : Stuck Pool.Step pool) :
    pool.waiting = [] := by
  cases waiting : pool.waiting with
  | nil => rfl
  | cons task rest =>
      exact absurd (.take (Pool.idle_of_stuck stuck (Classical.arbitrary Agent)) waiting) (stuck _)

/-- An upper bound on the steps an agent still makes, if no task has more bytes. -/
def Activity.rank (most : Nat) : Activity File → Nat
  | .idle => 0
  | .opening _ => 2 * most + 2
  | .copying _ offset [] => 2 * (most - offset) + 1
  | .copying _ offset (_ :: _) => 2 * (most - offset)

def Pool.rank [Fintype Agent] (most : Nat) (pool : Pool Agent File) : Nat :=
  pool.waiting.length * (2 * most + 3) + ∑ agent, (pool.activity agent).rank most

theorem sum_update {Value : Type u} [Fintype Agent] (rank : Value → Nat)
    (values : Agent → Value) (agent : Agent) (value : Value) :
    ∑ other, rank (Function.update values agent value other) + rank (values agent) =
      ∑ other, rank (values other) + rank value := by
  have others : ∑ other ∈ Finset.univ.erase agent,
      rank (Function.update values agent value other) =
      ∑ other ∈ Finset.univ.erase agent, rank (values other) := by
    apply Finset.sum_congr rfl
    intro other member
    rw [Function.update_of_ne (Finset.ne_of_mem_erase member)]
  rw [← Finset.add_sum_erase _ _ (Finset.mem_univ agent), others, Function.update_self,
    ← Finset.add_sum_erase _ (fun other => rank (values other)) (Finset.mem_univ agent)]
  omega

omit [DecidableEq File] in
private theorem Pool.rank_act [Fintype Agent] (most : Nat) (pool : Pool Agent File) (agent : Agent)
    (activity : Activity File) :
    (pool.act agent activity).rank most + (pool.activity agent).rank most =
      pool.rank most + activity.rank most := by
  have change := sum_update (Activity.rank most) pool.activity agent activity
  have waiting : (pool.act agent activity).waiting = pool.waiting := rfl
  simp only [Pool.rank, Pool.act] at change ⊢
  omega

private theorem Pool.Step.rank_lt [Fintype Agent] {most : Nat}
    (bounded : ∀ task ∈ tasks, (task.content initial).length ≤ most)
    (consistent : pool.Consistent initial tasks)
    (stepped : pool.Step after) : after.rank most < pool.rank most := by
  cases stepped with
  | @take agent taken rest idle waiting =>
      have change := Pool.rank_act most { pool with waiting := rest } agent (.opening taken)
      have shorter : pool.rank most =
          Pool.rank most { pool with waiting := rest } + (2 * most + 3) := by
        simp only [Pool.rank, waiting, List.length_cons, Nat.succ_mul]
        omega
      simp only [idle, Activity.rank] at change
      omega
  | @truncate agent opened opening =>
      have change := Pool.rank_act most { pool with files := pool.files.store opened.dest [] }
        agent (.copying opened 0 [])
      have same : Pool.rank most { pool with files := pool.files.store opened.dest [] } =
          pool.rank most := rfl
      simp only [opening, Activity.rank] at change
      omega
  | @read agent reading offset buffer copying nonempty available =>
      have change := Pool.rank_act most pool agent (.copying reading offset buffer)
      rcases List.exists_cons_of_ne_nil nonempty with ⟨byte, bytes, rfl⟩
      simp only [copying, Activity.rank] at change
      omega
  | @write agent writing offset buffer copying nonempty =>
      have own := consistent.copying copying
      have room := own.2.2.1.length_le
      have most_le := bounded writing own.1
      have inside := own.2.2.2
      rw [List.length_drop] at room
      have change := Pool.rank_act most
        { pool with files := pool.files.write writing.dest offset buffer } agent
        (.copying writing (offset + buffer.length) [])
      have same : Pool.rank most
          { pool with files := pool.files.write writing.dest offset buffer } =
          pool.rank most := rfl
      rcases List.exists_cons_of_ne_nil nonempty with ⟨byte, bytes, rfl⟩
      have positive : 0 < (byte :: bytes).length := Nat.succ_pos _
      simp only [copying, Activity.rank] at change
      omega
  | @finish agent finished offset copying exhausted =>
      have change := Pool.rank_act most pool agent .idle
      simp only [copying, Activity.rank] at change
      omega

/-- However the agents take turns, they come to an end, and then every destination
holds what was to be copied to it. -/
theorem Pool.Consistent.ends [Fintype Agent] [Nonempty Agent]
    (compatible : Compatible initial tasks) (consistent : pool.Consistent initial tasks) :
    Ends Pool.Step (fun final : Pool Agent File => final.files = copied initial tasks) pool := by
  let lengths := tasks.map fun task => (task.content initial).length
  have bounded : ∀ task ∈ tasks, (task.content initial).length ≤ lengths.sum := by
    intro task member
    exact List.single_le_sum (fun _ _ => Nat.zero_le _) _
      (List.mem_map_of_mem (f := fun task => (task.content initial).length) member)
  refine Ends.of_invariant (Pool.Consistent initial tasks) (Pool.rank lengths.sum) ?_ ?_ pool
    consistent
  · intro pool after consistent stepped
    exact ⟨stepped.consistent compatible consistent, stepped.rank_lt bounded consistent⟩
  · intro pool consistent stuck
    exact consistent.files_eq (Pool.waiting_of_stuck stuck) (Pool.idle_of_stuck stuck)

end SystemsRepository.Steal
