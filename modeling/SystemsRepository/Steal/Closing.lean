import SystemsRepository.Steal.Handles
import SystemsRepository.Steal.Reporting

/-! # Descriptors of `steal.c`

A copy that fails closes both descriptors, and `main` closes them again. A second `close` of a
number is refused, unless the system has given that number out in between.
-/

namespace SystemsRepository.Steal

open SystemsRepository.Foundation

/-! ## The process -/

/-- `descriptors` says for an open descriptor for which source and variable it was opened, and
`current` is the number of the source that is being copied. `handles` are `ftcf_fd` and `ftct_fd`,
which keep their number when it is closed, and `closing` has the calls of `close` that are left. -/
structure StealProcess (File : Type u) where
  stealing : Stealing File
  descriptors : Nat → Option Variable
  current : Nat
  handles : Side → Option Nat
  closing : List Side
  fault : Bool

/-- A call with its result, and the number of the descriptor if it opens one, or a `close`. -/
inductive StealEvent
  | call (result : Result) (number : Nat)
  | close

namespace StealProcess

variable {File : Type u}

def start (files : Files File) (sources : List Path) : StealProcess File where
  stealing := .start files sources
  descriptors _ := none
  current := 0
  handles _ := none
  closing := []
  fault := false

/-- A call of `open` has given this number, which was not in use. -/
def opens (process : StealProcess File) (side : Side) (number : Nat) :
    Option (StealProcess File) :=
  if process.descriptors number = none then
    some { process with
      descriptors := Function.update process.descriptors number (some (process.current, side))
      handles := Function.update process.handles side (some number) }
  else none

/-- What a step does to the descriptors, by the states before and after it and the status of the
copy that it ends. -/
def follow (process : StealProcess File) (number : Nat) (status : Option Nat) :
    StealState File → StealState File → Option (StealProcess File)
  | .openSource, .stat source =>
      let fresh := { process with current := process.current + 1, handles := fun _ => none }
      if source.isSome then fresh.opens .source number else some fresh
  | .openDest _, .copying loop =>
      if loop.dest.isSome then process.opens .dest number else some process
  | .copying _, .openSource =>
      some { process with
        closing :=
          if status = some 0 then [.source, .dest] else [.source, .dest, .source, .dest] }
  | _, _ => some process

/-- `close` of -1 or of a number that is not open is refused. -/
def close (process : StealProcess File) : Option (StealProcess File) :=
  match process.closing with
  | [] => none
  | side :: sides =>
      match process.handles side with
      | none => some { process with closing := sides }
      | some number =>
          match process.descriptors number with
          | none => some { process with closing := sides }
          | some target =>
              some { process with
                closing := sides
                descriptors := Function.update process.descriptors number none
                fault := process.fault || target != (process.current, side) }

section Steps

variable [DecidableEq File]

def call (kernel : Kernel File) (folder : Path) (process : StealProcess File) (result : Result)
    (number : Nat) : Option (StealProcess File) :=
  if process.closing = [] then
    match process.stealing.step kernel folder result with
    | none => none
    | some stealing =>
        { process with stealing }.follow number (process.stealing.copyStatus result)
          process.stealing.state stealing.state
  else none

def step (kernel : Kernel File) (folder : Path) (process : StealProcess File) :
    StealEvent → Option (StealProcess File)
  | .call result number => process.call kernel folder result number
  | .close => process.close

def machine (kernel : Kernel File) (folder : Path) : Machine (StealProcess File) StealEvent where
  execute event process := process.step kernel folder event

end Steps

/-! ## The invariant -/

def Live (process : StealProcess File) (side : Side) : Prop :=
  ∃ number, process.handles side = some number ∧
    process.descriptors number = some (process.current, side)

def Phase (process : StealProcess File) : Prop :=
  match process.stealing.state with
  | .openSource => ∀ side, process.Live side → side ∈ process.closing
  | .stat source =>
      process.closing = [] ∧ (process.Live .source ↔ source.isSome) ∧ process.handles .dest = none
  | .openDest _ =>
      process.closing = [] ∧ process.Live .source ∧ process.handles .dest = none
  | .copying loop =>
      process.closing = [] ∧ process.Live .source ∧ (process.Live .dest ↔ loop.dest.isSome)
  | .returned status =>
      process.closing = [] ∧ (process.Live .source → status = 1) ∧ ¬process.Live .dest

/-- What is open was opened for the source that is being copied, and is in its variable. -/
structure Holds (process : StealProcess File) : Prop where
  own : ∀ number target, process.descriptors number = some target →
    target.1 = process.current ∧ process.handles target.2 = some number
  distinct : ∀ side other number, process.handles side = some number →
    process.handles other = some number → side = other

structure Orderly (process : StealProcess File) : Prop extends process.Holds where
  phase : process.Phase
  sound : process.fault = false

variable {process next : StealProcess File} {side other : Side} {number : Nat}

private theorem not_live (empty : process.handles side = none) : ¬process.Live side := by
  rintro ⟨number, has, _⟩
  rw [empty] at has
  cases has

theorem Holds.live (holds : process.Holds) {target : Variable}
    (isOpen : process.descriptors number = some target) :
    target.1 = process.current ∧ process.Live target.2 := by
  rcases target with ⟨index, side⟩
  rcases holds.own number _ isOpen with ⟨same, has⟩
  exact ⟨same, number, has, isOpen.trans (congrArg (fun index => some (index, side)) same)⟩

private theorem Holds.nothing_open (holds : process.Holds) (closed : ∀ side, ¬process.Live side)
    (number : Nat) : process.descriptors number = none := by
  cases isOpen : process.descriptors number with
  | none => rfl
  | some target => exact absurd (holds.live isOpen).2 (closed _)

/-! ## Opening -/

private theorem opens_live (opened : process.opens side number = some next)
    (different : other ≠ side) : next.Live other ↔ process.Live other := by
  unfold opens at opened
  split at opened
  next unused =>
    cases opened
    unfold Live
    simp only [Function.update_of_ne different]
    refine exists_congr fun found => and_congr_right fun _ => ?_
    by_cases same : found = number
    · subst same
      rw [Function.update_self, unused]
      exact iff_of_false (fun equal => different (congrArg Prod.snd (Option.some.inj equal)).symm)
        (fun impossible => by cases impossible)
    · rw [Function.update_of_ne same]
  next => cases opened

theorem Holds.opens (holds : process.Holds) (opened : process.opens side number = some next)
    (empty : process.handles side = none)
    (others : ∀ other, process.handles other ≠ none → process.Live other) :
    next.Holds ∧ next.Live side := by
  unfold StealProcess.opens at opened
  split at opened
  next unused =>
    cases opened
    -- The number in the other variable is in use.
    have apart : ∀ other, process.handles other ≠ some number := by
      intro other has
      rcases others other (by rw [has]; exact Option.some_ne_none _) with ⟨held, also, isOpen⟩
      rw [has] at also
      cases also
      rw [unused] at isOpen
      cases isOpen
    refine ⟨⟨fun found target isOpen => ?_, fun first second found has also => ?_⟩, ?_⟩
    · by_cases same : found = number
      · subst same
        simp only [Function.update_self, Option.some.injEq] at isOpen
        subst isOpen
        exact ⟨rfl, Function.update_self _ _ _⟩
      · simp only [Function.update_of_ne same] at isOpen
        rcases holds.own found target isOpen with ⟨current, has⟩
        refine ⟨current, (Function.update_of_ne ?_ _ _).trans has⟩
        intro equal
        rw [equal, empty] at has
        cases has
    · by_cases isFirst : first = side <;> by_cases isSecond : second = side
      · rw [isFirst, isSecond]
      · simp only [isFirst, Function.update_self, Function.update_of_ne isSecond] at has also
        cases has
        exact absurd also (apart second)
      · simp only [isSecond, Function.update_self, Function.update_of_ne isFirst] at has also
        cases also
        exact absurd has (apart first)
      · simp only [Function.update_of_ne isFirst, Function.update_of_ne isSecond] at has also
        exact holds.distinct first second found has also
    · exact ⟨number, Function.update_self _ _ _, Function.update_self _ _ _⟩
  next => cases opened

private theorem opens_keeps (opened : process.opens side number = some next) :
    next.stealing = process.stealing ∧ next.closing = process.closing ∧
      next.fault = process.fault ∧
        ∀ other, other ≠ side → next.handles other = process.handles other := by
  unfold StealProcess.opens at opened
  split at opened
  next =>
    cases opened
    exact ⟨rfl, rfl, rfl, fun other different => Function.update_of_ne different _ _⟩
  next => cases opened

/-! ## Closing -/

/-- A `close` closes the descriptor of its variable if that is open, and nothing else. -/
theorem Orderly.close (orderly : process.Orderly) (stepped : process.close = some next) :
    next.Orderly ∧ next.stealing = process.stealing := by
  have state : process.stealing.state = .openSource := by
    have unfinished : process.closing ≠ [] := by
      intro finished
      rw [StealProcess.close, finished] at stepped
      cases stepped
    have phase := orderly.phase
    rw [Phase] at phase
    split at phase
    next state => exact state
    all_goals exact absurd phase.1 unfinished
  have phase := orderly.phase
  rw [Phase, state] at phase
  unfold StealProcess.close at stepped
  split at stepped
  next => cases stepped
  next side sides pending =>
    -- The variable is closed now, and the others are as they were.
    have rest : ∀ {after : StealProcess File}, after.stealing = process.stealing →
        after.closing = sides → ¬after.Live side →
        (∀ other, after.Live other → process.Live other) → after.Phase := by
      intro after same left closed before
      rw [Phase, same, state]
      intro other live
      have member := phase other (before other live)
      rw [pending] at member
      rw [left]
      rcases List.mem_cons.mp member with rfl | later
      · exact absurd live closed
      · exact later
    have unchanged : ∀ {after : StealProcess File}, (∀ found, process.handles side = some found →
        process.descriptors found = none) → after = { process with closing := sides } →
        after.Orderly ∧ after.stealing = process.stealing := by
      intro after closed equal
      subst equal
      refine ⟨⟨⟨orderly.own, orderly.distinct⟩, rest rfl rfl ?_ fun _ live => live,
        orderly.sound⟩, rfl⟩
      rintro ⟨found, has, isOpen⟩
      rw [closed found has] at isOpen
      cases isOpen
    split at stepped
    next empty =>
      refine unchanged (fun found has => ?_) (Option.some.inj stepped).symm
      rw [empty] at has
      cases has
    next number has =>
      split at stepped
      next closed =>
        refine unchanged (fun found also => ?_) (Option.some.inj stepped).symm
        rw [has] at also
        cases also
        exact closed
      next target isOpen =>
        rcases orderly.own number target isOpen with ⟨current, holder⟩
        have mine : target = (process.current, side) :=
          Prod.ext current (orderly.distinct _ _ _ holder has)
        cases stepped
        refine ⟨⟨⟨fun found other also => ?_, orderly.distinct⟩, rest rfl rfl ?_ ?_, ?_⟩, rfl⟩
        · by_cases same : found = number
          · simp only [same, Function.update_self] at also
            cases also
          · simp only [Function.update_of_ne same] at also
            exact orderly.own found other also
        · rintro ⟨found, also, still⟩
          change process.handles side = some found at also
          rw [has] at also
          cases also
          simp only [Function.update_self] at still
          cases still
        · rintro other ⟨found, also, still⟩
          refine ⟨found, also, ?_⟩
          by_cases same : found = number
          · simp only [same, Function.update_self] at still
            cases still
          · simpa only [Function.update_of_ne same] using still
        · simp [orderly.sound, mine]

end StealProcess

/-! ## Steps -/

inductive StealState.Follows {File : Type u} : StealState File → StealState File → Prop
  | finished : Follows .openSource (.returned 0)
  | opened (source : Option File) : Follows .openSource (.stat source)
  | refused (source : Option File) : Follows (.stat source) (.returned 1)
  | found (source : File) : Follows (.stat (some source)) (.openDest source)
  | created (source : File) (dest : Option File) :
      Follows (.openDest source) (.copying (.start source dest))
  | copied {loop later : CopyLoop File} (same : later.dest.isSome = loop.dest.isSome) :
      Follows (.copying loop) (.copying later)
  | ended (loop : CopyLoop File) : Follows (.copying loop) .openSource

variable {File : Type u} [DecidableEq File] {kernel : Kernel File} {folder : Path}

private theorem Stealing.step_follows {stealing after : Stealing File} {result : Result}
    (stepped : stealing.step kernel folder result = some after) :
    stealing.state.Follows after.state := by
  rcases stealing with ⟨files, remaining, state, success⟩
  cases state with
  | openSource =>
      cases remaining with
      | nil =>
          cases stepped
          exact .finished
      | cons =>
          cases stepped
          exact .opened _
  | stat source =>
      cases remaining with
      | nil => cases stepped
      | cons =>
          simp only [Stealing.step] at stepped
          split at stepped
          next =>
            split at stepped
            next =>
              cases stepped
              exact .refused _
            next =>
              cases stepped
              exact .found _
          next =>
            cases stepped
            exact .refused _
  | openDest source =>
      cases remaining with
      | nil => cases stepped
      | cons =>
          cases stepped
          exact .created source _
  | copying loop =>
      simp only [Stealing.step] at stepped
      split at stepped
      next => cases stepped
      next running =>
        cases stepped
        exact .copied (congrFun (Process.opened_of_running running) .dest)
      next =>
        cases stepped
        exact .ended loop
  | returned status => cases remaining <;> cases stepped

namespace StealProcess

variable {process next : StealProcess File} {number : Nat}

omit [DecidableEq File] in
theorem Orderly.follow (orderly : process.Orderly) (closed : process.closing = [])
    {stealing : Stealing File} {before after : StealState File}
    (isBefore : process.stealing.state = before) (isAfter : stealing.state = after)
    (follows : before.Follows after) {status : Option Nat}
    (stepped : ({ process with stealing } : StealProcess File).follow number status before after =
      some next) : next.Orderly ∧ next.stealing = stealing := by
  have phase := orderly.phase
  rw [Phase, isBefore] at phase
  -- Where the descriptors are as they were, only the state is new.
  have moves : ({ process with stealing } : StealProcess File).Phase →
      ({ process with stealing } : StealProcess File) = next →
        next.Orderly ∧ next.stealing = stealing := by
    rintro phase rfl
    exact ⟨⟨⟨orderly.own, orderly.distinct⟩, phase, orderly.sound⟩, rfl⟩
  cases follows with
  | finished =>
      refine moves ?_ (Option.some.inj stepped)
      rw [Phase, isAfter]
      have none : ∀ side, ¬process.Live side := by
        intro side live
        have member := phase side live
        rw [closed] at member
        cases member
      exact ⟨closed, fun live => absurd live (none _), none _⟩
  | refused source =>
      refine moves ?_ (Option.some.inj stepped)
      rw [Phase, isAfter]
      exact ⟨closed, fun _ => rfl, not_live phase.2.2⟩
  | found source =>
      refine moves ?_ (Option.some.inj stepped)
      rw [Phase, isAfter]
      exact ⟨closed, phase.2.1.mpr rfl, phase.2.2⟩
  | copied same =>
      refine moves ?_ (Option.some.inj stepped)
      rw [Phase, isAfter]
      exact ⟨closed, phase.2.1, same ▸ phase.2.2⟩
  | ended loop =>
      cases stepped
      refine ⟨⟨⟨orderly.own, orderly.distinct⟩, ?_, orderly.sound⟩, rfl⟩
      rw [Phase, isAfter]
      intro side _
      dsimp only
      split <;> cases side <;> simp
  | opened source =>
      have none : ∀ number, process.descriptors number = none := by
        refine orderly.nothing_open fun side live => ?_
        have member := phase side live
        rw [closed] at member
        cases member
      have fresh : ({ process with
          stealing
          current := process.current + 1
          handles := fun _ => Option.none } : StealProcess File).Holds := by
        refine ⟨fun number target isOpen => ?_, fun side other number has => ?_⟩
        · rw [none] at isOpen
          cases isOpen
        · cases has
      cases source with
      | none =>
          cases stepped
          refine ⟨⟨fresh, ?_, orderly.sound⟩, rfl⟩
          rw [Phase, isAfter]
          exact ⟨closed, iff_of_false (not_live rfl) Bool.false_ne_true, rfl⟩
      | some source =>
          change StealProcess.opens _ _ _ = _ at stepped
          rcases fresh.opens stepped rfl fun other has => absurd rfl has with ⟨holds, live⟩
          rcases opens_keeps stepped with ⟨same, closing, fault, others⟩
          refine ⟨⟨holds, ?_, fault.trans orderly.sound⟩, same⟩
          rw [Phase, same, isAfter]
          exact ⟨closing.trans closed, iff_of_true live rfl, others .dest (by decide)⟩
  | created source dest =>
      cases dest with
      | none =>
          refine moves ?_ (Option.some.inj stepped)
          rw [Phase, isAfter]
          exact ⟨closed, phase.2.1, iff_of_false (not_live phase.2.2) Bool.false_ne_true⟩
      | some dest =>
          change StealProcess.opens _ _ _ = _ at stepped
          have held : ({ process with stealing } : StealProcess File).Holds :=
            ⟨orderly.own, orderly.distinct⟩
          have others : ∀ other, process.handles other ≠ Option.none → process.Live other := by
            intro other has
            cases other with
            | source => exact phase.2.1
            | dest => exact absurd phase.2.2 has
          rcases held.opens stepped phase.2.2 others with ⟨holds, live⟩
          rcases opens_keeps stepped with ⟨same, closing, fault, _⟩
          refine ⟨⟨holds, ?_, fault.trans orderly.sound⟩, same⟩
          rw [Phase, same, isAfter]
          exact ⟨closing.trans closed, (opens_live stepped (by decide)).mpr phase.2.1,
            iff_of_true live rfl⟩

theorem Orderly.call (orderly : process.Orderly) {result : Result}
    (stepped : process.call kernel folder result number = some next) :
    next.Orderly ∧ process.stealing.step kernel folder result = some next.stealing := by
  unfold StealProcess.call at stepped
  split at stepped
  next closed =>
    split at stepped
    next => cases stepped
    next stealing moved =>
      rcases orderly.follow closed rfl rfl (Stealing.step_follows moved) stepped with
        ⟨orderly, same⟩
      exact ⟨orderly, same ▸ moved⟩
  next => cases stepped

omit [DecidableEq File] in
theorem Orderly.ofStart (files : Files File) (sources : List Path) :
    (start files sources).Orderly where
  own _ _ isOpen := by cases isOpen
  distinct _ _ _ has := by cases has
  phase := by
    rintro side ⟨_, has, _⟩
    cases has
  sound := rfl

end StealProcess

open StealProcess Relation in
/-- A copy that fails closes its descriptors twice, and still, whatever numbers `open` gives, no
`close` hits a descriptor that was opened for something else: in every run what is open are the
descriptors of the one source that is being copied, in their variables, and they are open as long
as the copy uses them. Between two sources nothing is open, and at an exit only the source whose
details could not be had. -/
theorem closes_only_own {files : Files File} {sources : List Path} {events : List StealEvent}
    {final : StealProcess File}
    (ran : (machine kernel folder).run events (start files sources) = some final) :
    ReflTransGen (Stealing.Step kernel folder) (Stealing.start files sources) final.stealing ∧
      final.fault = false ∧
      (∀ number target, final.descriptors number = some target →
        target.1 = final.current ∧ final.handles target.2 = some number) ∧
      (∀ loop, final.stealing.state = .copying loop →
        final.Live .source ∧ (loop.dest.isSome → final.Live .dest)) ∧
      (final.stealing.state = .openSource → final.closing = [] →
        ∀ number, final.descriptors number = none) ∧
      ∀ status, final.stealing.state = .returned status → ∀ number target,
        final.descriptors number = some target → status = 1 ∧ target.2 = .source := by
  have reached : final.Orderly ∧
      ReflTransGen (Stealing.Step kernel folder) (Stealing.start files sources) final.stealing := by
    refine @Machine.run_induction _ _ (machine kernel folder) _ (fun _ process =>
      process.Orderly ∧ ReflTransGen (Stealing.Step kernel folder) (Stealing.start files sources)
        process.stealing) ⟨.ofStart files sources, .refl⟩ ?_ _ _ ran
    rintro _ process event next ⟨orderly, run⟩ stepped
    cases event with
    | call result number =>
        rcases orderly.call stepped with ⟨orderly, moved⟩
        exact ⟨orderly, run.tail ⟨result, moved⟩⟩
    | close =>
        rcases orderly.close stepped with ⟨orderly, same⟩
        exact ⟨orderly, same ▸ run⟩
  rcases reached with ⟨orderly, run⟩
  have phase := orderly.phase
  refine ⟨run, orderly.sound, orderly.own, fun loop state => ?_, fun state closed => ?_,
    fun status state number target isOpen => ?_⟩
  · rw [Phase, state] at phase
    exact ⟨phase.2.1, phase.2.2.mpr⟩
  · rw [Phase, state] at phase
    refine orderly.nothing_open fun side live => ?_
    have member := phase side live
    rw [closed] at member
    cases member
  · rw [Phase, state] at phase
    rcases orderly.live isOpen with ⟨_, live⟩
    rcases target with ⟨index, side⟩
    cases side with
    | source => exact ⟨phase.2.1 live, rfl⟩
    | dest => exact absurd live phase.2.2

/-- A `write` fails, and each descriptor is closed twice. -/
theorem closes_only_own_of_failed :
    ∃ (events : List StealEvent) (final : StealProcess Path),
      (StealProcess.machine plainKernel ['d']).run events
        (StealProcess.start twoFiles [['a', '/', 'x']]) = some final ∧
      final.handles .dest = some 4 ∧ final.fault = false ∧
        ∀ number, final.descriptors number = none := by
  have ran : (StealProcess.machine plainKernel ['d']).run
      [.call (.done 0) 3, .call (.done 0) 0, .call (.done 0) 4, .call (.done 1) 0,
        .call .failed 0, .close, .close, .close, .close]
      (StealProcess.start twoFiles [['a', '/', 'x']]) = some _ := rfl
  rcases closes_only_own ran with ⟨_, sound, _, _, between, _⟩
  exact ⟨_, _, ran, rfl, sound, between rfl rfl⟩

end SystemsRepository.Steal
