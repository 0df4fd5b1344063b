import SystemsRepository.Foundation.Program

/-! # Programs that hold resources

A program that acquires and releases resources. Where it stops early, what it has not released
stays held, as with a C function that leaves through an error exit. The rules below are for what
holds behind a program, whether it finishes or stops; `Erases` connects it with the program without
resources.
-/

namespace SystemsRepository.Foundation

structure Custody (Resource : Type u) where
  held : List Resource
  fault : Bool
  deriving DecidableEq, Repr

namespace Custody

variable {Resource : Type u} [DecidableEq Resource]

def empty : Custody Resource where
  held := []
  fault := false

/-- It is a fault to release what is not held. -/
def release (custody : Custody Resource) (resource : Resource) : Custody Resource :=
  if resource ∈ custody.held then { custody with held := custody.held.erase resource }
  else { custody with fault := true }

def releaseAll (custody : Custody Resource) (resources : List Resource) : Custody Resource :=
  resources.foldl release custody

theorem release_behind {front rest : List Resource} {resource : Resource} {fault : Bool}
    (outside : resource ∉ front) :
    release { held := front ++ resource :: rest, fault } resource =
      { held := front ++ rest, fault } := by
  rw [release, if_pos (by simp), List.erase_append_right _ outside, List.erase_cons_head]

theorem releaseAll_behind {front rest resources : List Resource} {fault : Bool}
    (outside : ∀ resource ∈ resources, resource ∉ front) :
    releaseAll { held := front ++ (resources ++ rest), fault } resources =
      { held := front ++ rest, fault } := by
  induction resources with
  | nil => rfl
  | cons resource resources induction =>
      rw [releaseAll, List.foldl_cons, List.cons_append, release_behind (outside _ (.head _))]
      exact induction fun other member => outside other (.tail _ member)

theorem releaseAll_append (custody : Custody Resource) (resources more : List Resource) :
    custody.releaseAll (resources ++ more) = (custody.releaseAll resources).releaseAll more :=
  List.foldl_append

end Custody

abbrev Custodian (State Stop Resource : Type u) :=
  StateT State (ExceptT Stop (StateM (Custody Resource)))

namespace Custodian

variable {State Stop Resource α β γ δ : Type u}

def lift (program : Program State Stop α) : Custodian State Stop Resource α :=
  fun state custody => (program state, custody)

def acquire (resource : Resource) : Custodian State Stop Resource PUnit :=
  fun state custody => (.ok (⟨⟩, state), { custody with held := custody.held ++ [resource] })

section Releasing

variable [DecidableEq Resource]

def releaseAll (resources : List Resource) : Custodian State Stop Resource PUnit :=
  fun state custody => (.ok (⟨⟩, state), custody.releaseAll resources)

def orRelease (resources : List Resource) (program : Program State Stop α) :
    Custodian State Stop Resource α :=
  fun state custody =>
    match program state with
    | .ok outcome => (.ok outcome, custody)
    | .error stop => (.error stop, custody.releaseAll resources)

def stopAfter (resources : List Resource) (stop : Stop) : Custodian State Stop Resource α :=
  orRelease resources (throw stop)

end Releasing

theorem bind_eq (first : Custodian State Stop Resource α) (rest : α → Custodian State Stop Resource β)
    (state : State) (custody : Custody Resource) :
    (first >>= rest) state custody =
      match first state custody with
      | (.ok (value, next), left) => rest value next left
      | (.error stop, left) => (.error stop, left) := by
  simp only [bind, StateT.bind, ExceptT.bind, ExceptT.mk, ExceptT.bindCont]
  rcases first state custody with ⟨_ | _, _⟩ <;> rfl

/-! ## Without resources -/

/-- The program does what the other one does, whatever is held; the other one has this view of its
values. -/
def Erases (view : α → β) (program : Custodian State Stop Resource α)
    (plain : Program State Stop β) : Prop :=
  ∀ state custody,
    (program state custody).1.map (fun outcome => (view outcome.1, outcome.2)) = plain state

variable {view : α → β} {other : γ → δ}

theorem Erases.pure {value : α} {plain : β} (same : view value = plain) :
    Erases view (pure value : Custodian State Stop Resource α) (pure plain) :=
  fun state _ => congrArg (fun value => Except.ok (value, state)) same

theorem Erases.lift (program : Program State Stop α) :
    Erases id (lift program : Custodian State Stop Resource α) program := by
  intro state custody
  change (program state).map id = program state
  cases program state <;> rfl

theorem Erases.orRelease [DecidableEq Resource] (resources : List Resource)
    (program : Program State Stop α) : Erases id (orRelease resources program) program := by
  intro state custody
  rw [Custodian.orRelease]
  split
  next ran => exact ran.symm
  next ran => exact ran.symm

theorem Erases.stopAfter [DecidableEq Resource] (resources : List Resource) (stop : Stop) :
    Erases view (stopAfter resources stop : Custodian State Stop Resource α) (throw stop) :=
  fun _ _ => rfl

theorem Erases.bind {first : Custodian State Stop Resource α} {plain : Program State Stop β}
    {rest : α → Custodian State Stop Resource γ} {plainRest : β → Program State Stop δ}
    (head : Erases view first plain)
    (tail : ∀ value, Erases other (rest value) (plainRest (view value))) :
    Erases other (first >>= rest) (plain >>= plainRest) := by
  intro state custody
  have same := head state custody
  rw [bind_eq]
  split
  next value next left ran =>
    rw [ran] at same
    rw [Program.bind_of_ok same.symm]
    exact tail value next left
  next stop left ran =>
    rw [ran] at same
    exact (Program.bind_of_error same.symm).symm

theorem Erases.silent {first : Custodian State Stop Resource PUnit}
    {rest : Custodian State Stop Resource α} {plain : Program State Stop β}
    (quiet : Erases id first (Pure.pure ⟨⟩)) (tail : Erases view rest plain) :
    Erases view (first >>= fun _ => rest) plain := by
  have both : Erases view (first >>= fun _ => rest) ((Pure.pure PUnit.unit) >>= fun _ => plain) :=
    quiet.bind fun _ => tail
  exact both

/-! ## What holds behind a program -/

/-- The program finishes with one of these values, or it stops in one of these ways. -/
def Ensures (program : Custodian State Stop Resource α) (state : State)
    (custody : Custody Resource) (finished : α → State → Custody Resource → Prop)
    (stopped : Stop → Custody Resource → Prop) : Prop :=
  match program state custody with
  | (.ok (value, next), left) => finished value next left
  | (.error stop, left) => stopped stop left

variable {state : State} {custody : Custody Resource}
  {finished : α → State → Custody Resource → Prop} {stopped : Stop → Custody Resource → Prop}

theorem Ensures.pure {value : α} (holds : finished value state custody) :
    Ensures (pure value : Custodian State Stop Resource α) state custody finished stopped :=
  holds

theorem Ensures.acquire {resource : Resource}
    {finished : PUnit → State → Custody Resource → Prop}
    (holds : finished ⟨⟩ state { custody with held := custody.held ++ [resource] }) :
    Ensures (Custodian.acquire resource) state custody finished stopped :=
  holds

theorem Ensures.releaseAll [DecidableEq Resource] {resources : List Resource}
    {finished : PUnit → State → Custody Resource → Prop}
    (holds : finished ⟨⟩ state (custody.releaseAll resources)) :
    Ensures (Custodian.releaseAll resources) state custody finished stopped :=
  holds

theorem Ensures.bind {first : Custodian State Stop Resource α}
    {rest : α → Custodian State Stop Resource β}
    {after : β → State → Custody Resource → Prop}
    (ensures : Ensures first state custody
      (fun value next left => Ensures (rest value) next left after stopped) stopped) :
    Ensures (first >>= rest) state custody after stopped := by
  unfold Ensures at ensures ⊢
  rw [bind_eq]
  split at ensures
  next => exact ensures
  next => exact ensures

theorem Ensures.lift {program : Program State Stop α}
    (finishes : ∀ value next, program state = .ok (value, next) → finished value next custody)
    (stops : ∀ stop, program state = .error stop → stopped stop custody) :
    Ensures (Custodian.lift program) state custody finished stopped := by
  unfold Ensures Custodian.lift
  cases ran : program state with
  | ok outcome => exact finishes _ _ ran
  | error stop => exact stops stop ran

theorem Ensures.orRelease [DecidableEq Resource] {resources : List Resource}
    {program : Program State Stop α}
    (finishes : ∀ value next, program state = .ok (value, next) → finished value next custody)
    (stops : ∀ stop, program state = .error stop → stopped stop (custody.releaseAll resources)) :
    Ensures (Custodian.orRelease resources program) state custody finished stopped := by
  unfold Ensures Custodian.orRelease
  cases ran : program state with
  | ok outcome => exact finishes _ _ ran
  | error stop => exact stops stop ran

theorem Ensures.mono {program : Custodian State Stop Resource α}
    {after : α → State → Custody Resource → Prop} {ended : Stop → Custody Resource → Prop}
    (ensures : Ensures program state custody finished stopped)
    (finishes : ∀ value next left, finished value next left → after value next left)
    (stops : ∀ stop left, stopped stop left → ended stop left) :
    Ensures program state custody after ended := by
  unfold Ensures at ensures ⊢
  split at ensures
  next => exact finishes _ _ _ ensures
  next => exact stops _ _ ensures

theorem Ensures.erased {program : Custodian State Stop Resource α} {plain : Program State Stop β}
    (ensures : Ensures program state custody finished stopped)
    (erases : Erases view program plain) :
    Ensures program state custody
      (fun value next left => finished value next left ∧ plain state = .ok (view value, next))
      (fun stop left => stopped stop left ∧ plain state = .error stop) := by
  have same := erases state custody
  unfold Ensures at ensures ⊢
  split at ensures
  next ran =>
    rw [ran] at same
    exact ⟨ensures, same.symm⟩
  next ran =>
    rw [ran] at same
    exact ⟨ensures, same.symm⟩

end Custodian

end SystemsRepository.Foundation
