import SystemsRepository.Foundation.Numerals
import Mathlib.Algebra.GroupWithZero.Nat

/-! # `slumber`

A sleep that goes on after interruptions. How the calls of `nanosleep` end is given;
the times are in nanoseconds.
-/

namespace SystemsRepository.Slumber

open SystemsRepository.Foundation

abbrev UnsignedInt := BitVec 32

abbrev Long := BitVec 64

def nanoseconds : Nat := 10 ^ 9

private theorem nanoseconds_pos : 0 < nanoseconds := by decide

structure Timespec where
  tvSec : Long
  tvNsec : Long
  bounded : tvNsec.toNat < nanoseconds
  deriving DecidableEq, Repr

def Timespec.duration (time : Timespec) : Nat :=
  time.tvSec.toNat * nanoseconds + time.tvNsec.toNat

def Timespec.ofDuration (duration : Nat) : Timespec where
  tvSec := .ofNat 64 (duration / nanoseconds)
  tvNsec := .ofNat 64 (duration % nanoseconds)
  bounded := Nat.lt_of_le_of_lt (Nat.mod_le _ _) (Nat.mod_lt _ nanoseconds_pos)

/-! ## The call -/

/-- How a call ends: after the whole time, with `EINTR` after so much of it, or at once with
another error. -/
inductive Answer
  | slept
  | interrupted (elapsed : Nat)
  | failed
  deriving DecidableEq, Repr

/-- 0, or -1 with `errno` and what is stored in `rem`. -/
inductive Result
  | success
  | interrupted (rem : Timespec)
  | failed
  deriving DecidableEq, Repr

/-- `nanosleep(&req, &rem)`, and how long it sleeps. -/
def nanosleep (req : Timespec) : Answer → Result × Nat
  | .slept => (.success, req.duration)
  | .interrupted elapsed =>
      (.interrupted (.ofDuration (req.duration - elapsed)), min elapsed req.duration)
  | .failed => (.failed, 0)

/-! ## The loop -/

/-- What `slumber` returns and prints, how long it has slept, and how much of its last request
it has not. -/
structure Nap where
  value : UnsignedInt
  slept : Nat
  left : Nat
  stdout : List Char
  stderr : List Char
  deriving DecidableEq, Repr

def notice (seconds : Int) : List Char :=
  "[slumber] Interrupted! ".toList ++ Numerals.decimalText seconds ++ " seconds left...\n".toList

def unknownError : List Char := "Unknown error!".toList

/-- `return req.tv_sec` after a call that slept so long -/
def Nap.ended (req : Timespec) (elapsed : Nat) (stderr : List Char) : Nap where
  value := req.tvSec.setWidth 32
  slept := elapsed
  left := req.duration - elapsed
  stdout := []
  stderr := stderr

/-- The loop `while(nanosleep(&req, &rem) == -1)`; it is `none` while a call goes on. -/
def slumberLoop (req : Timespec) : List Answer → Option Nap
  | [] => none
  | answer :: answers =>
      match nanosleep req answer with
      | (.interrupted rem, elapsed) =>
          (slumberLoop rem answers).map fun nap =>
            { nap with
              slept := elapsed + nap.slept
              stdout := notice rem.tvSec.toInt ++ nap.stdout }
      | (.failed, elapsed) => some (.ended req elapsed unknownError)
      | (.success, elapsed) => some (.ended req elapsed [])

def slumber (seconds : UnsignedInt) (answers : List Answer) : Option Nap :=
  slumberLoop { tvSec := seconds.setWidth 64, tvNsec := 0, bounded := by decide } answers

/-! ## Naps -/

/-- How the last call ends. -/
inductive Ending
  | slept
  | failed
  deriving DecidableEq, Repr

def Ending.answer : Ending → Answer
  | .slept => .slept
  | .failed => .failed

def Ending.stderr : Ending → List Char
  | .slept => []
  | .failed => unknownError

def Ending.left : Ending → Nat → Nat
  | .slept, _ => 0
  | .failed, duration => duration

def answers (interruptions : List Nat) (ending : Ending) : List Answer :=
  interruptions.map .interrupted ++ [ending.answer]

/-- What is left of a sleep after each of its interruptions. -/
def remainders (duration : Nat) : List Nat → List Nat
  | [] => []
  | elapsed :: interruptions =>
      (duration - elapsed) :: remainders (duration - elapsed) interruptions

/-- The time slept and the time left make up what was asked for, and the whole seconds left are
returned. -/
structure Nap.ReportsTimeLeft (nap : Nap) (seconds : UnsignedInt) : Prop where
  whole : nap.slept + nap.left = seconds.toNat * nanoseconds
  value : nap.value.toNat = nap.left / nanoseconds
  zero : nap.slept = seconds.toNat * nanoseconds → nap.value = 0

def ReportsTimeLeft (seconds : UnsignedInt) (interruptions : List Nat) (ending : Ending) : Prop :=
  ∃ nap, slumber seconds (answers interruptions ending) = some nap ∧ nap.ReportsTimeLeft seconds

/-! ## Durations -/

private theorem Timespec.duration_div (time : Timespec) :
    time.duration / nanoseconds = time.tvSec.toNat := by
  rw [duration, Nat.mul_comm, Nat.mul_add_div nanoseconds_pos, Nat.div_eq_of_lt time.bounded,
    Nat.add_zero]

section Short

variable {duration : Nat}

private theorem seconds_lt (short : duration < 2 ^ 32 * nanoseconds) :
    duration / nanoseconds < 2 ^ 32 :=
  (Nat.div_lt_iff_lt_mul nanoseconds_pos).mpr short

private theorem Timespec.duration_ofDuration (short : duration < 2 ^ 32 * nanoseconds) :
    (ofDuration duration).duration = duration := by
  have seconds := seconds_lt short
  have rest := Nat.mod_lt duration nanoseconds_pos
  have fits : nanoseconds < 2 ^ 64 := by decide
  rw [Timespec.duration, ofDuration, BitVec.toNat_ofNat, BitVec.toNat_ofNat,
    Nat.mod_eq_of_lt (by omega : duration / nanoseconds < 2 ^ 64),
    Nat.mod_eq_of_lt (Nat.lt_trans rest fits), Nat.div_add_mod']

private theorem Timespec.tvSec_ofDuration (short : duration < 2 ^ 32 * nanoseconds) :
    (ofDuration duration).tvSec.toInt = (duration / nanoseconds : Nat) := by
  have seconds := seconds_lt short
  have number : (ofDuration duration).tvSec.toNat = duration / nanoseconds := by
    rw [ofDuration, BitVec.toNat_ofNat, Nat.mod_eq_of_lt (by omega)]
  rw [BitVec.toInt_eq_toNat_of_lt (by omega), number]

end Short

/-! ## Rounds -/

private theorem Ending.left_le (ending : Ending) (duration : Nat) :
    ending.left duration ≤ duration := by
  cases ending with
  | slept => exact Nat.zero_le _
  | failed => exact Nat.le_refl _

private theorem slumberLoop_ending (req : Timespec) (ending : Ending) :
    slumberLoop req [ending.answer] =
      some
        { value := .ofNat 32 (req.duration / nanoseconds)
          slept := req.duration - ending.left req.duration
          left := ending.left req.duration
          stdout := []
          stderr := ending.stderr } := by
  have value : BitVec.ofNat 32 (req.duration / nanoseconds) = req.tvSec.setWidth 32 := by
    rw [req.duration_div, BitVec.ofNat_toNat]
  rw [value]
  cases ending with
  | slept =>
      change some (Nap.ended req req.duration []) = _
      rw [Nap.ended, Nat.sub_self, Ending.left, Nat.sub_zero, Ending.stderr]
  | failed =>
      change some (Nap.ended req 0 unknownError) = _
      rw [Nap.ended, Nat.sub_zero, Ending.left, Nat.sub_self, Ending.stderr]

/-- An interruption leaves what has not been slept, and each notice has the seconds left. What
is returned are the seconds of the last request. -/
theorem slumberLoop_eq {req : Timespec} (short : req.duration < 2 ^ 32 * nanoseconds)
    (interruptions : List Nat) (ending : Ending) :
    slumberLoop req (answers interruptions ending) =
      some
        { value := .ofNat 32 ((req.duration - interruptions.sum) / nanoseconds)
          slept := req.duration - ending.left (req.duration - interruptions.sum)
          left := ending.left (req.duration - interruptions.sum)
          stdout := (remainders req.duration interruptions).flatMap fun left =>
            notice (left / nanoseconds : Nat)
          stderr := ending.stderr } := by
  induction interruptions generalizing req with
  | nil => exact slumberLoop_ending req ending
  | cons elapsed interruptions induction =>
      have shorter : req.duration - elapsed < 2 ^ 32 * nanoseconds :=
        Nat.lt_of_le_of_lt (Nat.sub_le _ _) short
      have same := Timespec.duration_ofDuration shorter
      have rest := @induction (.ofDuration (req.duration - elapsed)) (by rwa [same])
      have left := ending.left_le (req.duration - elapsed - interruptions.sum)
      have slept : min elapsed req.duration + (req.duration - elapsed -
          ending.left (req.duration - elapsed - interruptions.sum)) =
            req.duration - ending.left (req.duration - elapsed - interruptions.sum) := by
        omega
      rw [same] at rest
      change (slumberLoop _ (answers interruptions ending)).map _ = _
      rw [rest, Option.map_some, List.sum_cons, ← Nat.sub_sub, slept,
        Timespec.tvSec_ofDuration shorter]
      rfl

private theorem slumber_eq (seconds : UnsignedInt) (interruptions : List Nat) (ending : Ending) :
    let requested := seconds.toNat * nanoseconds
    slumber seconds (answers interruptions ending) =
      some
        { value := .ofNat 32 ((requested - interruptions.sum) / nanoseconds)
          slept := requested - ending.left (requested - interruptions.sum)
          left := ending.left (requested - interruptions.sum)
          stdout := (remainders requested interruptions).flatMap fun left =>
            notice (left / nanoseconds : Nat)
          stderr := ending.stderr } := by
  intro requested
  have duration : (⟨seconds.setWidth 64, 0, by decide⟩ : Timespec).duration = requested := by
    have bound := seconds.isLt
    have zero : (0 : Long).toNat = 0 := rfl
    rw [Timespec.duration, BitVec.toNat_setWidth, Nat.mod_eq_of_lt (by omega), zero, Nat.add_zero]
  have short : requested < 2 ^ 32 * nanoseconds :=
    Nat.mul_lt_mul_of_pos_right seconds.isLt nanoseconds_pos
  rw [slumber, slumberLoop_eq (by rwa [duration]), duration]

/-! ## What is returned -/

/-- The whole seconds of what is left are those of the last request unless it has been slept and
was for a second or more. -/
theorem seconds_left_iff (ending : Ending) (last : Nat) :
    last / nanoseconds = ending.left last / nanoseconds ↔
      ending = .failed ∨ last < nanoseconds := by
  cases ending with
  | failed => exact iff_of_true rfl (.inl rfl)
  | slept =>
      have nonzero : nanoseconds ≠ 0 := Nat.ne_of_gt nanoseconds_pos
      rw [Ending.left, Nat.zero_div, Nat.div_eq_zero_iff, or_iff_right nonzero]
      exact (or_iff_right nofun).symm

/-- The time left is reported exactly when a call fails with another error, or the last one is
for less than a second. -/
theorem reportsTimeLeft_iff (seconds : UnsignedInt) (interruptions : List Nat) (ending : Ending) :
    ReportsTimeLeft seconds interruptions ending ↔
      ending = .failed ∨ seconds.toNat * nanoseconds < interruptions.sum + nanoseconds := by
  have returned := slumber_eq seconds interruptions ending
  have short : seconds.toNat * nanoseconds < 2 ^ 32 * nanoseconds :=
    Nat.mul_lt_mul_of_pos_right seconds.isLt nanoseconds_pos
  generalize requests : seconds.toNat * nanoseconds = requested at returned short
  have bound := seconds_lt (Nat.lt_of_le_of_lt (Nat.sub_le requested interruptions.sum) short)
  have left := ending.left_le (requested - interruptions.sum)
  have fits : requested < interruptions.sum + nanoseconds ↔
      requested - interruptions.sum < nanoseconds := by
    have positive := nanoseconds_pos
    omega
  rw [fits, ← seconds_left_iff]
  constructor
  · intro reports
    rcases reports with ⟨nap, same, reports⟩
    rw [returned, Option.some.injEq] at same
    have value := reports.value
    rw [← same, BitVec.toNat_ofNat, Nat.mod_eq_of_lt bound] at value
    exact value
  · intro same
    refine ⟨_, returned, ?_, ?_, ?_⟩
    · rw [requests]
      dsimp only
      omega
    · rw [BitVec.toNat_ofNat, Nat.mod_eq_of_lt bound]
      exact same
    · intro whole
      have nothing : ending.left (requested - interruptions.sum) = 0 := by
        rw [requests] at whole
        dsimp only at whole
        omega
      rw [same, nothing, Nat.zero_div]
      rfl

/-- Ten seconds are slept, and returned as if none had been; after an interruption what was left
then is returned. -/
theorem slept_seconds_returned :
    slumber 10 [.slept] =
        some { value := 10, slept := 10 * nanoseconds, left := 0, stdout := [], stderr := [] } ∧
      ¬ReportsTimeLeft 10 [] .slept ∧
      slumber 10 [.interrupted (3 * nanoseconds), .slept] =
        some
          { value := 7
            slept := 10 * nanoseconds
            left := 0
            stdout := "[slumber] Interrupted! 7 seconds left...\n".toList
            stderr := [] } ∧
      ¬ReportsTimeLeft 10 [3 * nanoseconds] .slept := by
  have whole : slumber 10 [.slept] =
      some { value := 10, slept := 10 * nanoseconds, left := 0, stdout := [], stderr := [] } := by
    decide +kernel
  have resumed : slumber 10 [.interrupted (3 * nanoseconds), .slept] =
      some
        { value := 7
          slept := 10 * nanoseconds
          left := 0
          stdout := "[slumber] Interrupted! 7 seconds left...\n".toList
          stderr := [] } := by
    decide +kernel
  refine ⟨whole, ?_, resumed, ?_⟩
  · intro reports
    rcases reports with ⟨nap, same, reports⟩
    have value := reports.zero
    rw [← Option.some.inj (whole.symm.trans same)] at value
    exact absurd (value rfl) (by decide)
  · intro reports
    rcases reports with ⟨nap, same, reports⟩
    have value := reports.zero
    rw [← Option.some.inj (resumed.symm.trans same)] at value
    exact absurd (value rfl) (by decide)

end SystemsRepository.Slumber
