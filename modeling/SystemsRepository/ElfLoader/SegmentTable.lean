import SystemsRepository.ElfLoader.Loading

/-! # The table of segments

What the loading loop has stored in `load_segments` at each of its steps, and what it
leaves there.
-/

namespace SystemsRepository.ElfLoader

open SystemsRepository.Foundation

structure LoadedSegment.Describes (env : Environment) (header : Phdr) (call : Nat)
    (segment : LoadedSegment) : Prop where
  block : env.address call = some segment.host.address
  room : segment.host.size = header.memsz.toNat
  virtAddr : segment.virtAddr = header.vaddr
  size : segment.size = header.memsz
  flags : segment.flags = header.flags

/-- The segments are those of the `PT_LOAD` headers, in order, each in the memory of a call of
its own, from this call of `malloc` on. -/
def Tables (env : Environment) (mallocs : Nat) (headers : List Phdr)
    (segments : List LoadedSegment) : Prop :=
  ∃ loads : List (Phdr × Nat), loads.map Prod.fst = headers.filter Phdr.isLoad ∧
    loads.Pairwise (fun earlier later => earlier.2 < later.2) ∧
    (∀ load ∈ loads, mallocs ≤ load.2) ∧
    List.Forall₂ (fun load segment => segment.Describes env load.1 load.2) loads segments

/-- The loop has filled its array of as many elements as there are `PT_LOAD` headers: after any
of the headers the index is inside, and what has been stored is not changed any more. -/
structure TableBuilt (env : Environment) (headers : List Phdr) (system : System)
    (segments : List LoadedSegment) : Prop where
  inside : ∀ before after, headers = before ++ after →
    ∃ stored middle,
      loadSegments env (headers.countP Phdr.isLoad) before [] system = .ok (stored, middle) ∧
        stored.length ≤ headers.countP Phdr.isLoad ∧ stored <+: segments
  filled : segments.length = headers.countP Phdr.isLoad
  entries : Tables env system.mallocs headers segments

variable {env : Environment} {header : Phdr} {system final : System}

/-! ## One segment -/

private theorem zeroFill_block {segment after : Buffer}
    (finished : zeroFill header segment system = .ok (after, final)) :
    after.address = segment.address ∧ after.size = segment.size := by
  unfold zeroFill at finished
  split at finished
  next =>
    rcases clear_finished finished with ⟨_, rfl⟩
    exact ⟨rfl, rfl⟩
  next =>
    rcases Program.pure_eq_ok.mp finished with ⟨rfl, _⟩
    exact ⟨rfl, rfl⟩

private theorem loadSegment_describes {segment : LoadedSegment}
    (finished : loadSegment env header system = .ok (segment, final)) :
    segment.Describes env header system.mallocs := by
  rw [loadSegment_eq] at finished
  cases allocated : env.block header.memsz system with
  | none =>
      rw [allocated] at finished
      cases finished
  | some block =>
      rw [allocated] at finished
      cases delivered : env.segmentData header system with
      | none =>
          rw [delivered] at finished
          cases finished
      | some data =>
          rw [delivered] at finished
          rcases Program.bind_eq_ok.mp finished with ⟨stored, afterStore, storing, filling⟩
          rcases store_finished storing with ⟨_, _, rfl⟩
          rcases Program.bind_eq_ok.mp filling with ⟨filled, afterFill, zeros, assembled⟩
          rcases zeroFill_block zeros with ⟨address, size⟩
          rcases Program.pure_eq_ok.mp assembled with ⟨rfl, _⟩
          rcases Option.map_eq_some_iff.mp allocated with ⟨placed, here, rfl⟩
          exact ⟨by rw [here, address], size, rfl, rfl, rfl⟩

/-! ## The loop -/

theorem Tables.skip {mallocs later : Nat} {headers : List Phdr} {segments : List LoadedSegment}
    (notLoad : header.isLoad = false) (order : mallocs ≤ later)
    (tables : Tables env later headers segments) :
    Tables env mallocs (header :: headers) segments := by
  rcases tables with ⟨loads, listed, increasing, new, described⟩
  refine ⟨loads, ?_, increasing, fun load member => Nat.le_trans order (new load member), described⟩
  rw [List.filter_cons_of_neg (by simp [notLoad]), listed]

theorem Tables.load {mallocs : Nat} {headers : List Phdr} {segment : LoadedSegment}
    {segments : List LoadedSegment} (isLoad : header.isLoad = true)
    (describes : segment.Describes env header mallocs)
    (tables : Tables env (mallocs + 1) headers segments) :
    Tables env mallocs (header :: headers) (segment :: segments) := by
  rcases tables with ⟨loads, listed, increasing, new, described⟩
  refine ⟨(header, mallocs) :: loads, ?_, ?_, ?_, .cons describes described⟩
  · rw [List.map_cons, listed, List.filter_cons_of_pos isLoad]
  · exact List.pairwise_cons.mpr ⟨fun load member => new load member, increasing⟩
  · intro load member
    rcases List.mem_cons.mp member with rfl | later
    · exact Nat.le_refl _
    · exact Nat.le_of_lt (new load later)

private theorem loadSegments_tables {hasLoad : Nat} {headers : List Phdr}
    {segments after : List LoadedSegment}
    (finished : loadSegments env hasLoad headers segments system = .ok (after, final)) :
    ∃ loaded, after = segments ++ loaded ∧ Tables env system.mallocs headers loaded := by
  induction headers generalizing segments system with
  | nil =>
      rcases Program.pure_eq_ok.mp finished with ⟨rfl, _⟩
      exact ⟨[], by simp, [], rfl, .nil, nofun, .nil⟩
  | cons header headers induction =>
      rcases loadSegments_cons_eq_ok.mp finished with
        ⟨isLoad, _, segment, middle, loading, finished⟩ |
        ⟨notLoad, _, _, middle, loading, finished⟩ | ⟨notLoad, _, finished⟩
      · rcases induction finished with ⟨loaded, rfl, tables⟩
        rw [(loadSegment_finished loading).2.1] at tables
        exact ⟨segment :: loaded, by simp, tables.load isLoad (loadSegment_describes loading)⟩
      · rcases induction finished with ⟨loaded, rfl, tables⟩
        rw [(loadInterp_finished loading).2] at tables
        exact ⟨loaded, rfl, tables.skip notLoad (Nat.le_succ _)⟩
      · rcases induction finished with ⟨loaded, rfl, tables⟩
        exact ⟨loaded, rfl, tables.skip notLoad (Nat.le_refl _)⟩

private theorem loadSegments_room {capacity hasLoad : Nat} {headers : List Phdr}
    {segments after : List LoadedSegment}
    (room : segments.length + headers.countP Phdr.isLoad ≤ hasLoad)
    (finished : loadSegments env capacity headers segments system = .ok (after, final)) :
    loadSegments env hasLoad headers segments system = .ok (after, final) := by
  induction headers generalizing segments system with
  | nil => exact finished
  | cons header headers induction =>
      rw [List.countP_cons] at room
      apply loadSegments_cons_eq_ok.mpr
      rcases loadSegments_cons_eq_ok.mp finished with
        ⟨isLoad, _, segment, middle, loading, finished⟩ |
        ⟨notLoad, isInterp, interp, middle, loading, finished⟩ | ⟨notLoad, notInterp, finished⟩
      · rw [if_pos isLoad] at room
        refine .inl ⟨isLoad, by omega, segment, middle, loading, induction ?_ finished⟩
        rw [List.length_append, List.length_singleton]
        omega
      · have left : segments.length + headers.countP Phdr.isLoad ≤ hasLoad := by omega
        exact .inr (.inl ⟨notLoad, isInterp, interp, middle, loading, induction left finished⟩)
      · have left : segments.length + headers.countP Phdr.isLoad ≤ hasLoad := by omega
        exact .inr (.inr ⟨notLoad, notInterp, induction left finished⟩)

/-- The loop over a table is the loop over its front and then over the rest. -/
theorem loadSegments_append (hasLoad : Nat) (before after : List Phdr)
    (segments : List LoadedSegment) :
    loadSegments env hasLoad (before ++ after) segments =
      loadSegments env hasLoad before segments >>= loadSegments env hasLoad after := by
  induction before generalizing segments with
  | nil => rfl
  | cons header before induction =>
      rw [List.cons_append]
      unfold loadSegments
      split
      next => simp only [bind_assoc, induction]
      next =>
        split
        next => simp only [bind_assoc, induction]
        next => exact induction segments

theorem loadSegments_length {hasLoad : Nat} {headers : List Phdr} {segments : List LoadedSegment}
    (finished : loadSegments env hasLoad headers [] system = .ok (segments, final)) :
    segments.length = headers.countP Phdr.isLoad := by
  rcases loadSegments_finished finished with ⟨loaded, same, run⟩
  rw [same, List.nil_append, run.length]

theorem image_tables {image : Image} (returned : loaderMain (.binary env) = .ok image) :
    ∃ mallocs, Tables env mallocs image.phdrs image.segments := by
  rcases loaderMain_finished returned with ⟨headers, middle, final, _, loading⟩
  rcases loadImage_finished loading with ⟨_, _, phdrs, _, finished, _⟩
  rcases loadSegments_tables finished with ⟨loaded, same, tables⟩
  rw [phdrs, same]
  exact ⟨_, tables⟩

/-- A loop that runs to its end has built the table, whatever headers it meets. That it does not
leave its array is not presupposed: it may run on one of any size. -/
theorem segments_tabled {capacity : Nat} {headers : List Phdr} {segments : List LoadedSegment}
    (finished : loadSegments env capacity headers [] system = .ok (segments, final)) :
    TableBuilt env headers system segments := by
  have fits := loadSegments_room (Nat.le_of_eq (Nat.zero_add _)) finished
  refine ⟨?_, loadSegments_length finished, ?_⟩
  · intro before after split
    rw [split, loadSegments_append, ← split] at fits
    rcases Program.bind_eq_ok.mp fits with ⟨stored, middle, ran, rest⟩
    refine ⟨stored, middle, ran, ?_, ?_⟩
    · rw [loadSegments_length ran, split, List.countP_append]
      exact Nat.le_add_right _ _
    · rcases loadSegments_finished rest with ⟨later, same, _⟩
      exact ⟨later, same.symm⟩
  · rcases loadSegments_tables finished with ⟨loaded, same, tables⟩
    rw [same]
    exact tables

def mixedHeaders : List Phdr :=
  [shortPath, sampleSegment, { sampleSegment with type := 4 }, shortPath, otherSegment]

def mixedEnvironment : Environment := sampleEnvironment ⟨magic, by decide⟩

theorem segments_tabled_of_mixed :
    ∃ segments final,
      loadSegments mixedEnvironment 2 mixedHeaders [] opened = .ok (segments, final) ∧
        TableBuilt mixedEnvironment mixedHeaders opened segments ∧
        segments.map (fun segment => (segment.host.address, segment.virtAddr)) =
          [(0x2000, 0x400000), (0x4000, 0x500000)] := by
  have entered : (loadSegments mixedEnvironment 2 mixedHeaders [] opened).toOption.map
      (fun outcome => outcome.1.map fun segment => (segment.host.address, segment.virtAddr)) =
        some [(0x2000, 0x400000), (0x4000, 0x500000)] := by
    decide +kernel
  cases ran : loadSegments mixedEnvironment 2 mixedHeaders [] opened with
  | error stop =>
      rw [ran] at entered
      cases entered
  | ok outcome =>
      rw [ran] at entered
      exact ⟨outcome.1, outcome.2, rfl, segments_tabled ran, Option.some.inj entered⟩

end SystemsRepository.ElfLoader
