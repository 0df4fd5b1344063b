import SystemsRepository.Foundation.Program
import SystemsRepository.ElfLoader.Format

/-! # The loader

`main` of `elfload.c` over the system calls it makes. How the system answers is
part of the environment. What the loader prints is kept where it is data: the
headers listed, the segments loaded, the addresses translated and the message of
an error exit.
-/

namespace SystemsRepository.ElfLoader

open SystemsRepository.Foundation

/-- A regular file: its size fits `off_t`. -/
structure File where
  bytes : List Byte
  bounded : bytes.length < 2 ^ 63

/-- The answers to the system calls, by the number of the call: how much a `read`
delivers at most (`none` is an error), where `malloc` puts a block (`none` is
`NULL`), and what the block then holds. -/
structure Environment where
  file : File
  readLimit : Nat → Option Nat
  address : Nat → Option XWord
  contents : Nat → Nat → Byte

/-- The error exits of `main`. -/
inductive Failure
  | usage
  | openFailed
  | read
  | notElf
  | unsupportedMachine (machine : Half)
  | invalidVersion
  | noProgramHeaders
  | entrySize
  | malloc
  | noLoadableSegments
  | readSegment
  | mallocInterp
  | readInterp
  deriving DecidableEq, Repr

inductive Message
  | perror (text : String)
  | stderr (text : String)
  deriving DecidableEq, Repr

def Failure.message (program : String) : Failure → Message
  | .usage => .stderr ("Usage: " ++ program ++ " <elf-file>\n")
  | .openFailed => .perror "Error opening binary"
  | .read => .perror "read"
  | .notElf => .stderr "Not an ELF File!\n"
  | .unsupportedMachine machine =>
      .stderr ("Unsupported architecture: " ++ toString machine.toNat ++ "\n")
  | .invalidVersion => .stderr "Invalid ELF version\n"
  | .noProgramHeaders => .stderr "No program headers found!"
  | .entrySize => .stderr "Unexpected program header entry size\n"
  | .malloc => .perror "malloc"
  | .noLoadableSegments => .stderr "No loadable segments in ELF!\n"
  | .readSegment => .perror "read segment"
  | .mallocInterp => .stderr "Failed to allocate memory for INTERP\n"
  | .readInterp => .perror "read INTERP"

/-- An exit with status 1, or an access outside an object. -/
inductive Stop
  | exit (failure : Failure)
  | undefined
  deriving DecidableEq, Repr

/-- The file position and the numbers of calls made so far. -/
structure System where
  position : Nat
  reads : Nat
  mallocs : Nat
  deriving DecidableEq, Repr

abbrev Loader := Program System Stop

/-! ## Memory -/

structure Buffer where
  address : XWord
  size : Nat
  bytes : Nat → Byte

def Buffer.store (buffer : Buffer) (offset : Nat) (data : List Byte) : Loader Buffer :=
  if offset + data.length ≤ buffer.size then
    pure { buffer with
      bytes := fun index =>
        if offset ≤ index then data[index - offset]?.getD (buffer.bytes index)
        else buffer.bytes index }
  else throw .undefined

def Buffer.clear (buffer : Buffer) (offset count : Nat) : Loader Buffer :=
  if offset + count ≤ buffer.size then
    pure { buffer with
      bytes := fun index =>
        if offset ≤ index ∧ index < offset + count then 0 else buffer.bytes index }
  else throw .undefined

/-! ## System calls -/

/-- `lseek(fd, offset, SEEK_SET)` as in POSIX: a negative `off_t` is refused. Linux also
refuses offsets beyond the largest file of the file system. No caller looks at the result. -/
def lseekSet (offset : XWord) : Loader Unit := fun system =>
  .ok ((), if offset.toNat < 2 ^ 63 then { system with position := offset.toNat } else system)

def lseekCurrent : Loader XWord := fun system => .ok (.ofNat 64 system.position, system)

section Environment

variable (env : Environment)

/-- What the `call`-th `read` returns at a position; `none` is -1. -/
def Environment.read (call position : Nat) (count : XWord) : Option (List Byte) :=
  if count.toNat < 2 ^ 63 then
    (env.readLimit call).map fun limit =>
      (env.file.bytes.drop position).take (min limit count.toNat)
  else none

def read (count : XWord) : Loader (Option (List Byte)) := fun system =>
  let result := env.read system.reads system.position count
  .ok (result,
    { system with
      position := system.position + (result.getD []).length
      reads := system.reads + 1 })

def malloc (size : XWord) : Loader (Option Buffer) := fun system =>
  .ok ((env.address system.mallocs).map fun address =>
      { address, size := size.toNat, bytes := env.contents system.mallocs },
    { system with mallocs := system.mallocs + 1 })

def readObject (size : Nat) : Loader (List Byte) := do
  match ← read env (.ofNat 64 size) with
  | some bytes => if bytes.length = size then pure bytes else throw (.exit .read)
  | none => throw (.exit .read)

/-! ## Headers -/

/-- The class and the byte order in `e_ident` are printed and not checked. -/
def readIdent : Loader Unit := do
  let ident ← readObject env 16
  if ident.take 4 = magic then pure () else throw (.exit .notElf)

def readHeader : Loader Ehdr := do
  lseekSet 0
  let raw ← readObject env sizeofEhdr
  let header := decodeEhdr raw
  if header.machine ≠ machineX8664 then throw (.exit (.unsupportedMachine header.machine))
  else if header.version ≠ versionCurrent then throw (.exit .invalidVersion)
  else if header.phnum = 0 then throw (.exit .noProgramHeaders)
  else if header.phentsize.toNat ≠ sizeofPhdr then throw (.exit .entrySize)
  else pure header

def listHeaders : Nat → Loader (List Phdr)
  | 0 => pure []
  | count + 1 => do
      let raw ← readObject env sizeofPhdr
      let rest ← listHeaders count
      pure (decodePhdr raw :: rest)

/-- The second pass reads the whole table into an array, which it fills. -/
def readTable (header : Ehdr) : Loader (List Phdr) := do
  match ← malloc env (.ofNat 64 (sizeofPhdr * header.phnum.toNat)) with
  | none => throw (.exit .malloc)
  | some _ =>
      lseekSet header.phoff
      let raw ← readObject env (sizeofPhdr * header.phnum.toNat)
      pure (decodePhdrs header.phnum.toNat raw)

/-! ## Segments -/

structure LoadedSegment where
  host : Buffer
  virtAddr : XWord
  size : XWord
  flags : Word

def zeroFill (header : Phdr) (segment : Buffer) : Loader Buffer :=
  if header.filesz < header.memsz then
    segment.clear header.filesz.toNat (header.memsz.toNat - header.filesz.toNat)
  else pure segment

/-- The `PT_LOAD` branch of the loading loop. -/
def loadSegment (header : Phdr) : Loader LoadedSegment := do
  match ← malloc env header.memsz with
  | none => throw (.exit .malloc)
  | some segment =>
      lseekSet header.offset
      match ← read env header.filesz with
      | none => throw (.exit .readSegment)
      | some data =>
          let segment ← segment.store 0 data
          let segment ← zeroFill header segment
          pure
            { host := segment
              virtAddr := header.vaddr
              size := header.memsz
              flags := header.flags }

/-- The result of `read` as an `ssize_t`. -/
def readCount : Option (List Byte) → XWord
  | none => -1
  | some data => .ofNat 64 data.length

/-- The `PT_INTERP` branch: the buffer whose string is printed. The result of
`read` is compared with the size as a signed number, so -1 can pass. -/
def loadInterp (header : Phdr) : Loader Buffer := do
  match ← malloc env (header.filesz + 1) with
  | none => throw (.exit .mallocInterp)
  | some interp =>
      let cur ← lseekCurrent
      lseekSet header.offset
      let result ← read env header.filesz
      let interp ← interp.store 0 (result.getD [])
      if readCount result ≠ header.filesz then throw (.exit .readInterp)
      else
        let interp ← interp.store header.filesz.toNat [0]
        lseekSet cur
        pure interp

/-- `load_segments[loadIdx++] = segment` on an array of `hasLoad` elements. -/
def storeSegment (hasLoad : Nat) (segments : List LoadedSegment)
    (segment : LoadedSegment) : Loader (List LoadedSegment) :=
  if segments.length < hasLoad then pure (segments ++ [segment]) else throw .undefined

def loadSegments (hasLoad : Nat) :
    List Phdr → List LoadedSegment → Loader (List LoadedSegment)
  | [], segments => pure segments
  | header :: headers, segments =>
      if header.isLoad then do
        let segment ← loadSegment env header
        let segments ← storeSegment hasLoad segments segment
        loadSegments hasLoad headers segments
      else if header.isInterp then do
        let _ ← loadInterp env header
        loadSegments hasLoad headers segments
      else loadSegments hasLoad headers segments

/-! ## Translation -/

/-- The end of a segment is computed modulo 2^64. -/
def vaddrToHost (vaddr : XWord) : List LoadedSegment → Option XWord
  | [] => none
  | segment :: segments =>
      if segment.virtAddr ≤ vaddr ∧ vaddr < segment.virtAddr + segment.size then
        some (segment.host.address + (vaddr - segment.virtAddr))
      else vaddrToHost vaddr segments

def testAddresses (segment : LoadedSegment) : List XWord :=
  [segment.virtAddr, segment.virtAddr + 0x10, segment.virtAddr + segment.size - 1,
    segment.virtAddr + segment.size]

structure Image where
  header : Ehdr
  listed : List Phdr
  phdrs : List Phdr
  segments : List LoadedSegment
  entryHost : Option XWord
  tests : List (XWord × Option XWord)

def loadBinary : Loader Image := do
  readIdent env
  let header ← readHeader env
  lseekSet header.phoff
  let listed ← listHeaders env header.phnum.toNat
  let phdrs ← readTable env header
  let hasLoad := phdrs.countP Phdr.isLoad
  if hasLoad = 0 then throw (.exit .noLoadableSegments)
  else
    let segments ← loadSegments env hasLoad phdrs []
    match segments with
    | [] => throw .undefined
    | seg :: _ =>
        pure
          { header, listed, phdrs, segments
            entryHost := vaddrToHost header.entry segments
            tests := (testAddresses seg).map fun vaddr =>
              (vaddr, vaddrToHost vaddr segments) }

end Environment

/-- What the program is started on. -/
inductive Invocation
  | noArgument
  | unreadable
  | binary (env : Environment)

/-- `main` returns 0 with an image, or stops. -/
def loaderMain : Invocation → Except Stop Image
  | .noArgument => .error (.exit .usage)
  | .unreadable => .error (.exit .openFailed)
  | .binary env =>
      (loadBinary env { position := 0, reads := 0, mallocs := 0 }).map Prod.fst

end SystemsRepository.ElfLoader
