import Mathlib.Algebra.Group.Nat.Defs

/-! # ELF structures

The parts of `elf.h` that the loader reads. A structure is read as the machine
stores it, little-endian.
-/

namespace SystemsRepository.ElfLoader

abbrev Byte := BitVec 8

abbrev Half := BitVec 16

abbrev Word := BitVec 32

abbrev XWord := BitVec 64

def littleEndian : List Byte → Nat
  | [] => 0
  | byte :: bytes => byte.toNat + 256 * littleEndian bytes

def field (raw : List Byte) (offset size : Nat) : Nat :=
  littleEndian ((raw.drop offset).take size)

structure Ehdr where
  ident : List Byte
  type : Half
  machine : Half
  version : Word
  entry : XWord
  phoff : XWord
  shoff : XWord
  phentsize : Half
  phnum : Half
  deriving DecidableEq, Repr

abbrev sizeofEhdr : Nat := 64

def decodeEhdr (raw : List Byte) : Ehdr where
  ident := raw.take 16
  type := .ofNat 16 (field raw 16 2)
  machine := .ofNat 16 (field raw 18 2)
  version := .ofNat 32 (field raw 20 4)
  entry := .ofNat 64 (field raw 24 8)
  phoff := .ofNat 64 (field raw 32 8)
  shoff := .ofNat 64 (field raw 40 8)
  phentsize := .ofNat 16 (field raw 54 2)
  phnum := .ofNat 16 (field raw 56 2)

structure Phdr where
  type : Word
  flags : Word
  offset : XWord
  vaddr : XWord
  paddr : XWord
  filesz : XWord
  memsz : XWord
  align : XWord
  deriving DecidableEq, Repr

abbrev sizeofPhdr : Nat := 56

def decodePhdr (raw : List Byte) : Phdr where
  type := .ofNat 32 (field raw 0 4)
  flags := .ofNat 32 (field raw 4 4)
  offset := .ofNat 64 (field raw 8 8)
  vaddr := .ofNat 64 (field raw 16 8)
  paddr := .ofNat 64 (field raw 24 8)
  filesz := .ofNat 64 (field raw 32 8)
  memsz := .ofNat 64 (field raw 40 8)
  align := .ofNat 64 (field raw 48 8)

def decodePhdrs (count : Nat) (raw : List Byte) : List Phdr :=
  (List.range count).map fun index =>
    decodePhdr ((raw.drop (sizeofPhdr * index)).take sizeofPhdr)

theorem decodePhdrs_length (count : Nat) (raw : List Byte) :
    (decodePhdrs count raw).length = count := by
  rw [decodePhdrs, List.length_map, List.length_range]

theorem decodePhdrs_succ (count : Nat) (raw : List Byte) :
    decodePhdrs (count + 1) raw =
      decodePhdr (raw.take sizeofPhdr) :: decodePhdrs count (raw.drop sizeofPhdr) := by
  simp only [decodePhdrs, List.range_succ_eq_map, List.map_cons, List.map_map, Nat.mul_zero,
    List.drop_zero, List.drop_drop]
  congr 1
  apply List.map_congr_left
  intro index _
  simp only [Function.comp_apply, Nat.succ_eq_add_one, Nat.mul_succ, Nat.add_comm sizeofPhdr]

def magic : List Byte := [0x7f, 0x45, 0x4c, 0x46]

def machineX8664 : Half := 62

def versionCurrent : Word := 1

def ptLoad : Word := 1

def ptInterp : Word := 3

def Phdr.isLoad (header : Phdr) : Bool := header.type == ptLoad

def Phdr.isInterp (header : Phdr) : Bool := header.type == ptInterp

end SystemsRepository.ElfLoader
