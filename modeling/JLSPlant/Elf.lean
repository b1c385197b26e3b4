import JLSPlant.Binary
/-!
# Elf — the ELF records `ElfImg` reads, for both word sizes

The file header, a section header, a program header and a symbol, each as the packed record of `linux/elf.h` at an
offset of the file, with the fields that are read of it.  A file offset is computed modulo the word size, as the
pointer arithmetic on the mapping computes it.  Of a record whose first field is read, the others need no wrapping:
a start that is in the file is far from the end of the address space.
-/
namespace JLSPlant

open Binary (Bytes Layout CString word)

/-- The word size the library is built for. -/
inductive ElfClass
  | elf32 | elf64
deriving DecidableEq, Repr

namespace ElfClass

/-- The bytes of an `Elf_Addr`, an `Elf_Off`, a pointer and an `off_t`. -/
def bytes : ElfClass → Nat
  | elf32 => 4
  | elf64 => 8

def modulus (w : ElfClass) : Nat := 256 ^ w.bytes

theorem modulus_pos (w : ElfClass) : 0 < w.modulus := Nat.pow_pos (by decide)

/-- The offset from the mapping's start, as a pointer holds it. -/
def wrap (w : ElfClass) (off : Nat) : Nat := off % w.modulus

/-- The value of a difference in `off_t`. -/
def signed (w : ElfClass) (x : Int) : Int := x.bmod w.modulus

def bits (w : ElfClass) : Nat := 8 * w.bytes

end ElfClass

abbrev Uintptr (w : ElfClass) := BitVec w.bits

/-- A C `int`. -/
abbrev CInt := BitVec 32

/-- The conversion of an `int` to `uintptr_t`. -/
def CInt.toUintptr (w : ElfClass) (x : CInt) : Uintptr w := x.signExtend w.bits

/-! ## Records -/

structure Ehdr where
  ePhoff : Nat
  eShoff : Nat
  ePhentsize : Nat
  ePhnum : Nat
  eShentsize : Nat
  eShnum : Nat
  eShstrndx : Nat
deriving DecidableEq

namespace Ehdr

/-- `e_ident`, `e_type`, `e_machine`, `e_version`, `e_entry`, `e_phoff`, `e_shoff`, `e_flags`, `e_ehsize`,
`e_phentsize`, `e_phnum`, `e_shentsize`, `e_shnum`, `e_shstrndx`. -/
def layout (w : ElfClass) : Layout := [16, 2, 2, 4, w.bytes, w.bytes, w.bytes, 4, 2, 2, 2, 2, 2, 2]

def read (w : ElfClass) (file : Bytes) : Option Ehdr :=
  match Layout.decode file (layout w) 0 with
  | some [_, _, _, _, _, phoff, shoff, _, _, phentsize, phnum, shentsize, shnum, shstrndx] =>
    some ⟨phoff, shoff, phentsize, phnum, shentsize, shnum, shstrndx⟩
  | _ => none

end Ehdr

inductive ShType
  | progbits | symtab | strtab | hash | dynsym | gnuHash | other (n : Nat)
deriving DecidableEq, Repr

/-- `SHT_PROGBITS`, `SHT_SYMTAB`, `SHT_STRTAB`, `SHT_HASH`, `SHT_DYNSYM`, `SHT_GNU_HASH`. -/
def ShType.ofNat (n : Nat) : ShType :=
  if n = 1 then progbits else if n = 2 then symtab else if n = 3 then strtab else if n = 5 then hash
  else if n = 11 then dynsym else if n = 0x6ffffff6 then gnuHash else other n

structure Shdr where
  shName : Nat
  shType : ShType
  shAddr : Nat
  shOffset : Nat
  shSize : Nat
  shLink : Nat
  shEntsize : Nat
deriving DecidableEq

namespace Shdr

/-- `sh_name`, `sh_type`, `sh_flags`, `sh_addr`, `sh_offset`, `sh_size`, `sh_link`, `sh_info`, `sh_addralign`,
`sh_entsize`. -/
def layout (w : ElfClass) : Layout := [4, 4, w.bytes, w.bytes, w.bytes, w.bytes, 4, 4, w.bytes, w.bytes]

def sizeOf (w : ElfClass) : Nat := (layout w).size

def read (w : ElfClass) (file : Bytes) (off : Nat) : Option Shdr :=
  match Layout.decode file (layout w) off with
  | some [name, type, _, addr, offset, size, link, _, _, entsize] =>
    some ⟨name, .ofNat type, addr, offset, size, link, entsize⟩
  | _ => none

theorem shOffset_of_read {w : ElfClass} {file : Bytes} {off : Nat} {s : Shdr} (h : read w file off = some s) :
    (layout w).field file off 4 = some s.shOffset := by
  unfold read at h
  split at h
  · rename_i hd
    cases h
    exact Layout.field_of_decode hd rfl
  · cases h

/-- `sh_offset` alone, of the header at `off`, whose first fields need not be in the file. -/
def offsetAt (w : ElfClass) (file : Bytes) (off : Nat) : Option Nat :=
  word file (w.wrap (off + ((layout w).take 4).sum)) w.bytes

theorem offsetAt_eq {w : ElfClass} {file : Bytes} {off : Nat} (h : off + ((layout w).take 4).sum < w.modulus) :
    offsetAt w file off = (layout w).field file off 4 := by
  have hwrap : w.wrap (off + ((layout w).take 4).sum) = off + ((layout w).take 4).sum := Nat.mod_eq_of_lt h
  unfold offsetAt
  rw [hwrap]
  rfl

/-- `(off_t) sh_addr - (off_t) sh_offset`. -/
def skew (w : ElfClass) (s : Shdr) : Int := w.signed (s.shAddr - s.shOffset)

end Shdr

structure Phdr where
  pType : Nat
  pOffset : Nat
  pVaddr : Nat
  pFilesz : Nat
deriving DecidableEq

namespace Phdr

/-- 32 bits: `p_type`, `p_offset`, `p_vaddr`, `p_paddr`, `p_filesz`, `p_memsz`, `p_flags`, `p_align`; 64 bits:
`p_flags` after `p_type`. -/
def layout : ElfClass → Layout
  | .elf32 => [4, 4, 4, 4, 4, 4, 4, 4]
  | .elf64 => [4, 4, 8, 8, 8, 8, 8, 8]

def read (w : ElfClass) (file : Bytes) (off : Nat) : Option Phdr :=
  match w, Layout.decode file (layout w) off with
  | .elf32, some [type, offset, vaddr, _, filesz, _, _, _] => some ⟨type, offset, vaddr, filesz⟩
  | .elf64, some [type, _, offset, vaddr, _, filesz, _, _] => some ⟨type, offset, vaddr, filesz⟩
  | _, _                                                   => none

def ptLoad : Nat := 1

end Phdr

namespace Sym

/-- 32 bits: `st_name`, `st_value`, `st_size`, `st_info`, `st_other`, `st_shndx`; 64 bits: `st_name`, `st_info`,
`st_other`, `st_shndx`, `st_value`, `st_size`. -/
def layout : ElfClass → Layout
  | .elf32 => [4, 4, 4, 1, 1, 2]
  | .elf64 => [4, 1, 1, 2, 8, 8]

def sizeOf (w : ElfClass) : Nat := (layout w).size

theorem sizeOf_pos : ∀ w : ElfClass, 0 < sizeOf w
  | .elf32 => by decide
  | .elf64 => by decide

def stName (w : ElfClass) (file : Bytes) (sym : Nat) : Option Nat := (layout w).field file sym 0

def stValue (w : ElfClass) (file : Bytes) (sym : Nat) : Option Nat :=
  (layout w).field file sym (match w with | .elf32 => 1 | .elf64 => 4)

def stSize (w : ElfClass) (file : Bytes) (sym : Nat) : Option Nat :=
  (layout w).field file sym (match w with | .elf32 => 2 | .elf64 => 5)

def stInfo (w : ElfClass) (file : Bytes) (sym : Nat) : Option Nat :=
  (layout w).field file sym (match w with | .elf32 => 3 | .elf64 => 1)

/-- `ELF_ST_TYPE` of the value, and `STT_FUNC`. -/
def stType (info : Nat) : Nat := info % 16

def sttFunc : Nat := 2

end Sym

/-! ## A longer file -/

theorem Ehdr.read_append {w : ElfClass} {file : Bytes} {header : Ehdr} (h : Ehdr.read w file = some header)
    (t : Bytes) :
    Ehdr.read w (file ++ t) = some header := by
  unfold Ehdr.read at h ⊢
  cases hd : Layout.decode file (layout w) 0 with
  | none => rw [hd] at h; cases h
  | some xs => rw [Layout.decode_append t hd]; rwa [hd] at h

theorem Shdr.read_append {w : ElfClass} {file : Bytes} {off : Nat} {s : Shdr} (h : Shdr.read w file off = some s)
    (t : Bytes) : Shdr.read w (file ++ t) off = some s := by
  unfold Shdr.read at h ⊢
  cases hd : Layout.decode file (layout w) off with
  | none => rw [hd] at h; cases h
  | some xs => rw [Layout.decode_append t hd]; rwa [hd] at h

theorem Shdr.offsetAt_append {w : ElfClass} {file : Bytes} {off x : Nat} (h : Shdr.offsetAt w file off = some x)
    (t : Bytes) : Shdr.offsetAt w (file ++ t) off = some x := Binary.word_append h t

/-! ## Written headers -/

def ShType.toNat : ShType → Nat
  | .progbits => 1
  | .symtab   => 2
  | .strtab   => 3
  | .hash     => 5
  | .dynsym   => 11
  | .gnuHash  => 0x6ffffff6
  | .other n  => n

def Shdr.encode (w : ElfClass) (s : Shdr) : Bytes := (Shdr.layout w).encode
  [s.shName, s.shType.toNat, 0, s.shAddr, s.shOffset, s.shSize, s.shLink, 0, 1, s.shEntsize]

end JLSPlant
