import JLSPlant.Elf
/-!
# ElfImg — the section scan of `Open` and the two-table symbol lookup

A pointer into the mapped file is its offset from the header, or null.  Every read of the file is an `Option`,
`none` when it leaves the file; so is a division by a zero `sh_entsize`.  The counters of the searches are natural
numbers, where the source has an `int`, which overflows only in a table of 2^31 entries.
-/
namespace JLSPlant

open Binary (Bytes Layout CString word strcmp strncmp search)

abbrev Ptr := Option Nat

structure HashFields where
  nbucket : Nat := 0
  bucket : Ptr := none
  chain : Ptr := none
deriving DecidableEq

structure GnuHashFields where
  nbucket : Nat := 0
  symndx : Nat := 0
  bloomSize : Nat := 0
  shift2 : Nat := 0
  bloomFilter : Ptr := none
  bucket : Ptr := none
  chain : Ptr := none
deriving DecidableEq

structure ElfImg where
  base : Nat := 0
  bias : Int := -4396
  strtab : Ptr := none
  dynsym : Ptr := none
  dynsymCount : Nat := 0
  symtabStart : Ptr := none
  dynsymStart : Ptr := none
  strtabStart : Ptr := none
  symtabCount : Nat := 0
  symstrOffset : Nat := 0
  symstrOffsetForSymtab : Nat := 0
  symtabOffset : Nat := 0
  dynsymOffset : Nat := 0
  symtabSize : Nat := 0
  dynsymSize : Nat := 0
  hash : HashFields := {}
  gnuHash : GnuHashFields := {}
deriving DecidableEq

def symtabName : CString := ⟨[46, 115, 121, 109, 116, 97, 98], by decide⟩

def strtabName : CString := ⟨[46, 115, 116, 114, 116, 97, 98], by decide⟩

namespace ElfImg

/-! ## `Open`, from the mapped file on -/

def readHash (w : ElfClass) (file : Bytes) (off : Nat) : Option HashFields := do
  let nbucket ← word file off 4
  let bucket := w.wrap (off + 2 * 4)
  some ⟨nbucket, some bucket, some (w.wrap (bucket + nbucket * 4))⟩

/-- `SHT_GNU_HASH`: four words of native width, each kept in 32 bits, then bloom filter, buckets and chains. -/
def readGnuHash (w : ElfClass) (file : Bytes) (off : Nat) : Option GnuHashFields := do
  let nbucket ← word file off w.bytes
  let symndx ← word file (w.wrap (off + w.bytes)) w.bytes
  let bloomSize ← word file (w.wrap (off + 2 * w.bytes)) w.bytes
  let shift2 ← word file (w.wrap (off + 3 * w.bytes)) w.bytes
  let nbucket : Nat := nbucket % 2 ^ 32
  let symndx : Nat := symndx % 2 ^ 32
  let bloomSize : Nat := bloomSize % 2 ^ 32
  let bloomFilter := w.wrap (off + 4 * w.bytes)
  let bucket := w.wrap (bloomFilter + bloomSize * w.bytes)
  let chain := ((bucket + nbucket * 4 - symndx * 4 : Int) % w.modulus).toNat
  some ⟨nbucket, symndx, bloomSize, shift2 % 2 ^ 32, some bloomFilter, some bucket, some chain⟩

/-- One round of the section loop, on the header at `shoff`. -/
def sectionStep (w : ElfClass) (file : Bytes) (sectionStr shoff : Nat) (e : ElfImg) : Option ElfImg := do
  let sectionH ← Shdr.read w file shoff
  let sname := w.wrap (sectionH.shName + sectionStr)
  match sectionH.shType with
  | .dynsym =>
    if e.bias = -4396 then
      if sectionH.shEntsize = 0 then none else
      some { e with
        dynsym := some shoff, dynsymOffset := sectionH.shOffset, dynsymSize := sectionH.shSize
        dynsymCount := sectionH.shSize / sectionH.shEntsize, dynsymStart := some sectionH.shOffset }
    else some e
  | .symtab =>
    if ← strcmp file sname symtabName then
      if sectionH.shEntsize = 0 then none else
      some { e with
        symtabOffset := sectionH.shOffset, symtabSize := sectionH.shSize
        symtabCount := sectionH.shSize / sectionH.shEntsize, symtabStart := some sectionH.shOffset }
    else some e
  | .strtab =>
    let e := if e.bias = -4396 then
        { e with strtab := some shoff, symstrOffset := sectionH.shOffset, strtabStart := some sectionH.shOffset }
      else e
    if ← strcmp file sname strtabName then some { e with symstrOffsetForSymtab := sectionH.shOffset } else some e
  | .progbits =>
    if e.strtab = none ∨ e.dynsym = none then some e
    else if e.bias = -4396 then some { e with bias := sectionH.skew w } else some e
  | .hash =>
    let hash ← readHash w file sectionH.shOffset
    some { e with hash := hash }
  | .gnuHash =>
    let gnuHash ← readGnuHash w file sectionH.shOffset
    some { e with gnuHash := gnuHash }
  | .other _ => some e

/-- The section loop: `n` rounds, `e_shentsize` bytes apart. -/
def sectionLoop (w : ElfClass) (file : Bytes) (sectionStr eShentsize : Nat) : Nat → Nat → ElfImg → Option ElfImg
  | 0, _, e         => some e
  | n + 1, shoff, e => do
    let e ← e.sectionStep w file sectionStr shoff
    sectionLoop w file sectionStr eShentsize n (w.wrap (shoff + eShentsize)) e

/-- `section_str`: the header `section_header[e_shstrndx]` is looked up in an array of `Elf_Shdr`. -/
def sectionStr (w : ElfClass) (file : Bytes) (header : Ehdr) : Option Nat :=
  Shdr.offsetAt w file (w.wrap (header.eShoff + header.eShstrndx * Shdr.sizeOf w))

/-- **`Open`, once the file is mapped**, with the module base that `getModuleBase` finds. -/
def openMapped (w : ElfClass) (file : Bytes) (base : Nat) : Option ElfImg := do
  let header ← Ehdr.read w file
  let str ← sectionStr w file header
  let e ← sectionLoop w file str header.eShentsize header.eShnum header.eShoff {}
  some { e with base := base }

/-! ## The lookup -/

/-- `strcmp(s, name) == 0 || (match_prefix && strncmp(s, name, strlen(name)) == 0)`. -/
def nameMatches (file : Bytes) (s : Nat) (name : CString) (matchPrefix : Bool) : Option Bool := do
  if ← strcmp file s name then some true
  else if matchPrefix then strncmp file s name else some false

def symAt (w : ElfClass) (start k : Nat) : Nat := w.wrap (start + k * Sym.sizeOf w)

/-- The `k`-th symbol of the table at `start`, and where its name is in the strings at `strings`. -/
def symName (w : ElfClass) (file : Bytes) (start strings k : Nat) : Option (Nat × Nat) := do
  let stName ← Sym.stName w file (symAt w start k)
  some (symAt w start k, w.wrap (strings + stName))

def dynsymRound (w : ElfClass) (file : Bytes) (start strings : Nat) (name : CString) (matchPrefix : Bool) (k : Nat) :
    Option (Option Nat) := do
  let (sym, s) ← symName w file start strings k
  if ← nameMatches file s name matchPrefix then
    let stValue ← Sym.stValue w file sym
    some (some stValue)
  else some none

def symtabRound (w : ElfClass) (file : Bytes) (start strings : Nat) (name : CString) (matchPrefix : Bool) (i : Nat) :
    Option (Option Nat) := do
  let stInfo ← Sym.stInfo w file (symAt w start i)
  let (sym, stName) ← symName w file start strings i
  if Sym.stType stInfo = Sym.sttFunc then
    let stSize ← Sym.stSize w file sym
    if stSize ≠ 0 then
      if ← nameMatches file stName name matchPrefix then
        let stValue ← Sym.stValue w file sym
        some (some stValue)
      else some none
    else some none
  else some none

def searchDynsym (w : ElfClass) (file : Bytes) (e : ElfImg) (name : CString) (matchPrefix : Bool) :
    Option (Option Nat) :=
  match e.dynsymStart, e.strtabStart with
  | some start, some strings => search (dynsymRound w file start strings name matchPrefix) e.dynsymCount 0
  | _, _                     => some none

def searchSymtab (w : ElfClass) (file : Bytes) (e : ElfImg) (name : CString) (matchPrefix : Bool) :
    Option (Option Nat) :=
  match e.symtabStart with
  | some start =>
    if e.symstrOffsetForSymtab ≠ 0 then
      search (symtabRound w file start e.symstrOffsetForSymtab name matchPrefix) e.symtabCount 0
    else some none
  | none => some none

def getSymbolOffset (w : ElfClass) (file : Bytes) (e : ElfImg) (name : CString) (matchPrefix : Bool) :
    Option Nat := do
  match ← searchDynsym w file e name matchPrefix with
  | some offset => some offset
  | none =>
    match ← searchSymtab w file e name matchPrefix with
    | some offset => some offset
    | none        => some 0

/-- 0 is `nullptr`. -/
def getSymbolAddress (w : ElfClass) (file : Bytes) (e : ElfImg) (name : CString) (matchPrefix : Bool) :
    Option Nat := do
  let offset ← getSymbolOffset w file e name matchPrefix
  if offset > 0 ∧ e.base ≠ 0 then some ((e.base + offset - e.bias : Int) % w.modulus).toNat else some 0

end ElfImg
end JLSPlant
