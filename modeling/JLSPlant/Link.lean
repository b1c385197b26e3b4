import JLSPlant.Lookup
import JLSPlant.SymbolAddress
import JLSPlant.Written
/-!
# Link — a reference linker, and what `ElfImg` finds in the files it writes

An object is two lists of symbols, some code and the address it is linked at; `SharedObject.bytes` writes it as a
shared library of one segment, with the sections in a linker's order: dynamic symbols and their strings, code,
static symbols and theirs, the names of the sections.  `Open` reads the tables back
(`SharedObject.Fits.openMapped`), and a lookup gives the value of the first symbol of the lists that answers
(`linked_lookup`).
-/
namespace JLSPlant

open Binary (Bytes Layout CString Holds holds_append)

/-- **A symbol that fits its record.** -/
structure SymbolEntry (w : ElfClass) where
  name : CString
  value : Nat
  size : Nat
  info : Nat
  value_lt : value < w.modulus
  size_lt : size < w.modulus
  info_lt : info < 256

namespace SymbolEntry

variable {w : ElfClass}

def symbol (e : SymbolEntry w) : Symbol := ⟨e.name.bytes, e.value, e.size, Sym.stType e.info⟩

/-- The fields of the symbol's record, in the order of the word size. -/
def fields (e : SymbolEntry w) (stName : Nat) : List Nat :=
  match w with
  | .elf32 => [stName, e.value, e.size, e.info, 0, 0]
  | .elf64 => [stName, e.info, 0, 0, e.value, e.size]

end SymbolEntry

variable {w : ElfClass}

def stringTable (l : List (SymbolEntry w)) : Bytes := Binary.strings (l.map SymbolEntry.name)

def symbolRecords (l : List (SymbolEntry w)) : List Bytes :=
  l.mapIdx fun i e => (Sym.layout w).encode (e.fields (Binary.stringAt (l.map SymbolEntry.name) i))

def symbolTable (l : List (SymbolEntry w)) : Bytes := (symbolRecords l).flatten

/-- The strings `""`, `".symtab"` and `".strtab"`. -/
def sectionNames : List CString := [⟨[], by decide⟩, symtabName, strtabName]

/-- **What is to be linked**, at an address that is that of a page. -/
structure SharedObject (w : ElfClass) where
  dynamic : List (SymbolEntry w)
  static : List (SymbolEntry w)
  code : Bytes
  vaddr : Nat
  page : 4096 ∣ vaddr

namespace SharedObject

variable (o : SharedObject w)

def dynsymOff (w : ElfClass) : Nat := (Ehdr.layout w).size + (Phdr.layout w).size

def dynstrOff : Nat := dynsymOff w + o.dynamic.length * Sym.sizeOf w

def codeOff : Nat := o.dynstrOff + (stringTable o.dynamic).length

def symtabOff : Nat := o.codeOff + o.code.length

def strtabOff : Nat := o.symtabOff + o.static.length * Sym.sizeOf w

def namesOff : Nat := o.strtabOff + (stringTable o.static).length

def headersOff : Nat := o.namesOff + (Binary.strings sectionNames).length

def headers : List Shdr :=
  [⟨0, .other 0, 0, 0, 0, 0, 0⟩,
    ⟨0, .dynsym, o.vaddr + dynsymOff w, dynsymOff w, o.dynamic.length * Sym.sizeOf w, 2, Sym.sizeOf w⟩,
    ⟨0, .strtab, o.vaddr + o.dynstrOff, o.dynstrOff, (stringTable o.dynamic).length, 0, 0⟩,
    ⟨0, .progbits, o.vaddr + o.codeOff, o.codeOff, o.code.length, 0, 0⟩,
    ⟨1, .symtab, 0, o.symtabOff, o.static.length * Sym.sizeOf w, 5, Sym.sizeOf w⟩,
    ⟨9, .strtab, 0, o.strtabOff, (stringTable o.static).length, 0, 0⟩,
    ⟨0, .strtab, 0, o.namesOff, (Binary.strings sectionNames).length, 0, 0⟩]

def size : Nat := o.headersOff + 7 * Shdr.sizeOf w

/-- A shared library (`ET_DYN`) with one program header and seven sections. -/
def ehdr : List Nat :=
  [0, 3, 0, 1, 0, (Ehdr.layout w).size, o.headersOff, 0, (Ehdr.layout w).size, (Phdr.layout w).size, 1,
    Shdr.sizeOf w, 7, 6]

def segment : Phdr := ⟨Phdr.ptLoad, 0, o.vaddr, o.size⟩

def phdr : List Nat :=
  match w with
  | .elf32 => [Phdr.ptLoad, 0, o.vaddr, o.vaddr, o.size, o.size, 5, 4096]
  | .elf64 => [Phdr.ptLoad, 5, 0, o.vaddr, o.vaddr, o.size, o.size, 4096]

/-- **The file.** -/
def bytes : Bytes :=
  (Ehdr.layout w).encode o.ehdr ++ ((Phdr.layout w).encode o.phdr ++
    (symbolTable o.dynamic ++ (stringTable o.dynamic ++
    (o.code ++ (symbolTable o.static ++ (stringTable o.static ++ (Binary.strings sectionNames ++
      (o.headers.map (Shdr.encode w)).flatten)))))))

/-- The file is shorter than 4 GiB, and what is linked ends within the address space. -/
structure Fits : Prop where
  size : o.size < 2 ^ 32
  end_ : o.vaddr + o.size < w.modulus

end SharedObject

/-! ## The records -/

theorem SymbolEntry.takes (e : SymbolEntry w) {stName : Nat} (h : stName < 2 ^ 32) :
    (Sym.layout w).Takes (e.fields stName) := by
  obtain ⟨name, value, size, info, hv, hs, hi⟩ := e
  cases w with
  | elf32 => exact ⟨h, hv, hs, hi, by decide, by decide, trivial⟩
  | elf64 => exact ⟨h, hi, by decide, by decide, hv, hs, trivial⟩

theorem Sym.read_fields {file : Bytes} {sym stName : Nat} {e : SymbolEntry w}
    (h : Layout.decode file (Sym.layout w) sym = some (e.fields stName)) :
    Sym.stName w file sym = some stName ∧ Sym.stValue w file sym = some e.value ∧
    Sym.stSize w file sym = some e.size ∧
      Sym.stInfo w file sym = some e.info := by
  cases w <;> exact ⟨Layout.field_of_decode h rfl, Layout.field_of_decode h rfl, Layout.field_of_decode h rfl,
    Layout.field_of_decode h rfl⟩

/-- **A table of symbols that was written is read.** -/
theorem read_symbolTable {file : Bytes} {l : List (SymbolEntry w)} {start strs : Nat}
    (hsize : file.length < w.modulus)
    (htable : Holds file start (symbolTable l)) (hstrs : Holds file strs (stringTable l))
    (hshort : (stringTable l).length < 2 ^ 32) :
    Binary.table (Symbol.read w file start strs) l.length 0 = some (l.map SymbolEntry.symbol) := by
  refine Binary.table_eq_map fun i e hi => ?_
  have hname : (l.map SymbolEntry.name)[i]? = some e.name := by rw [List.getElem?_map, hi]; rfl
  have hstName : Binary.stringAt (l.map SymbolEntry.name) i < 2 ^ 32 :=
    Nat.lt_of_le_of_lt (Binary.stringAt_le _ i) hshort
  have hlength : ∀ p ∈ symbolRecords l, p.length = Sym.sizeOf w := fun p hp => by
    obtain ⟨j, hj, rfl⟩ := List.mem_mapIdx.1 hp
    exact Layout.length_encode ((l[j]).takes (Nat.lt_of_le_of_lt (Binary.stringAt_le _ j) hshort))
  have hrecord : (symbolRecords l)[i]? =
      some ((Sym.layout w).encode (e.fields (Binary.stringAt (l.map SymbolEntry.name) i))) := by
    rw [symbolRecords, List.getElem?_mapIdx, hi]; rfl
  have hholds := htable.flatten hlength hrecord
  obtain ⟨hn, hv, hs, hinfo⟩ := Sym.read_fields (hholds.decode (e.takes hstName))
  have hcstring := hstrs.strings hname
  have hsym : ElfImg.symAt w start (0 + i) = start + i * Sym.sizeOf w := by
    have hle := hholds.le (by rw [Layout.length_encode (e.takes hstName)]; exact Sym.sizeOf_pos w)
    rw [Nat.zero_add]
    exact Nat.mod_eq_of_lt (by omega)
  have hat : w.wrap (strs + Binary.stringAt (l.map SymbolEntry.name) i) =
      strs + Binary.stringAt (l.map SymbolEntry.name) i :=
    Nat.mod_eq_of_lt (Nat.lt_trans (Binary.cstring_lt hcstring) hsize)
  unfold Symbol.read ElfImg.symName
  simp only [hsym, hn, hat, hcstring, hv, hs, hinfo, Option.bind_eq_bind, Option.bind_some]
  rfl

theorem length_symbolTable {l : List (SymbolEntry w)} (hshort : (stringTable l).length < 2 ^ 32) :
    (symbolTable l).length = l.length * Sym.sizeOf w := by
  have hlength : ∀ p ∈ symbolRecords l, p.length = Sym.sizeOf w := fun p hp => by
    obtain ⟨j, hj, rfl⟩ := List.mem_mapIdx.1 hp
    exact Layout.length_encode ((l[j]).takes (Nat.lt_of_le_of_lt (Binary.stringAt_le _ j) hshort))
  rw [symbolTable, Binary.length_flatten_of_eq hlength]
  simp [symbolRecords]

/-- The fields of the header fit its record. -/
structure Shdr.Writable (w : ElfClass) (s : Shdr) : Prop where
  name : s.shName < 2 ^ 32
  type : s.shType.toNat < 2 ^ 32 ∧ ShType.ofNat s.shType.toNat = s.shType
  addr : s.shAddr < w.modulus
  offset : s.shOffset < w.modulus
  size : s.shSize < w.modulus
  link : s.shLink < 2 ^ 32
  entsize : s.shEntsize < w.modulus

theorem Shdr.Writable.takes {s : Shdr} (h : s.Writable w) : (Shdr.layout w).Takes
    [s.shName, s.shType.toNat, 0, s.shAddr, s.shOffset, s.shSize, s.shLink, 0, 1, s.shEntsize] :=
  ⟨h.name, h.type.1, Nat.pow_pos (by decide), h.addr, h.offset, h.size, h.link, by decide,
    Nat.one_lt_pow (by cases w <;> decide) (by decide), h.entsize, trivial⟩

theorem Shdr.length_encode {s : Shdr} (h : s.Writable w) : (s.encode w).length = Shdr.sizeOf w :=
  Layout.length_encode h.takes

/-- **A section header that was written is read.** -/
theorem Shdr.read_encode {file : Bytes} {off : Nat} {s : Shdr} (hholds : Holds file off (s.encode w))
    (h : s.Writable w) : Shdr.read w file off = some s := by
  have hd := Holds.decode hholds h.takes
  unfold Shdr.read
  rw [hd]
  simp only [h.type.2]

/-! ## The file -/

namespace SharedObject

variable (o : SharedObject w)

theorem pow_le_modulus (w : ElfClass) : 2 ^ 32 ≤ w.modulus := by cases w <;> decide

/-- The parts follow one another. -/
theorem offsets : dynsymOff w ≤ o.dynstrOff ∧ o.dynstrOff ≤ o.codeOff ∧ o.codeOff ≤ o.symtabOff ∧
    o.symtabOff ≤ o.strtabOff ∧ o.strtabOff ≤ o.namesOff ∧ o.namesOff ≤ o.headersOff ∧ o.headersOff ≤ o.size :=
  ⟨Nat.le_add_right _ _, Nat.le_add_right _ _, Nat.le_add_right _ _, Nat.le_add_right _ _, Nat.le_add_right _ _,
    Nat.le_add_right _ _, Nat.le_add_right _ _⟩

variable {o}

theorem Fits.ehdr_takes (hf : o.Fits) : (Ehdr.layout w).Takes o.ehdr := by
  have hle := o.offsets
  have hsize := hf.size
  have hmod := pow_le_modulus w
  have hoff : o.headersOff < 256 ^ w.bytes := Nat.lt_of_lt_of_le (by omega) hmod
  unfold Ehdr.layout ehdr
  cases w <;>
    exact ⟨by decide, by decide, by decide, by decide, by decide, by decide, hoff, by decide, by decide,
      by decide, by decide, by decide, by decide, by decide, trivial⟩

theorem Fits.phdr_takes (hf : o.Fits) : (Phdr.layout w).Takes o.phdr := by
  have hsize := hf.size
  have hend := hf.end_
  have hmod := pow_le_modulus w
  have hvaddr : o.vaddr < w.modulus := by omega
  have hsize' : o.size < w.modulus := by omega
  unfold phdr
  cases w with
  | elf32 => exact ⟨by decide, by decide, hvaddr, hvaddr, hsize', hsize', by decide, by decide, trivial⟩
  | elf64 => exact ⟨by decide, by decide, by decide, hvaddr, hvaddr, hsize', hsize', by decide, trivial⟩

theorem Fits.headers_writable (hf : o.Fits) : ∀ s ∈ o.headers, s.Writable w := by
  have hsize := hf.size
  have hend := hf.end_
  have hmod := pow_le_modulus w
  have hle := o.offsets
  have hentsize : Sym.sizeOf w < w.modulus := by cases w <;> decide
  have hpos := w.modulus_pos
  intro s hs
  simp only [headers, List.mem_cons, List.not_mem_nil, or_false] at hs
  have hbelow : ∀ off len : Nat, off + len ≤ o.size → o.vaddr + off < w.modulus ∧ off < w.modulus ∧
      len < w.modulus := by
    intro off len h
    omega
  rcases hs with rfl | rfl | rfl | rfl | rfl | rfl | rfl
  · exact ⟨by simp, by simp [ShType.toNat, ShType.ofNat], hpos, hpos, hpos, by simp, hpos⟩
  · obtain ⟨ha, ho, hl⟩ := hbelow (dynsymOff w) (o.dynamic.length * Sym.sizeOf w) (by
      unfold dynstrOff at hle; omega)
    exact ⟨by simp, by simp [ShType.toNat, ShType.ofNat], ha, ho, hl, by simp, hentsize⟩
  · obtain ⟨ha, ho, hl⟩ := hbelow o.dynstrOff (stringTable o.dynamic).length (by
      unfold codeOff at hle; omega)
    exact ⟨by simp, by simp [ShType.toNat, ShType.ofNat], ha, ho, hl, by simp, hpos⟩
  · obtain ⟨ha, ho, hl⟩ := hbelow o.codeOff o.code.length (by unfold symtabOff at hle; omega)
    exact ⟨by simp, by simp [ShType.toNat, ShType.ofNat], ha, ho, hl, by simp, hpos⟩
  · obtain ⟨-, ho, hl⟩ := hbelow o.symtabOff (o.static.length * Sym.sizeOf w) (by
      unfold strtabOff at hle; omega)
    exact ⟨by simp, by simp [ShType.toNat, ShType.ofNat], hpos, ho, hl, by simp, hentsize⟩
  · obtain ⟨-, ho, hl⟩ := hbelow o.strtabOff (stringTable o.static).length (by
      unfold namesOff at hle; omega)
    exact ⟨by simp, by simp [ShType.toNat, ShType.ofNat], hpos, ho, hl, by simp, hpos⟩
  · obtain ⟨-, ho, hl⟩ := hbelow o.namesOff (Binary.strings sectionNames).length (by
      unfold headersOff at hle; omega)
    exact ⟨by simp, by simp [ShType.toNat, ShType.ofNat], hpos, ho, hl, by simp, hpos⟩

/-- **Where the parts of the file are.** -/
structure Parts (o : SharedObject w) : Prop where
  length : o.bytes.length = o.size
  ehdr : Holds o.bytes 0 ((Ehdr.layout w).encode o.ehdr)
  phdr : Holds o.bytes (Ehdr.layout w).size ((Phdr.layout w).encode o.phdr)
  dynsym : Holds o.bytes (dynsymOff w) (symbolTable o.dynamic)
  dynstr : Holds o.bytes o.dynstrOff (stringTable o.dynamic)
  symtab : Holds o.bytes o.symtabOff (symbolTable o.static)
  strtab : Holds o.bytes o.strtabOff (stringTable o.static)
  names : Holds o.bytes o.namesOff (Binary.strings sectionNames)
  headers : Holds o.bytes o.headersOff (o.headers.map (Shdr.encode w)).flatten

theorem Fits.parts (hf : o.Fits) : o.Parts := by
  have hsize := hf.size
  have hle := o.offsets
  have hdynstr : (stringTable o.dynamic).length < 2 ^ 32 := by
    have : o.codeOff = o.dynstrOff + (stringTable o.dynamic).length := rfl
    omega
  have hstrtab : (stringTable o.static).length < 2 ^ 32 := by
    have : o.namesOff = o.strtabOff + (stringTable o.static).length := rfl
    omega
  have h₀ := Binary.holds_self o.bytes
  have h₁ := Holds.right (p := (Ehdr.layout w).encode o.ehdr) h₀
  rw [Nat.zero_add, Layout.length_encode hf.ehdr_takes] at h₁
  have h₂ := h₁.right
  rw [Layout.length_encode hf.phdr_takes] at h₂
  have h₃ := h₂.right
  rw [length_symbolTable hdynstr] at h₃
  have h₄ := h₃.right
  have h₅ := h₄.right
  have h₆ := h₅.right
  rw [length_symbolTable hstrtab] at h₆
  have h₇ := h₆.right
  have h₈ := h₇.right
  refine ⟨?_, Holds.left h₀, h₁.left, h₂.left, h₃.left, h₅.left, h₆.left, h₇.left, h₈⟩
  have hheaders : (o.headers.map (Shdr.encode w)).flatten.length = 7 * Shdr.sizeOf w := by
    rw [Binary.length_flatten_of_eq (n := Shdr.sizeOf w)]
    · rfl
    · intro p hp
      obtain ⟨s, hs, rfl⟩ := List.mem_map.1 hp
      exact Shdr.length_encode (hf.headers_writable s hs)
  unfold bytes
  simp only [List.length_append, Layout.length_encode hf.ehdr_takes, Layout.length_encode hf.phdr_takes,
    length_symbolTable hdynstr, length_symbolTable hstrtab, hheaders, SharedObject.size, headersOff,
    namesOff, strtabOff,
    symtabOff, codeOff, dynstrOff, dynsymOff]
  omega

/-! ## What `Open` reads -/

variable (o) in
def header : Ehdr := ⟨(Ehdr.layout w).size, o.headersOff, (Phdr.layout w).size, 1, Shdr.sizeOf w, 7, 6⟩

variable (o) in
/-- The sections as the loop meets them: the static tables have the names it looks for. -/
def sections : List Section := o.headers.mapIdx fun i s =>
  { shoff := o.headersOff + i * Shdr.sizeOf w, header := s, named := i == 4 || i == 5 }

theorem Fits.modulus (hf : o.Fits) : o.size < w.modulus := Nat.lt_of_lt_of_le hf.size (pow_le_modulus w)

theorem Fits.read_header (hf : o.Fits) : Ehdr.read w o.bytes = some o.header := by
  have hd := hf.parts.ehdr.decode hf.ehdr_takes
  unfold Ehdr.read
  rw [hd]
  rfl

theorem Fits.read_shdr (hf : o.Fits) {i : Nat} {s : Shdr} (hi : o.headers[i]? = some s) :
    Shdr.read w o.bytes (o.headersOff + i * Shdr.sizeOf w) = some s := by
  have hlength : ∀ p ∈ o.headers.map (Shdr.encode w), p.length = Shdr.sizeOf w := fun p hp => by
    obtain ⟨x, hx, rfl⟩ := List.mem_map.1 hp
    exact Shdr.length_encode (hf.headers_writable x hx)
  refine Shdr.read_encode (hf.parts.headers.flatten hlength ?_) (hf.headers_writable s (List.mem_of_getElem? hi))
  rw [List.getElem?_map, hi]; rfl

theorem Fits.sectionStr (hf : o.Fits) : ElfImg.sectionStr w o.bytes o.header = some o.namesOff := by
  have hwrap : w.wrap (o.header.eShoff + o.header.eShstrndx * Shdr.sizeOf w) = o.headersOff + 6 * Shdr.sizeOf w := by
    refine Nat.mod_eq_of_lt (Nat.lt_of_lt_of_le ?_ (Nat.le_of_lt hf.modulus))
    exact Nat.add_lt_add_left (Nat.mul_lt_mul_of_pos_right (show 6 < 7 by decide) (by cases w <;> decide)) _
  unfold ElfImg.sectionStr
  have hinside : o.headersOff + 6 * Shdr.sizeOf w + ((Shdr.layout w).take 4).sum < w.modulus := by
    have hfield : ((Shdr.layout w).take 4).sum < Shdr.sizeOf w := by cases w <;> decide
    have hend : o.size = o.headersOff + 7 * Shdr.sizeOf w := rfl
    have hmodulus := hf.modulus
    omega
  rw [hwrap, Shdr.offsetAt_eq hinside]
  exact Shdr.shOffset_of_read (hf.read_shdr (i := 6) rfl)

/-- The name of a section is compared with a string of the table. -/
theorem Fits.strcmp_name (hf : o.Fits) {j : Nat} {s : CString} (hj : sectionNames[j]? = some s) (name : CString) :
    Binary.strcmp o.bytes (w.wrap (Binary.stringAt sectionNames j + o.namesOff)) name =
      some (decide (s.bytes = name.bytes)) := by
  have hcstring := hf.parts.names.strings hj
  have hlt := Binary.cstring_lt hcstring
  rw [hf.parts.length] at hlt
  have hwrap : w.wrap (Binary.stringAt sectionNames j + o.namesOff) =
      o.namesOff + Binary.stringAt sectionNames j := by
    rw [Nat.add_comm]
    exact Nat.mod_eq_of_lt (Nat.lt_trans hlt hf.modulus)
  rw [hwrap]
  exact Binary.strcmp_eq hcstring name

theorem Fits.read_section (hf : o.Fits) : ∀ {i : Nat} {s : Section}, o.sections[i]? = some s →
    Section.read w o.bytes o.namesOff (o.headersOff + i * Shdr.sizeOf w) = some s := by
  intro i s hi
  rw [sections, List.getElem?_mapIdx] at hi
  obtain ⟨x, hx, rfl⟩ := Option.map_eq_some_iff.1 hi
  have hread := hf.read_shdr hx
  have hempty : Binary.strcmp o.bytes (w.wrap (0 + o.namesOff)) strtabName = some false :=
    hf.strcmp_name (j := 0) rfl strtabName
  have hsymtab : Binary.strcmp o.bytes (w.wrap (1 + o.namesOff)) symtabName = some true :=
    hf.strcmp_name (j := 1) rfl symtabName
  have hstrtab : Binary.strcmp o.bytes (w.wrap (9 + o.namesOff)) strtabName = some true :=
    hf.strcmp_name (j := 2) rfl strtabName
  unfold Section.read
  rw [hread, Option.bind_eq_bind, Option.bind_some]
  rcases i with _ | _ | _ | _ | _ | _ | _ | i
  · cases hx; rfl
  · cases hx; rfl
  · cases hx; simp only [hempty]; rfl
  · cases hx; rfl
  · cases hx; simp only [hsymtab]; rfl
  · cases hx; simp only [hstrtab]; rfl
  · cases hx; simp only [hempty]; rfl
  · cases hx

theorem readAll_eq {file : Bytes} {str stride : Nat} : ∀ {l : List Section} {off : Nat},
    (∀ i s, l[i]? = some s → Section.read w file str (off + i * stride) = some s) →
    off + l.length * stride < w.modulus →
      Section.readAll w file str stride l.length off = some l
  | [], _, _, _ => rfl
  | s :: l, off, h, hlt => by
    rw [List.length_cons, Nat.succ_mul] at hlt
    have hfirst : Section.read w file str off = some s := by
      have := h 0 s rfl
      rwa [Nat.zero_mul] at this
    have hwrap : w.wrap (off + stride) = off + stride := Nat.mod_eq_of_lt (by omega)
    have hafter : ∀ i x, l[i]? = some x → Section.read w file str (off + stride + i * stride) = some x :=
      fun i x hi => by
      have := h (i + 1) x hi
      rwa [Nat.succ_mul, Nat.add_comm (i * stride), ← Nat.add_assoc] at this
    have hrest := readAll_eq hafter (by omega)
    rw [List.length_cons, Section.readAll, hfirst, Option.bind_eq_bind, Option.bind_some, hwrap, hrest]
    rfl

/-- **The loop meets the sections that were written.** -/
theorem Fits.sections (hf : o.Fits) : ElfImg.sections w o.bytes = some o.sections := by
  have hall : Section.readAll w o.bytes o.namesOff (Shdr.sizeOf w) o.sections.length o.headersOff = some o.sections :=
    readAll_eq (fun _ _ hi => hf.read_section hi) hf.modulus
  unfold ElfImg.sections
  rw [hf.read_header, Option.bind_eq_bind, Option.bind_some, hf.sectionStr, Option.bind_eq_bind, Option.bind_some]
  exact hall

theorem sizeOf_sym_ne (w : ElfClass) : Sym.sizeOf w ≠ 0 := Nat.ne_of_gt (Sym.sizeOf_pos w)

theorem divides : ∀ s ∈ o.sections, s.Divides := by
  intro s hs
  obtain ⟨i, hi, rfl⟩ := List.mem_mapIdx.1 hs
  have hmem : o.headers[i] ∈ o.headers := List.getElem_mem hi
  generalize o.headers[i] = x at hmem
  simp only [headers, List.mem_cons, List.not_mem_nil, or_false] at hmem
  unfold Section.Divides
  rcases hmem with rfl | rfl | rfl | rfl | rfl | rfl | rfl <;> simp [sizeOf_sym_ne w]

/-- The code closes the latch: its skew is that of a page. -/
theorem skew_ne {s : Shdr} {off : Nat} (ha : s.shAddr = o.vaddr + off) (ho : s.shOffset = off) :
    s.skew w ≠ -4396 := by
  intro h
  have hpage : (4096 : Int) ∣ w.modulus := by cases w <;> decide
  have hdvd : (w.modulus : Int) ∣ s.skew w - (s.shAddr - s.shOffset) := Int.dvd_bmod_sub_self
  have hvaddr : (4096 : Int) ∣ (o.vaddr : Int) := Int.natCast_dvd_natCast.2 o.page
  have h4096 := Int.dvd_trans hpage hdvd
  rw [h, ha, ho] at h4096
  omega

variable (o) in
/-- The section of the code. -/
def text : Section where
  shoff := o.headersOff + 3 * Shdr.sizeOf w
  header := ⟨0, .progbits, o.vaddr + o.codeOff, o.codeOff, o.code.length, 0, 0⟩

theorem latch_sections : latch w o.sections = some (o.sections.take 3, o.text) := by
  have hskew : o.text.header.skew w ≠ -4396 := skew_ne rfl rfl
  have hcloses : closes w (o.sections.take 3) o.text = true := closes_iff.2 ⟨rfl, rfl, rfl, hskew⟩
  have hopen : ∀ {before : List Section} {s : Section} {l : List Section}, s.header.shType ≠ .progbits →
      latchFrom w before (s :: l) = latchFrom w (before ++ [s]) l := fun hs => by
    rw [latchFrom, if_neg (by simp [closes, Section.isProgbits, hs])]
  have hsplit : latch w o.sections = latchFrom w (o.sections.take 3) (o.text :: o.sections.drop 4) :=
    (hopen (by simp)).trans ((hopen (by simp)).trans (hopen (by simp)))
  rw [hsplit, latchFrom, if_pos hcloses]

theorem scanned_sections : ElfImg.scanned w o.sections =
    .ofSections o.sections (o.sections.take 3) (o.text.header.skew w) := by
  unfold ElfImg.scanned
  rw [latch_sections]

theorem scanned_tables :
    (ElfImg.scanned w o.sections).dynsymStart = some (dynsymOff w) ∧
    (ElfImg.scanned w o.sections).dynsymCount = o.dynamic.length ∧
    (ElfImg.scanned w o.sections).strtabStart = some o.dynstrOff ∧
    (ElfImg.scanned w o.sections).symtabStart = some o.symtabOff ∧
    (ElfImg.scanned w o.sections).symtabCount = o.static.length ∧
    (ElfImg.scanned w o.sections).symstrOffsetForSymtab = o.strtabOff := by
  rw [scanned_sections]
  have hcount : ∀ n, n * Sym.sizeOf w / Sym.sizeOf w = n := fun n => Nat.mul_div_cancel n (Sym.sizeOf_pos w)
  refine ⟨rfl, ?_, rfl, rfl, ?_, rfl⟩
  · exact hcount _
  · exact hcount _

/-! ## The round trip -/

variable (o) in
/-- **What a lookup is to find**: the dynamic symbols, then the static functions that have a size. -/
def symbols : List Symbol :=
  o.dynamic.map SymbolEntry.symbol ++ (o.static.map SymbolEntry.symbol).filter Symbol.isSizedFunction

variable (o) in
/-- Where the loader puts the first symbol that answers; null if there is none, or it is an import. -/
def address (loadBias : Nat) (name : CString) (matchPrefix : Bool) : Nat :=
  if firstValue o.symbols name matchPrefix = 0 then 0 else
    (loadBias + firstValue o.symbols name matchPrefix) % w.modulus

theorem Fits.openMapped (hf : o.Fits) (base : Nat) :
    ElfImg.openMapped w o.bytes base = some { ElfImg.scanned w o.sections with base := base } :=
  openMapped_of_sections hf.sections divides base

theorem Fits.short (hf : o.Fits) :
    (stringTable o.dynamic).length < 2 ^ 32 ∧ (stringTable o.static).length < 2 ^ 32 := by
  have hsize := hf.size
  have hle := o.offsets
  have hdynstr : o.codeOff = o.dynstrOff + (stringTable o.dynamic).length := rfl
  have hstrtab : o.namesOff = o.strtabOff + (stringTable o.static).length := rfl
  omega

theorem Fits.candidates (hf : o.Fits) (base : Nat) :
    ElfImg.candidates w o.bytes { ElfImg.scanned w o.sections with base := base } = some o.symbols := by
  obtain ⟨hstart, hcount, hstrs, hsymtab, hsymcount, hsymstrs⟩ := scanned_tables (o := o)
  have hlt : o.bytes.length < w.modulus := by rw [hf.parts.length]; exact hf.modulus
  have hdynamic := read_symbolTable hlt hf.parts.dynsym hf.parts.dynstr hf.short.1
  have hstatic := read_symbolTable hlt hf.parts.symtab hf.parts.strtab hf.short.2
  have hpos : o.strtabOff ≠ 0 := by
    have hle := o.offsets
    have hdynsym : 0 < dynsymOff w := by cases w <;> decide
    omega
  have hds : ElfImg.dynsyms w o.bytes { ElfImg.scanned w o.sections with base := base } =
      some (o.dynamic.map SymbolEntry.symbol) := by
    unfold ElfImg.dynsyms
    simp only [hstart, hcount, hstrs, hdynamic]
  have hss : ElfImg.symtabs w o.bytes { ElfImg.scanned w o.sections with base := base } =
      some (o.static.map SymbolEntry.symbol) := by
    unfold ElfImg.symtabs
    simp only [hsymtab, hsymcount, hsymstrs, if_pos hpos, hstatic]
  unfold ElfImg.candidates
  rw [hds, hss]
  rfl

theorem scanned_bias_dvd : (w.modulus : Int) ∣ (ElfImg.scanned w o.sections).bias - o.vaddr := by
  have hbias : (ElfImg.scanned w o.sections).bias = o.text.header.skew w := by rw [scanned_sections]; rfl
  rw [hbias, Shdr.skew_fits_iff]
  have hzero : ((o.vaddr + o.codeOff : Nat) : Int) - (o.codeOff : Int) - o.vaddr = 0 := by omega
  exact hzero ▸ Int.dvd_zero _

end SharedObject

/-- **`ElfImg` reads what the linker wrote**: it opens the file, a lookup of any name gives the value of the first
symbol that answers, and its address is where the loader put it, null for a name that is not defined. -/
theorem linked_lookup (w : ElfClass) (o : SharedObject w) (hf : o.Fits) (loadBias base : Nat)
    (hbase : base = w.wrap (loadBias + o.vaddr)) (hmapped : base ≠ 0) :
    ∃ e, ElfImg.openMapped w o.bytes base = some e ∧ ∀ name matchPrefix,
      e.getSymbolOffset w o.bytes name matchPrefix = some (firstValue o.symbols name matchPrefix) ∧
      e.getSymbolAddress w o.bytes name matchPrefix = some (o.address loadBias name matchPrefix) := by
  refine ⟨_, hf.openMapped base, fun name matchPrefix => ?_⟩
  have hoffset := getSymbolOffset_eq_firstValue (hf.candidates base) name matchPrefix
  refine ⟨hoffset, ?_⟩
  unfold ElfImg.getSymbolAddress SharedObject.address
  rw [hoffset, Option.bind_eq_bind, Option.bind_some]
  by_cases hzero : firstValue o.symbols name matchPrefix = 0
  · rw [if_pos hzero, if_neg (fun h => absurd hzero (Nat.ne_of_gt h.1))]
  · rw [if_neg hzero, if_pos ⟨Nat.pos_of_ne_zero hzero, hmapped⟩, Option.some.injEq]
    have hdvd : (w.modulus : Int) ∣ base - (loadBias + o.vaddr) := by
      rw [hbase, ElfClass.wrap, Int.natCast_emod, Int.natCast_add]
      exact Int.dvd_emod_sub_self
    exact (address_eq_iff w.modulus_pos hdvd).2 SharedObject.scanned_bias_dvd

/-- Two dynamic symbols, the second one an import, and a static function by the import's name. -/
def smallObject : SharedObject .elf64 where
  dynamic := [⟨symbolF, 400, 8, 18, by decide, by decide, by decide⟩,
    ⟨symbolFg, 0, 0, 18, by decide, by decide, by decide⟩]
  static := [⟨symbolFg, 408, 8, 18, by decide, by decide, by decide⟩]
  code := List.replicate 16 0
  vaddr := 4096
  page := by decide

theorem smallObject_fits : smallObject.Fits := ⟨by decide, by decide⟩

theorem smallObject_lookup : ∃ e, ElfImg.openMapped .elf64 smallObject.bytes 69632 = some e ∧
    e.getSymbolAddress .elf64 smallObject.bytes symbolF true = some 65936 ∧
    e.getSymbolAddress .elf64 smallObject.bytes symbolFg false = some 0 := by
  obtain ⟨e, he, hlookup⟩ := linked_lookup .elf64 smallObject smallObject_fits 65536 69632 (by decide) (by decide)
  refine ⟨e, he, ?_, ?_⟩
  · rw [(hlookup symbolF true).2]; rfl
  · rw [(hlookup symbolFg false).2]; rfl

end JLSPlant
