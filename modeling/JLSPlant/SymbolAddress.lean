import Mathlib.Algebra.Ring.Int.Defs
import Mathlib.Algebra.Ring.Divisibility.Basic
import JLSPlant.Lookup
import JLSPlant.SectionScan
/-!
# SymbolAddress — where a resolved address lies, against the loader's

The loader puts a symbol `st_value` bytes after the load bias; `getSymbolAddress` takes it from the start of the
mapping of the file's first page, through the skew of one section.  The two agree exactly when the latch closes on a
section with the skew of the segment that maps the first page (`symbol_address_iff`).
-/
namespace JLSPlant

open Binary (Bytes CString)

/-- **The loader mapped the file at `loadBias`, and `base` is where its first page is**: `p` is a `PT_LOAD` segment
of it whose first page is the file's, its address congruent to its offset. -/
structure LoadedAt (w : ElfClass) (file : Bytes) (page loadBias base : Nat) (p : Phdr) : Prop where
  pageSize : 4096 ∣ page
  modulus : page ∣ w.modulus
  segment : ∃ header i, Ehdr.read w file = some header ∧ i < header.ePhnum ∧
    Phdr.read w file (header.ePhoff + i * header.ePhentsize) = some p
  load : p.pType = Phdr.ptLoad
  congruent : p.pVaddr % page = p.pOffset % page
  first : p.pOffset < page ∧ 0 < p.pFilesz
  start : base = w.wrap (loadBias + (p.pVaddr - p.pVaddr % page))
  mapped : base ≠ 0

/-- **The latch closes on a section with the segment's skew.** -/
def SkewFits (w : ElfClass) (file : Bytes) (p : Phdr) : Prop :=
  ∃ l before s, ElfImg.sections w file = some l ∧ latch w l = some (before, s) ∧
    (w.modulus : Int) ∣ (s.header.shAddr - s.header.shOffset) - (p.pVaddr - p.pOffset)

theorem LoadedAt.base_dvd {w : ElfClass} {file : Bytes} {page loadBias base : Nat} {p : Phdr}
    (h : LoadedAt w file page loadBias base p) :
    (w.modulus : Int) ∣ base - (loadBias + (p.pVaddr - p.pOffset)) := by
  have hoff : p.pVaddr % page = p.pOffset := by rw [h.congruent, Nat.mod_eq_of_lt h.first.1]
  have hle : p.pOffset ≤ p.pVaddr := by rw [← hoff]; exact Nat.mod_le _ _
  have hbase : (base : Int) = ((loadBias + (p.pVaddr - p.pOffset) : Nat) : Int) % w.modulus := by
    rw [h.start, hoff, ElfClass.wrap, Int.natCast_emod]
  have hcast : ((loadBias + (p.pVaddr - p.pOffset) : Nat) : Int) = loadBias + (p.pVaddr - p.pOffset) := by
    omega
  rw [hbase, hcast]
  exact Int.dvd_emod_sub_self

theorem LoadedAt.skew_dvd {w : ElfClass} {file : Bytes} {page loadBias base : Nat} {p : Phdr}
    (h : LoadedAt w file page loadBias base p) : (4096 : Int) ∣ p.pVaddr - p.pOffset := by
  have hoff : p.pVaddr % page = p.pOffset := by rw [h.congruent, Nat.mod_eq_of_lt h.first.1]
  have hpage : (page : Int) ∣ p.pVaddr - p.pOffset := by
    rw [← hoff, Int.natCast_emod]
    exact Int.dvd_self_sub_emod
  exact Int.dvd_trans (Int.natCast_dvd_natCast.2 h.pageSize) hpage

/-- The address `getSymbolAddress` computes is the loader's exactly when the bias is the skew, modulo the word
size. -/
theorem address_eq_iff {M base loadBias v : Nat} {bias skew : Int} (hM : 0 < M)
    (hbase : (M : Int) ∣ base - (loadBias + skew)) :
    ((base + v - bias : Int) % M).toNat = (loadBias + v) % M ↔ (M : Int) ∣ bias - skew := by
  have hpos : 0 ≤ (base + v - bias : Int) % M := Int.emod_nonneg _ (by omega)
  have hcast : ((base + v - bias : Int) % M).toNat = (loadBias + v) % M ↔
      (base + v - bias : Int) % M = ((loadBias + v : Nat) : Int) % M := by
    rw [← Int.natCast_emod]
    omega
  have hsub : ((base + v - bias : Int) - ((loadBias + v : Nat) : Int)) =
      (base - (loadBias + skew)) - (bias - skew) := by
    rw [Int.natCast_add]; omega
  rw [hcast, Int.emod_eq_emod_iff_emod_sub_eq_zero, ← Int.dvd_iff_emod_eq_zero, hsub]
  exact dvd_sub_right hbase

/-- The difference `Open` computes stands for the difference of the addresses, modulo the word size. -/
theorem Shdr.skew_fits_iff (w : ElfClass) (s : Shdr) (x : Int) :
    (w.modulus : Int) ∣ s.skew w - x ↔ (w.modulus : Int) ∣ (s.shAddr - s.shOffset) - x := by
  have hskew : (w.modulus : Int) ∣ s.skew w - (s.shAddr - s.shOffset) := Int.dvd_bmod_sub_self
  have hsplit : s.skew w - x = (s.skew w - (s.shAddr - s.shOffset)) + ((s.shAddr - s.shOffset) - x) := by omega
  rw [hsplit]
  exact dvd_add_right hskew

theorem skewFits_iff {w : ElfClass} {file : Bytes} {p : Phdr} {l : List Section}
    (hl : ElfImg.sections w file = some l) :
    SkewFits w file p ↔ ∃ before s, latch w l = some (before, s) ∧
      (w.modulus : Int) ∣ (s.header.shAddr - s.header.shOffset) - (p.pVaddr - p.pOffset) := by
  constructor
  · rintro ⟨l', before, s, hl', h⟩
    rw [hl] at hl'
    cases hl'
    exact ⟨before, s, h⟩
  · rintro ⟨before, s, h⟩
    exact ⟨l, before, s, hl, h⟩

/-- The bias fits exactly when the latch closes on a section with the right skew; the placeholder never fits. -/
theorem bias_fits_iff {w : ElfClass} {file : Bytes} {page loadBias base : Nat} {p : Phdr} {e : ElfImg}
    (hload : LoadedAt w file page loadBias base p) (hopen : ElfImg.openMapped w file base = some e) :
    (w.modulus : Int) ∣ e.bias - (p.pVaddr - p.pOffset) ↔ SkewFits w file p := by
  obtain ⟨l, hl, rfl⟩ := openMapped_some hopen
  rw [skewFits_iff hl]
  cases hlatch : latch w l with
  | none =>
    have hbias := scanned_bias.2 hlatch
    have hpage : (4096 : Int) ∣ w.modulus :=
      Int.dvd_trans (Int.natCast_dvd_natCast.2 hload.pageSize) (Int.natCast_dvd_natCast.2 hload.modulus)
    constructor
    · -- The placeholder is no multiple of a page, as every segment's skew is.
      intro h
      have h := Int.dvd_trans hpage h
      have hskew := hload.skew_dvd
      simp only [hbias] at h
      omega
    · rintro ⟨before, s, h, -⟩
      cases h
  | some r =>
    obtain ⟨before, s⟩ := r
    have hbias : (ElfImg.scanned w l).bias = s.header.skew w := by unfold ElfImg.scanned; rw [hlatch]; rfl
    simp only [hbias, Shdr.skew_fits_iff]
    constructor
    · exact fun h => ⟨before, s, rfl, h⟩
    · rintro ⟨before', s', h', h⟩
      cases h'
      exact h

/-- **A resolved address is the loader's exactly when the skew fits**, for every symbol. -/
theorem symbol_address_iff {w : ElfClass} {file : Bytes} {page loadBias base : Nat} {p : Phdr} {e : ElfImg}
    (hload : LoadedAt w file page loadBias base p) (hopen : ElfImg.openMapped w file base = some e) {name : CString}
    {matchPrefix : Bool} {v : Nat} (hv : e.getSymbolOffset w file name matchPrefix = some v) (hne : v ≠ 0) :
    e.getSymbolAddress w file name matchPrefix = some ((loadBias + v) % w.modulus) ↔ SkewFits w file p := by
  have hbase : e.base = base := by
    obtain ⟨l, -, rfl⟩ := openMapped_some hopen
    rfl
  have haddress : e.getSymbolAddress w file name matchPrefix =
      some ((base + v - e.bias : Int) % w.modulus).toNat := by
    unfold ElfImg.getSymbolAddress
    rw [hv, Option.bind_eq_bind, Option.bind_some, hbase, if_pos ⟨Nat.pos_of_ne_zero hne, hload.mapped⟩]
  rw [haddress, Option.some.injEq, address_eq_iff w.modulus_pos hload.base_dvd]
  exact bias_fits_iff hload hopen

/-! ## Two files -/

def codeFirst : Bytes := sampleFile 1 ⟨1, 193, 4, 18⟩ ⟨3, 195, 2, 18⟩ ⟨3, 195, 2, 18⟩
  [nullHeader, shstrtabHeader, textHeader, dynsymHeader 4, dynstrHeader]

def sampleSegment : Phdr := ⟨Phdr.ptLoad, 0, 0, 4096⟩

theorem codeLast_loaded : LoadedAt .elf32 codeLast 4096 65536 65536 sampleSegment where
  pageSize := Nat.dvd_refl _
  modulus := by decide
  segment := ⟨(Ehdr.read .elf32 codeLast).get (by decide +kernel), 0, (Option.some_get _).symm, by decide +kernel,
    by decide +kernel⟩
  load := rfl
  congruent := rfl
  first := by decide
  start := by decide
  mapped := by decide

theorem codeFirst_loaded : LoadedAt .elf32 codeFirst 4096 65536 65536 sampleSegment where
  pageSize := Nat.dvd_refl _
  modulus := by decide
  segment := ⟨(Ehdr.read .elf32 codeFirst).get (by decide +kernel), 0, (Option.some_get _).symm, by decide +kernel,
    by decide +kernel⟩
  load := rfl
  congruent := rfl
  first := by decide
  start := by decide
  mapped := by decide

theorem codeLast_skewFits : SkewFits .elf32 codeLast sampleSegment := by
  have hfits : (ElfImg.sections .elf32 codeLast).bind (fun l => (latch .elf32 l).map
      (fun r => (r.2.header.shAddr : Int) - r.2.header.shOffset)) = some 0 := by decide +kernel
  obtain ⟨l, hl, hlatch⟩ := Option.bind_eq_some_iff.1 hfits
  obtain ⟨⟨before, s⟩, hlatch, hskew⟩ := Option.map_eq_some_iff.1 hlatch
  refine ⟨l, before, s, hl, hlatch, ?_⟩
  rw [show (s.header.shAddr : Int) - s.header.shOffset = 0 from hskew]
  decide

theorem codeLast_address : ∃ e, ElfImg.openMapped .elf32 codeLast 65536 = some e ∧
    e.getSymbolAddress .elf32 codeLast symbolF false = some ((65536 + 193) % ElfClass.elf32.modulus) := by
  have hlookup : (ElfImg.openMapped .elf32 codeLast 65536).bind
      (fun e => e.getSymbolOffset .elf32 codeLast symbolF false) = some 193 := by decide +kernel
  obtain ⟨e, hopen, hv⟩ := Option.bind_eq_some_iff.1 hlookup
  exact ⟨e, hopen, (symbol_address_iff codeLast_loaded hopen hv (by decide)).2 codeLast_skewFits⟩

/-- With no code section after the tables, the address of `f` is 4396 bytes off. -/
theorem codeFirst_address : LoadedAt .elf32 codeFirst 4096 65536 65536 sampleSegment ∧
    ∃ e, ElfImg.openMapped .elf32 codeFirst 65536 = some e ∧
      e.getSymbolOffset .elf32 codeFirst symbolF false = some 193 ∧
      e.getSymbolAddress .elf32 codeFirst symbolF false = some (65536 + 193 + 4396) := by
  have haddress : (ElfImg.openMapped .elf32 codeFirst 65536).bind
      (fun e => e.getSymbolAddress .elf32 codeFirst symbolF false) = some (65536 + 193 + 4396) := by decide +kernel
  have hoffset : (ElfImg.openMapped .elf32 codeFirst 65536).bind
      (fun e => e.getSymbolOffset .elf32 codeFirst symbolF false) = some 193 := by decide +kernel
  obtain ⟨e, hopen, he⟩ := Option.bind_eq_some_iff.1 haddress
  rw [hopen, Option.bind_some] at hoffset
  exact ⟨codeFirst_loaded, e, hopen, hoffset, he⟩

end JLSPlant
