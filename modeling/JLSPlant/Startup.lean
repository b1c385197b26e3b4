import JLSPlant.Link
import JLSPlant.OnLoad
/-!
# Startup — `JNI_OnLoad` where nothing fails

The file of `libart.so` is a linked one, the loader has mapped it at its load bias, the kernel's map of the process
says so, and `GetEnv` answers `JNI_OK`.  Then `JNI_OnLoad` does not fault, and LSPlant's `Init` is run against the
loader's own addresses, whatever it asks, so long as each view it hands over is terminated (`linked_startup`).
-/
namespace JLSPlant

open Binary (Bytes CString)
open Stdio (ascii pieces)

variable {w : ElfClass} {π : Type}

/-- **The system `JNI_OnLoad` is to find**: the library can be opened and mapped, and the first line of the maps
that matches its path is that of its first page. -/
structure Starts (os : Os) (o : SharedObject w) (loadBias column : Nat) (before : List (Mapping w)) (m : Mapping w)
    (after : List (Mapping w)) : Prop where
  opened : ∃ fd, LastAnswer os.opens (.ok fd)
  mapped : os.mmap = some o.bytes
  maps : LastAnswer os.fopens (.ok (mapsText column (before ++ m :: after)))
  others : ∀ x ∈ before, ∀ p ∈ pieces 255 (x.line column), ElfImg.matchesMapping (pathOf w os libart) p = false
  library : m.IsOf (pathOf w os libart)
  short : (m.line column).length ≤ 256
  start : m.start = w.wrap (loadBias + o.vaddr)
  nonzero : m.start ≠ 0

/-- A view in the request is terminated. -/
def Request.Terminated : Request w → Prop
  | .artSymbolResolver symbol       => symbol.Terminated
  | .artSymbolPrefixResolver symbol => symbol.Terminated
  | _                               => True

/-- The loader's address for exactly these characters. -/
def SharedObject.addressOf (o : SharedObject w) (loadBias : Nat) (chars : Bytes) (matchPrefix : Bool) : Nat :=
  if h : 0 ∉ chars then o.address loadBias ⟨chars, h⟩ matchPrefix else 0

/-- Symbols from the loader. -/
def loaderInfo (d : Patcher w π) (o : SharedObject w) (loadBias : Nat) (p : π) :
    (r : Request w) → Except Fault (r.Reply × π)
  | .inlineHooker target hooker     => .ok (inlineHooker d p target hooker)
  | .inlineUnhooker func            => .ok (d.dobbyDestroy p func)
  | .artSymbolResolver symbol       => .ok (o.addressOf loadBias symbol.chars false, p)
  | .artSymbolPrefixResolver symbol => .ok (o.addressOf loadBias symbol.chars true, p)

theorem pathOf_absolute (w : ElfClass) (os : Os) (elf : CString) : (pathOf w os elf).bytes.head? = some 47 := by
  unfold pathOf
  split
  · assumption
  · split
    · cases w <;> rfl
    · split <;> cases w <;> rfl

section
variable {os : Os} {o : SharedObject w} {loadBias column : Nat} {before after : List (Mapping w)} {m : Mapping w}

theorem Starts.readsBase (h : Starts os o loadBias column before m after) :
    ReadsBase w (pathOf w os libart) (mapsText column (before ++ m :: after)) m.start := by
  have habs := pathOf_absolute w os libart
  have hmatches := (matches_first_iff h.library habs column).2 h.short
  have hfirst := (searchMaps_at_iff column (pathOf w os libart) before m after).2 ⟨h.others, hmatches⟩
  rw [searchMaps_eq, Option.some.injEq] at hfirst
  exact Or.inr ⟨_, _, hfirst, scanHex_first h.library habs h.short⟩

/-- The image that is built. -/
theorem Starts.construct (h : Starts os o loadBias column before m after) (hf : o.Fits) :
    ElfImg.construct w os libart =
    .ok ⟨{ ElfImg.scanned w o.sections with base := m.start }, .mapped o.bytes, os.lseek⟩ := by
  obtain ⟨fd, hfd⟩ := h.opened
  rw [construct_eq (libart_fits w os)]
  exact openPath_ok_iff.2
    (.mapped hfd h.mapped hf.sections (EntriesSized.of_divides w SharedObject.divides) h.maps h.readsBase)

/-- The image finds the loader's addresses. -/
theorem Starts.addressOf (h : Starts os o loadBias column before m after) (hf : o.Fits) (chars : Bytes)
    (matchPrefix : Bool) :
    ({ ElfImg.scanned w o.sections with base := m.start } : ElfImg).addressOf w o.bytes chars matchPrefix =
      some (o.addressOf loadBias chars matchPrefix) := by
  obtain ⟨e, he, hlookup⟩ := linked_lookup w o hf loadBias m.start h.start h.nonzero
  rw [hf.openMapped, Option.some.injEq] at he
  unfold ElfImg.addressOf SharedObject.addressOf
  by_cases hnul : 0 ∉ chars
  · rw [dif_pos hnul, dif_pos hnul, he]
    exact (hlookup _ matchPrefix).2
  · rw [dif_neg hnul, dif_neg hnul]

/-- What it answers a terminated view. -/
theorem Starts.initInfo (h : Starts os o loadBias column before m after) (hf : o.Fits) (d : Patcher w π) (p : π)
    (r : Request w) (hr : r.Terminated) :
    initInfo d ⟨{ ElfImg.scanned w o.sections with base := m.start }, .mapped o.bytes, os.lseek⟩ p r =
      loaderInfo d o loadBias p r := by
  cases r with
  | artSymbolResolver symbol =>
    have hanswer := (hr.resolves w o.bytes _).1.trans (h.addressOf hf symbol.chars false)
    simp only [JLSPlant.initInfo, Header.file, hanswer]
    rfl
  | artSymbolPrefixResolver symbol =>
    have hanswer := (hr.resolves w o.bytes _).2.trans (h.addressOf hf symbol.chars true)
    simp only [JLSPlant.initInfo, Header.file, hanswer]
    rfl
  | _ => rfl

end

/-- **Where nothing fails, `JNI_OnLoad` runs LSPlant's `Init` against the loader's addresses**, if every view that
is asked is terminated; it returns its version, and unmaps the file. -/
theorem linked_startup (w : ElfClass) (os : Os) (o : SharedObject w) (hf : o.Fits) (loadBias column : Nat)
    (before after : List (Mapping w)) (m : Mapping w) (h : Starts os o loadBias column before m after)
    (d : Patcher w π) (init : Init w) (p : π) (hinit : init.AsksOnly (loaderInfo d o loadBias) Request.Terminated p) :
    ∃ initialized p', init.run (loaderInfo d o loadBias) p = .ok (initialized, p') ∧
      jniOnLoad os d true init p = .ok (⟨jniVersion16, initialized, some (.mapped o.bytes, o.bytes.length)⟩, p') := by
  have htotal : ∀ q r, ∃ x, loaderInfo d o loadBias q r = .ok x := fun q r => by cases r <;> exact ⟨_, rfl⟩
  obtain ⟨⟨initialized, p'⟩, hrun⟩ := Code.run_total htotal init p
  have hsame := Code.run_congr (fun q r hr => h.initInfo hf d q r hr) hinit
  have hsize : os.lseek = o.bytes.length := (os.mapped o.bytes h.mapped).2.symm
  refine ⟨initialized, p', hrun, ?_⟩
  unfold jniOnLoad
  rw [if_pos rfl, h.construct hf]
  simp only [bind, Except.bind]
  rw [hsame, hrun, ← hsize]
  rfl

/-- The first page of the library, and a system in which that is the only mapping of a file. -/
def libartMapping : Mapping .elf64 where
  start := 69632
  stop := 73728
  perms := .rp
  offset := 0
  major := 8
  minor := 1
  inode := 7
  pathname := ascii "/system/lib64/libart.so"
  start_lt := by decide
  noNewline := by decide
  noNul := by decide

def workingOs : Os where
  apiLevel := 28
  access := fun _ => false
  opens := fun _ => .ok 3
  lseek := smallObject.bytes.length
  mmap := some smallObject.bytes
  fopens := fun _ => .ok (mapsText (pathColumn .elf64) [libartMapping])
  mapped := fun file h => by cases h; exact ⟨by decide +kernel, rfl⟩

theorem workingOs_starts : Starts workingOs smallObject 65536 (pathColumn .elf64) [] libartMapping [] where
  opened := ⟨3, 0, ⟨by decide, fun j hj => absurd hj (Nat.not_lt_zero j), Or.inr rfl⟩, rfl⟩
  mapped := rfl
  maps := ⟨0, ⟨by decide, fun j hj => absurd hj (Nat.not_lt_zero j), Or.inr rfl⟩, rfl⟩
  others := fun x hx => absurd hx List.not_mem_nil
  library := by decide
  short := by decide
  start := by decide
  nonzero := by decide

theorem workingOs_startup : jniOnLoad workingOs (stillPatcher (w := .elf64)) true asksOneSymbol () =
    .ok (⟨jniVersion16, true, some (.mapped smallObject.bytes, smallObject.bytes.length)⟩, ()) := by
  have hview : viewF.Terminated := by decide
  obtain ⟨initialized, p', hinit, hload⟩ := linked_startup .elf64 workingOs smallObject smallObject_fits 65536
    (pathColumn .elf64) [] [] libartMapping workingOs_starts stillPatcher asksOneSymbol ()
    ⟨hview, fun _ _ _ => trivial⟩
  rw [hload]
  cases hinit
  rfl

end JLSPlant
