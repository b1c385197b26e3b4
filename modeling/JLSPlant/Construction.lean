import JLSPlant.ModuleBase
import JLSPlant.Totality
/-!
# Construction — an `ElfImg` from the name of its file to its destructor

Whatever the system answers, the construction either ends with the image that `openPath_ok_iff` describes or at a
fault.  It is harmless when the file cannot be opened, and otherwise only when the file is mapped, its sections can
be read, the maps can be opened, and the piece taken from them can be scanned (`harmless_iff`).
-/
namespace JLSPlant

open Binary (Bytes CString)
open Stdio (ascii pieces scanHex)
open IoWrapper (Answer EndsAt)

/-! ## The system -/

/-- **What the system answers while an `ElfImg` is built.**  `mmap` fails for the sizes -1 and 0, and the bytes it
maps are as many as asked for. -/
structure Os where
  apiLevel : Int
  access : CString → Bool
  opens : Nat → Answer Nat
  lseek : Int
  mmap : Option Bytes
  fopens : Nat → Answer Bytes
  mapped : ∀ file, mmap = some file → 0 < lseek ∧ file.length = lseek

/-- The last answer of a wrapper's attempts. -/
def LastAnswer {A : Type} (answers : Nat → Answer A) (a : Answer A) : Prop := ∃ n, EndsAt answers 2 n ∧ answers n = a

theorem LastAnswer.unique {A : Type} {answers : Nat → Answer A} {a b : Answer A} (ha : LastAnswer answers a)
    (hb : LastAnswer answers b) : a = b := by
  obtain ⟨m, hm, rfl⟩ := ha
  obtain ⟨n, hn, rfl⟩ := hb
  rw [EndsAt.unique (fun _ => rfl) hm hn]

/-! ## The image -/

/-- The pointer `header`: null, `MAP_FAILED`, or a region that was mapped. -/
inductive Header
  | null | mapFailed | mapped (file : Bytes)
deriving DecidableEq

namespace Header

def ofMmap : Option Bytes → Header
  | some file => mapped file
  | none      => mapFailed

def deref : Header → Except Fault Bytes
  | mapped file => .ok file
  | _           => .error .invalidHeader

/-- The bytes there are behind the pointer. -/
def file : Header → Bytes
  | mapped file => file
  | _           => []

end Header

structure Built where
  image : ElfImg := {}
  header : Header := .null
  size : Int := 0

namespace Built

def getSymbolAddress (w : ElfClass) (b : Built) (name : CString) (matchPrefix : Bool) : Option Nat :=
  b.image.getSymbolAddress w b.header.file name matchPrefix

/-- `~ElfImg`: what it gives to `munmap`. -/
def destructor (b : Built) : Option (Header × Int) := if b.header = .null then none else some (b.header, b.size)

/-- The end of `JNI_OnLoad`: `init` is LSPlant's `Init`, with the two symbol resolvers it is given. -/
def initialized (w : ElfClass) (init : (CString → Option Nat) → (CString → Option Nat) → Bool) (art : Built) : Bool :=
  init (fun symbol => art.getSymbolAddress w symbol false) (fun symbol => art.getSymbolAddress w symbol true)

end Built

def kSystemLibDir : ElfClass → CString
  | .elf32 => ⟨ascii "/system/lib/", by decide⟩
  | .elf64 => ⟨ascii "/system/lib64/", by decide⟩

def kApexRuntimeLibDir : ElfClass → CString
  | .elf32 => ⟨ascii "/apex/com.android.runtime/lib/", by decide⟩
  | .elf64 => ⟨ascii "/apex/com.android.runtime/lib64/", by decide⟩

def kApexArtLibDir : ElfClass → CString
  | .elf32 => ⟨ascii "/apex/com.android.art/lib/", by decide⟩
  | .elf64 => ⟨ascii "/apex/com.android.art/lib64/", by decide⟩

def joinPath (dir elf : CString) : CString :=
  ⟨dir.bytes ++ elf.bytes, fun h => (List.mem_append.1 h).elim dir.noNul elf.noNul⟩

namespace ElfImg

/-- **`Open`.** -/
def openPath (w : ElfClass) (os : Os) (path : CString) : Except Fault Built := do
  let (fd, _) ← orFault .unfinished (IoWrapper.wrappedOpen os.opens)
  if fd = -1 then .ok {} else
  let header := Header.ofMmap os.mmap
  let file ← header.deref
  let image ← orFault .outsideFile (openMapped w file 0)
  let base ← getModuleBase w os.fopens path
  .ok { image := { image with base := base }, header := header, size := os.lseek }

/-- `strcpy` and `strcat` into `mBuffer`. -/
def joined (dir mElf : CString) : Except Fault CString :=
  if dir.bytes.length + mElf.bytes.length < 64 then .ok (joinPath dir mElf) else .error .overflow

def relativeOpen (w : ElfClass) (os : Os) (mElf : CString) : Except Fault Built :=
  let openSystem := joined (kSystemLibDir w) mElf >>= openPath w os
  if 29 ≤ os.apiLevel then do
    let mBuffer ← joined (kApexArtLibDir w) mElf
    if os.access mBuffer then openPath w os mBuffer else
    let mBuffer ← joined (kApexRuntimeLibDir w) mElf
    if os.access mBuffer then openPath w os mBuffer else
    openSystem
  else openSystem

/-- The constructor. -/
def construct (w : ElfClass) (os : Os) (elf : CString) : Except Fault Built :=
  if elf.bytes.head? = some 47 then openPath w os elf else relativeOpen w os elf

end ElfImg

/-! ## The paths -/

def libDirs (w : ElfClass) (apiLevel : Int) : List CString :=
  (if 29 ≤ apiLevel then [kApexArtLibDir w, kApexRuntimeLibDir w] else []) ++ [kSystemLibDir w]

/-- **The name is absolute, or the path of the library fits `mBuffer`**, in the directories of the API level. -/
def Fits (w : ElfClass) (os : Os) (elf : CString) : Prop :=
  elf.bytes.head? = some 47 ∨ ∀ dir ∈ libDirs w os.apiLevel, dir.bytes.length + elf.bytes.length < 64

/-- The path that is opened. -/
def pathOf (w : ElfClass) (os : Os) (elf : CString) : CString :=
  if elf.bytes.head? = some 47 then elf
  else if 29 ≤ os.apiLevel ∧ os.access (joinPath (kApexArtLibDir w) elf) then joinPath (kApexArtLibDir w) elf
  else if 29 ≤ os.apiLevel ∧ os.access (joinPath (kApexRuntimeLibDir w) elf) then joinPath (kApexRuntimeLibDir w) elf
  else joinPath (kSystemLibDir w) elf

theorem construct_eq {w : ElfClass} {os : Os} {elf : CString} (hfits : Fits w os elf) :
    ElfImg.construct w os elf = ElfImg.openPath w os (pathOf w os elf) := by
  unfold ElfImg.construct pathOf
  by_cases habs : elf.bytes.head? = some 47
  · rw [if_pos habs, if_pos habs]
  · have hdirs := hfits.resolve_left habs
    have hjoined : ∀ dir ∈ libDirs w os.apiLevel, ElfImg.joined dir elf = .ok (joinPath dir elf) := fun dir hdir =>
      if_pos (hdirs dir hdir)
    have hsystem := hjoined (kSystemLibDir w) (by simp [libDirs])
    rw [if_neg habs, if_neg habs]
    unfold ElfImg.relativeOpen
    by_cases hapi : 29 ≤ os.apiLevel
    · have hart := hjoined (kApexArtLibDir w) (by simp [libDirs, hapi])
      have hruntime := hjoined (kApexRuntimeLibDir w) (by simp [libDirs, hapi])
      simp only [hapi, hart, hruntime, hsystem, bind, Except.bind, if_true, true_and]
      split
      · rfl
      · split <;> rfl
    · simp only [hapi, hsystem, bind, Except.bind, false_and, if_false]

/-! ## What is built -/

/-- **The base that is read of the maps**: null when no piece matches, else the number the first one begins with. -/
def ReadsBase (w : ElfClass) (path : CString) (maps : Bytes) (base : Nat) : Prop :=
  (firstMatch path 0 (pieces 255 maps) = none ∧ base = 0) ∨
    ∃ k buff, firstMatch path 0 (pieces 255 maps) = some (k, buff) ∧ scanHex w.modulus buff = some base

theorem orFault_ok_iff {α : Type} {f : Fault} {x : Option α} {a : α} : orFault f x = .ok a ↔ x = some a := by
  cases x <;> simp [orFault]

theorem except_bind_ok_iff {ε α β : Type} {x : Except ε α} {f : α → Except ε β} {b : β} :
    x >>= f = .ok b ↔ ∃ a, x = .ok a ∧ f a = .ok b := by
  cases x <;> simp [bind, Except.bind]

theorem LastAnswer.exists {A : Type} (answers : Nat → Answer A) : ∃ a, LastAnswer answers a := by
  obtain ⟨n, hn, -⟩ := IoWrapper.wrappedFOpen_eq answers
  exact ⟨_, n, hn, rfl⟩

/-- What `WrappedOpen` makes of the last answer. -/
theorem LastAnswer.wrappedOpen {opens : Nat → Answer Nat} {a : Answer Nat} (h : LastAnswer opens a) :
    ∃ n, IoWrapper.wrappedOpen opens = some (IoWrapper.fdOf a, n) := by
  obtain ⟨n, hn, hopen⟩ := IoWrapper.wrappedOpen_eq opens
  rw [h.unique ⟨n, hn, rfl⟩]
  exact ⟨_, hopen⟩

theorem LastAnswer.wrappedFOpen {F : Type} {fopens : Nat → Answer F} {a : Answer F} (h : LastAnswer fopens a) :
    ∃ n, IoWrapper.wrappedFOpen fopens = some (IoWrapper.fileOf a, n) := by
  obtain ⟨n, hn, hopen⟩ := IoWrapper.wrappedFOpen_eq fopens
  rw [h.unique ⟨n, hn, rfl⟩]
  exact ⟨_, hopen⟩

theorem getModuleBase_null {w : ElfClass} {fopens : Nat → Answer Bytes} {path : CString} {e : Errno}
    (h : LastAnswer fopens (.error e)) : ElfImg.getModuleBase w fopens path = .error .nullFile := by
  obtain ⟨n, hopen⟩ := h.wrappedFOpen
  unfold ElfImg.getModuleBase
  rw [hopen]
  rfl

theorem getModuleBase_opened {w : ElfClass} {fopens : Nat → Answer Bytes} {path : CString} {base : Nat} {maps : Bytes}
    (h : LastAnswer fopens (.ok maps)) :
    ElfImg.getModuleBase w fopens path = .ok base ↔ ReadsBase w path maps base := by
  obtain ⟨n, hopen⟩ := h.wrappedFOpen
  unfold ReadsBase
  cases hfirst : firstMatch path 0 (pieces 255 maps) with
  | none =>
    rw [getModuleBase_absent hopen (by rw [searchMaps_eq, hfirst])]
    simp [eq_comm]
  | some r =>
    obtain ⟨k, buff⟩ := r
    rw [getModuleBase_found hopen (by rw [searchMaps_eq, hfirst]), orFault_ok_iff]
    simp

/-- **`getModuleBase` ends, without a fault, with a base that is read of maps that were opened.** -/
theorem getModuleBase_ok_iff {w : ElfClass} {fopens : Nat → Answer Bytes} {path : CString} {base : Nat} :
    ElfImg.getModuleBase w fopens path = .ok base ↔
      ∃ maps, LastAnswer fopens (.ok maps) ∧ ReadsBase w path maps base := by
  constructor
  · intro h
    obtain ⟨a, ha⟩ := LastAnswer.exists fopens
    cases a with
    | error e => rw [getModuleBase_null ha] at h; cases h
    | ok maps => exact ⟨maps, ha, (getModuleBase_opened ha).1 h⟩
  · rintro ⟨maps, hmaps, h⟩
    exact (getModuleBase_opened hmaps).2 h

section
variable {w : ElfClass} {os : Os} {path : CString}

/-- **What `Open` leaves**: nothing when the file cannot be opened, or the image of its sections and the region. -/
inductive OpensTo (w : ElfClass) (os : Os) (path : CString) : Built → Prop
  | denied {e : Errno} : LastAnswer os.opens (.error e) → OpensTo w os path {}
  | mapped {fd base : Nat} {file maps : Bytes} {l : List Section} :
      LastAnswer os.opens (.ok fd) → os.mmap = some file → ElfImg.sections w file = some l →
      EntriesSized w l → LastAnswer os.fopens (.ok maps) → ReadsBase w path maps base →
      OpensTo w os path ⟨{ ElfImg.scanned w l with base := base }, .mapped file, os.lseek⟩

theorem openPath_denied {e : Errno} (h : LastAnswer os.opens (.error e)) : ElfImg.openPath w os path = .ok {} := by
  obtain ⟨n, hopen⟩ := h.wrappedOpen
  unfold ElfImg.openPath
  rw [hopen]
  rfl

theorem openPath_opened {fd : Nat} (h : LastAnswer os.opens (.ok fd)) : ElfImg.openPath w os path =
    (Header.ofMmap os.mmap).deref >>= fun file => orFault .outsideFile (ElfImg.openMapped w file 0) >>= fun image =>
      ElfImg.getModuleBase w os.fopens path >>= fun base =>
        .ok { image := { image with base := base }, header := Header.ofMmap os.mmap, size := os.lseek } := by
  obtain ⟨n, hopen⟩ := h.wrappedOpen
  have hfd : IoWrapper.fdOf (.ok fd) ≠ -1 := by simp [IoWrapper.fdOf]
  unfold ElfImg.openPath
  rw [hopen]
  simp only [orFault, bind, Except.bind, if_neg hfd]

theorem deref_ok_iff {m : Option Bytes} {file : Bytes} : (Header.ofMmap m).deref = .ok file ↔ m = some file := by
  cases m <;> simp [Header.ofMmap, Header.deref]

/-- **`Open` ends, without a fault, with that alone.** -/
theorem openPath_ok_iff {b : Built} : ElfImg.openPath w os path = .ok b ↔ OpensTo w os path b := by
  constructor
  · intro h
    obtain ⟨a, ha⟩ := LastAnswer.exists os.opens
    cases a with
    | error e =>
      rw [openPath_denied ha] at h
      cases h
      exact .denied ha
    | ok fd =>
      rw [openPath_opened ha] at h
      obtain ⟨file, hfile, h⟩ := except_bind_ok_iff.1 h
      obtain ⟨image, himage, h⟩ := except_bind_ok_iff.1 h
      obtain ⟨base, hbase, h⟩ := except_bind_ok_iff.1 h
      have hmmap := deref_ok_iff.1 hfile
      obtain ⟨l, hl, hsized, rfl⟩ := openMapped_iff.1 (orFault_ok_iff.1 himage)
      obtain ⟨maps, hmaps, hbase⟩ := getModuleBase_ok_iff.1 hbase
      rw [hmmap] at h
      cases h
      exact .mapped ha hmmap hl hsized hmaps hbase
  · intro h
    cases h with
    | denied he => exact openPath_denied he
    | @mapped _ _ file _ l hfd hmmap hl hsized hmaps hbase =>
      have hopen : orFault .outsideFile (ElfImg.openMapped w file 0) = .ok { ElfImg.scanned w l with base := 0 } :=
        orFault_ok_iff.2 (openMapped_iff.2 ⟨l, hl, hsized, rfl⟩)
      rw [openPath_opened hfd]
      refine except_bind_ok_iff.2 ⟨_, deref_ok_iff.2 hmmap, except_bind_ok_iff.2 ⟨_, hopen, ?_⟩⟩
      refine except_bind_ok_iff.2 ⟨_, getModuleBase_ok_iff.2 ⟨_, hmaps, hbase⟩, ?_⟩
      rw [hmmap]
      rfl

end

/-! ## Failures -/

/-- **Something failed**: the last attempt to open the file, `lseek`, `mmap`, the last attempt to open the maps, or
the reading of the base. -/
def Os.Fails (w : ElfClass) (os : Os) (path : CString) : Prop :=
  (∃ e, LastAnswer os.opens (.error e)) ∨ os.lseek ≤ 0 ∨ os.mmap = none ∨ (∃ e, LastAnswer os.fopens (.error e)) ∨
    ∃ maps, LastAnswer os.fopens (.ok maps) ∧
      ∀ k buff, firstMatch path 0 (pieces 255 maps) = some (k, buff) → scanHex w.modulus buff = none

/-- **An image that was built is harmless**: after a failure every symbol is null and LSPlant, which needs some, is
not initialized; and what is unmapped has been mapped. -/
structure Harmless (w : ElfClass) (os : Os) (path : CString) (b : Built) : Prop where
  null : os.Fails w path → ∀ name matchPrefix, b.getSymbolAddress w name matchPrefix = some 0
  uninitialized : os.Fails w path → ∀ init, init (fun _ => some 0) (fun _ => some 0) = false →
    b.initialized w init = false
  unmaps : ∀ header size, b.destructor = some (header, size) →
    ∃ file, os.mmap = some file ∧ header = .mapped file ∧ size = file.length

theorem Harmless.of_null {w : ElfClass} {os : Os} {path : CString} {b : Built}
    (hnull : os.Fails w path → ∀ name matchPrefix, b.getSymbolAddress w name matchPrefix = some 0)
    (hunmaps : ∀ header size, b.destructor = some (header, size) →
      ∃ file, os.mmap = some file ∧ header = .mapped file ∧ size = file.length) : Harmless w os path b := by
  refine ⟨hnull, fun hfails init hinit => ?_, hunmaps⟩
  unfold Built.initialized
  simp only [hnull hfails, hinit]

/-- Without a base, a lookup that ends gives null. -/
theorem getSymbolAddress_null {w : ElfClass} {file : Bytes} {e : ElfImg} (hbase : e.base = 0) (name : CString)
    (matchPrefix : Bool) : e.getSymbolAddress w file name matchPrefix = some 0 ↔
      ∃ offset, e.getSymbolOffset w file name matchPrefix = some offset := by
  unfold ElfImg.getSymbolAddress
  cases e.getSymbolOffset w file name matchPrefix <;> simp [hbase]

/-- An image of a file that was not opened has no symbols and nothing to unmap. -/
theorem harmless_empty (w : ElfClass) (os : Os) (path : CString) : Harmless w os path {} :=
  .of_null (fun _ _ _ => rfl) fun _ _ h => by cases h

section
variable {w : ElfClass} {os : Os} {path : CString} {fd base : Nat} {file maps : Bytes} {l : List Section}

/-- Where the file was mapped and the maps were opened, only the reading of the base can have failed. -/
theorem fails_iff (hfd : LastAnswer os.opens (.ok fd)) (hmmap : os.mmap = some file)
    (hmaps : LastAnswer os.fopens (.ok maps)) :
    os.Fails w path ↔ ∀ k buff, firstMatch path 0 (pieces 255 maps) = some (k, buff) →
      scanHex w.modulus buff = none := by
  constructor
  · rintro (⟨e, he⟩ | hlseek | hnone | ⟨e, he⟩ | ⟨maps', hmaps', h⟩)
    · cases hfd.unique he
    · have hpos := (os.mapped file hmmap).1
      omega
    · rw [hmmap] at hnone; cases hnone
    · cases hmaps.unique he
    · cases hmaps.unique hmaps'
      exact h
  · exact fun h => Or.inr (Or.inr (Or.inr (Or.inr ⟨maps, hmaps, h⟩)))

/-- **What `Open` has built is harmless exactly when**, where no piece of the maps matched, the tables can be read. -/
theorem harmless_mapped_iff (hfd : LastAnswer os.opens (.ok fd)) (hmmap : os.mmap = some file)
    (hmaps : LastAnswer os.fopens (.ok maps)) (hbase : ReadsBase w path maps base) :
    Harmless w os path ⟨{ ElfImg.scanned w l with base := base }, .mapped file, os.lseek⟩ ↔
      (firstMatch path 0 (pieces 255 maps) = none →
        ∃ rows, (ElfImg.scanned w l).rows w file = some rows ∧ ValuesReadable rows) := by
  have hfails : os.Fails w path ↔ ∀ k buff, firstMatch path 0 (pieces 255 maps) = some (k, buff) →
      scanHex w.modulus buff = none := fails_iff hfd hmmap hmaps
  constructor
  · intro h hnone
    have hzero : base = 0 := by
      rcases hbase with ⟨-, hzero⟩ | ⟨k, buff, hsome, -⟩
      · exact hzero
      · rw [hnone] at hsome; cases hsome
    have hnull := h.null (hfails.2 fun k buff hsome => by rw [hnone] at hsome; cases hsome)
    exact (ElfImg.lookups_iff w file { ElfImg.scanned w l with base := base }).1 fun name matchPrefix =>
      (getSymbolAddress_null hzero name matchPrefix).1 (hnull name matchPrefix)
  · intro h
    refine .of_null (fun hf => ?_) fun header size hdestructor => ?_
    · rcases hbase with ⟨hnone, hzero⟩ | ⟨k, buff, hsome, hscan⟩
      · intro name matchPrefix
        have hlookups := (ElfImg.lookups_iff w file { ElfImg.scanned w l with base := base }).2 (h hnone)
        exact (getSymbolAddress_null hzero name matchPrefix).2 (hlookups name matchPrefix)
      · rw [hfails.1 hf k buff hsome] at hscan
        cases hscan
    · cases hdestructor
      exact ⟨file, hmmap, rfl, (os.mapped file hmmap).2.symm⟩

end

/-- **The construction ends and is harmless exactly when** the file cannot be opened, or it is mapped, its sections
can be read, the maps can be opened, and the first piece that matches begins with a number; where none matches, the
tables can be read. -/
theorem harmless_iff (w : ElfClass) (os : Os) (elf : CString) (hfits : Fits w os elf) :
    (∃ b, ElfImg.construct w os elf = .ok b ∧ Harmless w os (pathOf w os elf) b) ↔
    (∃ e, LastAnswer os.opens (.error e)) ∨
    ∃ file l maps, os.mmap = some file ∧ ElfImg.sections w file = some l ∧ EntriesSized w l ∧
      LastAnswer os.fopens (.ok maps) ∧
      (∀ k buff, firstMatch (pathOf w os elf) 0 (pieces 255 maps) = some (k, buff) →
        ∃ base, scanHex w.modulus buff = some base) ∧
      (firstMatch (pathOf w os elf) 0 (pieces 255 maps) = none →
        ∃ rows, (ElfImg.scanned w l).rows w file = some rows ∧ ValuesReadable rows) := by
  rw [construct_eq hfits]
  constructor
  · rintro ⟨b, hopen, hharmless⟩
    cases openPath_ok_iff.1 hopen with
    | denied he => exact Or.inl ⟨_, he⟩
    | mapped hfd hmmap hl hsized hmaps hbase =>
      refine Or.inr ⟨_, _, _, hmmap, hl, hsized, hmaps, fun k buff hsome => ?_,
        (harmless_mapped_iff hfd hmmap hmaps hbase).1 hharmless⟩
      rcases hbase with ⟨hnone, -⟩ | ⟨k', buff', hsome', hscan⟩
      · rw [hnone] at hsome; cases hsome
      · rw [hsome'] at hsome
        cases hsome
        exact ⟨_, hscan⟩
  · obtain ⟨a, ha⟩ := LastAnswer.exists os.opens
    rintro (⟨e, he⟩ | ⟨file, l, maps, hmmap, hl, hsized, hmaps, hscans, hrows⟩)
    · exact ⟨{}, openPath_ok_iff.2 (.denied he), harmless_empty w os _⟩
    · cases a with
      | error e => exact ⟨{}, openPath_ok_iff.2 (.denied ha), harmless_empty w os _⟩
      | ok fd =>
        have hbase : ∃ base, ReadsBase w (pathOf w os elf) maps base := by
          cases hfirst : firstMatch (pathOf w os elf) 0 (pieces 255 maps) with
          | none => exact ⟨0, Or.inl ⟨hfirst, rfl⟩⟩
          | some r =>
            obtain ⟨base, hscan⟩ := hscans r.1 r.2 hfirst
            exact ⟨base, Or.inr ⟨r.1, r.2, hfirst, hscan⟩⟩
        obtain ⟨base, hbase⟩ := hbase
        exact ⟨_, openPath_ok_iff.2 (.mapped ha hmmap hl hsized hmaps hbase),
          (harmless_mapped_iff ha hmmap hmaps hbase).2 hrows⟩

/-! ## Two systems -/

def libart : CString := ⟨ascii "libart.so", by decide⟩

/-- The library may not be opened (`EACCES`). -/
def deniedOs : Os where
  apiLevel := 30
  access := fun _ => false
  opens := fun _ => .error 13
  lseek := -1
  mmap := none
  fopens := fun _ => .error 13
  mapped := fun _ h => by cases h

theorem denied_harmless : ∃ b, ElfImg.construct .elf64 deniedOs libart = .ok b ∧
    Harmless .elf64 deniedOs (pathOf .elf64 deniedOs libart) b :=
  (harmless_iff .elf64 deniedOs libart (Or.inr (by decide))).2
    (Or.inl ⟨13, 0, ⟨by decide, fun j hj => absurd hj (Nat.not_lt_zero j), Or.inr rfl⟩, rfl⟩)

/-- The library is an empty file, which `mmap` refuses. -/
def emptyOs : Os where
  apiLevel := 28
  access := fun _ => true
  opens := fun _ => .ok 3
  lseek := 0
  mmap := none
  fopens := fun _ => .ok []
  mapped := fun _ h => by cases h

/-- **The header of a file that could not be mapped is read.** -/
theorem empty_file_faults : ElfImg.construct .elf64 emptyOs libart = .error .invalidHeader ∧
    ¬ ∃ b, ElfImg.construct .elf64 emptyOs libart = .ok b ∧
      Harmless .elf64 emptyOs (pathOf .elf64 emptyOs libart) b := by
  have hfault : ElfImg.construct .elf64 emptyOs libart = .error .invalidHeader := by rfl
  refine ⟨hfault, ?_⟩
  rintro ⟨b, hb, -⟩
  rw [hfault] at hb
  cases hb

end JLSPlant
