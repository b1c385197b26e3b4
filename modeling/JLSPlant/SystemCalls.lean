import Mathlib.Order.BooleanAlgebra.Set
import JLSPlant.OnLoad
import JLSPlant.Protocol
/-!
# SystemCalls — `JNI_OnLoad` call by call

`JNI_OnLoad` as a routine of system calls, which a process answers in any way it likes.  The descriptors, the
`FILE*` and the regions it gets are handles.  However the calls are answered, `JNI_OnLoad` uses the handles it
holds, a null `FILE*` when the maps could not be opened and `MAP_FAILED` when the file could not be mapped, and
nothing else; and it has released what it got when it returns (`jniOnLoad_releases`).
-/
namespace JLSPlant

open Binary (Bytes CString)
open IoWrapper (Answer)
open Routine (loop)
open Stdio (scanHex)

/-! ## The calls -/

/-- What `mmap` returns: `MAP_FAILED`, or the address of a region. -/
inductive Region
  | mapFailed | mapped (address : Nat)
deriving DecidableEq

/-- A descriptor is what `open` returned; a `FILE*` is null or told by its address.  `load` stands for the reads
through `header`, and `loadAddr` for that of the variable `load_addr`, which `sscanf` has not set. -/
inductive SystemCall (w : ElfClass)
  | getEnv
  | getApiLevel
  | access (path : CString)
  | openFile (pathname : CString)
  | lseek (fd : Int)
  | mmap (size fd : Int)
  | close (fd : Int)
  | fopen
  | fgets (n : Nat) (file : Option Nat)
  | fclose (file : Option Nat)
  | loadAddr
  | load (header : Region)
  | munmap (header : Region) (size : Int)
  | mprotect (address length : Uintptr w)
  | dobbyHook (target hooker : Uintptr w)
  | dobbyDestroy (func : Uintptr w)

namespace SystemCall

variable {w : ElfClass}

abbrev Reply : SystemCall w → Type
  | getEnv         => Bool
  | getApiLevel    => Int
  | access _       => Bool
  | openFile _     => Answer Nat
  | lseek _        => Int
  | mmap _ _       => Region
  | close _        => Unit
  | fopen          => Answer Nat
  | fgets _ _      => Option Bytes
  | fclose _       => Unit
  | loadAddr       => Nat
  | load _         => Bytes
  | munmap _ _     => Unit
  | mprotect _ _   => Bool
  | dobbyHook _ _  => Option (Uintptr w)
  | dobbyDestroy _ => Bool

end SystemCall

abbrev Calls (w : ElfClass) := Routine Fault (SystemCall w) SystemCall.Reply

/-- An `ElfImg`, with its header as a pointer: null, or what `mmap` returned. -/
structure Img where
  image : ElfImg := {}
  header : Option Region := none
  size : Int := 0

namespace Calls

variable {w : ElfClass}

abbrev call (c : SystemCall w) : Calls w c.Reply := Routine.call c

/-- A retry loop, each round of which makes the call `attempt`. -/
def retrying {A H : Type} (attempt : Calls w (Answer A))
    (round : (Nat → Answer A) → Nat × CInt → Option ((H × Nat) ⊕ (Nat × CInt))) : Calls w (H × Nat) :=
  loop .unfinished (fun s => do
    let answer ← attempt
    ofExcept (orFault .unfinished (round (fun _ => answer) s))) 3 (0, IoWrapper.defaultRetries)

def wrappedOpen (pathname : CString) : Calls w (Int × Nat) :=
  retrying (call (.openFile pathname)) IoWrapper.wrappedOpenRound

def wrappedFOpen : Calls w (Option Nat × Nat) := retrying (call .fopen) IoWrapper.wrappedFOpenRound

def mapsRound (name : CString) (maps : Option Nat) (k : Nat) : Calls w (Option (Nat × Bytes) ⊕ Nat) := do
  let line : Option Bytes ← call (.fgets 255 maps)
  match line with
  | none      => pure (.inl none)
  | some buff => if ElfImg.matchesMapping name buff then pure (.inl (some (k, buff))) else pure (.inr (k + 1))

/-- What `getModuleBase` returns, when the maps are closed. -/
def loadAddrOf : Option (Nat × Bytes) → Calls w Nat
  | none           => pure 0
  | some (_, buff) =>
    match scanHex w.modulus buff with
    | some loadAddr => pure loadAddr
    | none          => call .loadAddr

/-- `getModuleBase`, which reads at most `fuel + 1` pieces of the maps. -/
def getModuleBase (fuel : Nat) (name : CString) : Calls w Nat := do
  let (maps, _) ← wrappedFOpen
  let found ← loop .unfinished (mapsRound name maps) (fuel + 1) 0
  call (.fclose maps)
  loadAddrOf found

def openPath (fuel : Nat) (path : CString) : Calls w Img := do
  let (fd, _) ← wrappedOpen path
  if fd = -1 then pure {} else
  let size ← call (.lseek fd)
  let header : Region ← call (.mmap size fd)
  call (.close fd)
  let file ← call (.load header)
  let image ← ofExcept (orFault .outsideFile (ElfImg.openMapped w file 0))
  let base ← getModuleBase fuel path
  pure { image := { image with base := base }, header := some header, size := size }

def relativeOpen (fuel : Nat) (mElf : CString) : Calls w Img := do
  let apiLevel : Int ← call .getApiLevel
  if 29 ≤ apiLevel then
    let mBuffer ← ofExcept (ElfImg.joined (kApexArtLibDir w) mElf)
    if ← call (.access mBuffer) then openPath fuel mBuffer else
    let mBuffer ← ofExcept (ElfImg.joined (kApexRuntimeLibDir w) mElf)
    if ← call (.access mBuffer) then openPath fuel mBuffer else
    let mBuffer ← ofExcept (ElfImg.joined (kSystemLibDir w) mElf)
    openPath fuel mBuffer
  else
    let mBuffer ← ofExcept (ElfImg.joined (kSystemLibDir w) mElf)
    openPath fuel mBuffer

def construct (fuel : Nat) (elf : CString) : Calls w Img :=
  if elf.bytes.head? = some 47 then openPath fuel elf else relativeOpen fuel elf

def destructor (img : Img) : Calls w Unit :=
  match img.header with
  | none        => pure ()
  | some header => call (.munmap header img.size)

def getSymbolAddress (img : Img) (symbol : StringView) (matchPrefix : Bool) : Calls w Nat := do
  let name ← ofExcept (orFault .outsideFile symbol.data)
  match img.header with
  | none        => ofExcept (orFault .outsideFile (img.image.getSymbolAddress w [] name matchPrefix))
  | some header =>
    let file ← call (.load header)
    ofExcept (orFault .outsideFile (img.image.getSymbolAddress w file name matchPrefix))

def inlineHooker (target hooker : Uintptr w) : Calls w (Uintptr w) := do
  let (address, length) := MakeRwx.makeRwx target (CInt.toUintptr w MakeRwx.pageSize)
  let _ ← call (.mprotect address length)
  let hooked : Option (Uintptr w) ← call (.dobbyHook target hooker)
  match hooked with
  | some originCall => pure originCall
  | none            => pure 0

def initInfo (art : Img) : (r : Request w) → Calls w r.Reply
  | .inlineHooker target hooker     => inlineHooker target hooker
  | .inlineUnhooker func            => call (.dobbyDestroy func)
  | .artSymbolResolver symbol       => getSymbolAddress art symbol false
  | .artSymbolPrefixResolver symbol => getSymbolAddress art symbol true

/-- **`JNI_OnLoad`**: the version, and `initialized`. -/
def jniOnLoad (fuel : Nat) (init : Init w) : Calls w (Int × Bool) := do
  if ← call .getEnv then
    let art ← construct fuel libart
    let initialized ← Routine.through (initInfo art) init
    destructor art
    pure (jniVersion16, initialized)
  else pure (jniErr, false)

end Calls

/-! ## The handles -/

inductive Handle
  | fd (n : Int)
  | file (n : Nat)
  | region (n : Nat)
deriving DecidableEq

/-- **What is held**, whether the last `fopen` and whether `mmap` failed, and whether a call was made on an invalid
pointer since. -/
structure Holding where
  held : Set Handle
  nullFile : Bool := false
  mapFailed : Bool := false
  invalid : Bool := false

namespace Holding

variable {w : ElfClass}

def add (s : Holding) (h : Handle) : Holding := { s with held := insert h s.held }

def remove (s : Holding) (h : Handle) : Holding := { s with held := s.held \ {h} }

/-- **The calls that are made**: on what is held, or on what a failed `fopen` or `mmap` returned. -/
def Allows (s : Holding) : SystemCall w → Prop
  | .lseek fd             => .fd fd ∈ s.held
  | .mmap _ fd            => .fd fd ∈ s.held
  | .close fd             => .fd fd ∈ s.held
  | .fgets _ (some file)  => .file file ∈ s.held
  | .fclose (some file)   => .file file ∈ s.held
  | .load (.mapped a)     => .region a ∈ s.held
  | .munmap (.mapped a) _ => .region a ∈ s.held
  | .fgets _ none         => s.nullFile = true
  | .fclose none          => s.nullFile = true
  | .load .mapFailed      => s.mapFailed = true
  | .munmap .mapFailed _  => s.mapFailed = true
  | _                     => True

/-- The system hands out what is not held. -/
def Grants (s : Holding) : (c : SystemCall w) → c.Reply → Prop
  | .openFile _, .ok fd  => .fd fd ∉ s.held
  | .fopen, .ok file     => .file file ∉ s.held
  | .mmap _ _, .mapped a => .region a ∉ s.held
  | _, _                 => True

def next (s : Holding) : (c : SystemCall w) → c.Reply → Holding
  | .openFile _, .ok fd      => s.add (.fd fd)
  | .close fd, _             => s.remove (.fd fd)
  | .fopen, .ok file         => { s.add (.file file) with nullFile := false }
  | .fopen, .error _         => { s with nullFile := true }
  | .fclose (some file), _   => s.remove (.file file)
  | .mmap _ _, .mapped a     => { s.add (.region a) with mapFailed := false }
  | .mmap _ _, .mapFailed    => { s with mapFailed := true }
  | .munmap (.mapped a) _, _ => s.remove (.region a)
  | .fgets _ none, _         => { s with invalid := true }
  | .fclose none, _          => { s with invalid := true }
  | .load .mapFailed, _      => { s with invalid := true }
  | .munmap .mapFailed _, _  => { s with invalid := true }
  | _, _                     => s

theorem remove_add {s : Holding} {h : Handle} (hh : h ∉ s.held) : (s.add h).remove h = s := by
  unfold add remove
  simp only [Set.insert_sdiff_self_of_notMem hh]

/-- **An invalid pointer was used exactly when a call that was to give a valid one failed.** -/
def Settled (s : Holding) : Prop := s.invalid = (s.nullFile || s.mapFailed)

theorem settled_of_mapFailed {s : Holding} (h : s.mapFailed = true) : { s with invalid := true }.Settled := by
  show true = (s.nullFile || s.mapFailed)
  rw [h, Bool.or_true]

end Holding

/-- **The protocol of the handles.** -/
def handles (w : ElfClass) : Protocol (SystemCall w) SystemCall.Reply Holding where
  may s c := s.Allows c
  answers s c o := s.Grants c o
  next s c o := s.next c o

/-! ## Each routine -/

namespace Calls

variable {w : ElfClass} {s : Holding} {E : Fault → Holding → Prop}

theorem orFault_error {α : Type} {f g : Fault} {x : Option α} (h : orFault f x = .error g) : g = f := by
  cases x with
  | none => cases h; rfl
  | some a => cases h

theorem retryRound_ok {A H : Type} {null : H} {opened : H → Bool} {handle : A → H} {a : A}
    (h : opened (handle a) = true) (s : Nat × CInt) :
    IoWrapper.retryRound null opened (fun _ => Answer.call null handle (.ok a)) s =
      some (.inl (handle a, s.1 + 1)) := by
  simp [IoWrapper.retryRound, Answer.call, h]

theorem retryRound_error {A H : Type} {null : H} {opened : H → Bool} {handle : A → H} {e : Errno}
    (h : opened null = false) {s : Nat × CInt} {r : H × Nat}
    (hr : IoWrapper.retryRound null opened (fun _ => Answer.call null handle (.error e)) s = some (.inl r)) :
    r.1 = null := by
  by_cases hretry : IoWrapper.canRetry e = true
  · simp only [IoWrapper.retryRound, Answer.call, h, hretry, Bool.false_eq_true, if_false, if_true] at hr
    obtain ⟨⟨value, left⟩, -, hr⟩ := Option.bind_eq_some_iff.1 hr
    split at hr <;> cases hr
    rfl
  · simp only [IoWrapper.retryRound, Answer.call, h, hretry, Bool.false_eq_true, if_false] at hr
    cases hr
    rfl

theorem keeps_retrying {A H : Type} {null : H} {opened : H → Bool} {handle : A → H} (hnull : opened null = false)
    (hhandle : ∀ a, opened (handle a) = true) {attempt : Calls w (Answer A)} {Q : H × Nat → Holding → Prop}
    {I : Holding → Prop} (hE : ∀ s, I s → E .unfinished s)
    (hattempt : ∀ s, I s → attempt.Keeps (handles w) E (fun answer s => match answer with
      | .ok a    => ∀ k, Q (handle a, k) s
      | .error _ => I s ∧ ∀ k, Q (null, k) s) s) (hs : I s) :
    (retrying attempt fun answers => IoWrapper.retryRound null opened fun k => (answers k).call null handle).Keeps
      (handles w) E Q s := by
  refine Routine.Keeps.loop (I := fun _ s => I s) (fun _ s hs => hE s hs) (fun t s hs => ?_) 3 hs
  refine Routine.Keeps.bind ((hattempt s hs).mono fun answer s hs => ?_)
  cases answer with
  | ok a =>
    beta_reduce
    rw [retryRound_ok (hhandle a)]
    exact Routine.Keeps.ofExcept (fun r hr => by cases hr; exact hs _) (fun e he => by cases he)
  | error e =>
    obtain ⟨hs, hdenied⟩ := hs
    refine Routine.Keeps.ofExcept (fun r hr => ?_) fun f hf => ?_
    · have hround := orFault_ok_iff.1 hr
      cases r with
      | inl r =>
        obtain ⟨h, k⟩ := r
        obtain rfl : h = null := retryRound_error hnull hround
        exact hdenied k
      | inr t => exact hs
    · obtain rfl := orFault_error hf
      exact hE _ hs

theorem keeps_wrappedOpen {path : CString} {Q : Int × Nat → Holding → Prop} (hE : E .unfinished s)
    (hdenied : ∀ k, Q (-1, k) s) (hopened : ∀ (fd k : Nat), .fd fd ∉ s.held → Q ((fd : Int), k) (s.add (.fd fd))) :
    (wrappedOpen path).Keeps (handles w) E Q s := by
  refine keeps_retrying (I := fun s' => s' = s) rfl (fun a => by simp) (fun s' hs => hs ▸ hE) (fun s' hs => ?_) rfl
  subst hs
  refine Routine.Keeps.call trivial fun o ho => ?_
  cases o with
  | ok fd => exact fun k => hopened fd k ho
  | error e => exact ⟨rfl, hdenied⟩

theorem keeps_wrappedFOpen {Q : Option Nat × Nat → Holding → Prop} (hE : ∀ s, E .unfinished s)
    (hdenied : ∀ k, Q (none, k) { s with nullFile := true })
    (hopened : ∀ (file k : Nat), .file file ∉ s.held →
      Q (some file, k) ({ s with nullFile := false }.add (.file file))) :
    wrappedFOpen.Keeps (handles w) E Q s := by
  refine keeps_retrying (I := fun s' => ∃ n, s' = { s with nullFile := n }) rfl (fun a => rfl) (fun s' _ => hE s')
    (fun s' hs => ?_) ⟨s.nullFile, rfl⟩
  obtain ⟨n, rfl⟩ := hs
  refine Routine.Keeps.call trivial fun o ho => ?_
  cases o with
  | ok file => exact fun k => hopened file k ho
  | error e => exact ⟨⟨true, rfl⟩, hdenied⟩

theorem keeps_loadAddrOf {Q : Nat → Holding → Prop} (h : ∀ base, Q base s) :
    ∀ found, (loadAddrOf found).Keeps (handles w) E Q s
  | none           => Routine.Keeps.pure (h 0)
  | some (k, buff) => by
    cases hscan : scanHex w.modulus buff with
    | some loadAddr =>
      rw [show loadAddrOf (w := w) (some (k, buff)) = pure loadAddr by simp only [loadAddrOf, hscan]]
      exact Routine.Keeps.pure (h loadAddr)
    | none =>
      rw [show loadAddrOf (w := w) (some (k, buff)) = call .loadAddr by simp only [loadAddrOf, hscan]]
      exact Routine.Keeps.call trivial fun base _ => h base

theorem keeps_mapsRound {name : CString} {maps : Option Nat} {k : Nat}
    {Q : Option (Nat × Bytes) ⊕ Nat → Holding → Prop}
    (hmay : s.Allows (w := w) (.fgets 255 maps)) (h : ∀ r line, Q r (s.next (w := w) (.fgets 255 maps) line)) :
    (mapsRound name maps k).Keeps (handles w) E Q s := by
  refine Routine.Keeps.bind (Routine.Keeps.call hmay fun line _ => ?_)
  cases line with
  | none => exact Routine.Keeps.pure (h _ none)
  | some buff =>
    simp only
    split
    · exact Routine.Keeps.pure (h _ (some buff))
    · exact Routine.Keeps.pure (h _ (some buff))

/-- However many pieces are read, the handles are as after the first `fgets`, which the first round makes. -/
theorem keeps_rounds {fuel : Nat} {name : CString} {maps : Option Nat} (hE : ∀ s, E .unfinished s)
    (hmay : s.Allows (w := w) (.fgets 255 maps)) :
    (loop .unfinished (mapsRound name maps) (fuel + 1) 0).Keeps (handles w) E
      (fun _ s' => s' = s.next (w := w) (.fgets 255 maps) none) s := by
  refine Routine.Keeps.loop (I := fun _ s' => s' = s ∨ s' = s.next (w := w) (.fgets 255 maps) none)
    (fun _ s' _ => hE s') (fun k s' hs => ?_) (fuel + 1) (Or.inl rfl)
  have hsame : s'.Allows (w := w) (.fgets 255 maps) ∧
      ∀ line, s'.next (w := w) (.fgets 255 maps) line = s.next (w := w) (.fgets 255 maps) none := by
    rcases hs with rfl | rfl
    · cases maps <;> exact ⟨hmay, fun _ => rfl⟩
    · cases maps <;> exact ⟨hmay, fun _ => rfl⟩
  refine keeps_mapsRound hsame.1 fun r line => ?_
  cases r with
  | inl found => exact hsame.2 line
  | inr k => exact Or.inr (hsame.2 line)

theorem keeps_getModuleBase {fuel : Nat} {name : CString} {Q : Nat → Holding → Prop} (hE : ∀ s, E .unfinished s)
    (hnull : ∀ base, Q base { s with nullFile := true, invalid := true })
    (hopened : ∀ base, Q base { s with nullFile := false }) :
    (getModuleBase fuel name).Keeps (handles w) E Q s := by
  refine Routine.Keeps.bind (keeps_wrappedFOpen hE (fun _ => ?_) fun file _ hfile => ?_)
  · have hmay : { s with nullFile := true }.Allows (w := w) (.fgets 255 none) := rfl
    refine Routine.Keeps.bind ((keeps_rounds hE hmay).mono fun found s' hs => ?_)
    subst hs
    exact Routine.Keeps.bind (Routine.Keeps.call rfl fun _ _ => keeps_loadAddrOf hnull found)
  · have hmay : ({ s with nullFile := false }.add (.file file)).Allows (w := w) (.fgets 255 (some file)) :=
      Set.mem_insert _ _
    refine Routine.Keeps.bind ((keeps_rounds hE hmay).mono fun found s' hs => ?_)
    subst hs
    refine Routine.Keeps.bind (Routine.Keeps.call hmay fun _ _ => ?_)
    show (loadAddrOf found).Keeps (handles w) E Q
      (({ s with nullFile := false }.add (.file file)).remove (.file file))
    rw [Holding.remove_add (s := { s with nullFile := false }) hfile]
    exact keeps_loadAddrOf hopened found

end Calls

/-- What is held besides, while the image is there. -/
def heldWith (held : Set Handle) : Option Region → Set Handle
  | some (.mapped a) => insert (.region a) held
  | _                => held

/-- **The state while an image is there**, by its header. -/
structure Standing (held : Set Handle) (header : Option Region) (s : Holding) : Prop where
  fresh : ∀ a, header = some (.mapped a) → .region a ∉ held
  held : s.held = heldWith held header
  mapFailed : header = some .mapFailed → s.mapFailed = true

/-- The state where a fault stops: what is held is the same, regions apart, unless the fuel was not enough. -/
def Stopped (held : Set Handle) (f : Fault) (s : Holding) : Prop :=
  f ≠ .unfinished → (∀ h, (∀ n, h ≠ .region n) → (h ∈ s.held ↔ h ∈ held)) ∧ s.Settled

theorem Standing.stopped {held : Set Handle} {header : Option Region} {s : Holding} (h : Standing held header s)
    (hs : s.Settled) (f : Fault) : Stopped held f s := by
  refine fun _ => ⟨fun x hx => ?_, hs⟩
  rw [h.held]
  rcases header with _ | _ | a
  · exact Iff.rfl
  · exact Iff.rfl
  · exact Set.mem_insert_iff.trans (or_iff_right (hx a))

namespace Calls

variable {w : ElfClass} {held : Set Handle}

theorem stopped_unfinished (s : Holding) : Stopped held .unfinished s := fun h => absurd rfl h

/-- A read through the header. -/
theorem keeps_load {header : Region} {s : Holding} {Q : Bytes → Holding → Prop} (h : Standing held (some header) s)
    (hs : header = .mapFailed ∨ s.Settled)
    (hQ : ∀ file s', Standing held (some header) s' → s'.Settled → s'.nullFile = s.nullFile → Q file s') :
    (call (w := w) (.load header)).Keeps (handles w) (Stopped held) Q s := by
  cases header with
  | mapFailed =>
    have hfailed := h.mapFailed rfl
    have hsettled := Holding.settled_of_mapFailed hfailed
    exact Routine.Keeps.call hfailed fun file _ => hQ file _ ⟨h.fresh, h.held, fun _ => hfailed⟩ hsettled rfl
  | mapped a =>
    have hmem : Handle.region a ∈ s.held := h.held ▸ Set.mem_insert _ _
    exact Routine.Keeps.call hmem fun file _ => hQ file s h (hs.resolve_left nofun) rfl

/-- The state once the file is mapped, or not, and closed. -/
theorem standing_closed {fd : Nat} (hfd : .fd fd ∉ held) {size : Int} {header : Region} {s : Holding}
    (hheader : (handles w).answers (Holding.add { held := held } (.fd fd)) (.mmap size fd) header)
    (hs : ((handles w).next (Holding.add { held := held } (.fd fd)) (.mmap size fd) header).remove (.fd fd) = s) :
    Standing held (some header) s ∧ (header = .mapFailed ∨ s.Settled) ∧ s.nullFile = false := by
  cases header with
  | mapFailed =>
    have hclosed := Holding.remove_add (s := { held := held, mapFailed := true }) hfd
    obtain rfl := hclosed.symm.trans hs
    exact ⟨⟨nofun, rfl, fun _ => rfl⟩, Or.inl rfl, rfl⟩
  | mapped a =>
    have hregion : Handle.region a ∉ held := fun h => hheader (Set.mem_insert_of_mem _ h)
    have hfd' : Handle.fd fd ∉ (Holding.add { held := held } (.region a)).held := by
      rintro (h | h)
      · cases h
      · exact hfd h
    have hclosed := Holding.remove_add hfd'
    rw [Holding.add, Holding.add, Set.insert_comm] at hclosed
    obtain rfl := hclosed.symm.trans hs
    refine ⟨⟨fun b hb => ?_, rfl, nofun⟩, Or.inr rfl, rfl⟩
    cases hb
    exact hregion

theorem keeps_openPath (fuel : Nat) (path : CString) : (openPath fuel path).Keeps (handles w) (Stopped held)
    (fun img s => Standing held img.header s ∧ s.Settled) { held := held } := by
  refine Routine.Keeps.bind (keeps_wrappedOpen (stopped_unfinished _) (fun _ => ?_) fun fd _ hfd => ?_)
  · exact Routine.Keeps.pure ⟨⟨nofun, rfl, nofun⟩, rfl⟩
  · have hne : (fd : Int) ≠ -1 := by omega
    have hmem : Handle.fd fd ∈ (Holding.add { held := held } (.fd fd)).held := Set.mem_insert _ _
    simp only [if_neg hne]
    refine Routine.Keeps.bind (Routine.Keeps.call hmem fun size _ => ?_)
    refine Routine.Keeps.bind (Routine.Keeps.call hmem fun header hheader => ?_)
    obtain ⟨hstanding, hsettled, hnull⟩ := standing_closed hfd hheader rfl
    have hopen : Handle.fd fd ∈
        ((handles w).next (Holding.add { held := held } (.fd fd)) (.mmap size fd) header).held := by
      cases header with
      | mapFailed => exact hmem
      | mapped a => exact Set.mem_insert_of_mem _ hmem
    refine Routine.Keeps.bind (Routine.Keeps.call hopen fun _ _ => ?_)
    refine Routine.Keeps.bind (keeps_load hstanding hsettled fun file s' hs hsettled' hnull' => ?_)
    refine Routine.Keeps.bind (Routine.Keeps.ofExcept (fun image _ => ?_) fun f _ => hs.stopped hsettled' f)
    have hinvalid : s'.invalid = s'.mapFailed := by
      rw [hsettled', hnull'.trans hnull, Bool.false_or]
    refine Routine.Keeps.bind (keeps_getModuleBase stopped_unfinished (fun base => ?_) fun base => ?_)
    · exact Routine.Keeps.pure ⟨⟨hs.fresh, hs.held, hs.mapFailed⟩, rfl⟩
    · exact Routine.Keeps.pure ⟨⟨hs.fresh, hs.held, hs.mapFailed⟩, hinvalid⟩

theorem keeps_joined {dir mElf : CString} {f : CString → Calls w Img} {Q : Img → Holding → Prop}
    (h : ∀ path, (f path).Keeps (handles w) (Stopped held) Q { held := held }) :
    Routine.Keeps (handles w) (Stopped held) Q (ofExcept (ElfImg.joined dir mElf) >>= f) { held := held } :=
  Routine.Keeps.bind (Routine.Keeps.ofExcept (fun path _ => h path) fun _ _ _ => ⟨fun _ _ => Iff.rfl, rfl⟩)

theorem keeps_construct (fuel : Nat) (elf : CString) : (construct fuel elf).Keeps (handles w) (Stopped held)
    (fun img s => Standing held img.header s ∧ s.Settled) { held := held } := by
  have hopen := @keeps_openPath w held fuel
  unfold construct
  split
  · exact hopen elf
  · refine Routine.Keeps.bind (Routine.Keeps.call trivial fun apiLevel _ => ?_)
    split
    · refine keeps_joined fun art => Routine.Keeps.bind (Routine.Keeps.call trivial fun readable _ => ?_)
      cases readable with
      | true => exact hopen art
      | false =>
        refine keeps_joined fun runtime => Routine.Keeps.bind (Routine.Keeps.call trivial fun readable _ => ?_)
        cases readable with
        | true => exact hopen runtime
        | false => exact keeps_joined hopen
    · exact keeps_joined hopen

theorem keeps_destructor {img : Img} {s : Holding} (h : Standing held img.header s) (hs : s.Settled) :
    (destructor (w := w) img).Keeps (handles w) (Stopped held) (fun _ s => s.held = held ∧ s.Settled) s := by
  obtain ⟨image, header, size⟩ := img
  rcases header with _ | _ | a
  · exact Routine.Keeps.pure ⟨h.held, hs⟩
  · have hfailed := h.mapFailed rfl
    exact Routine.Keeps.call hfailed fun _ _ => ⟨h.held, Holding.settled_of_mapFailed hfailed⟩
  · have hmem : Handle.region a ∈ s.held := h.held ▸ Set.mem_insert _ _
    refine Routine.Keeps.call hmem fun _ _ => ⟨?_, hs⟩
    show s.held \ {.region a} = held
    rw [h.held]
    exact Set.insert_sdiff_self_of_notMem (h.fresh a rfl)

theorem keeps_getSymbolAddress {img : Img} {s : Holding} (h : Standing held img.header s) (hs : s.Settled)
    (symbol : StringView) (matchPrefix : Bool) : (getSymbolAddress (w := w) img symbol matchPrefix).Keeps (handles w)
      (Stopped held) (fun _ s => Standing held img.header s ∧ s.Settled) s := by
  obtain ⟨image, header, size⟩ := img
  refine Routine.Keeps.bind (Routine.Keeps.ofExcept (fun name _ => ?_) fun f _ => h.stopped hs f)
  cases header with
  | none => exact Routine.Keeps.ofExcept (fun _ _ => ⟨h, hs⟩) fun f _ => h.stopped hs f
  | some header =>
    refine Routine.Keeps.bind (keeps_load h (Or.inr hs) fun file s' hs' hsettled _ => ?_)
    exact Routine.Keeps.ofExcept (fun _ _ => ⟨hs', hsettled⟩) fun f _ => hs'.stopped hsettled f

/-- Whatever `Init` asks, the handles stay. -/
theorem keeps_initInfo (art : Img) (r : Request w) (s : Holding) (h : Standing held art.header s ∧ s.Settled) :
    (initInfo art r).Keeps (handles w) (Stopped held) (fun _ s => Standing held art.header s ∧ s.Settled) s := by
  cases r with
  | inlineHooker target hooker =>
    refine Routine.Keeps.bind (Routine.Keeps.call trivial fun _ _ => ?_)
    refine Routine.Keeps.bind (Routine.Keeps.call trivial fun hooked _ => ?_)
    cases hooked <;> exact Routine.Keeps.pure h
  | inlineUnhooker func => exact Routine.Keeps.call trivial fun _ _ => h
  | artSymbolResolver symbol => exact keeps_getSymbolAddress h.1 h.2 symbol false
  | artSymbolPrefixResolver symbol => exact keeps_getSymbolAddress h.1 h.2 symbol true

theorem keeps_jniOnLoad (fuel : Nat) (init : Init w) : (jniOnLoad fuel init).Keeps (handles w) (Stopped held)
    (fun _ s => s.held = held ∧ s.Settled) { held := held } := by
  refine Routine.Keeps.bind (Routine.Keeps.call trivial fun env _ => ?_)
  cases env with
  | false => exact Routine.Keeps.pure ⟨rfl, rfl⟩
  | true =>
    refine Routine.Keeps.bind ((keeps_construct fuel libart).mono fun art s hs => ?_)
    have hinit := Routine.Keeps.through (@keeps_initInfo w held art) (c := init) hs
    refine Routine.Keeps.bind (hinit.mono fun initialized s hs => ?_)
    exact Routine.Keeps.bind ((keeps_destructor hs.1 hs.2).mono fun _ s hs => Routine.Keeps.pure hs)

end Calls

/-- **`JNI_OnLoad` uses only what it has got and keeps nothing**, however the system answers and whatever `Init`
asks.  At each moment every call was made on a handle that was held, or on a null `FILE*` after the last `fopen`
failed, or on `MAP_FAILED` after `mmap` failed.  When it returns, every handle it got is released, and an invalid
pointer was used exactly when the last `fopen` or the `mmap` failed; so it is where a fault stops it, but for the
region. -/
theorem jniOnLoad_releases (w : ElfClass) (fuel : Nat) (init : Init w) (held : Set Handle)
    (l : List ((c : SystemCall w) × c.Reply)) (c : Code (SystemCall w) SystemCall.Reply (Except Fault (Int × Bool)))
    (h : Code.After (Calls.jniOnLoad fuel init).run l c) (hl : (handles w).Answered { held := held } l) :
    (handles w).Kept { held := held } l ∧
      (∀ r, c = .ret (.ok r) → ((handles w).after { held := held } l).held = held ∧
        ((handles w).after { held := held } l).Settled) ∧
      ∀ f, c = .ret (.error f) → Stopped held f ((handles w).after { held := held } l) := by
  obtain ⟨hkept, hleft⟩ := (Calls.keeps_jniOnLoad fuel init).after h hl
  refine ⟨hkept, fun r hr => ?_, fun f hf => ?_⟩
  · subst hr
    exact hleft
  · subst hf
    exact hleft

/-- The library is opened and cannot be mapped; the file that `MAP_FAILED` is read for is empty. -/
def unmappedCalls : List ((c : SystemCall .elf64) × c.Reply) :=
  [⟨.getEnv, true⟩, ⟨.getApiLevel, (28 : Int)⟩, ⟨.openFile (joinPath (kSystemLibDir .elf64) libart), .ok 3⟩,
    ⟨.lseek 3, (0 : Int)⟩, ⟨.mmap 0 3, .mapFailed⟩, ⟨.close 3, ()⟩, ⟨.load .mapFailed, []⟩]

theorem unmappedCalls_release : (handles .elf64).Kept { held := ∅ } unmappedCalls ∧
    Handle.fd 3 ∉ ((handles .elf64).after { held := ∅ } unmappedCalls).held ∧
    ((handles .elf64).after { held := ∅ } unmappedCalls).invalid = true := by
  have hafter : Code.After (Calls.jniOnLoad 0 asksOneSymbol).run unmappedCalls (.ret (.error .outsideFile)) :=
    .cons (.cons (.cons (.cons (.cons (.cons (.cons (.nil _)))))))
  have hanswered : (handles .elf64).Answered { held := ∅ } unmappedCalls :=
    ⟨trivial, trivial, Set.notMem_empty _, trivial, trivial, trivial, trivial, trivial⟩
  obtain ⟨hkept, -, hstopped⟩ := jniOnLoad_releases .elf64 0 asksOneSymbol ∅ unmappedCalls _ hafter hanswered
  obtain ⟨hheld, hsettled⟩ := hstopped .outsideFile rfl (by decide)
  exact ⟨hkept, fun h => (hheld (.fd 3) nofun).1 h, hsettled⟩

end JLSPlant
