import JLSPlant.Code
import JLSPlant.Construction
import JLSPlant.Linearization
import JLSPlant.MakeRwx
import JLSPlant.Resolver
/-!
# OnLoad — `JNI_OnLoad`, and what the Java side makes of it

LSPlant's `Init` is a program that asks: for symbols, by views of their names, which `JNI_OnLoad` looks up in the
image of `libart.so`, and for inline hooks.  What it answers is the flag `initialized`; the version `JNI_OnLoad`
returns does not depend on it.  What C++ leaves undefined, an access through an invalid pointer or the value of a
variable that was never set, stops `JNI_OnLoad` here.  If the image has no base, an `Init` that needs a symbol
leaves the library uninitialized, and then no operation of any thread does anything (`failed_image_inert`).
-/
namespace JLSPlant

open Binary (Bytes CString)
open Stdio (pieces)
open Threads (Item)

variable {w : ElfClass} {π : Type}

/-! ## `JNI_OnLoad` -/

/-- What `Init` can ask of the functions of `InitInfo`. -/
inductive Request (w : ElfClass)
  | inlineHooker (target hooker : Uintptr w)
  | inlineUnhooker (func : Uintptr w)
  | artSymbolResolver (symbol : StringView)
  | artSymbolPrefixResolver (symbol : StringView)

abbrev Request.Reply : Request w → Type
  | inlineHooker _ _          => Uintptr w
  | inlineUnhooker _          => Bool
  | artSymbolResolver _       => Nat
  | artSymbolPrefixResolver _ => Nat

abbrev Init (w : ElfClass) := Code (Request w) Request.Reply Bool

/-- What the process does for an inline hook, in states of its own: `mprotect` and Dobby, which answers the function
to call the original by. -/
structure Patcher (w : ElfClass) (π : Type) where
  mprotect : π → Uintptr w → Uintptr w → Bool × π
  dobbyHook : π → Uintptr w → Uintptr w → Option (Uintptr w) × π
  dobbyDestroy : π → Uintptr w → Bool × π

/-- The answer of `mprotect` is not looked at. -/
def inlineHooker (d : Patcher w π) (p : π) (target hooker : Uintptr w) : Uintptr w × π :=
  let (address, length) := MakeRwx.makeRwx target (CInt.toUintptr w MakeRwx.pageSize)
  let (_, p) := d.mprotect p address length
  match d.dobbyHook p target hooker with
  | (some originCall, p) => (originCall, p)
  | (none, p)            => (0, p)

def initInfo (d : Patcher w π) (art : Built) (p : π) : (r : Request w) → Except Fault (r.Reply × π)
  | .inlineHooker target hooker     => .ok (inlineHooker d p target hooker)
  | .inlineUnhooker func            => .ok (d.dobbyDestroy p func)
  | .artSymbolResolver symbol       =>
    (orFault .outsideFile (artSymbolResolver w art.header.file art.image symbol)).map (·, p)
  | .artSymbolPrefixResolver symbol =>
    (orFault .outsideFile (artSymbolPrefixResolver w art.header.file art.image symbol)).map (·, p)

structure OnLoad where
  result : Int
  initialized : Bool
  unmapped : Option (Header × Int)
deriving DecidableEq

def jniErr : Int := -1

def jniVersion16 : Int := 0x00010006

/-- **`JNI_OnLoad`**, `getEnv` being whether `GetEnv` answers `JNI_OK`.  `art` is destroyed at the end. -/
def jniOnLoad (os : Os) (d : Patcher w π) (getEnv : Bool) (init : Init w) (p : π) : Except Fault (OnLoad × π) :=
  if getEnv then do
    let art ← ElfImg.construct w os libart
    let (initialized, p) ← init.run (initInfo d art) p
    .ok (⟨jniVersion16, initialized, art.destructor⟩, p)
  else .ok (⟨jniErr, false, none⟩, p)

/-! ## The Java side -/

/-- The versions a runtime takes from `JNI_OnLoad`: 1.2, 1.4 and 1.6. -/
def isJniVersion (result : Int) : Bool := result = 0x00010002 || result = 0x00010004 || result = jniVersion16

/-- **The static initializer of `LSPlant`**: `linked` is whether `System.loadLibrary` finds the library and may load
it; it throws when `JNI_OnLoad` returns no version. -/
def LSPlant.loadLibrary (linked callbackKept : Bool) (onLoad : OnLoad) : Env where
  isLibLoaded := linked && isJniVersion onLoad.result
  isNativeInitialized := linked && onLoad.initialized
  callbackKept := callbackKept

def LSPlant.deoptimize (env : Env) (answer : Bool) : Bool := env.isInitialized && answer

def LSPlant.makeClassInheritable (env : Env) (answer : Bool) : Bool := env.isInitialized && answer

/-! ## An image without a base -/

/-- Every symbol is null. -/
def nullSymbols : (r : Request w) → r.Reply → Prop
  | .artSymbolResolver _, o       => o = 0
  | .artSymbolPrefixResolver _, o => o = 0
  | _, _                          => True

/-- **`Init` does not succeed without a symbol.** -/
def NeedsSymbols (init : Init w) : Prop := ∀ v, init.Ends nullSymbols v → v = false

/-- **The base is not found**: the last attempt to open the file, `lseek`, `mmap` or the last attempt to open the
maps failed, or no line of the maps matches the path. -/
def Os.Baseless (os : Os) (path : CString) : Prop :=
  (∃ e, LastAnswer os.opens (.error e)) ∨ os.lseek ≤ 0 ∨ os.mmap = none ∨ (∃ e, LastAnswer os.fopens (.error e)) ∨
    ∃ maps, LastAnswer os.fopens (.ok maps) ∧ firstMatch path 0 (pieces 255 maps) = none

theorem libart_fits (w : ElfClass) (os : Os) : Fits w os libart := by
  refine Or.inr fun dir hdir => ?_
  simp only [libDirs, List.mem_append, List.mem_singleton] at hdir
  rcases hdir with hdir | rfl
  · split at hdir
    · simp only [List.mem_cons, List.not_mem_nil, or_false] at hdir
      rcases hdir with rfl | rfl <;> cases w <;> decide
    · cases hdir
  · cases w <;> decide

/-- Without a base, a lookup that ends finds null. -/
theorem address_of_null_base {file : Bytes} {e : ElfImg} (hbase : e.base = 0) {name : CString} {matchPrefix : Bool}
    {v : Nat} (h : e.getSymbolAddress w file name matchPrefix = some v) : v = 0 := by
  unfold ElfImg.getSymbolAddress at h
  obtain ⟨offset, -, h⟩ := Option.bind_eq_some_iff.1 h
  rw [hbase] at h
  simpa using h.symm

/-- **An image that is built nevertheless has no base.** -/
theorem Os.Baseless.base_eq {os : Os} {elf : CString} {art : Built} (hfits : Fits w os elf)
    (h : os.Baseless (pathOf w os elf)) (hart : ElfImg.construct w os elf = .ok art) : art.image.base = 0 := by
  rw [construct_eq hfits] at hart
  cases openPath_ok_iff.1 hart with
  | denied _ => rfl
  | @mapped fd base file maps l hfd hmmap hl hsized hmaps hbase =>
    rcases h with ⟨e, he⟩ | hlseek | hnone | ⟨e, he⟩ | ⟨maps', hmaps', hunmatched⟩
    · cases hfd.unique he
    · have hpos := (os.mapped file hmmap).1
      omega
    · rw [hmmap] at hnone; cases hnone
    · cases hmaps.unique he
    · cases hmaps.unique hmaps'
      rcases hbase with ⟨-, hzero⟩ | ⟨k, buff, hfirst, -⟩
      · exact hzero
      · rw [hunmatched] at hfirst; cases hfirst

theorem initInfo_null {art : Built} (hbase : art.image.base = 0) (d : Patcher w π) (p : π) (r : Request w)
    (o : r.Reply) (p' : π) (h : initInfo d art p r = .ok (o, p')) : nullSymbols r o := by
  have hnull : ∀ (x : Option Nat) (o : Nat) (p' : π), (∀ v, x = some v → v = 0) →
      (orFault .outsideFile x).map (·, p) = .ok (o, p') → o = 0 := by
    intro x o p' hx h
    cases x with
    | none => cases h
    | some v => cases h; exact hx _ rfl
  cases r with
  | artSymbolResolver symbol =>
    refine hnull _ o p' (fun v hv => ?_) h
    obtain ⟨name, -, hv⟩ := Option.bind_eq_some_iff.1 hv
    exact address_of_null_base hbase hv
  | artSymbolPrefixResolver symbol =>
    refine hnull _ o p' (fun v hv => ?_) h
    obtain ⟨name, -, hv⟩ := Option.bind_eq_some_iff.1 hv
    exact address_of_null_base hbase hv
  | _ => trivial

theorem jniOnLoad_baseless {os : Os} {d : Patcher w π} {getEnv : Bool} {init : Init w} {p p' : π} {r : OnLoad}
    (hneeds : NeedsSymbols init) (hbaseless : os.Baseless (pathOf w os libart))
    (h : jniOnLoad os d getEnv init p = .ok (r, p')) : r.initialized = false := by
  unfold jniOnLoad at h
  cases getEnv with
  | false => cases h; rfl
  | true =>
    obtain ⟨art, hart, h⟩ := except_bind_ok_iff.1 h
    obtain ⟨⟨initialized, p₁⟩, hrun, h⟩ := except_bind_ok_iff.1 h
    cases h
    exact hneeds initialized (Code.run_ends (initInfo_null (hbaseless.base_eq (libart_fits w os) hart) d) hrun)

/-! ## A library that is not initialized -/

/-- What an operation comes to when jLSPlant is not initialized. -/
def Op.refused : Op → Outcome
  | .hookMethod _ _ _ _         => .hookMethod false
  | .hookMethodAdvanced _ _ _ _ => .hookMethodAdvanced none
  | .unhookMethod _ _           => .unhookMethod false
  | .call t args                => .call (.original t args)

def refusals {τ : Type} : Act τ → List (Item τ Op Outcome)
  | .start θ op => [.invoke θ op, .respond θ op.refused]
  | .step _     => []

theorem Pc.start_uninitialized {env : Env} (hi : env.isInitialized = false) {s : Stores} (hs : s = Stores.init)
    (op : Op) :
    Pc.start env s op = (.idle (some op.refused), s) := by
  subst hs
  cases op with
  | call t args => rfl
  | _ => simp [Pc.start, hi, Op.refused]

/-- **Every operation returns at once, refused, and every call runs the original**, whatever the threads do. -/
theorem uninitialized_inert {τ : Type} [DecidableEq τ] {env : Env} (hi : env.isInitialized = false) :
    ∀ {l : List (Act τ)} {p p' : World τ}, (∀ θ, ∃ out, p.pc θ = .idle out) → p.shared.toStores = Stores.init →
      (threads τ env).run p l = some p' →
      (program env).history Pc.returned p l = l.flatMap refusals ∧ p'.shared.toStores = Stores.init
  | [], p, p', _, hs, hr => by
    cases hr
    exact ⟨rfl, hs⟩
  | a :: l, p, p', hidle, hs, hr => by
    obtain ⟨q, hq, hrest⟩ := (threads τ env).run_cons_some hr
    obtain ⟨k, s, hfire, rfl⟩ := (program env).machine_step hq
    obtain ⟨prior, hpc⟩ := hidle a.thread
    cases a with
    | step θ =>
      simp only [Threads.Act.thread] at hpc
      simp only [Threads.Program.fire, Threads.Act.thread, program, hpc, Pc.step, Option.map_none] at hfire
      cases hfire
    | start θ op =>
      simp only [Threads.Act.thread] at hpc
      simp only [Threads.Program.fire, Threads.Act.thread, program, hpc, Pc.start_uninitialized hi hs] at hfire
      cases hfire
      have hidle' : ∀ θ', ∃ out, (p.move θ (.idle (some op.refused)) ⟨p.shared.toStores, p.shared.record op⟩).pc θ' =
          .idle out := fun θ' => by
        by_cases hθ : θ' = θ
        · exact ⟨some op.refused, by rw [hθ, Threads.Pool.move_pc_self]⟩
        · rw [Threads.Pool.move_pc_of_ne p hθ]
          exact hidle θ'
      obtain ⟨hhist, hend⟩ := uninitialized_inert hi hidle' hs hrest
      refine ⟨?_, hend⟩
      rw [Threads.Program.history, hq, List.flatMap_cons, ← hhist]
      simp only [Threads.Act.thread, Threads.Pool.move_pc_self]
      rfl

/-- **If the base of `libart.so` is not found, and `JNI_OnLoad` returns nevertheless, jLSPlant does nothing**,
however the threads go on: no member is ever hooked, every operation is refused and every call runs the original. -/
theorem failed_image_inert (w : ElfClass) (os : Os) (d : Patcher w π) (getEnv : Bool) (init : Init w) (p p' : π)
    (r : OnLoad) (hneeds : NeedsSymbols init) (hbaseless : os.Baseless (pathOf w os libart))
    (h : jniOnLoad os d getEnv init p = .ok (r, p')) (linked callbackKept : Bool) (τ : Type) [DecidableEq τ]
    (l : List (Act τ)) (q : World τ)
    (hrun : (threads τ (LSPlant.loadLibrary linked callbackKept r)).run (World.init τ) l = some q) :
    (program (LSPlant.loadLibrary linked callbackKept r)).history Pc.returned (World.init τ) l = l.flatMap refusals ∧
      q.shared.toStores = Stores.init ∧
      (∀ t, LSPlant.isHooked (LSPlant.loadLibrary linked callbackKept r) q.shared.toStores t = false) ∧
      ∀ answer, LSPlant.deoptimize (LSPlant.loadLibrary linked callbackKept r) answer = false ∧
        LSPlant.makeClassInheritable (LSPlant.loadLibrary linked callbackKept r) answer = false := by
  have hi : (LSPlant.loadLibrary linked callbackKept r).isInitialized = false := by
    simp [LSPlant.loadLibrary, Env.isInitialized, jniOnLoad_baseless hneeds hbaseless h]
  obtain ⟨hhist, hs⟩ := uninitialized_inert hi (fun _ => ⟨none, rfl⟩) rfl hrun
  refine ⟨hhist, hs, fun t => ?_, fun answer => ⟨?_, ?_⟩⟩
  · simp [LSPlant.isHooked, hi]
  · simp [LSPlant.deoptimize, hi]
  · simp [LSPlant.makeClassInheritable, hi]

/-- A process in which nothing can be patched. -/
def stillPatcher : Patcher w Unit where
  mprotect p _ _ := (false, p)
  dobbyHook p _ _ := (none, p)
  dobbyDestroy p _ := (false, p)

def viewF : StringView := ⟨[102, 0], 0, 1, by decide⟩

/-- An `Init` that asks for the symbol `f`, and succeeds if there is one. -/
def asksOneSymbol : Init w := .ask (.artSymbolResolver viewF) fun v => .ret (decide (v ≠ 0))

theorem asksOneSymbol_needs : NeedsSymbols (asksOneSymbol (w := w)) := by
  intro v hv
  cases hv with
  | @ask _ _ o _ ho h =>
    obtain rfl : o = 0 := ho
    cases h
    rfl

def hooksAndCalls : List (Act Bool) :=
  [.start true (.hookMethod none (sampleMethod []) (some sampleReplacement) (some sampleBackup)),
    .start false (.call (sampleMethod []) [])]

theorem denied_library_inert : ∃ r q, jniOnLoad deniedOs (stillPatcher (w := .elf64)) true asksOneSymbol () =
      .ok (r, ()) ∧
    (threads Bool (LSPlant.loadLibrary true true r)).run (World.init Bool) hooksAndCalls = some q ∧
    (program (LSPlant.loadLibrary true true r)).history Pc.returned (World.init Bool) hooksAndCalls =
      hooksAndCalls.flatMap refusals := by
  have hload : jniOnLoad deniedOs (stillPatcher (w := .elf64)) true asksOneSymbol () =
      .ok (⟨jniVersion16, false, none⟩, ()) := by rfl
  have hsome : ((threads Bool (LSPlant.loadLibrary true true ⟨jniVersion16, false, none⟩)).run (World.init Bool)
      hooksAndCalls).isSome = true := rfl
  have hbaseless : deniedOs.Baseless (pathOf .elf64 deniedOs libart) :=
    Or.inl ⟨13, 0, ⟨by decide, fun j hj => absurd hj (Nat.not_lt_zero j), Or.inr rfl⟩, rfl⟩
  exact ⟨_, _, hload, (Option.some_get hsome).symm,
    (failed_image_inert .elf64 deniedOs stillPatcher true asksOneSymbol () ()
    _ asksOneSymbol_needs hbaseless hload true true Bool hooksAndCalls _ (Option.some_get hsome).symm).1⟩

end JLSPlant
