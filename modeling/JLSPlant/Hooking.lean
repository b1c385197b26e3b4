import Mathlib.Logic.Function.Basic
import JLSPlant.Trans
import JLSPlant.MemberName
/-!
# Hooking — `LSPlant`, `Hooker` and the native hook table

The state is three stores: the table native LSPlant keeps, keyed by the member itself; the `Hooker` objects on the
heap, whose fields are null until assigned; and `hookers`, keyed by the member's text.  The native layer is a table
and an answer: `Hook` installs on a target that is not hooked when its answer is a backup, `UnHook` removes what is
installed when its answer is yes, and neither changes anything otherwise.  Every operation of `LSPlant` is a
function of the stores and of the native layer's answer, and a run is a sequence of operations with what each came
to.
-/
namespace JLSPlant

open Function (update)
open Utils (getMemberName)

/-! ## The stores -/

abbrev Ref := Nat

/-- The array a hooked target's arguments arrive in; a primitive one arrives boxed. -/
abbrev Args := List (Option Object)

inductive Receiver
  | hooker (r : Ref)
  | object (o : Option Object)
deriving DecidableEq

structure Installed where
  receiver : Receiver
  callback : Method
  backup : Method
deriving DecidableEq

abbrev Table := Member → Option Installed

structure Hooker where
  owner : Option Object := none
  backup : Option Method := none
  target : Option Member := none
  replacement : Option Method := none
deriving DecidableEq

structure Stores where
  table : Table
  heap : Ref → Hooker
  next : Ref
  hookers : Text → Option Ref

namespace Stores

def init : Stores := { table := fun _ => none, heap := fun _ => {}, next := 0, hookers := fun _ => none }

/-- `new Hooker()`. -/
def alloc (s : Stores) : Stores := { s with heap := update s.heap s.next {}, next := s.next + 1 }

def assign (s : Stores) (r : Ref) (f : Hooker → Hooker) : Stores := { s with heap := update s.heap r (f (s.heap r)) }

def put (s : Stores) (key : Text) (r : Ref) : Stores := { s with hookers := update s.hookers key (some r) }

def remove (s : Stores) (key : Text) : Stores := { s with hookers := update s.hookers key none }

end Stores

structure Env where
  isLibLoaded : Bool
  isNativeInitialized : Bool
  /-- `Hooker.callback` is found by reflection: no shrinker removed or renamed it. -/
  callbackKept : Bool
deriving DecidableEq, Repr

def Env.isInitialized (env : Env) : Bool := env.isLibLoaded && env.isNativeInitialized

/-! ## The classes of jLSPlant that reflection sees -/

def appLoader : Nat := 1

def bootLoader : Nat := 0

def objectName : Name := ⟨"java.lang.Object".toList, by decide⟩

def objectClass : Class where
  loader := bootLoader
  name := objectName
  canonicalName := some objectName
  packageName := "java.lang".toList
  kind := .ordinary
  isPublic := true
  supertypes := []

def objectArrayClass : Class where
  loader := bootLoader
  name := ⟨"[Ljava.lang.Object;".toList, by decide⟩
  canonicalName := some ⟨"java.lang.Object[]".toList, by decide⟩
  packageName := "java.lang".toList
  kind := .ordinary
  isPublic := true
  supertypes := [objectClass.identity]

def packageName : Text := "dev.tclement.jlsplant".toList

def hookerClass : Class where
  loader := appLoader
  name := ⟨"dev.tclement.jlsplant.LSPlant$Hooker".toList, by decide⟩
  canonicalName := some ⟨"dev.tclement.jlsplant.LSPlant.Hooker".toList, by decide⟩
  packageName := packageName
  kind := .ordinary
  isPublic := true
  supertypes := [objectClass.identity]

def methodCallbackClass : Class where
  loader := appLoader
  name := ⟨"dev.tclement.jlsplant.LSPlant$Hooker$MethodCallback".toList, by decide⟩
  canonicalName := some ⟨"dev.tclement.jlsplant.LSPlant.Hooker.MethodCallback".toList, by decide⟩
  packageName := packageName
  kind := .ordinary
  isPublic := true
  supertypes := [objectClass.identity]

/-- `Hooker.class.getDeclaredMethod("callback", Object[].class)`. -/
def Hooker.callbackMethod : Method where
  decl := { declaringClass := hookerClass
            name := ⟨"callback".toList, by decide⟩
            parameterTypes := [objectArrayClass]
            returnType := objectClass
            isStatic := false
            visibility := .pub }

structure MethodCallback where
  backup : Option Method
  args : Args
deriving DecidableEq

/-! ## The native layer -/

namespace Native

/-- `lsplant::Hook` on a table: the answer counts only for a target that is not hooked and a callback that is
there. -/
def hookMethod (table : Table) (owner : Receiver) (original : Member) (replacement answer : Option Method) :
    Option Method × Table :=
  match table original, replacement, answer with
  | none, some callback, some backup => (some backup, update table original (some ⟨owner, callback, backup⟩))
  | _, _, _                          => (none, table)

def unhookMethod (table : Table) (target : Member) (answer : Bool) : Bool × Table :=
  if (table target).isSome && answer then (true, update table target none) else (false, table)

/-- `lsplant::IsHooked`. -/
def isHooked (table : Table) (target : Member) : Bool := (table target).isSome

end Native

/-! ## `LSPlant` -/

/-- `Hooker.hook`: the native call comes first, the four fields after it. -/
def Hooker.hook (env : Env) (s : Stores) (owner : Option Object) (target : Member)
    (replacement answer : Option Method) : Option Ref × Stores :=
  let hooker := s.next
  let s := s.alloc
  if env.callbackKept then
    match Native.hookMethod s.table (.hooker hooker) target (some Hooker.callbackMethod) answer with
    | (none, table) => (none, { s with table := table })
    | (some result, table) =>
      let s := { s with table := table }
      let s := s.assign hooker (fun h => { h with owner := owner })
      let s := s.assign hooker (fun h => { h with backup := some result })
      let s := s.assign hooker (fun h => { h with target := some target })
      let s := s.assign hooker (fun h => { h with replacement := replacement })
      (some hooker, s)
  else (none, s)

namespace LSPlant

def hookMethod (env : Env) (s : Stores) (owner : Option Object) (target : Member)
    (replacement answer : Option Method) :
    Bool × Stores :=
  if env.isInitialized then
    match Hooker.hook env s owner target replacement answer with
    | (some hooker, s) => (true, s.put (getMemberName target) hooker)
    | (none, s)        => (false, s)
  else (false, s)

def hookMethodAdvanced (env : Env) (s : Stores) (owner : Option Object) (target : Member)
    (replacement answer : Option Method) : Option Method × Stores :=
  if env.isInitialized then
    let (result, table) := Native.hookMethod s.table (.object owner) target replacement answer
    (result, { s with table := table })
  else (none, s)

/-- `unhookMethod` before its native call: `containsKey`, `get`, `remove`. -/
def unregister (s : Stores) (memberName : Text) : Stores :=
  if (s.hookers memberName).isSome then
    match s.hookers memberName with
    | some _ => s.remove memberName
    | none   => s
  else s

def unhookMethod (env : Env) (s : Stores) (target : Member) (answer : Bool) : Bool × Stores :=
  if env.isInitialized then
    let s := unregister s (getMemberName target)
    let (result, table) := Native.unhookMethod s.table target answer
    (result, { s with table := table })
  else (false, s)

def isHooked (env : Env) (s : Stores) (target : Member) : Bool := env.isInitialized && Native.isHooked s.table target

end LSPlant

/-! ## A call of a target -/

/-- **What a call of a target enters first**: the original body, a replacement by `Method.invoke`, a replacement
directly, or nothing, the call throwing before any body. -/
inductive Entry
  | original (target : Member) (args : Args)
  | reflective (replacement : Method) (owner : Option Object) (callback : MethodCallback)
  | direct (replacement : Method) (owner : Option Object) (args : Args)
  | failed (e : Throwable)
deriving DecidableEq

/-- `replacement.invoke(owner, methodCallback)`, up to the first statement of the replacement. -/
def Method.enter (m : Method) (owner : Option Object) (callback : MethodCallback) : Entry :=
  match m.checkInvoke hookerClass owner [methodCallbackClass] with
  | .ok _    => .reflective m owner callback
  | .error e => .failed e

def Hooker.callback (h : Hooker) (args : Args) : Entry :=
  let methodCallback : MethodCallback := ⟨h.backup, args⟩
  match h.replacement with
  | none             => .failed .nullPointer
  | some replacement => replacement.enter h.owner methodCallback

/-- A call of `target`: a hooked one enters the installed callback on the installed object.  `Hooker` objects are only
ever installed with `Hooker.callback`. -/
def Stores.enter (s : Stores) (target : Member) (args : Args) : Entry :=
  match s.table target with
  | none   => .original target args
  | some i =>
    match i.receiver with
    | .hooker r => (s.heap r).callback args
    | .object o => .direct i.callback o args

structure Bodies where
  original : Member → Args → Completion (Option Object)
  simple : Method → Option Object → MethodCallback → Completion (Option Object)
  advanced : Method → Option Object → Args → Completion (Option Object)

def Entry.complete (b : Bodies) : Entry → Completion (Option Object)
  | .original t args    => b.original t args
  | .reflective m o cb  => Method.complete (b.simple m o cb)
  | .direct m o args    => b.advanced m o args
  | .failed e           => .error e

@[simp] theorem Entry.complete_reflective (b : Bodies) (m : Method) (o : Option Object) (cb : MethodCallback) :
    (Entry.reflective m o cb).complete b = Method.complete (b.simple m o cb) := rfl

@[simp] theorem Entry.complete_direct (b : Bodies) (m : Method) (o : Option Object) (args : Args) :
    (Entry.direct m o args).complete b = b.advanced m o args := rfl

/-! ## Runs -/

inductive Op
  | hookMethod (owner : Option Object) (target : Member) (replacement answer : Option Method)
  | hookMethodAdvanced (owner : Option Object) (target : Member) (replacement answer : Option Method)
  | unhookMethod (target : Member) (answer : Bool)
  | call (target : Member) (args : Args)
deriving DecidableEq

inductive Outcome
  | hookMethod (ok : Bool)
  | hookMethodAdvanced (backup : Option Method)
  | unhookMethod (ok : Bool)
  | call (entry : Entry)
deriving DecidableEq

abbrev Event := Op × Outcome

def Stores.exec (env : Env) (s : Stores) : Op → Outcome × Stores
  | .hookMethod o t m a         => let (ok, s) := LSPlant.hookMethod env s o t m a; (.hookMethod ok, s)
  | .hookMethodAdvanced o t m a => let (b, s) := LSPlant.hookMethodAdvanced env s o t m a; (.hookMethodAdvanced b, s)
  | .unhookMethod t a           => let (ok, s) := LSPlant.unhookMethod env s t a; (.unhookMethod ok, s)
  | .call t args                => (.call (s.enter t args), s)

/-- **The sequential machine**: its labels are the operations with their outcomes. -/
def sequential (env : Env) : Trans.Machine Stores Event where
  step s e := if (s.exec env e.1).1 = e.2 then some (s.exec env e.1).2 else none

end JLSPlant
