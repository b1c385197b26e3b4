import JLSPlant.HookingSteps
import JLSPlant.Threads
/-!
# Interleaving — the operations of `LSPlant` as atomic steps of threads

Each call into the native layer, each assignment to a field of a `Hooker` and each call on the registry is one step,
and between any two steps of a thread any other thread may take its own.  A thread that runs an operation with no
other step in between does what the sequential machine does (`alone_exec`).
-/
namespace JLSPlant

open Function (update)
open Utils (getMemberName)

inductive Field
  | owner | backup | target | replacement
deriving DecidableEq, Repr

/-- What `Hooker.hook` has at hand once the native call returned `result`. -/
structure Building where
  hooker : Ref
  owner : Option Object
  target : Member
  replacement : Option Method
  result : Method
deriving DecidableEq

/-- **Where a thread stands**: between operations with the last one's outcome, or before the step named. -/
inductive Pc
  | idle (outcome : Option Outcome)
  | hook (hooker : Ref) (owner : Option Object) (target : Member) (replacement answer : Option Method)
  | assign (field : Field) (b : Building)
  | put (hooker : Ref) (target : Member)
  | hookAdvanced (owner : Option Object) (target : Member) (replacement answer : Option Method)
  | containsKey (target : Member) (answer : Bool)
  | get (target : Member) (answer : Bool)
  | remove (target : Member) (answer : Bool)
  | unhook (target : Member) (answer : Bool)
deriving DecidableEq

namespace Field

def set (b : Building) : Field → Hooker → Hooker
  | owner, h       => { h with owner := b.owner }
  | backup, h      => { h with backup := some b.result }
  | target, h      => { h with target := some b.target }
  | replacement, h => { h with replacement := b.replacement }

def after (b : Building) : Field → Pc
  | owner       => .assign backup b
  | backup      => .assign target b
  | target      => .assign replacement b
  | replacement => .put b.hooker b.target

def before (b : Building) : Field → Hooker
  | owner       => {}
  | backup      => { owner := b.owner }
  | target      => { owner := b.owner, backup := some b.result }
  | replacement => { owner := b.owner, backup := some b.result, target := some b.target }

theorem set_before (f : Field) (b : Building) : f.set b (f.before b) =
    match f.after b with
    | .assign g _ => g.before b
    | _           => ⟨b.owner, some b.result, some b.target, b.replacement⟩ := by
  cases f <;> rfl

end Field

namespace Pc

/-- The first step of an operation: what it does before the first one another thread can see. -/
def start (env : Env) (s : Stores) : Op → Pc × Stores
  | .hookMethod o t m a =>
    if env.isInitialized then
      if env.callbackKept then (.hook s.next o t m a, s.alloc) else (.idle (some (.hookMethod false)), s.alloc)
    else (.idle (some (.hookMethod false)), s)
  | .hookMethodAdvanced o t m a =>
    if env.isInitialized then (.hookAdvanced o t m a, s) else (.idle (some (.hookMethodAdvanced none)), s)
  | .unhookMethod t a =>
    if env.isInitialized then (.containsKey t a, s) else (.idle (some (.unhookMethod false)), s)
  | .call t args => (.idle (some (.call (s.enter t args))), s)

def step (s : Stores) : Pc → Option (Pc × Stores)
  | idle _ => none
  | hook r o t m a =>
    match Native.hookMethod s.table (.hooker r) t (some Hooker.callbackMethod) a with
    | (none, table)        => some (idle (some (.hookMethod false)), { s with table := table })
    | (some result, table) => some (assign .owner ⟨r, o, t, m, result⟩, { s with table := table })
  | assign f b => some (f.after b, s.assign b.hooker (f.set b))
  | put r t => some (idle (some (.hookMethod true)), s.put (getMemberName t) r)
  | hookAdvanced o t m a =>
    let (result, table) := Native.hookMethod s.table (.object o) t m a
    some (idle (some (.hookMethodAdvanced result)), { s with table := table })
  | containsKey t a => some (if (s.hookers (getMemberName t)).isSome then get t a else unhook t a, s)
  | get t a => some (if (s.hookers (getMemberName t)).isSome then remove t a else unhook t a, s)
  | remove t a => some (unhook t a, s.remove (getMemberName t))
  | unhook t a =>
    let (result, table) := Native.unhookMethod s.table t a
    some (idle (some (.unhookMethod result)), { s with table := table })

/-- **Where an operation starts, and what its start does to the stores.** -/
inductive StartEffect (s : Stores) : Op → Pc → Stores → Prop
  | done (op : Op) (out : Outcome) : StartEffect s op (idle (some out)) s
  | allocated (o : Option Object) (t : Member) (m a : Option Method) :
      StartEffect s (.hookMethod o t m a) (idle (some (.hookMethod false))) s.alloc
  | hook (o : Option Object) (t : Member) (m a : Option Method) :
      StartEffect s (.hookMethod o t m a) (hook s.next o t m a) s.alloc
  | hookAdvanced (o : Option Object) (t : Member) (m a : Option Method) :
      StartEffect s (.hookMethodAdvanced o t m a) (hookAdvanced o t m a) s
  | containsKey (t : Member) (a : Bool) : StartEffect s (.unhookMethod t a) (containsKey t a) s

theorem start_effect (env : Env) (s : Stores) (op : Op) : StartEffect s op (start env s op).1 (start env s op).2 := by
  cases op with
  | hookMethod o t m a =>
    simp only [start]
    split
    · split
      · exact .hook o t m a
      · exact .allocated o t m a
    · exact .done _ _
  | hookMethodAdvanced o t m a =>
    simp only [start]
    split
    · exact .hookAdvanced o t m a
    · exact .done _ _
  | unhookMethod t a =>
    simp only [start]
    split
    · exact .containsKey t a
    · exact .done _ _
  | call t args => exact .done _ _

/-- **The effects of one step of a thread on the stores.** -/
inductive StepEffect (s : Stores) : Pc → Pc → Stores → Prop
  | notHooked (r : Ref) (o : Option Object) (t : Member) (m a : Option Method) :
      StepEffect s (hook r o t m a) (idle (some (.hookMethod false))) s
  | hooked (r : Ref) (o : Option Object) (t : Member) (m : Option Method) (b : Method) (ht : s.table t = none) :
      StepEffect s (hook r o t m (some b)) (assign .owner ⟨r, o, t, m, b⟩)
        { s with table := update s.table t (some ⟨.hooker r, Hooker.callbackMethod, b⟩) }
  | assigned (f : Field) (b : Building) : StepEffect s (assign f b) (f.after b) (s.assign b.hooker (f.set b))
  | registered (r : Ref) (t : Member) :
      StepEffect s (put r t) (idle (some (.hookMethod true))) (s.put (getMemberName t) r)
  | notHookedAdvanced (o : Option Object) (t : Member) (m a : Option Method) :
      StepEffect s (hookAdvanced o t m a) (idle (some (.hookMethodAdvanced none))) s
  | hookedAdvanced (o : Option Object) (t : Member) (c b : Method) (ht : s.table t = none) :
      StepEffect s (hookAdvanced o t (some c) (some b)) (idle (some (.hookMethodAdvanced (some b))))
        (s.hookedAdvanced o t c b)
  | contained (t : Member) (a : Bool) : StepEffect s (containsKey t a) (get t a) s
  | notContained (t : Member) (a : Bool) (hk : s.hookers (getMemberName t) = none) :
      StepEffect s (containsKey t a) (unhook t a) s
  | got (t : Member) (a : Bool) : StepEffect s (get t a) (remove t a) s
  | gotNull (t : Member) (a : Bool) (hk : s.hookers (getMemberName t) = none) : StepEffect s (get t a) (unhook t a) s
  | removed (t : Member) (a : Bool) : StepEffect s (remove t a) (unhook t a) (s.remove (getMemberName t))
  | notUnhooked (t : Member) (a : Bool) (ha : ((s.table t).isSome && a) = false) :
      StepEffect s (unhook t a) (idle (some (.unhookMethod false))) s
  | unhooked (t : Member) (ht : (s.table t).isSome = true) :
      StepEffect s (unhook t true) (idle (some (.unhookMethod true))) { s with table := update s.table t none }

theorem step_effect {s s' : Stores} {k k' : Pc} (h : step s k = some (k', s')) : StepEffect s k k' s' := by
  cases k with
  | idle out => cases h
  | hook r o t m a =>
    rcases Native.hookMethod_cases s.table (.hooker r) t (some Hooker.callbackMethod) a with
      hn | ⟨c, b, hc, rfl, ht, hn⟩
    · simp only [step, hn] at h
      cases h
      exact .notHooked r o t m a
    · cases hc
      simp only [step, hn] at h
      cases h
      exact .hooked r o t m b ht
  | assign f b => cases h; exact .assigned f b
  | put r t => cases h; exact .registered r t
  | hookAdvanced o t m a =>
    rcases Native.hookMethod_cases s.table (.object o) t m a with hn | ⟨c, b, rfl, rfl, ht, hn⟩
    · simp only [step, hn] at h
      cases h
      exact .notHookedAdvanced o t m a
    · simp only [step, hn] at h
      cases h
      exact .hookedAdvanced o t c b ht
  | containsKey t a =>
    simp only [step] at h
    split at h
    · cases h; exact .contained t a
    · rename_i hk
      cases h
      exact .notContained t a (by simpa using hk)
  | get t a =>
    simp only [step] at h
    split at h
    · cases h; exact .got t a
    · rename_i hk
      cases h
      exact .gotNull t a (by simpa using hk)
  | remove t a => cases h; exact .removed t a
  | unhook t a =>
    rcases Native.unhookMethod_cases s.table t a with ⟨ha, hn⟩ | ⟨ht, rfl, hn⟩
    · simp only [step, hn] at h
      cases h
      exact .notUnhooked t a ha
    · simp only [step, hn] at h
      cases h
      exact .unhooked t ht

end Pc

/-- The stores, and for each Hooker object what the `hookMethod` that made it was passed: a history variable. -/
structure Shared extends Stores where
  passed : Ref → Option Object × Option Method

def Shared.init : Shared := ⟨Stores.init, fun _ => (none, none)⟩

def Shared.record (s : Shared) : Op → Ref → Option Object × Option Method
  | .hookMethod o _ m _ => update s.passed s.next (o, m)
  | _                   => s.passed

/-- **What a thread runs.** -/
def program (env : Env) : Threads.Program Shared Pc Op where
  start s
    | .idle _, op => some ((Pc.start env s.toStores op).1, ⟨(Pc.start env s.toStores op).2, s.record op⟩)
    | _, _        => none
  step s k := (Pc.step s.toStores k).map (fun r => (r.1, ⟨r.2, s.passed⟩))

abbrev World (τ : Type) := Threads.Pool τ Pc Shared

abbrev Act (τ : Type) := Threads.Act τ Op

def World.init (τ : Type) : World τ := ⟨fun _ => .idle none, Shared.init⟩

/-- **`LSPlant` under any interleaving of the threads.** -/
abbrev threads (τ : Type) [DecidableEq τ] (env : Env) : Trans.Machine (World τ) (Act τ) := (program env).machine

/-- **What one step of a thread does.** -/
theorem threads_step {τ : Type} [DecidableEq τ] {env : Env} {w w' : World τ} {a : Act τ}
    (h : (threads τ env).step w a = some w') :
    (∃ θ op out k s, a = .start θ op ∧ w.pc θ = .idle out ∧ Pc.StartEffect w.shared.toStores op k s ∧
      w' = w.move θ k ⟨s, w.shared.record op⟩) ∨
    (∃ θ k s, a = .step θ ∧ Pc.StepEffect w.shared.toStores (w.pc θ) k s ∧
      w' = w.move θ k ⟨s, w.shared.passed⟩) := by
  obtain ⟨k, s, hf, rfl⟩ := (program env).machine_step h
  cases a with
  | start θ op =>
    left
    cases hpc : w.pc θ with
    | idle out =>
      simp only [Threads.Program.fire, Threads.Act.thread, program, hpc] at hf
      cases hf
      exact ⟨θ, op, out, _, _, rfl, hpc, Pc.start_effect env _ op, rfl⟩
    | _ =>
      simp only [Threads.Program.fire, Threads.Act.thread, program, hpc] at hf
      cases hf
  | step θ =>
    right
    simp only [Threads.Program.fire, Threads.Act.thread, program] at hf
    obtain ⟨⟨k', s'⟩, hstep, hr⟩ := Option.map_eq_some_iff.1 hf
    cases hr
    exact ⟨θ, k', s', rfl, Pc.step_effect hstep, rfl⟩

/-! ## A thread alone -/

theorem program_step (env : Env) {s s' : Stores} {k k' : Pc} (h : Pc.step s k = some (k', s'))
    (p : Ref → Option Object × Option Method) : (program env).step ⟨s, p⟩ k = some (k', ⟨s', p⟩) := by
  have h : Pc.step (Shared.mk s p).toStores k = some (k', s') := h
  simp only [program, h, Option.map_some]

def Finishes (env : Env) (k : Pc) (s : Stores) (out : Outcome) (s' : Stores) : Prop :=
  ∃ n, ∀ p, (program env).alone.run (k, ⟨s, p⟩) (List.replicate n ⟨⟩) = some (.idle (some out), ⟨s', p⟩)

theorem Finishes.idle (env : Env) (out : Outcome) (s : Stores) : Finishes env (.idle (some out)) s out s :=
  ⟨0, fun _ => rfl⟩

theorem Finishes.step {env : Env} {k k' : Pc} {s s₁ s' : Stores} {out : Outcome}
    (h : Finishes env k' s₁ out s') (hs : Pc.step s k = some (k', s₁)) : Finishes env k s out s' := by
  obtain ⟨n, hn⟩ := h
  refine ⟨n + 1, fun p => ?_⟩
  have hstep : (program env).alone.step (k, ⟨s, p⟩) ⟨⟩ = some (k', ⟨s₁, p⟩) := program_step env hs p
  rw [List.replicate_succ, Trans.Machine.run_cons, hstep]
  exact hn p

theorem Finishes.unhook (env : Env) (t : Member) (a : Bool) (s : Stores) :
    Finishes env (.unhook t a) s (.unhookMethod (Native.unhookMethod s.table t a).1)
      { s with table := (Native.unhookMethod s.table t a).2 } :=
  (Finishes.idle env _ _).step rfl

theorem Finishes.containsKey (env : Env) (t : Member) (a : Bool) (s : Stores) :
    Finishes env (.containsKey t a) s (.unhookMethod (Native.unhookMethod s.table t a).1)
      { LSPlant.unregister s (getMemberName t) with table := (Native.unhookMethod s.table t a).2 } := by
  rw [LSPlant.unregister_eq]
  cases h : s.hookers (getMemberName t) with
  | none =>
    rw [Stores.remove_eq_self h]
    exact (Finishes.unhook env t a s).step (by simp only [Pc.step, h]; rfl)
  | some r =>
    have hremove := (Finishes.unhook env t a (s.remove (getMemberName t))).step
      (k := .remove t a) (s := s) rfl
    have hget := hremove.step (k := .get t a) (s := s) (by simp only [Pc.step, h]; rfl)
    exact hget.step (by simp only [Pc.step, h]; rfl)

def Building.finish (b : Building) (s : Stores) : Stores :=
  let s := s.assign b.hooker (Field.set b .owner)
  let s := s.assign b.hooker (Field.set b .backup)
  let s := s.assign b.hooker (Field.set b .target)
  let s := s.assign b.hooker (Field.set b .replacement)
  s.put (getMemberName b.target) b.hooker

theorem Finishes.assign (env : Env) (b : Building) (s : Stores) :
    Finishes env (.assign .owner b) s (.hookMethod true) (b.finish s) := by
  have hput : ∀ s, Finishes env (.put b.hooker b.target) s (.hookMethod true)
      (s.put (getMemberName b.target) b.hooker) :=
    fun s => (Finishes.idle env _ _).step rfl
  have hreplacement := fun s : Stores => (hput (s.assign b.hooker (Field.set b .replacement))).step
    (k := .assign .replacement b) rfl
  have htarget := fun s : Stores => (hreplacement (s.assign b.hooker (Field.set b .target))).step
    (k := .assign .target b) rfl
  have hbackup := fun s : Stores => (htarget (s.assign b.hooker (Field.set b .backup))).step
    (k := .assign .backup b) rfl
  exact (hbackup (s.assign b.hooker (Field.set b .owner))).step rfl

/-- **An operation whose steps no other thread's come between is the sequential operation.** -/
theorem alone_exec (env : Env) (op : Op) (s : Stores) :
    Finishes env (Pc.start env s op).1 (Pc.start env s op).2 (s.exec env op).1 (s.exec env op).2 := by
  cases op with
  | call t args => exact Finishes.idle env _ _
  | hookMethodAdvanced o t m a =>
    simp only [Pc.start, Stores.exec, LSPlant.hookMethodAdvanced]
    split
    · exact (Finishes.idle env _ _).step rfl
    · exact Finishes.idle env _ _
  | unhookMethod t a =>
    simp only [Pc.start, Stores.exec, LSPlant.unhookMethod]
    split
    · have h := Finishes.containsKey env t a s
      rw [LSPlant.unregister_eq] at h ⊢
      exact h
    · exact Finishes.idle env _ _
  | hookMethod o t m a =>
    simp only [Pc.start, Stores.exec, LSPlant.hookMethod, Hooker.hook]
    split
    · split
      · cases h : Native.hookMethod s.alloc.table (.hooker s.next) t (some Hooker.callbackMethod) a with
        | mk result table =>
          cases result with
          | none => exact (Finishes.idle env _ _).step (by simp only [Pc.step, h])
          | some b =>
            exact (Finishes.assign env ⟨s.next, o, t, m, b⟩ { s.alloc with table := table }).step
              (by simp only [Pc.step, h])
      · exact Finishes.idle env _ _
    · exact Finishes.idle env _ _

/-- **The sequential machine is the threads taking turns**: one thread from the start of an operation to its end. -/
theorem threads_run_alone {τ : Type} [DecidableEq τ] (env : Env) (w : World τ) (θ : τ) (out : Option Outcome)
    (hidle : w.pc θ = .idle out) (op : Op) : ∃ n, (threads τ env).run w (.start θ op :: List.replicate n (.step θ)) =
      some (w.move θ (.idle (some (w.shared.exec env op).1)) ⟨(w.shared.exec env op).2, w.shared.record op⟩) := by
  obtain ⟨n, hn⟩ := alone_exec env op w.shared.toStores
  refine ⟨n, ?_⟩
  have hstart : (threads τ env).step w (.start θ op) = some (w.move θ (Pc.start env w.shared.toStores op).1
      ⟨(Pc.start env w.shared.toStores op).2, w.shared.record op⟩) := by
    simp only [Threads.Program.machine, Threads.Program.fire, Threads.Act.thread, program, hidle, Option.map_some]
  obtain ⟨w', hrun, hw'⟩ := ((program env).alone_simulates w θ).run _ _ _ _ (fun _ _ => trivial) rfl
    (hn (w.shared.record op))
  rw [Trans.Machine.run_cons, hstart, Option.bind_some, ← hw', ← hrun, List.map_replicate]

end JLSPlant
