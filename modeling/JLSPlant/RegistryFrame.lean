import JLSPlant.HookingSteps
/-!
# RegistryFrame — what an operation may do to another member's registry entry, and what a failed one may do at all

Two members with one key share one registry entry: an operation on one keeps the other's entry in every reachable
state exactly when no key confuses the two (`undisturbed_iff`).  A failed operation keeps both tables except a
failed `unhookMethod` of a member whose key the registry holds (`failureKeeps_iff`).
-/
namespace JLSPlant

open Function (update)
open Utils (getMemberName)

/-- **The references the tables hold are allocated.** -/
structure Stores.Allocated (s : Stores) : Prop where
  table : ∀ t i r, s.table t = some i → i.receiver = .hooker r → r < s.next
  hookers : ∀ key r, s.hookers key = some r → r < s.next

theorem allocated_init : Stores.init.Allocated :=
  ⟨fun _ _ _ h => (by cases h), fun _ _ h => (by cases h)⟩

theorem Stores.Allocated.alloc {s : Stores} (h : s.Allocated) : s.alloc.Allocated :=
  ⟨fun t i r ht hr => Nat.lt_succ_of_lt (h.table t i r ht hr), fun k r hk => Nat.lt_succ_of_lt (h.hookers k r hk)⟩

theorem Stores.Allocated.remove {s : Stores} (h : s.Allocated) (key : Text) : (s.remove key).Allocated := by
  refine ⟨h.table, fun k r hk => ?_⟩
  rcases Writes.update_eq_some hk with ⟨-, hk⟩ | ⟨-, hk⟩
  · cases hk
  · exact h.hookers k r hk

theorem Stores.Allocated.setTable {s : Stores} (h : s.Allocated) {t : Member} {o : Option Installed}
    (ho : ∀ i r, o = some i → i.receiver = .hooker r → r < s.next) :
    Stores.Allocated { s with table := update s.table t o } := by
  refine ⟨fun u i r hu hr => ?_, h.hookers⟩
  rcases Writes.update_eq_some hu with ⟨-, hu⟩ | ⟨-, hu⟩
  · exact ho i r hu hr
  · exact h.table u i r hu hr

theorem Stores.Allocated.hooked {s : Stores} (h : s.Allocated) (o : Option Object) (t : Member) (m : Option Method)
    (b : Method) : (s.hooked o t m b).Allocated := by
  refine ⟨fun u i r hu hr => ?_, fun k r hk => ?_⟩
  · rcases Writes.update_eq_some hu with ⟨-, hu⟩ | ⟨-, hu⟩
    · cases hu
      cases hr
      exact Nat.lt_succ_self _
    · exact Nat.lt_succ_of_lt (h.table u i r hu hr)
  · rcases Writes.update_eq_some hk with ⟨-, hk⟩ | ⟨-, hk⟩
    · cases hk
      exact Nat.lt_succ_self _
    · exact Nat.lt_succ_of_lt (h.hookers k r hk)

theorem Effect.keeps_allocated {env : Env} {s s' : Stores} {e : Event} (he : Effect env s e s') (h : s.Allocated) :
    s'.Allocated := by
  cases he with
  | hooked o t m b => exact h.hooked o t m b
  | allocated => exact h.alloc
  | hookedAdvanced o t c b => exact h.setTable (fun i r hi hr => by cases hi; cases hr)
  | unhooked t => exact (h.remove (getMemberName t)).setTable (fun i r hi => by cases hi)
  | unregistered t => exact h.remove (getMemberName t)
  | _ => exact h

theorem allocated_step {env : Env} (s : Stores) (e : Event) (s' : Stores) (h : s.Allocated)
    (hs : (sequential env).step s e = some s') : s'.Allocated :=
  (sequential_effect hs).keeps_allocated h

/-- A call of a member whose entry and whose Hooker object are the same enters the same. -/
theorem Stores.Allocated.enter_same {s s' : Stores} (h : s.Allocated) {t : Member} (htable : s'.table t = s.table t)
    (hheap : ∀ r, r < s.next → s'.heap r = s.heap r) (args : Args) : s'.enter t args = s.enter t args := by
  unfold Stores.enter
  rw [htable]
  cases ht : s.table t with
  | none => rfl
  | some i =>
    cases hi : i.receiver with
    | object o => simp only [hi]
    | hooker r => simp only [hi, hheap r (h.table t i r ht hi)]

theorem allocated_of_reach {env : Env} {s : Stores} (h : (sequential env).Reach Stores.init s) : s.Allocated :=
  h.inv allocated_init allocated_step

/-! ## Another member's entry -/

def Stores.HoldsHooker (s : Stores) (t : Member) (r : Ref) : Prop :=
  s.hookers (getMemberName t) = some r ∧ (s.heap r).target = some t

def Op.ActsOn (u : Member) : Op → Prop
  | .hookMethod _ t _ _ => t = u
  | .unhookMethod t _   => t = u
  | _                   => False

/-- **No operation on `u` disturbs `t`'s entry**, in any reachable state. -/
def Undisturbed (t u : Member) : Prop :=
  ∀ (env : Env) (s : Stores), (sequential env).Reach Stores.init s → ∀ (e : Event) (s' : Stores), e.1.ActsOn u →
    (sequential env).step s e = some s' → ∀ r, s.HoldsHooker t r → s'.HoldsHooker t r

theorem Stores.HoldsHooker.of_eq {s s' : Stores} {t : Member} {r : Ref} (h : s.HoldsHooker t r)
    (hk : s'.hookers (getMemberName t) = s.hookers (getMemberName t)) (hh : s'.heap r = s.heap r) :
    s'.HoldsHooker t r := ⟨hk.trans h.1, by rw [hh]; exact h.2⟩

theorem undisturbed_of_ne {t u : Member} (hne : getMemberName t ≠ getMemberName u) : Undisturbed t u := by
  intro env s hreach e s' hop hs r hr
  have hlt : r < s.next := (allocated_of_reach hreach).hookers _ r hr.1
  have he := sequential_effect hs
  cases he with
  | hooked o v m b =>
    obtain rfl : v = u := hop
    exact hr.of_eq (Stores.hooked_hookers_of_ne hne o m b) (Stores.hooked_heap_of_lt hlt o v m b)
  | allocated => exact hr.of_eq rfl (Stores.alloc_heap_of_lt hlt)
  | unhooked v =>
    obtain rfl : v = u := hop
    exact hr.of_eq (Stores.remove_hookers_of_ne hne) rfl
  | unregistered v =>
    obtain rfl : v = u := hop
    exact hr.of_eq (Stores.remove_hookers_of_ne hne) rfl
  | hookedAdvanced => cases hop
  | _ => exact hr

def liveEnv : Env := ⟨true, true, true⟩

theorem hooked_step {s : Stores} {t : Member} (ht : s.table t = none) (o : Option Object) (m : Option Method)
    (b : Method) :
    (sequential liveEnv).step s (.hookMethod o t m (some b), .hookMethod true) = some (s.hooked o t m b) := by
  rw [sequential_step, Stores.exec, LSPlant.hookMethod_free rfl rfl ht]

theorem hookedAdvanced_step {s : Stores} {t : Member} (ht : s.table t = none) (o : Option Object) (c b : Method) :
    (sequential liveEnv).step s (.hookMethodAdvanced o t (some c) (some b), .hookMethodAdvanced (some b))
      = some (s.hookedAdvanced o t c b) := by
  rw [sequential_step, Stores.exec, LSPlant.hookMethodAdvanced_free rfl ht]

/-- **Hooking `u` after `t` replaces `t`'s entry, when one key is both members'.** -/
theorem not_undisturbed_of_eq {t u : Member} (hne : t ≠ u) (hkey : getMemberName t = getMemberName u) :
    ¬ Undisturbed t u := by
  intro h
  let b := Hooker.callbackMethod
  let s := Stores.init.hooked none t (some b) b
  have hs : (sequential liveEnv).step Stores.init (.hookMethod none t (some b) (some b), .hookMethod true) = some s :=
    hooked_step rfl none (some b) b
  have hu : s.table u = none := Stores.hooked_table_of_ne (Ne.symm hne) none (some b) b
  have hr : s.HoldsHooker t 0 :=
    ⟨Stores.hooked_hookers_self _ _ _ _ _,
      congrArg Hooker.target (Stores.hooked_heap_self Stores.init none t (some b) b)⟩
  have hafter := h liveEnv s ((Trans.Machine.reach_refl _ _).step hs)
    (.hookMethod none u (some b) (some b), .hookMethod true)
    _ (show u = u from rfl) (hooked_step hu none (some b) b) 0 hr
  have hnew : (s.hooked none u (some b) b).hookers (getMemberName t) = some 1 := by
    rw [hkey]; exact Stores.hooked_hookers_self _ _ _ _ _
  have := hnew.symm.trans hafter.1
  cases this

theorem undisturbed_iff {t u : Member} (hne : t ≠ u) :
    Undisturbed t u ↔ getMemberName t ≠ getMemberName u :=
  ⟨fun h hkey => not_undisturbed_of_eq hne hkey h, undisturbed_of_ne⟩

/-- **Two members keep out of each other's registry entry exactly when no key confuses them**: their parameters' texts
differ, a constructor's counting as none, or their class names and names do not read the same across the `$`. -/
theorem undisturbed_iff_not_sameKey {t u : Member} (hne : t ≠ u) :
    (Undisturbed t u ↔ ¬ t.SameKey u) ∧ (getMemberName t ≠ getMemberName u ↔ ¬ t.SameKey u) := by
  have hkey : getMemberName t ≠ getMemberName u ↔ ¬ t.SameKey u := not_congr (getMemberName_eq_iff t u)
  exact ⟨(undisturbed_iff hne).trans hkey, hkey⟩

def sampleClass : Class where
  loader := appLoader
  name := ⟨"com.example.Example".toList, by decide⟩
  canonicalName := some ⟨"com.example.Example".toList, by decide⟩
  packageName := "com.example".toList
  kind := .ordinary
  isPublic := true
  supertypes := [objectClass.identity]

def intClass : Class where
  loader := bootLoader
  name := ⟨"int".toList, by decide⟩
  canonicalName := some ⟨"int".toList, by decide⟩
  packageName := []
  kind := .primitive
  isPublic := true
  supertypes := []

def sampleDecl (parameterTypes : List Class) : MethodDecl where
  declaringClass := sampleClass
  name := ⟨"exampleMethod".toList, by decide⟩
  parameterTypes := parameterTypes
  returnType := objectClass
  isStatic := false
  visibility := .pub

def sampleMethod (parameterTypes : List Class) : Member := .method (sampleDecl parameterTypes)

def sampleConstructor (parameterTypes : List Class) : Member := .constructor ⟨sampleClass, parameterTypes, .pub⟩

def sampleReplacement : Method where
  decl := { declaringClass := sampleClass
            name := ⟨"exampleMethodReplacement".toList, by decide⟩
            parameterTypes := [methodCallbackClass]
            returnType := objectClass
            isStatic := true
            visibility := .pub }

def sampleBackup : Method := ⟨sampleDecl [], true⟩

theorem undisturbed_overloads : Undisturbed (sampleMethod []) (sampleMethod [intClass]) :=
  (undisturbed_iff_not_sameKey (t := sampleMethod []) (u := sampleMethod [intClass]) (by decide)).1.2
    (fun h => absurd h.parameters (by decide))

/-- Two constructors of one class have one key, and hooking the second takes over the first one's entry. -/
theorem constructors_disturbed : sampleConstructor [] ≠ sampleConstructor [intClass] ∧
    getMemberName (sampleConstructor []) = getMemberName (sampleConstructor [intClass]) ∧
    ¬ Undisturbed (sampleConstructor []) (sampleConstructor [intClass]) :=
  ⟨by decide, rfl, not_undisturbed_of_eq (by decide) rfl⟩

/-! ## A failed operation -/

def Outcome.failed : Outcome → Bool
  | .hookMethod ok        => !ok
  | .hookMethodAdvanced b => b.isNone
  | .unhookMethod ok      => !ok
  | .call _               => false

/-- If the event is a failure, it leaves both tables exactly as they were. -/
def FailureKeeps (env : Env) (s : Stores) (e : Event) : Prop :=
  e.2.failed = true → ∀ s', (sequential env).step s e = some s' → s'.hookers = s.hookers ∧ s'.table = s.table

/-- **The unhook will succeed, or has nothing to lose**: the native layer removes what is installed, or the registry
holds nothing under the key. -/
def SafeUnhook (env : Env) (s : Stores) : Op → Prop
  | .unhookMethod t a =>
    env.isInitialized = true → ((s.table t).isSome && a) = true ∨ s.hookers (getMemberName t) = none
  | _ => True

theorem failureKeeps_iff {env : Env} {s s' : Stores} {e : Event} (hs : (sequential env).step s e = some s') :
    FailureKeeps env s e ↔ SafeUnhook env s e.1 := by
  have hkeep : FailureKeeps env s e ↔ (e.2.failed = true → s'.hookers = s.hookers ∧ s'.table = s.table) :=
    ⟨fun h hf => h hf s' hs, fun h hf s'' hs'' => by rw [Option.some.inj (hs''.symm.trans hs)]; exact h hf⟩
  rw [hkeep]
  have he := sequential_effect hs
  cases he with
  | hooked => exact ⟨fun _ => trivial, fun _ hf => by cases hf⟩
  | hookedAdvanced => exact ⟨fun _ => trivial, fun _ hf => by cases hf⟩
  | called => exact ⟨fun _ => trivial, fun _ hf => by cases hf⟩
  | notHooked => exact ⟨fun _ => trivial, fun _ _ => ⟨rfl, rfl⟩⟩
  | allocated => exact ⟨fun _ => trivial, fun _ _ => ⟨rfl, rfl⟩⟩
  | notHookedAdvanced => exact ⟨fun _ => trivial, fun _ _ => ⟨rfl, rfl⟩⟩
  | unhooked t ht => exact ⟨fun _ _ => Or.inl (by simp [ht]), fun _ hf => by cases hf⟩
  | notInitialized t a hi => exact ⟨fun _ h => absurd (hi.symm.trans h) Bool.false_ne_true, fun _ _ => ⟨rfl, rfl⟩⟩
  | unregistered t a hi ha =>
    constructor
    · intro h _
      have hk := congrFun (h rfl).1 (getMemberName t)
      exact Or.inr (hk.symm.trans (Stores.remove_hookers_self _ _))
    · intro h _
      rcases h hi with h | h
      · rw [ha] at h; cases h
      · rw [Stores.remove_eq_self h]; exact ⟨rfl, rfl⟩

/-- **In a run, every failed operation keeps both tables exactly when every `unhookMethod` is safe where it is
made.** -/
theorem failures_keep_iff_safe (env : Env) (l : List Event) (s : Stores)
    (h : (sequential env).run Stores.init l = some s) :
    (sequential env).Along (FailureKeeps env) Stores.init l ↔
      (sequential env).Along (fun s e => SafeUnhook env s e.1) Stores.init l :=
  (sequential env).along_congr (fun _ => True) (fun _ => True) (fun _ _ _ _ _ _ => trivial)
    (fun _ _ _ _ hs => failureKeeps_iff hs) l Stores.init s trivial (fun _ _ => trivial) h

theorem unhookMethod_refused {env : Env} (hi : env.isInitialized = true) (s : Stores) (t : Member) :
    LSPlant.unhookMethod env s t false = (false, s.remove (getMemberName t)) := by
  rcases LSPlant.unhookMethod_cases env s t false with ⟨h, -⟩ | ⟨-, -, h⟩ | ⟨-, -, h, -⟩
  · rw [hi] at h; cases h
  · exact h
  · cases h

/-- A member is hooked, hooked again, which is refused, and unhooked. -/
def hookedTwice : List Event :=
  [(.hookMethod none (sampleMethod []) (some sampleReplacement) (some sampleBackup), .hookMethod true),
    (.hookMethod none (sampleMethod []) (some sampleReplacement) (some sampleBackup), .hookMethod false),
    (.unhookMethod (sampleMethod []) true, .unhookMethod true)]

theorem hooked_twice_keeps : (sequential liveEnv).Along (FailureKeeps liveEnv) Stores.init hookedTwice := by
  have hsome : ((sequential liveEnv).run Stores.init hookedTwice).isSome = true := rfl
  refine (failures_keep_iff_safe liveEnv hookedTwice _ (Option.some_get hsome).symm).2 ⟨trivial, fun s hs => ?_⟩
  obtain rfl := Option.some.inj ((hooked_step rfl none (some sampleReplacement) sampleBackup).symm.trans hs)
  refine ⟨trivial, fun s' hs' => ⟨fun _ => Or.inl ?_, fun _ _ => trivial⟩⟩
  have hthere := Stores.hooked_table_self Stores.init none (sampleMethod []) (some sampleReplacement) sampleBackup
  have hsame : s'.table =
      (Stores.init.hooked none (sampleMethod []) (some sampleReplacement) sampleBackup).table := by
    cases sequential_effect hs' <;> rfl
  rw [hsame, hthere]
  rfl

/-- An `unhookMethod` the native layer refuses leaves the target hooked through its Hooker and the registry without
it. -/
theorem refused_unhook_loses_hooker :
    let t := sampleMethod []
    let b := sampleBackup
    let s := Stores.init.hooked none t (some sampleReplacement) b
    (sequential liveEnv).run Stores.init
      [(.hookMethod none t (some sampleReplacement) (some b), .hookMethod true)] = some s ∧
      s.hookers (getMemberName t) = some 0 ∧
      ∃ s', (sequential liveEnv).step s (.unhookMethod t false, .unhookMethod false) = some s' ∧
        s'.table t = some ⟨.hooker 0, Hooker.callbackMethod, b⟩ ∧ s'.hookers (getMemberName t) = none ∧
        ¬ FailureKeeps liveEnv s (.unhookMethod t false, .unhookMethod false) := by
  intro t b s
  have hs : (sequential liveEnv).step s (.unhookMethod t false, .unhookMethod false) =
      some (s.remove (getMemberName t)) :=
    sequential_step.2 (by rw [Stores.exec, unhookMethod_refused rfl])
  have hheld : s.hookers (getMemberName t) = some 0 := Stores.hooked_hookers_self _ _ _ _ _
  have hgone : (s.remove (getMemberName t)).hookers (getMemberName t) = none := Stores.remove_hookers_self _ _
  have hstays : (s.remove (getMemberName t)).table t = some ⟨.hooker 0, Hooker.callbackMethod, b⟩ :=
    Stores.hooked_table_self Stores.init none t (some sampleReplacement) b
  refine ⟨?_, hheld, _, hs, hstays, hgone, fun h => ?_⟩
  · rw [Trans.Machine.run_cons, hooked_step rfl]; rfl
  · have := congrFun (h rfl _ hs).1 (getMemberName t)
    rw [hgone, hheld] at this
    cases this

/-! ## The registry after a run -/

/-- The key an event writes in the registry, and the Hooker object it puts there, if any. -/
def Event.registers (env : Env) : Event → Option (Text × Option Hooker)
  | (.hookMethod o t m (some b), .hookMethod true) => some (getMemberName t, some ⟨o, some b, some t, m⟩)
  | (.unhookMethod t _, .unhookMethod ok)          =>
    if ok || env.isInitialized then some (getMemberName t, none) else none
  | _                                              => none

/-- The Hooker objects the registry holds. -/
def Stores.registered (s : Stores) (key : Text) : Option Hooker := (s.hookers key).map s.heap

theorem Effect.registered {env : Env} {s s' : Stores} {e : Event} (he : Effect env s e s') (h : s.Allocated) :
    s'.registered = Writes.apply s.registered (Event.registers env e).toList := by
  have hsame : ∀ {s' : Stores}, s'.hookers = s.hookers → (∀ r, r < s.next → s'.heap r = s.heap r) →
      s'.registered = s.registered := fun {s'} hk hh => by
    funext key
    unfold Stores.registered
    rw [hk]
    cases hr : s.hookers key with
    | none => rfl
    | some r => exact congrArg some (hh r (h.hookers key r hr))
  have hremove : ∀ t, (s.remove (getMemberName t)).registered = update s.registered (getMemberName t) none :=
    fun t => by
    funext key
    unfold Stores.registered
    by_cases hkey : key = getMemberName t
    · subst hkey
      rw [Stores.remove_hookers_self, Function.update_self]; rfl
    · rw [Stores.remove_hookers_of_ne hkey, Function.update_of_ne hkey]; rfl
  cases he with
  | hooked o t m b =>
    funext key
    have hwrite : Writes.apply s.registered (Event.registers env
        (.hookMethod o t m (some b), .hookMethod true)).toList =
          update s.registered (getMemberName t) (some ⟨o, some b, some t, m⟩) := rfl
    rw [hwrite]
    unfold Stores.registered
    by_cases hkey : key = getMemberName t
    · subst hkey
      rw [Stores.hooked_hookers_self, Function.update_self, Option.map_some, Stores.hooked_heap_self]
    · rw [Stores.hooked_hookers_of_ne hkey, Function.update_of_ne hkey]
      cases hr : s.hookers key with
      | none => rfl
      | some r => exact congrArg some (Stores.hooked_heap_of_lt (h.hookers key r hr) o t m b)
  | unhooked t => exact hremove t
  | unregistered t a hi =>
    simp only [Event.registers, hi, Bool.or_true, if_true]
    exact hremove t
  | notInitialized t a hi => simp only [Event.registers, hi, Bool.or_self, Bool.false_eq_true, if_false]; rfl
  | allocated o t m a =>
    cases a <;> exact hsame rfl (fun _ hr => Stores.alloc_heap_of_lt hr)
  | notHooked o t m a => cases a <;> rfl
  | _ => rfl

/-- **After any run the registry holds under a key what the last event on the key left**: the object of a
`hookMethod` that succeeded, complete, or nothing, once an `unhookMethod` was so much as tried. -/
theorem registry_holds_last (env : Env) (l : List Event) (s : Stores)
    (h : (sequential env).run Stores.init l = some s) (key : Text) :
    s.registered key = (Writes.last key (l.filterMap (Event.registers env))).getD none := by
  have hview := Writes.view_run (sequential env) Stores.registered (Event.registers env) allocated_step
    (fun _ _ _ ha hs => (sequential_effect hs).registered ha) allocated_init h
  rw [hview, Writes.apply_eq]
  rfl

theorem refused_unhook_unregistered :
    let t := sampleMethod []
    let l : List Event := [(.hookMethod none t (some sampleReplacement) (some sampleBackup), .hookMethod true),
      (.unhookMethod t false, .unhookMethod false)]
    ∃ s, (sequential liveEnv).run Stores.init l = some s ∧ s.registered (getMemberName t) = none := by
  intro t l
  let s := Stores.init.hooked none t (some sampleReplacement) sampleBackup
  have hunhook : (sequential liveEnv).step s (.unhookMethod t false, .unhookMethod false) =
      some (s.remove (getMemberName t)) := sequential_step.2 (by rw [Stores.exec, unhookMethod_refused rfl])
  have hrun : (sequential liveEnv).run Stores.init l = some (s.remove (getMemberName t)) := by
    rw [Trans.Machine.run_cons, hooked_step rfl, Option.bind_some, Trans.Machine.run_cons, hunhook]; rfl
  refine ⟨_, hrun, ?_⟩
  rw [registry_holds_last liveEnv l _ hrun]
  simp [l, Event.registers, liveEnv, Env.isInitialized, Writes.last]

end JLSPlant
