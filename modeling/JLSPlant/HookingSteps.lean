import JLSPlant.Writes
import JLSPlant.Hooking
/-!
# HookingSteps — what one operation does to the stores

Each operation has few effects, whatever the stores and the native layer's answer: `hookMethod` hooks, or leaves at
most a new object nothing refers to; `unhookMethod` takes the key out of the registry first and may then still
fail.  `sequential_effect` says so for every step of the sequential machine; everything about runs is proved from
it.
-/
namespace JLSPlant

open Function (update)
open Utils (getMemberName)

namespace Stores

/-- The stores after a `hookMethod` that succeeded with the backup `b`. -/
def hooked (s : Stores) (o : Option Object) (t : Member) (m : Option Method) (b : Method) : Stores where
  table := update s.table t (some ⟨.hooker s.next, Hooker.callbackMethod, b⟩)
  heap := update s.heap s.next ⟨o, some b, some t, m⟩
  next := s.next + 1
  hookers := update s.hookers (getMemberName t) (some s.next)

def hookedAdvanced (s : Stores) (o : Option Object) (t : Member) (m b : Method) : Stores :=
  { s with table := update s.table t (some ⟨.object o, m, b⟩) }

def unhooked (s : Stores) (t : Member) : Stores :=
  { s with table := update s.table t none, hookers := update s.hookers (getMemberName t) none }

@[simp] theorem alloc_heap_self (s : Stores) : s.alloc.heap s.next = {} := Function.update_self _ _ _

theorem alloc_heap_of_lt {s : Stores} {r : Ref} (h : r < s.next) : s.alloc.heap r = s.heap r :=
  Function.update_of_ne (Nat.ne_of_lt h) _ _

@[simp] theorem assign_heap_self (s : Stores) (r : Ref) (f : Hooker → Hooker) :
    (s.assign r f).heap r = f (s.heap r) :=
  Function.update_self _ _ _

theorem assign_heap_of_ne {s : Stores} {r x : Ref} (h : x ≠ r) (f : Hooker → Hooker) :
    (s.assign r f).heap x = s.heap x := Function.update_of_ne h _ _

@[simp] theorem put_hookers_self (s : Stores) (key : Text) (r : Ref) : (s.put key r).hookers key = some r :=
  Function.update_self _ _ _

theorem put_hookers_of_ne {s : Stores} {key k : Text} (h : k ≠ key) (r : Ref) :
    (s.put key r).hookers k = s.hookers k :=
  Function.update_of_ne h _ _

@[simp] theorem hooked_table_self (s : Stores) (o : Option Object) (t : Member) (m : Option Method) (b : Method) :
    (s.hooked o t m b).table t = some ⟨.hooker s.next, Hooker.callbackMethod, b⟩ := Function.update_self _ _ _

theorem hooked_table_of_ne {s : Stores} {t u : Member} (h : u ≠ t) (o : Option Object) (m : Option Method)
    (b : Method) :
    (s.hooked o t m b).table u = s.table u := Function.update_of_ne h _ _

@[simp] theorem hooked_heap_self (s : Stores) (o : Option Object) (t : Member) (m : Option Method) (b : Method) :
    (s.hooked o t m b).heap s.next = ⟨o, some b, some t, m⟩ := Function.update_self s.next _ s.heap

theorem hooked_heap_of_lt {s : Stores} {r : Ref} (h : r < s.next) (o : Option Object) (t : Member) (m : Option Method)
    (b : Method) : (s.hooked o t m b).heap r = s.heap r := Function.update_of_ne (Nat.ne_of_lt h) _ _

@[simp] theorem hooked_hookers_self (s : Stores) (o : Option Object) (t : Member) (m : Option Method) (b : Method) :
    (s.hooked o t m b).hookers (getMemberName t) = some s.next := Function.update_self _ _ _

theorem hooked_hookers_of_ne {s : Stores} {t : Member} {k : Text} (h : k ≠ getMemberName t) (o : Option Object)
    (m : Option Method) (b : Method) : (s.hooked o t m b).hookers k = s.hookers k := Function.update_of_ne h _ _

@[simp] theorem hookedAdvanced_table_self (s : Stores) (o : Option Object) (t : Member) (m b : Method) :
    (s.hookedAdvanced o t m b).table t = some ⟨.object o, m, b⟩ := Function.update_self _ _ _

theorem hookedAdvanced_table_of_ne {s : Stores} {t u : Member} (h : u ≠ t) (o : Option Object) (m b : Method) :
    (s.hookedAdvanced o t m b).table u = s.table u := Function.update_of_ne h _ _

theorem unhooked_table_of_ne {s : Stores} {t u : Member} (h : u ≠ t) : (s.unhooked t).table u = s.table u :=
  Function.update_of_ne h _ _

@[simp] theorem remove_hookers_self (s : Stores) (key : Text) : (s.remove key).hookers key = none :=
  Function.update_self _ _ _

theorem remove_hookers_of_ne {s : Stores} {key k : Text} (h : k ≠ key) : (s.remove key).hookers k = s.hookers k :=
  Function.update_of_ne h _ _

theorem remove_eq_self {s : Stores} {key : Text} (h : s.hookers key = none) : s.remove key = s := by
  unfold remove
  rw [← h, Function.update_eq_self]

end Stores

namespace Native

theorem hookMethod_cases (table : Table) (o : Receiver) (t : Member) (m a : Option Method) :
    hookMethod table o t m a = (none, table) ∨ ∃ c b, m = some c ∧ a = some b ∧ table t = none ∧
      hookMethod table o t m a = (some b, update table t (some ⟨o, c, b⟩)) := by
  unfold hookMethod
  split
  · rename_i c b ht
    exact Or.inr ⟨c, b, rfl, rfl, ht, rfl⟩
  · exact Or.inl rfl

theorem hookMethod_free {table : Table} {t : Member} (ht : table t = none) (o : Receiver) (c b : Method) :
    hookMethod table o t (some c) (some b) = (some b, update table t (some ⟨o, c, b⟩)) := by
  unfold hookMethod; rw [ht]

theorem unhookMethod_cases (table : Table) (t : Member) (a : Bool) :
    (((table t).isSome && a) = false ∧ unhookMethod table t a = (false, table)) ∨
      ((table t).isSome = true ∧ a = true ∧ unhookMethod table t a = (true, update table t none)) := by
  unfold unhookMethod
  split
  · rename_i h
    rw [Bool.and_eq_true] at h
    exact Or.inr ⟨h.1, h.2, rfl⟩
  · rename_i h
    exact Or.inl ⟨Bool.eq_false_iff.2 h, rfl⟩

end Native

theorem Hooker.hook_free {env : Env} {s : Stores} {t : Member} (hk : env.callbackKept = true) (ht : s.table t = none)
    (o : Option Object) (m : Option Method) (b : Method) :
    Hooker.hook env s o t m (some b) = (some s.next,
      { table := update s.table t (some ⟨.hooker s.next, Hooker.callbackMethod, b⟩)
        heap := update s.heap s.next ⟨o, some b, some t, m⟩
        next := s.next + 1
        hookers := s.hookers }) := by
  have htab : s.alloc.table t = none := ht
  unfold Hooker.hook
  simp only [hk, if_true, Native.hookMethod_free htab]
  simp [Stores.assign, Stores.alloc]

/-- **What `Hooker.hook` does**: nothing but allocate, or hook a free target with its object complete. -/
theorem Hooker.hook_cases (env : Env) (s : Stores) (o : Option Object) (t : Member) (m a : Option Method) :
    Hooker.hook env s o t m a = (none, s.alloc) ∨
      ∃ b, a = some b ∧ env.callbackKept = true ∧ s.table t = none := by
  by_cases hk : env.callbackKept = true
  · rcases Native.hookMethod_cases s.alloc.table (.hooker s.next) t (some Hooker.callbackMethod) a with
      h | ⟨c, b, -, ha, ht, -⟩
    · left
      unfold Hooker.hook
      simp only [hk, if_true, h]
    · exact Or.inr ⟨b, ha, hk, ht⟩
  · left
    unfold Hooker.hook
    simp only [hk, if_false, Bool.false_eq_true]

namespace LSPlant

theorem hookMethod_free {env : Env} {s : Stores} {t : Member} (hi : env.isInitialized = true)
    (hk : env.callbackKept = true) (ht : s.table t = none) (o : Option Object) (m : Option Method) (b : Method) :
    hookMethod env s o t m (some b) = (true, s.hooked o t m b) := by
  unfold hookMethod
  simp only [hi, if_true, Hooker.hook_free hk ht]
  rfl

/-- **What `hookMethod` does.** -/
theorem hookMethod_cases (env : Env) (s : Stores) (o : Option Object) (t : Member) (m a : Option Method) :
    hookMethod env s o t m a = (false, s) ∨ hookMethod env s o t m a = (false, s.alloc) ∨
      ∃ b, a = some b ∧ env.isInitialized = true ∧ env.callbackKept = true ∧ s.table t = none ∧
        hookMethod env s o t m a = (true, s.hooked o t m b) := by
  by_cases hi : env.isInitialized = true
  · rcases Hooker.hook_cases env s o t m a with h | ⟨b, rfl, hk, ht⟩
    · right; left
      unfold hookMethod
      simp only [hi, if_true, h]
    · exact Or.inr (Or.inr ⟨b, rfl, hi, hk, ht, hookMethod_free hi hk ht o m b⟩)
  · left
    unfold hookMethod
    simp only [hi, if_false, Bool.false_eq_true]

/-- **What `hookMethodAdvanced` does.** -/
theorem hookMethodAdvanced_cases (env : Env) (s : Stores) (o : Option Object) (t : Member) (m a : Option Method) :
    hookMethodAdvanced env s o t m a = (none, s) ∨
      ∃ c b, m = some c ∧ a = some b ∧ s.table t = none ∧
        hookMethodAdvanced env s o t m a = (some b, s.hookedAdvanced o t c b) := by
  unfold hookMethodAdvanced
  split
  · rcases Native.hookMethod_cases s.table (.object o) t m a with h | ⟨c, b, hm, ha, ht, h⟩
    · exact Or.inl (by rw [h])
    · exact Or.inr ⟨c, b, hm, ha, ht, by rw [h]; rfl⟩
  · exact Or.inl rfl

theorem hookMethodAdvanced_free {env : Env} {s : Stores} {t : Member} (hi : env.isInitialized = true)
    (ht : s.table t = none) (o : Option Object) (c b : Method) :
    hookMethodAdvanced env s o t (some c) (some b) = (some b, s.hookedAdvanced o t c b) := by
  unfold hookMethodAdvanced
  simp only [hi, if_true, Native.hookMethod_free ht]
  rfl

/-- The test before the removal changes nothing: removing a key that is not there leaves the registry as it was. -/
theorem unregister_eq (s : Stores) (key : Text) : unregister s key = s.remove key := by
  unfold unregister
  cases h : s.hookers key with
  | none => simp [Stores.remove_eq_self h]
  | some r => simp

/-- **What `unhookMethod` does**: the registry's key goes before the native layer answers. -/
theorem unhookMethod_cases (env : Env) (s : Stores) (t : Member) (a : Bool) :
    (env.isInitialized = false ∧ unhookMethod env s t a = (false, s)) ∨
      (env.isInitialized = true ∧ ((s.table t).isSome && a) = false ∧
        unhookMethod env s t a = (false, s.remove (getMemberName t))) ∨
      (env.isInitialized = true ∧ (s.table t).isSome = true ∧ a = true ∧
        unhookMethod env s t a = (true, s.unhooked t)) := by
  unfold unhookMethod
  split
  · rename_i hi
    right
    simp only [unregister_eq]
    have htab : (s.remove (getMemberName t)).table = s.table := rfl
    rcases Native.unhookMethod_cases s.table t a with ⟨ha, h⟩ | ⟨ht, ha, h⟩
    · exact Or.inl ⟨hi, ha, by rw [htab, h]; rfl⟩
    · exact Or.inr ⟨hi, ht, ha, by rw [htab, h]; rfl⟩
  · rename_i hi
    exact Or.inl ⟨by simpa using hi, rfl⟩

end LSPlant

/-- **The effects of one event on the stores.** -/
inductive Effect (env : Env) (s : Stores) : Event → Stores → Prop
  | hooked (o : Option Object) (t : Member) (m : Option Method) (b : Method) (ht : s.table t = none) :
      Effect env s (.hookMethod o t m (some b), .hookMethod true) (s.hooked o t m b)
  | notHooked (o : Option Object) (t : Member) (m a : Option Method) :
      Effect env s (.hookMethod o t m a, .hookMethod false) s
  | allocated (o : Option Object) (t : Member) (m a : Option Method) :
      Effect env s (.hookMethod o t m a, .hookMethod false) s.alloc
  | hookedAdvanced (o : Option Object) (t : Member) (c b : Method) (ht : s.table t = none) :
      Effect env s (.hookMethodAdvanced o t (some c) (some b), .hookMethodAdvanced (some b))
        (s.hookedAdvanced o t c b)
  | notHookedAdvanced (o : Option Object) (t : Member) (m a : Option Method) :
      Effect env s (.hookMethodAdvanced o t m a, .hookMethodAdvanced none) s
  | unhooked (t : Member) (ht : (s.table t).isSome = true) :
      Effect env s (.unhookMethod t true, .unhookMethod true) (s.unhooked t)
  | notInitialized (t : Member) (a : Bool) (hi : env.isInitialized = false) :
      Effect env s (.unhookMethod t a, .unhookMethod false) s
  | unregistered (t : Member) (a : Bool) (hi : env.isInitialized = true) (ha : ((s.table t).isSome && a) = false) :
      Effect env s (.unhookMethod t a, .unhookMethod false) (s.remove (getMemberName t))
  | called (t : Member) (args : Args) : Effect env s (.call t args, .call (s.enter t args)) s

theorem Stores.exec_effect (env : Env) (s : Stores) (op : Op) :
    Effect env s (op, (s.exec env op).1) (s.exec env op).2 := by
  cases op with
  | hookMethod o t m a =>
    simp only [Stores.exec]
    rcases LSPlant.hookMethod_cases env s o t m a with h | h | ⟨b, rfl, -, -, ht, h⟩
    · rw [h]; exact .notHooked o t m a
    · rw [h]; exact .allocated o t m a
    · rw [h]; exact .hooked o t m b ht
  | hookMethodAdvanced o t m a =>
    simp only [Stores.exec]
    rcases LSPlant.hookMethodAdvanced_cases env s o t m a with h | ⟨c, b, rfl, rfl, ht, h⟩
    · rw [h]; exact .notHookedAdvanced o t m a
    · rw [h]; exact .hookedAdvanced o t c b ht
  | unhookMethod t a =>
    simp only [Stores.exec]
    rcases LSPlant.unhookMethod_cases env s t a with ⟨hi, h⟩ | ⟨hi, ha, h⟩ | ⟨-, ht, rfl, h⟩
    · rw [h]; exact .notInitialized t a hi
    · rw [h]; exact .unregistered t a hi ha
    · rw [h]; exact .unhooked t ht
  | call t args => exact .called t args

theorem sequential_step {env : Env} {s s' : Stores} {e : Event} :
    (sequential env).step s e = some s' ↔ s.exec env e.1 = (e.2, s') := by
  simp only [sequential]
  constructor
  · intro h
    split at h
    · rename_i he
      rw [← he, ← Option.some.inj h]
    · cases h
  · intro h
    rw [h]; simp

/-- **Every step of the sequential machine is one of the effects.** -/
theorem sequential_effect {env : Env} {s s' : Stores} {e : Event} (h : (sequential env).step s e = some s') :
    Effect env s e s' := by
  have hx := Stores.exec_effect env s e.1
  rw [sequential_step.1 h] at hx
  exact hx

/-- An operation can always be done, and comes to one thing. -/
theorem sequential_total (env : Env) (s : Stores) (op : Op) :
    (sequential env).step s (op, (s.exec env op).1) = some (s.exec env op).2 :=
  sequential_step.2 rfl

end JLSPlant
