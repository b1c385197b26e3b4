import JLSPlant.Writes
import JLSPlant.RegistryFrame
/-!
# HookMap — sequential hooking as a map from members to hooks

What the three stores are for: each member has at most one hook, and a call of it runs that hook's replacement on
its owner.  `hookMap` is that machine, a map and nothing else; the sequential machine refines it
(`hooking_simulates`), and the map holds at each member the last successful hook that no successful unhook follows
(`hookMap_run_eq`).
-/
namespace JLSPlant

open Function (update)
open Utils (getMemberName)

/-- **A hook, as its caller made it.** -/
inductive Hook
  | simple (owner : Option Object) (replacement backup : Method)
  | advanced (owner : Option Object) (replacement : Method)
deriving DecidableEq

/-- What a call runs: the replacement on the owner, or the original of a member that has no hook. -/
def Hook.entry (t : Member) (args : Args) : Option Hook → Entry
  | none                 => .original t args
  | some (.simple o m b) => .reflective m o ⟨some b, args⟩
  | some (.advanced o m) => .direct m o args

abbrev HookMap := Member → Option Hook

/-- The entry of the map an event writes, if it writes one. -/
def Event.write : Event → Option (Member × Option Hook)
  | (.hookMethod o t (some m) (some b), .hookMethod true)                   => some (t, some (.simple o m b))
  | (.hookMethodAdvanced o t (some m) (some _), .hookMethodAdvanced (some _)) => some (t, some (.advanced o m))
  | (.unhookMethod t _, .unhookMethod true)                                 => some (t, none)
  | _                                                                       => none

/-- The outcomes the map allows: a hook where there is none, the removal of one that is there, any failure, and a
call that runs what the map says. -/
def HookMap.allows (m : HookMap) : Event → Bool
  | (.hookMethod _ t _ _, .hookMethod ok)                 => !ok || (m t).isNone
  | (.hookMethodAdvanced _ t _ _, .hookMethodAdvanced b)  => b.isNone || (m t).isNone
  | (.unhookMethod t _, .unhookMethod ok)                 => !ok || (m t).isSome
  | (.call t args, .call e)                               => e = Hook.entry t args (m t)
  | _                                                     => false

/-- **The abstract machine.** -/
def hookMap : Trans.Machine HookMap Event where
  step m e := if m.allows e then some (Writes.apply m (Event.write e).toList) else none

/-- **The last successful hook of `t` that no successful unhook of `t` follows.** -/
def lastHook (l : List Event) (t : Member) : Option Hook := (Writes.last t (l.filterMap Event.write)).getD none

/-- The operation of an event that took effect, at its member. -/
def Event.effective : Event → Option (Member × Op)
  | (.hookMethod o t m (some b), .hookMethod true) => some (t, .hookMethod o t m (some b))
  | (.hookMethodAdvanced o t (some m) (some b), .hookMethodAdvanced (some _)) =>
    some (t, .hookMethodAdvanced o t (some m) (some b))
  | (.unhookMethod t a, .unhookMethod true) => some (t, .unhookMethod t a)
  | _ => none

/-- **The last operation on `t` that took effect.** -/
def lastOp (l : List Event) (t : Member) : Option Op := Writes.last t (l.filterMap Event.effective)

theorem hookMap_step {m m' : HookMap} {e : Event} (h : hookMap.step m e = some m') :
    m.allows e = true ∧ m' = Writes.apply m (Event.write e).toList := by
  simp only [hookMap] at h
  split at h
  · rename_i ha
    exact ⟨ha, (Option.some.inj h).symm⟩
  · cases h

theorem hookMap_run : ∀ (l : List Event) (m m' : HookMap), hookMap.run m l = some m' →
    m' = Writes.apply m (l.filterMap Event.write)
  | [], m, m', h => by cases h; rfl
  | e :: l, m, m', h => by
    obtain ⟨m₁, h₁, h₂⟩ := hookMap.run_cons_some h
    rw [hookMap_run l m₁ m' h₂, (hookMap_step h₁).2]
    cases hw : Event.write e with
    | none => rw [List.filterMap_cons_none hw]; rfl
    | some w => rw [List.filterMap_cons_some hw]; rfl

/-- **The map after a run holds the last hook of each member.** -/
theorem hookMap_run_eq {l : List Event} {m : HookMap} (h : hookMap.run (fun _ => none) l = some m) (t : Member) :
    m t = lastHook l t := by
  rw [hookMap_run l _ m h, Writes.apply_eq]; rfl

/-! ## The refinement -/

/-- The hook `Method.invoke` can enter: a `hookMethod` with a replacement it accepts on the owner. -/
def Op.Enterable : Op → Prop
  | .hookMethod o _ m _ => ∃ r, m = some r ∧ r.checkInvoke hookerClass o [methodCallbackClass] = .ok ()
  | _                   => True

/-- **What is installed on a member, as the hook it stands for**: nothing; a Hooker object with all its fields; or the
caller's own object and method. -/
inductive Stores.Shows (s : Stores) (t : Member) : Option Installed → Option Hook → Prop
  | nothing : Shows s t none none
  | simple (r : Ref) (o : Option Object) (m b : Method) (hr : r < s.next)
      (hh : s.heap r = ⟨o, some b, some t, some m⟩)
      (he : m.checkInvoke hookerClass o [methodCallbackClass] = .ok ()) :
      Shows s t (some ⟨.hooker r, Hooker.callbackMethod, b⟩) (some (.simple o m b))
  | advanced (o : Option Object) (m b : Method) : Shows s t (some ⟨.object o, m, b⟩) (some (.advanced o m))

def Stores.Represents (s : Stores) (m : HookMap) : Prop := ∀ t, s.Shows t (s.table t) (m t)

theorem represents_init : Stores.init.Represents (fun _ => none) := fun _ => .nothing

theorem Stores.Shows.mono {s s' : Stores} {t : Member} {i : Option Installed} {k : Option Hook} (h : s.Shows t i k)
    (hn : s.next ≤ s'.next) (hh : ∀ r, r < s.next → s'.heap r = s.heap r) : s'.Shows t i k := by
  cases h with
  | nothing => exact .nothing
  | simple r o m b hr hheap he => exact .simple r o m b (Nat.lt_of_lt_of_le hr hn) ((hh r hr).trans hheap) he
  | advanced o m b => exact .advanced o m b

theorem Stores.Shows.isNone {s : Stores} {t : Member} {i : Option Installed} {k : Option Hook} (h : s.Shows t i k) :
    k.isNone = i.isNone := by
  cases h <;> rfl

/-- **A call runs what the map says.** -/
theorem Stores.Represents.enter {s : Stores} {m : HookMap} (h : s.Represents m) (t : Member) (args : Args) :
    s.enter t args = Hook.entry t args (m t) := by
  have ht := h t
  unfold Stores.enter
  generalize s.table t = i at ht
  generalize m t = k at ht
  cases ht with
  | nothing => rfl
  | simple r o m b hr hh he => simp only [hh, Hooker.callback, Method.enter, he]; rfl
  | advanced o m b => rfl

theorem Stores.Represents.alloc {s : Stores} {m : HookMap} (h : s.Represents m) : s.alloc.Represents m := fun t =>
  (h t).mono (Nat.le_succ _) (fun _ hr => Stores.alloc_heap_of_lt hr)

theorem Stores.Represents.write {s s' : Stores} {m : HookMap} (h : s.Represents m) {t : Member} {i : Option Installed}
    {k : Option Hook} (htab : s'.table = update s.table t i) (hn : s.next ≤ s'.next)
    (hh : ∀ r, r < s.next → s'.heap r = s.heap r) (hshow : s'.Shows t i k) : s'.Represents (update m t k) := by
  intro u
  rw [htab]
  by_cases hut : u = t
  · subst hut; rw [Function.update_self, Function.update_self]; exact hshow
  · rw [Function.update_of_ne hut, Function.update_of_ne hut]; exact (h u).mono hn hh

/-- **The sequential machine refines the map**, event for event. -/
theorem hooking_simulates (env : Env) :
    (sequential env).Simulates hookMap (fun e => e.1.Enterable) Stores.Represents id where
  step s m e s' hP hR hs := by
    have hallow : ∀ {m' : HookMap}, m.allows e = true → Writes.apply m (Event.write e).toList = m' →
        hookMap.step m e = some m' := fun ha hw => by simp only [hookMap, ha, if_true, hw]
    have he := sequential_effect hs
    cases he with
    | hooked o t r b ht =>
      obtain ⟨r, rfl, hr⟩ := hP
      have hfree : (m t).isNone = true := by rw [(hR t).isNone, ht]; rfl
      refine ⟨update m t (some (.simple o r b)), hallow (by simpa [HookMap.allows] using hfree) rfl, ?_⟩
      exact hR.write rfl (Nat.le_succ _) (fun _ h => Stores.hooked_heap_of_lt h o t (some r) b)
        (.simple s.next o r b (Nat.lt_succ_self _) (Stores.hooked_heap_self s o t (some r) b) hr)
    | notHooked o t r a => exact ⟨m, hallow rfl (by cases r <;> cases a <;> rfl), hR⟩
    | allocated o t r a => exact ⟨m, hallow rfl (by cases r <;> cases a <;> rfl), hR.alloc⟩
    | hookedAdvanced o t c b ht =>
      have hfree : (m t).isNone = true := by rw [(hR t).isNone, ht]; rfl
      refine ⟨update m t (some (.advanced o c)), hallow (by simpa [HookMap.allows] using hfree) rfl, ?_⟩
      exact hR.write rfl (Nat.le_refl _) (fun _ _ => rfl) (.advanced o c b)
    | notHookedAdvanced o t r a => exact ⟨m, hallow rfl (by cases r <;> cases a <;> rfl), hR⟩
    | unhooked t ht =>
      have hthere : (m t).isSome = true := by
        have := (hR t).isNone
        cases hm : m t with
        | some k => rfl
        | none => rw [hm] at this; cases htab : s.table t <;> simp_all
      refine ⟨update m t none, hallow (by simpa [HookMap.allows] using hthere) rfl, ?_⟩
      exact hR.write rfl (Nat.le_refl _) (fun _ _ => rfl) .nothing
    | notInitialized t a => exact ⟨m, hallow rfl rfl, hR⟩
    | unregistered t a => exact ⟨m, hallow rfl rfl, fun u => (hR u).mono (Nat.le_refl _) (fun _ _ => rfl)⟩
    | called t args => exact ⟨m, hallow (by simpa [HookMap.allows] using hR.enter t args) rfl, hR⟩

/-- **Sequential hooking refines the map from members to hooks**: the map machine takes the same run, holds the last
successful hook of each member, and says what every call of the run, and every call after it, runs. -/
theorem hooking_refines_map (env : Env) (l : List Event) (s : Stores)
    (h : (sequential env).run Stores.init l = some s) (hl : ∀ e ∈ l, e.1.Enterable) :
    (∃ m, hookMap.run (fun _ => none) l = some m ∧ (∀ t, m t = lastHook l t) ∧
      ∀ t args, s.enter t args = Hook.entry t args (m t)) ∧
    ∀ pre t args out post, l = pre ++ (.call t args, out) :: post →
      out = .call (Hook.entry t args (lastHook pre t)) := by
  have hmap : ∀ (k : List Event) (s' : Stores), (sequential env).run Stores.init k = some s' →
      (∀ e ∈ k, e.1.Enterable) →
      ∃ m, hookMap.run (fun _ => none) k = some m ∧ (∀ t, m t = lastHook k t) ∧
        ∀ t args, s'.enter t args = Hook.entry t args (m t) := by
    intro k s' hk hP
    obtain ⟨m, hm, hR⟩ := (hooking_simulates env).run k Stores.init s' _ hP represents_init hk
    rw [List.map_id] at hm
    exact ⟨m, hm, hookMap_run_eq hm, hR.enter⟩
  refine ⟨hmap l s h hl, fun pre t args out post hsplit => ?_⟩
  subst hsplit
  obtain ⟨s₁, hpre, hcall⟩ := (sequential env).run_append_inv h
  obtain ⟨s₂, hstep, -⟩ := (sequential env).run_cons_some hcall
  obtain ⟨m, -, hm, henter⟩ := hmap pre s₁ hpre (fun e he => hl e (List.mem_append_left _ he))
  cases sequential_effect hstep with
  | called => rw [henter, hm]

theorem sampleReplacement_accepted :
    sampleReplacement.checkInvoke hookerClass none [methodCallbackClass] = .ok () :=
  (Method.checkInvoke_ok_iff _ _ _ _).2 (by decide)

/-- Two constructors, which have one key, are hooked; the first is unhooked and hooked again, the second is called. -/
def rehookedConstructors : List Event :=
  [(.hookMethod none (sampleConstructor []) (some sampleReplacement) (some sampleBackup), .hookMethod true),
    (.hookMethod none (sampleConstructor [intClass]) (some sampleReplacement) (some sampleBackup), .hookMethod true),
    (.unhookMethod (sampleConstructor []) true, .unhookMethod true),
    (.call (sampleConstructor [intClass]) [none],
      .call (.reflective sampleReplacement none ⟨some sampleBackup, [none]⟩)),
    (.hookMethodAdvanced none (sampleConstructor []) (some sampleBackup) (some sampleBackup),
      .hookMethodAdvanced (some sampleBackup))]

theorem rehooked_constructors_enter : ∃ s, (sequential liveEnv).run Stores.init rehookedConstructors = some s ∧
    s.enter (sampleConstructor []) [] = .direct sampleBackup none [] ∧
    s.enter (sampleConstructor [intClass]) [none] =
      .reflective sampleReplacement none ⟨some sampleBackup, [none]⟩ := by
  have hsome : ((sequential liveEnv).run Stores.init rehookedConstructors).isSome = true := rfl
  have hl : ∀ e ∈ rehookedConstructors, e.1.Enterable := by
    have haccepted : Op.Enterable (.hookMethod none (sampleConstructor []) (some sampleReplacement)
        (some sampleBackup)) :=
      ⟨_, rfl, sampleReplacement_accepted⟩
    intro e he
    simp only [rehookedConstructors, List.mem_cons, List.not_mem_nil, or_false] at he
    rcases he with rfl | rfl | rfl | rfl | rfl
    · exact haccepted
    · exact haccepted
    · trivial
    · trivial
    · trivial
  obtain ⟨⟨m, -, hm, henter⟩, -⟩ := hooking_refines_map liveEnv rehookedConstructors _ (Option.some_get hsome).symm hl
  refine ⟨_, (Option.some_get hsome).symm, ?_, ?_⟩
  · rw [henter, hm]
    rfl
  · rw [henter, hm]
    rfl

end JLSPlant
