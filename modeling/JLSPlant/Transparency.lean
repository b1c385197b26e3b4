import JLSPlant.HookMap
import JLSPlant.Procedures
/-!
# Transparency — what programs can see of a hook that calls the original

The members, the replacements and the backups have bodies, programs that call members and invoke methods.  A
replacement relays when all it does is to invoke the backup with the arguments it got and to hand on the result,
changed or not.  Where `Method.invoke` can enter the hooks that are left, programs cannot tell them from no hooks
exactly when no result of an original is changed on the way back (`relaying_hooks_invisible_iff`), and replacements
that change nothing are seen exactly by the exceptions of the originals (`pass_through_invisible_iff`):
`Method.invoke` wraps them.
-/
namespace JLSPlant

open Procedures (Body Evals Indistinguishable)

/-- A result of a Java method. -/
abbrev Result := Completion (Option Object)

inductive Call
  | member (target : Member) (args : Args)
  | invoke (method : Method) (args : Args)

/-- **The bodies**: of the members, of the methods that are invoked by reflection, and of the replacements. -/
structure Sources {κ : Type} (ο : κ → Type) where
  original : Member → Args → Body Call ο Result
  method : Method → Args → Body Call ο Result
  simple : Method → Option Object → MethodCallback → Body Call ο Result
  advanced : Method → Option Object → Args → Body Call ο Result

variable {κ σ : Type} {ο : κ → Type}

namespace Sources

/-- The body a call enters, with what `Method.invoke` makes of the result. -/
def entered (p : Sources ο) : Entry → Body Call ο Result
  | .original t args   => p.original t args
  | .reflective m o cb => (p.simple m o cb).map Method.complete
  | .direct m o args   => p.advanced m o args
  | .failed e          => Body.ret (.error e)

/-- What runs for a call, where `enter` says what a member's call enters. -/
def body (p : Sources ο) (enter : Member → Args → Entry) : Call → Body Call ο Result
  | .member t args => p.entered (enter t args)
  | .invoke m args => (p.method m args).map Method.complete

/-- The backup's body is the original, and the replacement invokes it with its own arguments and hands on what `g`
makes of the result. -/
def Relays (p : Sources ο) (t : Member) (g : Result → Result) : Option Hook → Prop
  | none                 => True
  | some (.simple o m b) => (∀ args, p.method b args = p.original t args) ∧
      ∀ args, p.simple m o ⟨some b, args⟩ = Body.call (.invoke b args) fun r => Body.ret (g r)
  | some (.advanced o m) => ∃ b, (∀ args, p.method b args = p.original t args) ∧
      ∀ args, p.advanced m o args = Body.call (.invoke b args) fun r => Body.ret (g r)

end Sources

/-- **What becomes of the original's result on its way back through a hook**: one `Method.invoke` for the backup,
and for a simple hook one for the replacement. -/
def Hook.alters (g : Result → Result) : Option Hook → Result → Result
  | none              => id
  | some (.simple ..) => fun r => Method.complete (g (Method.complete r))
  | some (.advanced ..) => fun r => g (Method.complete r)

section
variable {p : Sources ο} {prim : σ → (o : κ) → ο o × σ} {m : HookMap} {g : Member → Result → Result}

theorem Throwable.wrappedTwice_ne : ∀ e : Throwable, Throwable.invocationTarget (.invocationTarget e) ≠ e
  | .invocationTarget e, h => wrappedTwice_ne e (Throwable.invocationTarget.inj h)

theorem Hook.alters_id_iff (k : Hook) (r : Result) : Hook.alters id (some k) r = r ↔ ∃ v, r = .ok v := by
  cases k with
  | advanced o m => exact Method.complete_eq_iff r
  | simple o m b =>
    cases r with
    | ok v => simp [Hook.alters]
    | error e =>
      simp only [Hook.alters, id_eq, Method.complete_error, reduceCtorEq, exists_false, iff_false, Except.error.injEq]
      exact Throwable.wrappedTwice_ne e

/-! ## What a call enters after a run -/

theorem Event.effective_of_write {e : Event} {t : Member} {k : Option Hook} (h : e.write = some (t, k)) :
    ∃ op, e.effective = some (t, op) := by
  unfold Event.write at h
  split at h <;> cases h <;> exact ⟨_, rfl⟩

/-- A hook that can be entered is what calls of its member enter. -/
theorem Effect.enters_self {env : Env} {s s' : Stores} {e : Event} (he : Effect env s e s') {t : Member} {op : Op}
    (hop : e.effective = some (t, op)) (henter : op.Enterable) :
    ∃ k, e.write = some (t, k) ∧ ∀ args, s'.enter t args = Hook.entry t args k := by
  cases he with
  | hooked o u m b =>
    cases hop
    obtain ⟨r, rfl, hr⟩ := henter
    refine ⟨_, rfl, fun args => ?_⟩
    simp only [Stores.enter, Stores.hooked_table_self, Stores.hooked_heap_self, Hooker.callback, Method.enter, hr]
    rfl
  | hookedAdvanced o u c b =>
    cases hop
    refine ⟨_, rfl, fun args => ?_⟩
    simp only [Stores.enter, Stores.hookedAdvanced_table_self]
    rfl
  | unhooked u =>
    cases hop
    have htable : (s.unhooked t).table t = none := Function.update_self _ _ _
    refine ⟨_, rfl, fun args => ?_⟩
    simp only [Stores.enter, htable]
    rfl
  | notHooked o u m a => cases a <;> cases hop
  | allocated o u m a => cases a <;> cases hop
  | notHookedAdvanced o u m a => cases m <;> cases a <;> cases hop
  | unregistered => cases hop
  | notInitialized => cases hop
  | called => cases hop

/-- What has no effect on a member leaves its calls as they are. -/
theorem Effect.enters_other {env : Env} {s s' : Stores} {e : Event} (he : Effect env s e s') (h : s.Allocated)
    {t : Member} (hop : ∀ op, e.effective ≠ some (t, op)) (args : Args) : s'.enter t args = s.enter t args := by
  cases he with
  | hooked o u m b =>
    have hu : t ≠ u := fun hu => by cases hu; exact hop _ rfl
    exact h.enter_same (Stores.hooked_table_of_ne hu o m b) (fun r hr => Stores.hooked_heap_of_lt hr o u m b) args
  | hookedAdvanced o u c b =>
    have hu : t ≠ u := fun hu => by cases hu; exact hop _ rfl
    exact h.enter_same (Stores.hookedAdvanced_table_of_ne hu o c b) (fun _ _ => rfl) args
  | unhooked u =>
    have hu : t ≠ u := fun hu => by cases hu; exact hop _ rfl
    exact h.enter_same (Stores.unhooked_table_of_ne hu) (fun _ _ => rfl) args
  | allocated =>
    have htable : s.alloc.table t = s.table t := rfl
    exact h.enter_same htable (fun _ hr => Stores.alloc_heap_of_lt hr) args
  | unregistered u a => rfl
  | _ => rfl

/-- **After a run a call enters what the last hook says**, if `Method.invoke` can enter it, whatever became of
others. -/
theorem enters_last {env : Env} {l : List Event} {s : Stores} (hrun : (sequential env).run Stores.init l = some s)
    {t : Member} (hleft : ∀ op, lastOp l t = some op → op.Enterable) (args : Args) :
    s.enter t args = Hook.entry t args (lastHook l t) := by
  induction l using List.reverseRecOn generalizing s with
  | nil =>
    cases hrun
    rfl
  | append_singleton l e ih =>
    obtain ⟨s₁, hinit, hlast⟩ := (sequential env).run_append_inv hrun
    obtain ⟨s₂, hstep, hnil⟩ := (sequential env).run_cons_some hlast
    cases hnil
    have he := sequential_effect hstep
    by_cases heffective : ∃ op, e.effective = some (t, op)
    · obtain ⟨op, hop⟩ := heffective
      obtain ⟨k, hwrite, henter⟩ := he.enters_self hop (hleft op (Writes.last_filterMap_self hop l))
      rw [henter args, lastHook, Writes.last_filterMap_self hwrite l, Option.getD_some]
    · have hop : ∀ op, e.effective ≠ some (t, op) := fun op h => heffective ⟨op, h⟩
      have hwrite : ∀ k, e.write ≠ some (t, k) := fun k h => heffective (Event.effective_of_write h)
      have hbefore := ih hinit fun op h => hleft op ((Writes.last_filterMap_of_ne hop l).trans h)
      rw [he.enters_other (allocated_of_reach ⟨l, hinit⟩) hop args, hbefore, lastHook, lastHook,
        Writes.last_filterMap_of_ne hwrite l]

/-- What a hook changes, and nothing for a method invoked. -/
def Call.alters (m : HookMap) (g : Member → Result → Result) : Call → Result → Result
  | .member t _ => Hook.alters (g t) (m t)
  | .invoke _ _ => id

theorem relays_indistinguishable {enter : Member → Args → Entry}
    (henter : ∀ t args, enter t args = Hook.entry t args (m t))
    (h : ∀ t, p.Relays t (g t) (m t)) : Indistinguishable prim (p.body enter)
      (fun c => (p.body .original c).map (c.alters m g)) := by
  refine Procedures.indistinguishable_of_callsOn fun c => ?_
  cases c with
  | invoke b args => exact Or.inl (Body.map_id _)
  | member t args =>
    have ht := h t
    simp only [Sources.body, Call.alters, henter]
    generalize m t = k at ht
    cases k with
    | none => exact Or.inl (Body.map_id _)
    | some k =>
      right
      cases k with
      | simple o r b =>
        obtain ⟨horiginal, hreplacement⟩ := ht
        refine ⟨.invoke b args, fun r => Method.complete (g t r), ?_, Body.map_id _, ?_⟩
        · simp only [Hook.entry, Sources.entered, hreplacement]
          rfl
        · simp only [horiginal, Body.map_map]
          rfl
      | advanced o r =>
        obtain ⟨b, horiginal, hreplacement⟩ := ht
        refine ⟨.invoke b args, g t, ?_, Body.map_id _, ?_⟩
        · simp only [Hook.entry, Sources.entered, hreplacement]
        · simp only [horiginal, Body.map_map]
          rfl

theorem relays_invisible_iff {enter : Member → Args → Entry}
    (henter : ∀ t args, enter t args = Hook.entry t args (m t))
    (h : ∀ t, p.Relays t (g t) (m t)) : Indistinguishable prim (p.body .original) (p.body enter) ↔
      ∀ t args s x, Evals prim (p.body .original) (p.original t args) s x → Hook.alters (g t) (m t) x.1 = x.1 := by
  have hsame : Indistinguishable prim (p.body enter) (fun c => (p.body .original c).map (c.alters m g)) :=
    relays_indistinguishable henter h
  have hiff : Indistinguishable prim (p.body .original) (fun c => (p.body .original c).map (c.alters m g)) ↔
      ∀ c s x, Evals prim (p.body .original) (p.body .original c) s x → c.alters m g x.1 = x.1 :=
    Procedures.indistinguishable_iff fun _ => rfl
  constructor
  · intro hinvisible t args s x hx
    exact hiff.1 (hinvisible.trans hsame) (.member t args) s x hx
  · intro hfixed
    refine (hiff.2 fun c s x hx => ?_).trans hsame.symm
    cases c with
    | member t args => exact hfixed t args s x hx
    | invoke b args => rfl

end

/-- **After any run, programs cannot tell the hooks from no hooks exactly when no result of an original is changed
on its way back**, where every hook that is left can be entered and relays. -/
theorem relaying_hooks_invisible_iff (env : Env) (l : List Event) (s : Stores)
    (hrun : (sequential env).run Stores.init l = some s) (hleft : ∀ t op, lastOp l t = some op → op.Enterable)
    (p : Sources ο) (prim : σ → (o : κ) → ο o × σ) (g : Member → Result → Result)
    (hrelays : ∀ t, p.Relays t (g t) (lastHook l t)) :
    Indistinguishable prim (p.body Stores.init.enter) (p.body s.enter) ↔
      ∀ t args s₀ x, Evals prim (p.body Stores.init.enter) (p.original t args) s₀ x →
        Hook.alters (g t) (lastHook l t) x.1 = x.1 :=
  relays_invisible_iff (fun t => enters_last hrun (hleft t)) hrelays

/-- A hook whose replacement invokes the backup, of a member whose body ends with `r` at once, once a hook that
cannot be entered is removed. -/
def relayedSample : List Event :=
  [(.hookMethod none (sampleMethod []) none (some sampleBackup), .hookMethod true),
    (.unhookMethod (sampleMethod []) true, .unhookMethod true),
    (.hookMethod none (sampleMethod []) (some sampleReplacement) (some sampleBackup), .hookMethod true)]

def sampleSources (r : Result) : Sources fun _ : Unit => Unit where
  original _ _ := Body.ret r
  method _ _ := Body.ret r
  simple _ _ callback := match callback.backup with
    | some b => Body.call (.invoke b callback.args) Body.ret
    | none   => Body.ret (.error .nullPointer)
  advanced _ _ _ := Body.ret r

def relayedState : Stores := ((sequential liveEnv).run Stores.init relayedSample).get rfl

theorem relayedSample_run : (sequential liveEnv).run Stores.init relayedSample = some relayedState :=
  (Option.some_get _).symm

theorem relayedSample_enterable (u : Member) (op : Op) (h : lastOp relayedSample u = some op) : op.Enterable := by
  have hops : relayedSample.filterMap Event.effective =
      [(sampleMethod [], .hookMethod none (sampleMethod []) none (some sampleBackup)),
        (sampleMethod [], .unhookMethod (sampleMethod []) true),
        (sampleMethod [], .hookMethod none (sampleMethod []) (some sampleReplacement) (some sampleBackup))] := rfl
  rw [lastOp, hops] at h
  by_cases hu : u = sampleMethod []
  · simp only [Writes.last, hu] at h
    cases h
    exact ⟨_, rfl, sampleReplacement_accepted⟩
  · simp [Writes.last, Ne.symm hu] at h

theorem relayedSample_last (u : Member) : lastHook relayedSample u =
    if u = sampleMethod [] then some (.simple none sampleReplacement sampleBackup) else none := by
  have hwrites : relayedSample.filterMap Event.write =
      [(sampleMethod [], none), (sampleMethod [], some (.simple none sampleReplacement sampleBackup))] := rfl
  rw [lastHook, hwrites]
  by_cases hu : u = sampleMethod []
  · simp [Writes.last, hu]
  · simp [Writes.last, hu, Ne.symm hu]

theorem relayedSample_relays (r : Result) (u : Member) :
    (sampleSources r).Relays u id (lastHook relayedSample u) := by
  rw [relayedSample_last]
  split
  · exact ⟨fun _ => rfl, fun _ => rfl⟩
  · trivial

theorem throwing_original_seen : ¬ Indistinguishable (fun (s : Unit) _ => ((), s))
    ((sampleSources (.error (.other 0))).body Stores.init.enter)
    ((sampleSources (.error (.other 0))).body relayedState.enter) := by
  intro h
  have hsame := (relaying_hooks_invisible_iff liveEnv relayedSample _ relayedSample_run relayedSample_enterable _ _
    (fun _ => id) (relayedSample_relays _)).1 h (sampleMethod []) [] () (.error (.other 0), ())
      (Procedures.evals_ret.2 rfl)
  rw [relayedSample_last, if_pos rfl] at hsame
  cases hsame

/-- **Replacements that invoke the backup and return what it returns are seen exactly by exceptions**: where
`Method.invoke` can enter the hooks that are left, programs cannot tell them from no hooks exactly when no original
that is hooked ever ends with one. -/
theorem pass_through_invisible_iff (env : Env) (l : List Event) (s : Stores)
    (hrun : (sequential env).run Stores.init l = some s) (hleft : ∀ t op, lastOp l t = some op → op.Enterable)
    (p : Sources ο) (prim : σ → (o : κ) → ο o × σ) (hpass : ∀ t, p.Relays t id (lastHook l t)) :
    Indistinguishable prim (p.body Stores.init.enter) (p.body s.enter) ↔
      ∀ t args s₀ x, (lastHook l t).isSome → Evals prim (p.body Stores.init.enter) (p.original t args) s₀ x →
        ∃ v, x.1 = .ok v := by
  refine (relays_invisible_iff (g := fun _ => id) (fun t => enters_last hrun (hleft t)) hpass).trans ?_
  constructor
  · intro hfixed t args s₀ x hhook hx
    have hx' := hfixed t args s₀ x hx
    cases hk : lastHook l t with
    | none => rw [hk] at hhook; cases hhook
    | some k => exact (Hook.alters_id_iff k x.1).1 (hk ▸ hx')
  · intro hok t args s₀ x hx
    cases hk : lastHook l t with
    | none => rfl
    | some k => exact (Hook.alters_id_iff k x.1).2 (hok t args s₀ x (by rw [hk]; rfl) hx)

theorem returning_original_unseen : Indistinguishable (fun (s : Unit) _ => ((), s))
    ((sampleSources (.ok none)).body Stores.init.enter)
    ((sampleSources (.ok none)).body relayedState.enter) := by
  refine (pass_through_invisible_iff liveEnv relayedSample _ relayedSample_run relayedSample_enterable _ _
    (relayedSample_relays _)).2 fun t args s₀ x _ hx => ?_
  obtain rfl := Procedures.evals_ret.1 hx
  exact ⟨none, rfl⟩

end JLSPlant
