import JLSPlant.HookMap
/-!
# Acceptance — which hooks `hookMethod` takes, and how a call of a hooked target ends

`hookMethod` asks nothing of the owner and the replacement (`hookMethod_fst`), and from the hook to the unhook every
call of the target reflects the replacement it was given (`enter_after_hookMethod`).  So a call reaches the
replacement exactly when `Method.invoke` accepts it, and ends as a directly hooked target's exactly when the body
returns.
-/
namespace JLSPlant

open Function (update)
open Utils (getMemberName)

/-! ## A hook until its unhook -/

def unhooks (t : Member) : Event := (.unhookMethod t true, .unhookMethod true)

/-- What is installed on `t`, and the Hooker object it names, if it names one. -/
structure Stores.Keeps (s : Stores) (t : Member) (i : Installed) (h : Hooker) : Prop where
  table : s.table t = some i
  heap : ∀ r, i.receiver = .hooker r → r < s.next ∧ s.heap r = h

theorem Stores.Keeps.mono {s s' : Stores} {t : Member} {i : Installed} {h : Hooker} (hk : s.Keeps t i h)
    (htab : s'.table t = s.table t) (hn : s.next ≤ s'.next) (hh : ∀ r, r < s.next → s'.heap r = s.heap r) :
    s'.Keeps t i h where
  table := htab.trans hk.table
  heap r hr := ⟨Nat.lt_of_lt_of_le (hk.heap r hr).1 hn, (hh r (hk.heap r hr).1).trans (hk.heap r hr).2⟩

/-- **Only its own unhook touches a hook**: a Hooker object is never written after `hookMethod` returned it. -/
theorem Effect.keeps {env : Env} {s s' : Stores} {e : Event} (he : Effect env s e s') {t : Member}
    (hne : e ≠ unhooks t) {i : Installed} {h : Hooker} (hk : s.Keeps t i h) : s'.Keeps t i h := by
  have hother : ∀ u, s.table u = none → t ≠ u := fun u hu htu => by
    subst htu; rw [hk.table] at hu; cases hu
  cases he with
  | hooked o u m b hu =>
    exact hk.mono (Stores.hooked_table_of_ne (hother u hu) o m b) (Nat.le_succ _)
      (fun r hr => Stores.hooked_heap_of_lt hr o u m b)
  | allocated => exact hk.mono rfl (Nat.le_succ _) (fun r hr => Stores.alloc_heap_of_lt hr)
  | hookedAdvanced o u c b hu =>
    exact hk.mono (Stores.hookedAdvanced_table_of_ne (hother u hu) o c b) (Nat.le_refl _) (fun _ _ => rfl)
  | unhooked u =>
    have htu : t ≠ u := fun h => hne (by rw [h]; rfl)
    exact hk.mono (Stores.unhooked_table_of_ne htu) (Nat.le_refl _) (fun _ _ => rfl)
  | unregistered u => exact hk.mono rfl (Nat.le_refl _) (fun _ _ => rfl)
  | _ => exact hk

theorem Stores.Keeps.run {env : Env} {s s' : Stores} {l : List Event} {t : Member} {i : Installed} {h : Hooker}
    (hk : s.Keeps t i h) (hl : unhooks t ∉ l) (hrun : (sequential env).run s l = some s') : s'.Keeps t i h :=
  (sequential env).run_inv_along (P := fun _ e => e ≠ unhooks t)
    (fun _ _ _ hk hne hs => (sequential_effect hs).keeps hne hk) l s s' hk
    ((sequential env).along_of_forall (P := fun _ e => e ≠ unhooks t)
      (fun e he _ heq => hl (by rw [← heq]; exact he)) s) hrun

/-- **Until the unhook, every call enters `Hooker.callback` on the object `hookMethod` completed.** -/
theorem enter_after_hookMethod {env : Env} {s s₁ s₂ : Stores} {o : Option Object} {t : Member} {m a : Option Method}
    {l : List Event} (h : (sequential env).step s (.hookMethod o t m a, .hookMethod true) = some s₁)
    (hl : unhooks t ∉ l) (hrun : (sequential env).run s₁ l = some s₂) (args : Args) :
    s₂.enter t args = Hooker.callback ⟨o, a, some t, m⟩ args := by
  cases sequential_effect h with
  | hooked o t m b ht =>
    have hk : (s.hooked o t m b).Keeps t ⟨.hooker s.next, Hooker.callbackMethod, b⟩ ⟨o, some b, some t, m⟩ := by
      refine ⟨Stores.hooked_table_self s o t m b, fun r hr => ?_⟩
      cases hr
      exact ⟨Nat.lt_succ_self _, Stores.hooked_heap_self s o t m b⟩
    have hk := hk.run hl hrun
    unfold Stores.enter
    rw [hk.table]
    simp only [(hk.heap s.next rfl).2]

theorem enter_after_hookMethodAdvanced {env : Env} {s s₁ s₂ : Stores} {o : Option Object} {t : Member} {c : Method}
    {a : Option Method} {b : Method} {l : List Event}
    (h : (sequential env).step s (.hookMethodAdvanced o t (some c) a, .hookMethodAdvanced (some b)) = some s₁)
    (hl : unhooks t ∉ l) (hrun : (sequential env).run s₁ l = some s₂) (args : Args) :
    s₂.enter t args = .direct c o args := by
  cases sequential_effect h with
  | hookedAdvanced o t c b ht =>
    have hk : (s.hookedAdvanced o t c b).Keeps t ⟨.object o, c, b⟩ {} :=
      ⟨Stores.hookedAdvanced_table_self s o t c b, fun r hr => by cases hr⟩
    have hk := hk.run hl hrun
    unfold Stores.enter
    rw [hk.table]

/-! ## What is accepted -/

/-- **A replacement a call can enter on the owner**: it is there, has a receiver if it needs one, lets `Hooker` call
it, and has one parameter, which takes a `MethodCallback`. -/
def Invocable (m : Option Method) (o : Option Object) : Prop :=
  ∃ r, m = some r ∧ (r.decl.isStatic = true ∨ ∃ x, o = some x ∧ r.decl.declaringClass.isAssignableFrom x.cls = true) ∧
    (r.accessible = true ∨ r.accessibleFrom hookerClass o = true) ∧
    ∃ p, r.decl.parameterTypes = [p] ∧ p.isAssignableFrom methodCallbackClass = true

theorem invocable_iff (m : Option Method) (o : Option Object) :
    Invocable m o ↔ ∃ r, m = some r ∧ r.checkInvoke hookerClass o [methodCallbackClass] = .ok () := by
  have hone : ∀ ps : List Class, (ps.length = [methodCallbackClass].length ∧
      (ps.zip [methodCallbackClass]).all (fun p => p.1.isAssignableFrom p.2) = true) ↔
        ∃ p, ps = [p] ∧ p.isAssignableFrom methodCallbackClass = true := by
    intro ps
    rcases ps with _ | ⟨p, _ | ⟨q, ps⟩⟩ <;> simp
  have hobj : ∀ c : Class, o.any (fun x => c.isAssignableFrom x.cls) = true ↔
      ∃ x, o = some x ∧ c.isAssignableFrom x.cls = true := by
    intro c; cases o <;> simp
  unfold Invocable
  simp only [Method.checkInvoke_ok_iff, hone, hobj]

theorem sampleReplacement_invocable : Invocable (some sampleReplacement) none :=
  (invocable_iff _ _).2 ⟨sampleReplacement, rfl, sampleReplacement_accepted⟩

/-- **A call of a target hooked by `hookMethod` ends as one of a target hooked by `hookMethodAdvanced` with the same
body exactly when the body returns.** -/
theorem outcomes_agree_iff_returns {env : Env} {s s₁ s₂ q q₁ q₂ : Stores} {o p : Option Object} {t : Member}
    {m c b : Method} {l k : List Event} {bodies : Bodies} {f : Method → Args → Completion (Option Object)}
    {args : Args} (hs : (sequential env).step s (.hookMethod o t (some m) (some b), .hookMethod true) = some s₁)
    (hl : unhooks t ∉ l) (hsl : (sequential env).run s₁ l = some s₂)
    (hq : (sequential env).step q (.hookMethodAdvanced p t (some c) (some b), .hookMethodAdvanced (some b)) = some q₁)
    (hk : unhooks t ∉ k) (hqk : (sequential env).run q₁ k = some q₂)
    (hm : Invocable (some m) o) (hsimple : ∀ args, bodies.simple m o ⟨some b, args⟩ = f b args)
    (hadvanced : ∀ args, bodies.advanced c p args = f b args) :
    (s₂.enter t args).complete bodies = (q₂.enter t args).complete bodies ↔ ∃ v, f b args = .ok v := by
  obtain ⟨r, hr, haccepted⟩ := (invocable_iff _ _).1 hm
  cases hr
  have henter : Hooker.callback ⟨o, some b, some t, some m⟩ args = .reflective m o ⟨some b, args⟩ := by
    simp only [Hooker.callback, Method.enter, haccepted]
  rw [enter_after_hookMethod hs hl hsl, enter_after_hookMethodAdvanced hq hk hqk, henter]
  rw [Entry.complete_reflective, Entry.complete_direct, hsimple, hadvanced]
  exact Method.complete_eq_iff (f b args)

def Bodies.all (c : Completion (Option Object)) : Bodies := ⟨fun _ _ => c, fun _ _ _ => c, fun _ _ _ => c⟩

theorem returning_sample_agrees :
    let t := sampleMethod []
    let b := sampleBackup
    ((Stores.init.hooked none t (some sampleReplacement) b).enter t []).complete (Bodies.all (.ok none))
      = ((Stores.init.hookedAdvanced none t sampleReplacement b).enter t []).complete (Bodies.all (.ok none)) := by
  intro t b
  exact (outcomes_agree_iff_returns (l := []) (k := []) (f := fun _ _ => .ok none)
    (hooked_step rfl none (some sampleReplacement) b) (by simp) rfl
    (hookedAdvanced_step rfl none sampleReplacement b) (by simp) rfl
    sampleReplacement_invocable (fun _ => rfl) (fun _ => rfl)).2 ⟨none, rfl⟩

/-- A body that throws: the caller of a target hooked by `hookMethod` sees the throwable wrapped. -/
theorem throwing_sample_differs :
    let t := sampleMethod []
    let b := sampleBackup
    let bodies := Bodies.all (.error (.other 0))
    (∃ s, (sequential liveEnv).step Stores.init
      (.hookMethod none t (some sampleReplacement) (some b), .hookMethod true)
        = some s ∧ (s.enter t []).complete bodies = .error (.invocationTarget (.other 0))) ∧
      ∃ s, (sequential liveEnv).step Stores.init
          (.hookMethodAdvanced none t (some sampleReplacement) (some b), .hookMethodAdvanced (some b)) = some s ∧
        (s.enter t []).complete bodies = .error (.other 0) := by
  intro t b bodies
  refine ⟨⟨_, hooked_step rfl none (some sampleReplacement) b, ?_⟩,
    ⟨_, hookedAdvanced_step rfl none sampleReplacement b, ?_⟩⟩
  · rw [enter_after_hookMethod (l := []) (hooked_step rfl none (some sampleReplacement) b) (by simp) rfl]
    simp only [Hooker.callback, Method.enter, sampleReplacement_accepted]
    rfl
  · rw [enter_after_hookMethodAdvanced (l := []) (hookedAdvanced_step rfl none sampleReplacement b) (by simp) rfl]
    rfl

end JLSPlant
