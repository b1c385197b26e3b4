import Mathlib.Data.Set.Function
import JLSPlant.Interleaving
import JLSPlant.RegistryFrame
/-!
# RegistryMirror — the registry and the native table under threads that do not share a target

A thread owns the member its operation is on (`operating`).  A member nobody owns has an entry in the registry exactly
when it is hooked through a Hooker object, and the entry is that object (`Stores.Mirror`); while a thread owns it, the
registry is at most behind (`Pc.Agrees`).
-/
namespace JLSPlant

open Function (update)
open Utils (getMemberName)

namespace Stores

/-- The native layer calls the Hooker object `r` when `t` is called. -/
def HookedBy (s : Stores) (t : Member) (r : Ref) : Prop := ∃ i, s.table t = some i ∧ i.receiver = .hooker r

/-- **The registry holds under `t`'s key the object `t` is hooked through**, and nothing if there is none. -/
def Mirror (s : Stores) (t : Member) : Prop := ∀ r, s.hookers (getMemberName t) = some r ↔ s.HookedBy t r

def SameAt (s s' : Stores) (t : Member) : Prop :=
  s'.table t = s.table t ∧ s'.hookers (getMemberName t) = s.hookers (getMemberName t)

theorem SameAt.hookedBy {s s' : Stores} {t : Member} (h : s.SameAt s' t) (r : Ref) :
    s'.HookedBy t r ↔ s.HookedBy t r := by
  unfold HookedBy; rw [h.1]

theorem SameAt.mirror {s s' : Stores} {t : Member} (h : s.SameAt s' t) : s'.Mirror t ↔ s.Mirror t := by
  unfold Mirror
  rw [h.2]
  exact forall_congr' fun r => by rw [h.hookedBy]

theorem mirror_of_none {s : Stores} {t : Member} (hk : s.hookers (getMemberName t) = none)
    (ht : ∀ i r, s.table t = some i → i.receiver ≠ .hooker r) : s.Mirror t := by
  intro r
  rw [hk]
  refine ⟨fun h => (by cases h), ?_⟩
  rintro ⟨i, hi, hr⟩
  exact absurd hr (ht i r hi)

theorem Mirror.none {s : Stores} {t : Member} (h : s.Mirror t) (ht : s.table t = none) :
    s.hookers (getMemberName t) = none := by
  cases hk : s.hookers (getMemberName t) with
  | none => rfl
  | some r =>
    obtain ⟨i, hi, -⟩ := (h r).1 hk
    rw [ht] at hi; cases hi

end Stores

namespace Pc

def target : Pc → Option Member
  | idle _               => none
  | hook _ _ t _ _       => some t
  | assign _ b           => some b.target
  | put _ t              => some t
  | hookAdvanced _ t _ _ => some t
  | containsKey t _      => some t
  | get t _              => some t
  | remove t _           => some t
  | unhook t _           => some t

/-- What holds of the two tables at the thread's own target. -/
def Agrees (s : Stores) : Pc → Prop
  | idle _               => True
  | hook _ _ t _ _       => s.Mirror t
  | assign _ b           => s.hookers (getMemberName b.target) = none ∧ s.HookedBy b.target b.hooker
  | put r t              => s.hookers (getMemberName t) = none ∧ s.HookedBy t r
  | hookAdvanced _ t _ _ => s.Mirror t
  | containsKey t a      => a = true ∧ s.Mirror t
  | get t a              => a = true ∧ s.Mirror t
  | remove t a           => a = true ∧ s.Mirror t
  | unhook t a           => a = true ∧ s.hookers (getMemberName t) = none

theorem Agrees.of_sameAt {s s' : Stores} {k : Pc} (h : k.Agrees s) (hs : ∀ t, k.target = some t → s.SameAt s' t) :
    k.Agrees s' := by
  cases k with
  | idle => trivial
  | hook _ _ t => exact (hs t rfl).mirror.2 h
  | hookAdvanced _ t => exact (hs t rfl).mirror.2 h
  | assign f b => exact ⟨(hs _ rfl).2.trans h.1, ((hs _ rfl).hookedBy _).2 h.2⟩
  | put r t => exact ⟨(hs t rfl).2.trans h.1, ((hs t rfl).hookedBy r).2 h.2⟩
  | containsKey t a => exact ⟨h.1, (hs t rfl).mirror.2 h.2⟩
  | get t a => exact ⟨h.1, (hs t rfl).mirror.2 h.2⟩
  | remove t a => exact ⟨h.1, (hs t rfl).mirror.2 h.2⟩
  | unhook t a => exact ⟨h.1, (hs t rfl).2.trans h.2⟩

theorem Agrees.hookedBy {s : Stores} {k : Pc} (h : k.Agrees s) {t : Member} (ht : k.target = some t) {r : Ref}
    (hr : s.hookers (getMemberName t) = some r) : s.HookedBy t r := by
  cases k with
  | idle => cases ht
  | hook => cases ht; exact (h r).1 hr
  | hookAdvanced => cases ht; exact (h r).1 hr
  | assign => cases ht; rw [h.1] at hr; cases hr
  | put => cases ht; rw [h.1] at hr; cases hr
  | containsKey => cases ht; exact (h.2 r).1 hr
  | get => cases ht; exact (h.2 r).1 hr
  | remove => cases ht; exact (h.2 r).1 hr
  | unhook => cases ht; rw [h.2] at hr; cases hr

end Pc

/-- **Who operates on a member owns it.** -/
def operating (M : Set Member) : Threads.Ownership Shared Pc Member where
  own := Pc.target
  held := fun s k => (∀ t, k.target = some t → t ∈ M) ∧ k.Agrees s.toStores
  free := fun s t => t ∈ M → s.Mirror t

def Op.target : Op → Option Member
  | .hookMethod _ t _ _         => some t
  | .hookMethodAdvanced _ t _ _ => some t
  | .unhookMethod t _           => some t
  | .call _ _                   => none

section
variable {τ : Type} [DecidableEq τ] {M : Set Member} {w : World τ}

/-- **An operation starts only on a member of `M` that no operation in flight is on**, and the native layer unhooks
what is hooked. -/
def Exclusive (M : Set Member) (w : World τ) : Act τ → Prop
  | .start _ op => (∀ t, op.target = some t → t ∈ M ∧ ∀ θ, (w.pc θ).target ≠ some t) ∧
      ∀ t a, op = .unhookMethod t a → a = true
  | .step _ => True

theorem operating_start (h : (operating M).Inv w) (θ : τ) {op : Op} {k : Pc} {s : Stores}
    (hop : Exclusive M w (.start θ op)) (hθ : (w.pc θ).target = none)
    (hs : Pc.StartEffect w.shared.toStores op k s) : (operating M).Inv (w.move θ k ⟨s, w.shared.record op⟩) := by
  -- Starting an operation touches neither table.
  have hsame : ∀ u, w.shared.SameAt s u := fun u => by
    cases hs <;> exact ⟨rfl, rfl⟩
  have htarget : ∀ t, k.target = some t → op.target = some t := fun t ht => by
    cases hs with
    | done | allocated => cases ht
    | hook | hookAdvanced | containsKey => exact ht
  have hmirror : ∀ t, op.target = some t → w.shared.Mirror t := fun t ht =>
    h.free t (hop.1 t ht).2 (hop.1 t ht).1
  have hagrees : k.Agrees w.shared.toStores := by
    cases hs with
    | done | allocated => trivial
    | hook o t | hookAdvanced o t => exact hmirror t rfl
    | containsKey t a => exact ⟨hop.2 t a rfl, hmirror t rfl⟩
  refine h.move θ (fun t ht => Or.inr (hop.1 t (htarget t ht)).2)
    ⟨fun t ht => (hop.1 t (htarget t ht)).1, hagrees.of_sameAt fun t _ => hsame t⟩
    (fun k' _ hk' => ⟨hk'.1, hk'.2.of_sameAt fun t _ => hsame t⟩) (fun t _ hold ht => ?_)
  rcases hold with hold | hold
  · rw [show (operating M).own (w.pc θ) = none from hθ] at hold; cases hold
  · exact (hsame t).mirror.2 (hold ht)

theorem operating_move (hM : Set.InjOn getMemberName M) (h : (operating M).Inv w) (θ : τ) {k : Pc} {s : Stores}
    {t : Member} (hθ : (w.pc θ).target = some t) (hk : ∀ u, k.target = some u → u = t) (hheld : k.Agrees s)
    (hframe : ∀ u, u ≠ t → getMemberName u ≠ getMemberName t → w.shared.SameAt s u)
    (hfree : k.target = none → s.Mirror t) : (operating M).Inv (w.move θ k ⟨s, w.shared.passed⟩) := by
  have htM : t ∈ M := (h.held θ).1 t hθ
  have hother : ∀ u ∈ M, u ≠ t → w.shared.SameAt s u := fun u hu hut =>
    hframe u hut (fun e => hut (hM hu htM e))
  refine h.move θ (fun u hu => Or.inl ?_) ⟨fun u hu => ?_, hheld⟩ (fun k' hne hk' => ⟨hk'.1, ?_⟩)
    (fun u hu hold huM => ?_)
  · rw [hk u hu]; exact hθ
  · rw [hk u hu]; exact htM
  · exact hk'.2.of_sameAt fun u hu => hother u (hk'.1 u hu) (fun e => (hne u hu).1 (by rw [e]; exact hθ))
  · by_cases hut : u = t
    · subst hut
      refine hfree ?_
      cases hkt : k.target with
      | none => rfl
      | some v => rw [hk v hkt] at hkt; exact absurd hkt hu
    · rcases hold with hold | hold
      · exact absurd (Option.some.inj (hold.symm.trans hθ)) hut
      · exact (hother u huM hut).mirror.2 (hold huM)

theorem operating_step (hM : Set.InjOn getMemberName M) (h : (operating M).Inv w) (θ : τ) {k : Pc} {s : Stores}
    (hs : Pc.StepEffect w.shared.toStores (w.pc θ) k s) : (operating M).Inv (w.move θ k ⟨s, w.shared.passed⟩) := by
  have hheld : (w.pc θ).Agrees w.shared.toStores := (h.held θ).2
  obtain ⟨k₀, hpc⟩ : ∃ k₀, w.pc θ = k₀ := ⟨_, rfl⟩
  have hθ : (w.pc θ).target = k₀.target := congrArg Pc.target hpc
  rw [hpc] at hs hheld
  have hstays : ∀ {t u : Member}, some t = some u → u = t := fun e => (Option.some.inj e).symm
  cases hs with
  | notHooked r o t m a | notHookedAdvanced o t m a =>
    exact operating_move hM h θ hθ (fun u hu => by cases hu) trivial (fun _ _ _ => ⟨rfl, rfl⟩) (fun _ => hheld)
  | hooked r o t m b ht =>
    exact operating_move hM h θ hθ (fun u hu => hstays hu) ⟨hheld.none ht, _, Function.update_self _ _ _, rfl⟩
      (fun u hu _ => ⟨Function.update_of_ne hu _ _, rfl⟩) (fun hk => by cases hk)
  | assigned f b =>
    have hafter : (f.after b).target = some b.target ∧ (f.after b).Agrees (w.shared.assign b.hooker (f.set b)) := by
      cases f <;> exact ⟨rfl, hheld⟩
    exact operating_move hM h θ hθ (fun u hu => hstays (hafter.1.symm.trans hu)) hafter.2 (fun _ _ _ => ⟨rfl, rfl⟩)
      (fun hk => by rw [hafter.1] at hk; cases hk)
  | registered r t =>
    -- The entry the registry lacked since the native call.
    refine operating_move hM h θ hθ (fun u hu => by cases hu) trivial
      (fun u _ hu => ⟨rfl, Stores.put_hookers_of_ne hu r⟩) (fun _ r' => ?_)
    obtain ⟨i, hi, hr⟩ := hheld.2
    rw [Stores.put_hookers_self]
    constructor
    · intro e
      cases e
      exact ⟨i, hi, hr⟩
    · rintro ⟨j, hj, hr'⟩
      have hij : i = j := Option.some.inj (hi.symm.trans hj)
      rw [← hij, hr] at hr'
      cases hr'; rfl
  | hookedAdvanced o t c b ht =>
    refine operating_move hM h θ hθ (fun u hu => by cases hu) trivial
      (fun u hu _ => ⟨Stores.hookedAdvanced_table_of_ne hu o c b, rfl⟩)
      (fun _ => Stores.mirror_of_none (hheld.none ht) (fun i r hi hr => ?_))
    rw [Stores.hookedAdvanced_table_self] at hi
    cases hi
    cases hr
  | contained t a | got t a =>
    exact operating_move hM h θ hθ (fun u hu => hstays hu) hheld (fun _ _ _ => ⟨rfl, rfl⟩) (fun hk => by cases hk)
  | notContained t a hnone | gotNull t a hnone =>
    exact operating_move hM h θ hθ (fun u hu => hstays hu) ⟨hheld.1, hnone⟩ (fun _ _ _ => ⟨rfl, rfl⟩)
      (fun hk => by cases hk)
  | removed t a =>
    exact operating_move hM h θ hθ (fun u hu => hstays hu) ⟨hheld.1, Stores.remove_hookers_self _ _⟩
      (fun u _ hu => ⟨rfl, Stores.remove_hookers_of_ne hu⟩) (fun hk => by cases hk)
  | notUnhooked t a ha =>
    -- The native layer refuses only what is not hooked.
    obtain ⟨rfl, hnone⟩ := hheld
    have ht : w.shared.table t = none := by simpa using ha
    exact operating_move hM h θ hθ (fun u hu => by cases hu) trivial (fun _ _ _ => ⟨rfl, rfl⟩)
      (fun _ => Stores.mirror_of_none hnone (fun i r hi _ => by rw [ht] at hi; cases hi))
  | unhooked t ht =>
    refine operating_move hM h θ hθ (fun u hu => by cases hu) trivial
      (fun u hu _ => ⟨Function.update_of_ne hu _ _, rfl⟩)
      (fun _ => Stores.mirror_of_none hheld.2 (fun i r hi _ => ?_))
    cases (Function.update_self t _ w.shared.table).symm.trans hi

theorem operating_act {env : Env} {w' : World τ} {a : Act τ} (hM : Set.InjOn getMemberName M)
    (h : (operating M).Inv w) (ha : Exclusive M w a) (hs : (threads τ env).step w a = some w') :
    (operating M).Inv w' := by
  rcases threads_step hs with ⟨θ, op, out, k, s, rfl, hpc, hstart, rfl⟩ | ⟨θ, k, s, rfl, hstep, rfl⟩
  · exact operating_start h θ ha (by rw [hpc]; rfl) hstart
  · exact operating_step hM h θ hstep

omit [DecidableEq τ] in
theorem operating_init (M : Set Member) : (operating M).Inv (World.init τ) :=
  ⟨fun _ _ _ h => (by cases h), fun _ => ⟨fun _ h => (by cases h), trivial⟩,
    fun _ _ _ => Stores.mirror_of_none rfl (fun _ _ h => by cases h)⟩

/-- **The registry mirrors the native table**, for threads that operate on different members, with different keys:
an entry is always the object the native layer calls, and with no operation in flight there is one exactly for each
member hooked by `hookMethod`. -/
theorem registry_mirrors_table (env : Env) (M : Set Member) (hM : Set.InjOn getMemberName M) (l : List (Act τ))
    (w' : World τ) (hrun : (threads τ env).run (World.init τ) l = some w')
    (hl : (threads τ env).Along (Exclusive M) (World.init τ) l) :
    (∀ t ∈ M, ∀ r, w'.shared.hookers (getMemberName t) = some r → w'.shared.HookedBy t r) ∧
    ((∀ θ, ∃ out, w'.pc θ = .idle out) →
      ∀ t ∈ M, (∃ r, w'.shared.hookers (getMemberName t) = some r) ↔ ∃ r, w'.shared.HookedBy t r) := by
  have h : (operating M).Inv w' := (threads τ env).run_inv_along
    (fun _ _ _ h ha hs => operating_act hM h ha hs) l _ _ (operating_init M) hl hrun
  refine ⟨fun t ht r hr => ?_, fun hidle t ht => ?_⟩
  · by_cases hown : ∃ θ, (w'.pc θ).target = some t
    · obtain ⟨θ, hθ⟩ := hown
      exact (h.held θ).2.hookedBy hθ hr
    · exact (h.free t (fun θ hθ => hown ⟨θ, hθ⟩) ht r).1 hr
  · have hmirror : w'.shared.Mirror t := h.free t (fun θ hθ => by
      obtain ⟨out, hpc⟩ := hidle θ
      rw [hpc] at hθ; cases hθ) ht
    exact exists_congr hmirror

end

def startsTwoHooks : List (Act Bool) :=
  [.start true (.hookMethod none (sampleMethod []) (some sampleReplacement) (some sampleBackup)),
    .start false (.hookMethod none (sampleMethod [intClass]) (some sampleReplacement) (some sampleBackup))]

def endsTwoHooks : List (Act Bool) := (List.replicate 6 [true, false]).flatten.map .step

theorem two_hooks_mirrored : ∃ w,
    (threads Bool liveEnv).run (World.init Bool) (startsTwoHooks ++ endsTwoHooks) = some w ∧
    ∀ t ∈ ({sampleMethod [], sampleMethod [intClass]} : Set Member),
      (∃ r, w.shared.hookers (getMemberName t) = some r) ↔ ∃ r, w.shared.HookedBy t r := by
  have hsome : ((threads Bool liveEnv).run (World.init Bool) (startsTwoHooks ++ endsTwoHooks)).isSome = true := rfl
  refine ⟨_, (Option.some_get hsome).symm, ?_⟩
  refine (registry_mirrors_table liveEnv _ ?_ _ _ (Option.some_get hsome).symm ?_).2 ?_
  · exact Set.injOn_pair.2 fun h => absurd h (by decide)
  · refine (threads Bool liveEnv).along_append ?_ fun w _ =>
      (threads Bool liveEnv).along_of_forall (fun a ha w => ?_) _
    · refine ⟨⟨fun t ht => ?_, fun t a h => by cases h⟩, fun w hw => ⟨⟨fun t ht => ?_, fun t a h => by cases h⟩,
        fun _ _ => trivial⟩⟩
      · cases ht
        exact ⟨Or.inl rfl, fun θ hθ => by cases hθ⟩
      · cases ht
        cases hw
        exact ⟨Or.inr rfl, fun θ => by cases θ <;> decide⟩
    · obtain ⟨θ, -, rfl⟩ := List.mem_map.1 ha
      trivial
  · intro θ
    cases θ <;> exact ⟨_, rfl⟩

end JLSPlant
