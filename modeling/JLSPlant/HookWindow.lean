import JLSPlant.Interleaving
import JLSPlant.RegistryFrame
/-!
# HookWindow — calls of a target whose Hooker object is still being filled

The native call installs the Hooker object before its four fields are assigned.  A thread owns the object it fills
(`building`); an object nobody owns is complete wherever it is installed.  So a call finds its Hooker complete exactly
when no thread still fills it (`calls_sound_iff_outside_window`).
-/
namespace JLSPlant

open Function (update)
open Utils (getMemberName)

namespace Shared

/-- The object holds what `hookMethod` was passed, its replacement not null, and the backup `b`. -/
def Complete (s : Shared) (r : Ref) (b : Method) : Prop :=
  (s.heap r).owner = (s.passed r).1 ∧ (s.heap r).backup = some b ∧ (s.heap r).replacement = (s.passed r).2 ∧
    (s.passed r).2 ≠ none

def Settled (s : Shared) (r : Ref) : Prop :=
  ∀ u i, s.table u = some i → i.receiver = .hooker r → r < s.next ∧ s.Complete r i.backup

/-- `s'` is `s` but for the object `x`, with no other Hooker object newly installed. -/
structure KeepsBut (x : Option Ref) (s s' : Shared) : Prop where
  next : s.next ≤ s'.next
  heap : ∀ r, x ≠ some r → r < s.next → s'.heap r = s.heap r
  passed : ∀ r, x ≠ some r → r < s.next → s'.passed r = s.passed r
  table : ∀ u i r, x ≠ some r → s'.table u = some i → i.receiver = .hooker r → s.table u = some i

theorem KeepsBut.settled {x : Option Ref} {s s' : Shared} (h : s.KeepsBut x s') {r : Ref} (hx : x ≠ some r)
    (hs : s.Settled r) : s'.Settled r := by
  intro u i hu hi
  obtain ⟨hr, hc⟩ := hs u i (h.table u i r hx hu hi) hi
  refine ⟨Nat.lt_of_lt_of_le hr h.next, ?_⟩
  unfold Complete
  rw [h.heap r hx hr, h.passed r hx hr]
  exact hc

end Shared

namespace Pc

def ref : Pc → Option Ref
  | hook r _ _ _ _ => some r
  | assign _ b     => some b.hooker
  | _              => none

/-- Where a thread stands in `Hooker.hook`, its object has the fields assigned so far, and is installed with the
backup the native call returned, or not yet. -/
def Held (s : Shared) : Pc → Prop
  | hook r o _ m _ => r < s.next ∧ s.passed r = (o, m) ∧ m ≠ none ∧ s.heap r = {} ∧
      ∀ u i, s.table u = some i → i.receiver ≠ .hooker r
  | assign f b => b.hooker < s.next ∧ s.passed b.hooker = (b.owner, b.replacement) ∧ b.replacement ≠ none ∧
      s.heap b.hooker = f.before b ∧
      ∀ u i, s.table u = some i → i.receiver = .hooker b.hooker → i.backup = b.result
  | _ => True

theorem Held.lt {s : Shared} {k : Pc} {r : Ref} (h : k.Held s) (hr : k.ref = some r) : r < s.next := by
  cases k with
  | hook => cases hr; exact h.1
  | assign => cases hr; exact h.1
  | _ => cases hr

theorem held_of_ref {s : Shared} {k : Pc} (h : k.ref = none) : k.Held s := by
  cases k with
  | hook => cases h
  | assign => cases h
  | _ => trivial

theorem Held.keeps {x : Option Ref} {s s' : Shared} (hs : s.KeepsBut x s') {k : Pc}
    (hx : ∀ r, k.ref = some r → x ≠ some r) (h : k.Held s) : k.Held s' := by
  cases k with
  | hook r o t m a =>
    obtain ⟨hr, hp, hm, hh, ht⟩ := h
    have hx := hx r rfl
    exact ⟨Nat.lt_of_lt_of_le hr hs.next, (hs.passed r hx hr).trans hp, hm, (hs.heap r hx hr).trans hh,
      fun u i hu hi => ht u i (hs.table u i r hx hu hi) hi⟩
  | assign f b =>
    obtain ⟨hr, hp, hm, hh, ht⟩ := h
    have hx := hx b.hooker rfl
    exact ⟨Nat.lt_of_lt_of_le hr hs.next, (hs.passed _ hx hr).trans hp, hm, (hs.heap _ hx hr).trans hh,
      fun u i hu hi => ht u i (hs.table u i _ hx hu hi) hi⟩
  | _ => trivial

end Pc

/-- **Who fills a Hooker object owns it.** -/
def building : Threads.Ownership Shared Pc Ref where
  own := Pc.ref
  held := fun s k => k.Held s
  free := Shared.Settled

section
variable {τ : Type} [DecidableEq τ] {w : World τ}

theorem building_move (h : building.Inv w) (θ : τ) (x : Option Ref) {k : Pc} {s : Shared}
    (hkeep : w.shared.KeepsBut x s) (hx : ∀ r, x = some r → (w.pc θ).ref = some r ∨ k.ref = some r)
    (hθ : ∀ r, (w.pc θ).ref = some r → x = some r)
    (hk : ∀ r, k.ref = some r → x = some r ∧ ((w.pc θ).ref = some r ∨ w.shared.next ≤ r))
    (hheld : k.Held s) (hfree : ∀ r, x = some r → k.ref ≠ some r → s.Settled r) : building.Inv (w.move θ k s) := by
  refine h.move θ (fun r hr => ?_) hheld (fun k' hne hk' => ?_) (fun r hr hold => ?_)
  · rcases (hk r hr).2 with hsame | hfresh
    · exact Or.inl hsame
    · refine Or.inr fun θ' hθ' => ?_
      have hlt : r < w.shared.next := Pc.Held.lt (h.held θ') hθ'
      exact absurd hlt (Nat.not_lt.2 hfresh)
  · refine Pc.Held.keeps hkeep (fun r hr hxr => ?_) hk'
    rcases hx r hxr with hold | hnew
    · exact (hne r hr).1 hold
    · exact (hne r hr).2 hnew
  · by_cases hxr : x = some r
    · exact hfree r hxr hr
    · rcases hold with hold | hold
      · exact absurd (hθ r hold) hxr
      · exact hkeep.settled hxr hold

theorem building_other (h : building.Inv w) (θ : τ) {k : Pc} {s : Shared} (hkeep : w.shared.KeepsBut none s)
    (hθ : (w.pc θ).ref = none) (hk : k.ref = none) : building.Inv (w.move θ k s) := by
  refine building_move h θ none hkeep (fun r hr => by cases hr) (fun r hr => ?_) (fun r hr => ?_) ?_
    (fun r hr => by cases hr)
  · rw [hθ] at hr; cases hr
  · rw [hk] at hr; cases hr
  · exact Pc.held_of_ref hk

/-- A step that goes on filling the object. -/
theorem building_hold (h : building.Inv w) (θ : τ) {r : Ref} {k : Pc} {s : Shared}
    (hkeep : w.shared.KeepsBut (some r) s) (hθ : (w.pc θ).ref = some r) (hk : k.ref = some r) (hheld : k.Held s) :
    building.Inv (w.move θ k s) := by
  refine building_move h θ (some r) hkeep (fun x hx => Or.inl (hθ.trans hx)) (fun x hx => ?_) (fun x hx => ?_) hheld
    (fun x hx hne => absurd (hk.trans hx) hne)
  · exact hθ.symm.trans hx
  · have hrx : some r = some x := hk.symm.trans hx
    exact ⟨hrx, Or.inl (hθ.trans hrx)⟩

/-- A step that lets the object go. -/
theorem building_release (h : building.Inv w) (θ : τ) {r : Ref} {k : Pc} {s : Shared}
    (hkeep : w.shared.KeepsBut (some r) s) (hθ : (w.pc θ).ref = some r) (hk : k.ref = none) (hr : s.Settled r) :
    building.Inv (w.move θ k s) := by
  refine building_move h θ (some r) hkeep (fun x hx => Or.inl (hθ.trans hx)) (fun x hx => hθ.symm.trans hx)
    (fun x hx => ?_) (Pc.held_of_ref hk) (fun x hx _ => ?_)
  · rw [hk] at hx; cases hx
  · rw [← Option.some.inj hx]; exact hr

/-! ### One step -/

def HasReplacement : Act τ → Prop
  | .start _ (.hookMethod _ _ m _) => m ≠ none
  | _                              => True

omit [DecidableEq τ] in
theorem next_unowned (h : building.Inv w) (θ : τ) : (w.pc θ).ref ≠ some w.shared.next := fun hr =>
  Nat.lt_irrefl _ (Pc.Held.lt (h.held θ) hr)

omit [DecidableEq τ] in
theorem next_not_installed (h : building.Inv w) :
    ∀ u i, w.shared.table u = some i → i.receiver ≠ .hooker w.shared.next :=
  fun u i hu hi => Nat.lt_irrefl _ (h.free w.shared.next (next_unowned h) u i hu hi).1

theorem Shared.KeepsBut.recordOnly (s : Shared) (op : Op) : s.KeepsBut none ⟨s.toStores, s.record op⟩ := by
  refine ⟨Nat.le_refl _, fun _ _ _ => rfl, fun r _ hr => ?_, fun _ _ _ _ hu _ => hu⟩
  cases op with
  | hookMethod o t m a => exact Function.update_of_ne (Nat.ne_of_lt hr) _ _
  | _ => rfl

theorem Shared.KeepsBut.alloc (s : Shared) (x : Option Ref) (op : Op) :
    s.KeepsBut x ⟨s.toStores.alloc, s.record op⟩ := by
  refine ⟨Nat.le_succ _, fun r _ hr => Stores.alloc_heap_of_lt hr, fun r _ hr => ?_,
    fun _ _ _ _ hu _ => hu⟩
  cases op with
  | hookMethod o t m a => exact Function.update_of_ne (Nat.ne_of_lt hr) _ _
  | _ => rfl

theorem Shared.KeepsBut.sameHeap {s : Shared} {s' : Stores} {x : Option Ref} (hh : s'.heap = s.heap)
    (hn : s'.next = s.next)
    (h : ∀ u i r, x ≠ some r → s'.table u = some i → i.receiver = .hooker r → s.table u = some i) :
    s.KeepsBut x ⟨s', s.passed⟩ :=
  ⟨Nat.le_of_eq hn.symm, fun r _ _ => congrFun hh r, fun _ _ _ => rfl, h⟩

theorem building_start (h : building.Inv w) (θ : τ) {op : Op} {k : Pc} {s : Stores}
    (hop : HasReplacement (Threads.Act.start θ op)) (hθ : (w.pc θ).ref = none)
    (hs : Pc.StartEffect w.shared.toStores op k s) : building.Inv (w.move θ k ⟨s, w.shared.record op⟩) := by
  cases hs with
  | allocated => exact building_other h θ (.alloc _ _ _) hθ rfl
  | hook o t m a =>
    -- The new object is nobody's, and installed nowhere.
    refine building_move h θ (some w.shared.next) (.alloc _ _ _) (fun r hr => Or.inr hr) (fun r hr => ?_)
      (fun r hr => ⟨hr, Or.inr (Nat.le_of_eq (Option.some.inj hr))⟩) ?_ (fun r hr hne => absurd hr hne)
    · rw [hθ] at hr; cases hr
    · exact ⟨Nat.lt_succ_self _, Function.update_self _ _ _, hop, Stores.alloc_heap_self _, next_not_installed h⟩
  | _ => exact building_other h θ (.recordOnly _ _) hθ rfl

theorem building_assign (h : building.Inv w) (θ : τ) (f : Field) (b : Building) (hpc : w.pc θ = .assign f b) :
    building.Inv (w.move θ (f.after b) ⟨w.shared.assign b.hooker (f.set b), w.shared.passed⟩) := by
  have hheld : (Pc.assign f b).Held w.shared := by rw [← hpc]; exact h.held θ
  obtain ⟨hr, hp, hm, hh, ht⟩ := hheld
  have hθ : (w.pc θ).ref = some b.hooker := by rw [hpc]; rfl
  have hkeep : w.shared.KeepsBut (some b.hooker) ⟨w.shared.assign b.hooker (f.set b), w.shared.passed⟩ :=
    ⟨Nat.le_refl _, fun x hx _ => Stores.assign_heap_of_ne (fun e => hx (by rw [e])) _, fun _ _ _ => rfl,
      fun _ _ _ _ hu _ => hu⟩
  have hset : (w.shared.assign b.hooker (f.set b)).heap b.hooker = f.set b (f.before b) := by
    rw [Stores.assign_heap_self, hh]
  have hnext : ∀ g, f.after b = .assign g b →
      building.Inv (w.move θ (.assign g b) ⟨w.shared.assign b.hooker (f.set b), w.shared.passed⟩) := fun g hg => by
    refine building_hold h θ hkeep hθ rfl ⟨hr, hp, hm, ?_, ht⟩
    rw [hset, Field.set_before, hg]
  cases f with
  | owner => exact hnext .backup rfl
  | backup => exact hnext .target rfl
  | target => exact hnext .replacement rfl
  | replacement =>
    -- The last assignment completes the object, and the thread lets it go.
    refine building_release h θ hkeep hθ rfl fun u i hu hi => ⟨hr, ?_⟩
    unfold Shared.Complete
    rw [hset, hp, ht u i hu hi]
    exact ⟨rfl, rfl, rfl, hm⟩

theorem building_step (h : building.Inv w) (θ : τ) {k : Pc} {s : Stores}
    (hs : Pc.StepEffect w.shared.toStores (w.pc θ) k s) : building.Inv (w.move θ k ⟨s, w.shared.passed⟩) := by
  have hheld : (w.pc θ).Held w.shared := h.held θ
  obtain ⟨k₀, hpc⟩ : ∃ k₀, w.pc θ = k₀ := ⟨_, rfl⟩
  have hθ : (w.pc θ).ref = k₀.ref := congrArg Pc.ref hpc
  rw [hpc] at hs hheld
  cases hs with
  | notHooked r o t m a =>
    -- The object was installed nowhere and is let go.
    obtain ⟨-, -, -, -, hnew⟩ := hheld
    exact building_release h θ (.sameHeap rfl rfl (fun _ _ _ _ hu _ => hu)) hθ rfl
      (fun u i hu hi => absurd hi (hnew u i hu))
  | hooked r o t m b ht =>
    -- From here on a call can enter the object, with none of its fields assigned.
    obtain ⟨hr, hp, hm, hh, hnew⟩ := hheld
    refine building_hold h θ (.sameHeap rfl rfl (fun u i x hx hu hi => ?_)) hθ rfl
      ⟨hr, hp, hm, hh, fun u i hu hi => ?_⟩
    · rcases Writes.update_eq_some hu with ⟨-, hu⟩ | ⟨-, hu⟩
      · cases hu
        cases hi
        exact absurd rfl hx
      · exact hu
    · rcases Writes.update_eq_some hu with ⟨-, hu⟩ | ⟨-, hu⟩
      · cases hu; rfl
      · exact absurd hi (hnew u i hu)
  | assigned f b => exact building_assign h θ f b hpc
  | hookedAdvanced o t c b =>
    refine building_other h θ (.sameHeap rfl rfl (fun u i r _ hu hi => ?_)) hθ rfl
    rcases Writes.update_eq_some hu with ⟨-, hu⟩ | ⟨-, hu⟩
    · cases hu
      cases hi
    · exact hu
  | unhooked t =>
    refine building_other h θ (.sameHeap rfl rfl (fun u i r _ hu _ => ?_)) hθ rfl
    rcases Writes.update_eq_some hu with ⟨-, hu⟩ | ⟨-, hu⟩
    · cases hu
    · exact hu
  | _ => exact building_other h θ (.sameHeap rfl rfl (fun _ _ _ _ hu _ => hu)) hθ rfl

theorem building_act {env : Env} {w' : World τ} {a : Act τ} (h : building.Inv w) (ha : HasReplacement a)
    (hs : (threads τ env).step w a = some w') : building.Inv w' := by
  rcases threads_step hs with ⟨θ, op, out, k, s, rfl, hpc, hstart, rfl⟩ | ⟨θ, k, s, rfl, hstep, rfl⟩
  · exact building_start h θ ha (by rw [hpc]; rfl) hstart
  · exact building_step h θ hstep

omit [DecidableEq τ] in
theorem building_init : building.Inv (World.init τ) :=
  ⟨fun _ _ _ h => (by cases h), fun _ => trivial, fun _ _ _ _ h => (by cases h)⟩

/-! ## Calls -/

/-- If the label is a call of a target hooked through a Hooker object, `Hooker.callback` finds a replacement there,
the owner `hookMethod` was passed, and the backup the native call returned. -/
def CallSound (w : World τ) : Act τ → Prop
  | .start _ (.call t _) => ∀ i r, w.shared.table t = some i → i.receiver = .hooker r →
      (w.shared.heap r).replacement ≠ none ∧ (w.shared.heap r).owner = (w.shared.passed r).1 ∧
        (w.shared.heap r).backup = some i.backup
  | _ => True

/-- If the label is a call of a target hooked through a Hooker object, no thread still stands before one of the four
assignments to that object. -/
def CallOutsideWindow (w : World τ) : Act τ → Prop
  | .start _ (.call t _) => ∀ i r, w.shared.table t = some i → i.receiver = .hooker r →
      ∀ θ f b, w.pc θ = .assign f b → b.hooker ≠ r
  | _ => True

omit [DecidableEq τ] in
theorem callSound_iff (h : building.Inv w) (a : Act τ) : CallSound w a ↔ CallOutsideWindow w a := by
  unfold CallSound CallOutsideWindow
  split
  · rename_i t args
    refine forall_congr' fun i => forall_congr' fun r => forall_congr' fun ht => forall_congr' fun hi => ?_
    constructor
    · rintro ⟨hsound, -⟩ θ f b hpc rfl
      have hheld : (Pc.assign f b).Held w.shared := by rw [← hpc]; exact h.held θ
      obtain ⟨-, -, -, hh, -⟩ := hheld
      rw [hh] at hsound
      cases f <;> exact hsound rfl
    · intro hout
      have hnone : ∀ θ, (w.pc θ).ref ≠ some r := fun θ hr => by
        have hheld : (w.pc θ).Held w.shared := h.held θ
        cases hpc : w.pc θ with
        | hook r' =>
          rw [hpc] at hr hheld
          cases hr
          exact hheld.2.2.2.2 t i ht hi
        | assign f b =>
          rw [hpc] at hr
          cases hr
          exact hout θ f b hpc rfl
        | _ => rw [hpc] at hr; cases hr
      obtain ⟨-, ho, hb, hm, hne⟩ := h.free r hnone t i ht hi
      exact ⟨by rw [hm]; exact hne, ho, hb⟩
  · exact Iff.rfl

/-- **Every call of a run finds its Hooker as `hookMethod` meant it exactly when every call is made outside the
window.** -/
theorem calls_sound_iff_outside_window (env : Env) (l : List (Act τ)) (w' : World τ)
    (hrun : (threads τ env).run (World.init τ) l = some w') (hl : ∀ a ∈ l, HasReplacement a) :
    (threads τ env).Along CallSound (World.init τ) l ↔ (threads τ env).Along CallOutsideWindow (World.init τ) l :=
  (threads τ env).along_congr building.Inv HasReplacement (fun _ _ _ h ha hs => building_act h ha hs)
    (fun _ a _ h _ => callSound_iff h a) l _ w' building_init hl hrun

end

def startsHook : List (Act Bool) :=
  [.start true (.hookMethod none (sampleMethod []) (some sampleReplacement) (some sampleBackup)), .step true]

def endsHook : List (Act Bool) := List.replicate 5 (.step true)

def callsSample : Act Bool := .start false (.call (sampleMethod []) [])

theorem call_after_hook_sound : (threads Bool liveEnv).Along CallSound (World.init Bool)
    (startsHook ++ endsHook ++ [callsSample]) := by
  have hsome : ((threads Bool liveEnv).run (World.init Bool)
      (startsHook ++ endsHook ++ [callsSample])).isSome = true := rfl
  have hl : ∀ a ∈ startsHook ++ endsHook ++ [callsSample], HasReplacement a := by
    simp [startsHook, endsHook, callsSample, HasReplacement]
  refine (calls_sound_iff_outside_window liveEnv _ _ (Option.some_get hsome).symm hl).2 ?_
  refine (threads Bool liveEnv).along_append ?_ fun w hw => ?_
  · refine (threads Bool liveEnv).along_of_forall (fun a ha w => ?_) _
    simp only [startsHook, endsHook, List.mem_append, List.mem_cons, List.mem_replicate] at ha
    rcases ha with (rfl | rfl | ha) | ⟨-, rfl⟩ <;> trivial
  · cases hw
    refine ⟨fun i r _ _ θ f b hpc => ?_, fun _ _ => trivial⟩
    cases θ <;> cases hpc

/-- A call between the native call and the assignments throws, and `hookMethod` still answers true. -/
theorem call_inside_window_fails :
    (∃ w, (threads Bool liveEnv).run (World.init Bool) (startsHook ++ callsSample :: endsHook) = some w ∧
      w.pc false = .idle (some (.call (.failed .nullPointer))) ∧ w.pc true = .idle (some (.hookMethod true))) ∧
    ¬ (threads Bool liveEnv).Along CallSound (World.init Bool) (startsHook ++ callsSample :: endsHook) := by
  refine ⟨⟨_, rfl, rfl, rfl⟩, fun h => ?_⟩
  have hstart := h.2 _ rfl
  have hcall := (hstart.2 _ rfl).1
  exact (hcall _ 0 rfl rfl).1 rfl

end JLSPlant
