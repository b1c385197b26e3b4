import JLSPlant.Acceptance
import JLSPlant.Commits
import JLSPlant.HookWindow
/-!
# Linearization — concurrent hooking as sequential hooking

`hookMethod`, `hookMethodAdvanced` and `unhookMethod` take effect at their native call, and a call where it looks
the target up; the registry and the fields of the Hooker objects are not seen by anyone.  So every interleaving,
also of operations on one target, comes to what the sequential machine makes of the operations in the order of these
points, but for the calls made while an object is filled (`calls_outside_window_linearizable`), and `isHooked` tells
which operation on the target came last (`isHooked_iff_last`).
-/
namespace JLSPlant

open Function (update)
open Utils (getMemberName)
open Threads (Item Phase Linearized phases)

/-- What an operation that ended has returned. -/
def Pc.returned : Pc → Option Outcome
  | idle out => out
  | _        => none

def Pc.phase : Pc → Phase Op Outcome
  | idle _               => .idle
  | hook _ o t m a       => .invoked (.hookMethod o t m a)
  | assign _ _           => .committed (.hookMethod true)
  | put _ _              => .committed (.hookMethod true)
  | hookAdvanced o t m a => .invoked (.hookMethodAdvanced o t m a)
  | containsKey t a      => .invoked (.unhookMethod t a)
  | get t a              => .invoked (.unhookMethod t a)
  | remove t a           => .invoked (.unhookMethod t a)
  | unhook t a           => .invoked (.unhookMethod t a)

/-- **Whole operations, calls aside**: a call may come to anything. -/
def hooking (env : Env) : Trans.Machine Stores Event where
  step s
    | (.call _ _, _) => some s
    | e              => (sequential env).step s e

theorem hooking_of_sequential (env : Env) : (sequential env).Simulates (hooking env) (fun _ => True) Eq id where
  step := by
    rintro s _ ⟨op, out⟩ s' - rfl hs
    refine ⟨s', ?_, rfl⟩
    cases op with
    | call t args => cases sequential_effect hs; rfl
    | _ => exact hs

/-! ## The sequential stores behind a world -/

/-- **One entry of the table and another stand for the same hook**, the Hooker object of the first taken as
`hookMethod` is to leave it. -/
inductive Shared.Twin (w : Shared) (s : Stores) (t : Member) : Option Installed → Option Installed → Prop
  | nothing : Twin w s t none none
  | hooker (r x : Ref) (b : Method) (hr : r < w.next) (hx : x < s.next)
      (hh : s.heap x = ⟨(w.passed r).1, some b, some t, (w.passed r).2⟩) :
      Twin w s t (some ⟨.hooker r, Hooker.callbackMethod, b⟩) (some ⟨.hooker x, Hooker.callbackMethod, b⟩)
  | object (o : Option Object) (m b : Method) : Twin w s t (some ⟨.object o, m, b⟩) (some ⟨.object o, m, b⟩)

theorem Shared.Twin.isSome {w : Shared} {s : Stores} {t : Member} {i j : Option Installed} (h : w.Twin s t i j) :
    i.isSome = j.isSome := by
  cases h <;> rfl

/-- The objects allocated so far stay, on both sides. -/
structure Shared.Grows (w w' : Shared) (s s' : Stores) : Prop where
  next : w.next ≤ w'.next
  passed : ∀ r, r < w.next → w'.passed r = w.passed r
  next' : s.next ≤ s'.next
  heap : ∀ r, r < s.next → s'.heap r = s.heap r

theorem Shared.Grows.same {w w' : Shared} (s : Stores) (hn : w'.next = w.next) (hp : w'.passed = w.passed) :
    w.Grows w' s s := ⟨Nat.le_of_eq hn.symm, fun r _ => congrFun hp r, Nat.le_refl _, fun _ _ => rfl⟩

theorem Shared.Twin.mono {w w' : Shared} {s s' : Stores} {t : Member} {i j : Option Installed} (h : w.Twin s t i j)
    (hg : w.Grows w' s s') : w'.Twin s' t i j := by
  cases h with
  | nothing => exact .nothing
  | hooker r x b hr hx hh =>
    refine .hooker r x b (Nat.lt_of_lt_of_le hr hg.next) (Nat.lt_of_lt_of_le hx hg.next') ?_
    rw [hg.heap x hx, hg.passed r hr, hh]
  | object o m b => exact .object o m b

/-- **Member by member, the tables hold the same hooks.** -/
def Shared.Matches (w : Shared) (s : Stores) : Prop := ∀ t, w.Twin s t (w.table t) (s.table t)

theorem Shared.Matches.keep {w w' : Shared} {s s' : Stores} (h : w.Matches s) (hg : w.Grows w' s s')
    (hw : w'.table = w.table) (hs : s'.table = s.table) : w'.Matches s' := fun t => by
  rw [hw, hs]; exact (h t).mono hg

theorem Shared.Matches.write {w w' : Shared} {s s' : Stores} (h : w.Matches s) (hg : w.Grows w' s s') {t : Member}
    {i j : Option Installed} (hw : w'.table = update w.table t i) (hs : s'.table = update s.table t j)
    (hij : w'.Twin s' t i j) : w'.Matches s' := by
  intro u
  rw [hw, hs]
  by_cases hut : u = t
  · subst hut; rw [Function.update_self, Function.update_self]; exact hij
  · rw [Function.update_of_ne hut, Function.update_of_ne hut]; exact (h u).mono hg

theorem Shared.Matches.none_iff {w : Shared} {s : Stores} (h : w.Matches s) (t : Member) :
    w.table t = none ↔ s.table t = none := by
  have ht := (h t).isSome
  cases hw : w.table t <;> cases hs : s.table t <;> simp_all

/-- Past its start, an operation has found jLSPlant initialized, and `hookMethod` its callback and a new object. -/
def Pc.Entered (env : Env) (w : Shared) : Pc → Prop
  | hook r o _ m _ => env.isInitialized = true ∧ env.callbackKept = true ∧ r < w.next ∧ w.passed r = (o, m)
  | hookAdvanced _ _ _ _ => env.isInitialized = true
  | containsKey _ _ => env.isInitialized = true
  | get _ _ => env.isInitialized = true
  | remove _ _ => env.isInitialized = true
  | unhook _ _ => env.isInitialized = true
  | _ => True

theorem Pc.Entered.mono {env : Env} {w w' : Shared} {s s' : Stores} {k : Pc} (h : k.Entered env w)
    (hg : w.Grows w' s s') : k.Entered env w' := by
  cases k with
  | hook r o t m a =>
    obtain ⟨hi, hk, hr, hp⟩ := h
    exact ⟨hi, hk, Nat.lt_of_lt_of_le hr hg.next, (hg.passed r hr).trans hp⟩
  | _ => exact h

section
variable {τ : Type} {env : Env}

/-- **The world stands where the sequential stores do.** -/
structure World.Follows (env : Env) (w : World τ) (s : Stores) : Prop where
  entered : ∀ θ, (w.pc θ).Entered env w.shared
  tables : w.shared.Matches s

theorem World.Follows.move [DecidableEq τ] {w : World τ} {s s' : Stores} (h : World.Follows env w s) (θ : τ) {k : Pc}
    {w' : Shared} (hg : w.shared.Grows w' s s') (hk : k.Entered env w') (hm : w'.Matches s') :
    World.Follows env (w.move θ k w') s' := by
  refine ⟨fun θ' => ?_, hm⟩
  by_cases hθ : θ' = θ
  · rw [hθ, Threads.Pool.move_pc_self]; exact hk
  · rw [Threads.Pool.move_pc_of_ne w hθ]
    exact (h.entered θ').mono hg

theorem World.follows_init : World.Follows env (World.init τ) Stores.init :=
  ⟨fun _ => trivial, fun _ => .nothing⟩

/-! ## One step -/

/-- **The items of one step**: they lead the thread from `k` to `k'`, show what the step shows, and the sequential
machine runs their effects to stores that match the world's after the step. -/
structure Accounts (env : Env) (w : Shared) (s : Stores) (θ : τ) (k k' : Pc) (w' : Shared)
    (shown h : List (Item τ Op Outcome)) (s' : Stores) : Prop where
  thread : ∀ i ∈ h, i.thread = θ
  phase : phases.run k.phase h = some k'.phase
  seen : h.filter Item.seen = shown ++ (k'.returned.map (.respond θ)).toList
  effects : (sequential env).run s (h.filterMap Item.effect) = some s'
  grows : w.Grows w' s s'
  entered : k'.Entered env w'
  tables : w'.Matches s'

theorem sequential_run_one {env : Env} {s s' : Stores} {op : Op} {out : Outcome} (h : s.exec env op = (out, s')) :
    (sequential env).run s [(op, out)] = some s' := by
  rw [Trans.Machine.run_cons, sequential_step.2 h]; rfl

/-- An operation that ends at its start changes no table, like the sequential one. -/
theorem Accounts.atOnce {w w' : Shared} {s s' : Stores} (h : w.Matches s) (θ : τ) (prior : Option Outcome) {op : Op}
    {out : Outcome} (hexec : s.exec env op = (out, s')) (hg : w.Grows w' s s') (hw : w'.table = w.table)
    (hs : s'.table = s.table) : Accounts env w s θ (.idle prior) (.idle (some out)) w' [.invoke θ op]
      [.invoke θ op, .commit θ op out, .respond θ out] s' where
  thread i hi := by
    simp only [List.mem_cons, List.not_mem_nil, or_false] at hi
    rcases hi with rfl | rfl | rfl <;> rfl
  phase := by simp [phases, Trans.Machine.run_cons, Phase.next, Pc.phase]
  seen := rfl
  effects := sequential_run_one hexec
  grows := hg
  entered := trivial
  tables := h.keep hg hw hs

/-- An operation that goes on after its start has no effect there. -/
theorem Accounts.begins {w w' : Shared} {s : Stores} (h : w.Matches s) (θ : τ) (prior : Option Outcome) {op : Op}
    {k : Pc} (hphase : k.phase = .invoked op) (hreturned : k.returned = none) (hg : w.Grows w' s s)
    (hw : w'.table = w.table) (hk : k.Entered env w') :
    Accounts env w s θ (.idle prior) k w' [.invoke θ op] [.invoke θ op] s where
  thread i hi := by rw [List.mem_singleton.1 hi]; rfl
  phase := by rw [hphase]; rfl
  seen := by rw [hreturned]; rfl
  effects := rfl
  grows := hg
  entered := hk
  tables := h.keep hg hw rfl

/-- A step that is not seen and has no effect. -/
theorem Accounts.silent {w w' : Shared} {s : Stores} (h : w.Matches s) (θ : τ) {k k' : Pc}
    (hphase : k'.phase = k.phase) (hreturned : k'.returned = none) (hg : w.Grows w' s s) (hw : w'.table = w.table)
    (hk : k'.Entered env w') : Accounts env w s θ k k' w' [] [] s where
  thread i hi := by cases hi
  phase := by rw [hphase]; rfl
  seen := by rw [hreturned]; rfl
  effects := rfl
  grows := hg
  entered := hk
  tables := h.keep hg hw rfl

/-- The step at which an operation takes effect and returns. -/
theorem Accounts.ends {w w' : Shared} {s s' : Stores} (θ : τ) {k : Pc} {op : Op} {out : Outcome}
    (hphase : k.phase = .invoked op) (hexec : s.exec env op = (out, s')) (hg : w.Grows w' s s') (hm : w'.Matches s') :
    Accounts env w s θ k (.idle (some out)) w' [] [.commit θ op out, .respond θ out] s' where
  thread i hi := by
    simp only [List.mem_cons, List.not_mem_nil, or_false] at hi
    rcases hi with rfl | rfl <;> rfl
  phase := by rw [hphase]; simp [phases, Trans.Machine.run_cons, Phase.next, Pc.phase]
  seen := rfl
  effects := sequential_run_one hexec
  grows := hg
  entered := trivial
  tables := hm

theorem Shared.Grows.record (w : Shared) (s : Stores) (op : Op) {w' : Stores} (hn : w.next ≤ w'.next) :
    w.Grows ⟨w', w.record op⟩ s s := by
  refine ⟨hn, fun r hr => ?_, Nat.le_refl _, fun _ _ => rfl⟩
  cases op with
  | hookMethod o t m a => exact Function.update_of_ne (Nat.ne_of_lt hr) _ _
  | _ => rfl

theorem Shared.Grows.right {w w' : Shared} {s s' : Stores} (h : w.Grows w' s s) (hn : s.next ≤ s'.next)
    (hh : ∀ r, r < s.next → s'.heap r = s.heap r) : w.Grows w' s s' := ⟨h.next, h.passed, hn, hh⟩

theorem Shared.Grows.stores {w : Shared} {w₁ s s' : Stores} (hn : w₁.next = w.next) (hn' : s.next ≤ s'.next)
    (hh : ∀ r, r < s.next → s'.heap r = s.heap r) : w.Grows ⟨w₁, w.passed⟩ s s' :=
  ⟨Nat.le_of_eq hn.symm, fun _ _ => rfl, hn', hh⟩

theorem Shared.Grows.silent {w : Shared} {w₁ s s' : Stores} (hn : w₁.next = w.next) (hn' : s'.next = s.next)
    (hh : s'.heap = s.heap) : w.Grows ⟨w₁, w.passed⟩ s s' :=
  .stores hn (Nat.le_of_eq hn'.symm) fun r _ => congrFun hh r

/-- A `hookMethod` that cannot hook fails, with no more done than an object allocated. -/
theorem hookMethod_fails {s : Stores} {t : Member} {a : Option Method}
    (h : ¬ ∃ b, a = some b ∧ env.isInitialized = true ∧ env.callbackKept = true ∧ s.table t = none)
    (o : Option Object) (m : Option Method) :
    ∃ s', s.exec env (.hookMethod o t m a) = (.hookMethod false, s') ∧ s'.table = s.table ∧
      s.next ≤ s'.next ∧ ∀ r, r < s.next → s'.heap r = s.heap r := by
  simp only [Stores.exec]
  rcases LSPlant.hookMethod_cases env s o t m a with hx | hx | ⟨b, ha, hi, hk, ht, -⟩
  · exact ⟨s, by rw [hx], rfl, Nat.le_refl _, fun _ _ => rfl⟩
  · exact ⟨s.alloc, by rw [hx], rfl, Nat.le_succ _, fun _ hr => Stores.alloc_heap_of_lt hr⟩
  · exact absurd ⟨b, ha, hi, hk, ht⟩ h

def Op.isCall : Op → Bool
  | .call _ _ => true
  | _         => false

theorem start_accounts {w : Shared} {s : Stores} (h : w.Matches s) (θ : τ) (prior : Option Outcome) {op : Op}
    (hop : op.isCall = false) : ∃ points s', Accounts env w s θ (.idle prior) (Pc.start env w.toStores op).1
      ⟨(Pc.start env w.toStores op).2, w.record op⟩ [.invoke θ op] points s' := by
  cases op with
  | call t args => cases hop
  | hookMethod o t m a =>
    have hfails : ∀ w' : Stores, w'.table = w.table → w.next ≤ w'.next →
        ¬ (env.isInitialized = true ∧ env.callbackKept = true) →
        ∃ points s', Accounts env w s θ (.idle prior) (.idle (some (.hookMethod false)))
          ⟨w', w.record (.hookMethod o t m a)⟩ [.invoke θ (.hookMethod o t m a)] points s' := by
      intro w' hw hn hno
      have hrefused : ¬ ∃ b, a = some b ∧ env.isInitialized = true ∧ env.callbackKept = true ∧ s.table t = none := by
        rintro ⟨-, -, hi, hk, -⟩
        exact hno ⟨hi, hk⟩
      obtain ⟨s', hexec, hs, hn', hh⟩ := @hookMethod_fails env s t a hrefused o m
      exact ⟨_, s', .atOnce h θ prior hexec ((Shared.Grows.record w s _ hn).right hn' hh) hw hs⟩
    by_cases hi : env.isInitialized = true
    · by_cases hk : env.callbackKept = true
      · simp only [Pc.start, hi, hk, if_true]
        refine ⟨_, s, .begins h θ prior rfl rfl (Shared.Grows.record w s _ (Nat.le_succ _)) rfl ?_⟩
        exact ⟨hi, hk, Nat.lt_succ_self _, Function.update_self _ _ _⟩
      · simp only [Pc.start, hi, hk, if_true, if_false, Bool.false_eq_true]
        exact hfails _ rfl (Nat.le_succ _) (fun hno => hk hno.2)
    · simp only [Pc.start, hi, if_false, Bool.false_eq_true]
      exact hfails _ rfl (Nat.le_refl _) (fun hno => hi hno.1)
  | hookMethodAdvanced o t m a =>
    by_cases hi : env.isInitialized = true
    · simp only [Pc.start, hi, if_true]
      exact ⟨_, s, .begins h θ prior rfl rfl (Shared.Grows.record w s _ (Nat.le_refl _)) rfl hi⟩
    · simp only [Pc.start, hi, if_false, Bool.false_eq_true]
      refine ⟨_, s, .atOnce h θ prior ?_ (Shared.Grows.record w s _ (Nat.le_refl _)) rfl rfl⟩
      simp only [Stores.exec, LSPlant.hookMethodAdvanced, hi, if_false, Bool.false_eq_true]
  | unhookMethod t a =>
    by_cases hi : env.isInitialized = true
    · simp only [Pc.start, hi, if_true]
      exact ⟨_, s, .begins h θ prior rfl rfl (Shared.Grows.record w s _ (Nat.le_refl _)) rfl hi⟩
    · simp only [Pc.start, hi, if_false, Bool.false_eq_true]
      refine ⟨_, s, .atOnce h θ prior ?_ (Shared.Grows.record w s _ (Nat.le_refl _)) rfl rfl⟩
      simp only [Stores.exec, LSPlant.unhookMethod, hi, if_false, Bool.false_eq_true]

/-- The native call of `hookMethod` installs the object, and the sequential hook its own; or neither hooks. -/
theorem hook_accounts {w : Shared} {s w₁ : Stores} {r : Nat} {o : Option Object} {t : Member} {m a : Option Method}
    {k' : Pc} (h : w.Matches s) (hk : (Pc.hook r o t m a).Entered env w) (θ : τ)
    (hstep : Pc.step w.toStores (.hook r o t m a) = some (k', w₁)) :
    ∃ points s', Accounts env w s θ (.hook r o t m a) k' ⟨w₁, w.passed⟩ [] points s' := by
  obtain ⟨hi, hkept, hr, hp⟩ := hk
  by_cases hfree : w.table t = none ∧ ∃ b, a = some b
  · obtain ⟨ht, b, rfl⟩ := hfree
    simp only [Pc.step, Native.hookMethod_free ht] at hstep
    cases hstep
    have hexec : s.exec env (.hookMethod o t m (some b)) = (.hookMethod true, s.hooked o t m b) := by
      simp only [Stores.exec, LSPlant.hookMethod_free hi hkept ((h.none_iff t).1 ht)]
    have hheap : ∀ x, x < s.next → (s.hooked o t m b).heap x = s.heap x := fun _ hx =>
      Stores.hooked_heap_of_lt hx o t m b
    refine ⟨[.commit θ (.hookMethod o t m (some b)) (.hookMethod true)], _, ?_, ?_, rfl, sequential_run_one hexec,
      .stores rfl (Nat.le_succ _) hheap, trivial,
      h.write (.stores rfl (Nat.le_succ _) hheap) rfl rfl (.hooker r s.next b hr (Nat.lt_succ_self _) ?_)⟩
    · intro i hi
      rw [List.mem_singleton.1 hi]; rfl
    · simp [phases, Trans.Machine.run_cons, Phase.next, Pc.phase]
    · rw [Stores.hooked_heap_self, hp]
  · have hnone : Native.hookMethod w.table (.hooker r) t (some Hooker.callbackMethod) a = (none, w.table) := by
      rcases Native.hookMethod_cases w.table (.hooker r) t (some Hooker.callbackMethod) a with hn |
        ⟨c, b, -, ha, ht, -⟩
      · exact hn
      · exact absurd ⟨ht, b, ha⟩ hfree
    simp only [Pc.step, hnone] at hstep
    cases hstep
    have hrefused : ¬ ∃ b, a = some b ∧ env.isInitialized = true ∧ env.callbackKept = true ∧ s.table t = none := by
      rintro ⟨b, ha, -, -, ht⟩
      exact hfree ⟨(h.none_iff t).2 ht, b, ha⟩
    obtain ⟨s', hexec, hs', hn, hh⟩ := @hookMethod_fails env s t a hrefused o m
    exact ⟨_, s', .ends θ rfl hexec (.stores rfl hn hh) (h.keep (.stores rfl hn hh) rfl hs')⟩

theorem hookAdvanced_accounts {w : Shared} {s w₁ : Stores} {o : Option Object} {t : Member} {m a : Option Method}
    {k' : Pc} (h : w.Matches s) (hi : env.isInitialized = true) (θ : τ)
    (hstep : Pc.step w.toStores (.hookAdvanced o t m a) = some (k', w₁)) :
    ∃ points s', Accounts env w s θ (.hookAdvanced o t m a) k' ⟨w₁, w.passed⟩ [] points s' := by
  by_cases hfree : w.table t = none ∧ ∃ c b, m = some c ∧ a = some b
  · obtain ⟨ht, c, b, rfl, rfl⟩ := hfree
    simp only [Pc.step, Native.hookMethod_free ht] at hstep
    cases hstep
    have hexec : s.exec env (.hookMethodAdvanced o t (some c) (some b)) =
        (.hookMethodAdvanced (some b), s.hookedAdvanced o t c b) := by
      simp only [Stores.exec, LSPlant.hookMethodAdvanced_free hi ((h.none_iff t).1 ht)]
    exact ⟨_, _, .ends θ rfl hexec (.silent rfl rfl rfl) (h.write (.silent rfl rfl rfl) rfl rfl (.object o c b))⟩
  · have hnone : ∀ table : Table, (table t = none ↔ w.table t = none) →
        Native.hookMethod table (.object o) t m a = (none, table) := by
      intro table hiff
      rcases Native.hookMethod_cases table (.object o) t m a with hn | ⟨c, b, hm, ha, ht, -⟩
      · exact hn
      · exact absurd ⟨hiff.1 ht, c, b, hm, ha⟩ hfree
    simp only [Pc.step, hnone w.table Iff.rfl] at hstep
    cases hstep
    have hexec : s.exec env (.hookMethodAdvanced o t m a) = (.hookMethodAdvanced none, s) := by
      simp only [Stores.exec, LSPlant.hookMethodAdvanced, hi, if_true, hnone s.table (h.none_iff t).symm]
    exact ⟨_, s, .ends θ rfl hexec (.silent rfl rfl rfl) (h.keep (.silent rfl rfl rfl) rfl rfl)⟩

theorem unhook_accounts {w : Shared} {s w₁ : Stores} {t : Member} {a : Bool} {k' : Pc} (h : w.Matches s)
    (hi : env.isInitialized = true) (θ : τ) (hstep : Pc.step w.toStores (.unhook t a) = some (k', w₁)) :
    ∃ points s', Accounts env w s θ (.unhook t a) k' ⟨w₁, w.passed⟩ [] points s' := by
  have hsome := (h t).isSome
  rcases Native.unhookMethod_cases w.table t a with ⟨ha, hn⟩ | ⟨ht, rfl, hn⟩
  · simp only [Pc.step, hn] at hstep
    cases hstep
    rw [hsome] at ha
    have hexec : s.exec env (.unhookMethod t a) = (.unhookMethod false, s.remove (getMemberName t)) := by
      simp only [Stores.exec]
      rcases LSPlant.unhookMethod_cases env s t a with ⟨hno, -⟩ | ⟨-, -, hx⟩ | ⟨-, ht, rfl, -⟩
      · rw [hi] at hno; cases hno
      · rw [hx]
      · rw [ht] at ha; cases ha
    exact ⟨_, _, .ends θ rfl hexec (.silent rfl rfl rfl) (h.keep (.silent rfl rfl rfl) rfl rfl)⟩
  · simp only [Pc.step, hn] at hstep
    cases hstep
    rw [hsome] at ht
    have hexec : s.exec env (.unhookMethod t true) = (.unhookMethod true, s.unhooked t) := by
      simp only [Stores.exec]
      rcases LSPlant.unhookMethod_cases env s t true with ⟨hno, -⟩ | ⟨-, ha, -⟩ | ⟨-, -, -, hx⟩
      · rw [hi] at hno; cases hno
      · rw [ht] at ha; cases ha
      · rw [hx]
    exact ⟨_, _, .ends θ rfl hexec (.silent rfl rfl rfl) (h.write (.silent rfl rfl rfl) rfl rfl .nothing)⟩

theorem step_accounts {w w' : Shared} {s : Stores} {k k' : Pc} (h : w.Matches s) (hk : k.Entered env w) (θ : τ)
    (hs : (program env).step w k = some (k', w')) : ∃ points s', Accounts env w s θ k k' w' [] points s' := by
  obtain ⟨⟨k₁, w₁⟩, hstep, hr⟩ := Option.map_eq_some_iff.1 hs
  cases hr
  cases k with
  | idle out => cases hstep
  | hook r o t m a => exact hook_accounts h hk θ hstep
  | assign f b =>
    cases hstep
    refine ⟨[], s, .silent h θ ?_ ?_ (.silent rfl rfl rfl) rfl ?_⟩ <;> cases f <;> trivial
  | put r t =>
    cases hstep
    refine ⟨[.respond θ (.hookMethod true)], s, fun i hi => ?_, ?_, rfl, rfl, .silent rfl rfl rfl, trivial,
      h.keep (.silent rfl rfl rfl) rfl rfl⟩
    · rw [List.mem_singleton.1 hi]; rfl
    · simp [phases, Trans.Machine.run_cons, Phase.next, Pc.phase]
  | hookAdvanced o t m a => exact hookAdvanced_accounts h hk θ hstep
  | containsKey t a =>
    cases hstep
    refine ⟨[], s, .silent h θ ?_ ?_ (.silent rfl rfl rfl) rfl ?_⟩ <;> split <;> first | rfl | exact hk
  | get t a =>
    cases hstep
    refine ⟨[], s, .silent h θ ?_ ?_ (.silent rfl rfl rfl) rfl ?_⟩ <;> split <;> first | rfl | exact hk
  | remove t a =>
    cases hstep
    exact ⟨[], s, .silent h θ rfl rfl (.silent rfl rfl rfl) rfl hk⟩
  | unhook t a => exact unhook_accounts h hk θ hstep

variable [DecidableEq τ]

/-- If the label is a call, it finds in the sequential stores what it finds in the world. -/
def CallAgrees (w : Shared) (s : Stores) : Act τ → Prop
  | .start _ (.call t args) => w.enter t args = s.enter t args
  | _                       => True

/-- **The points of one step**, for both machines of whole operations. -/
theorem World.Follows.step {w w' : World τ} {s : Stores} {a : Act τ} (hf : World.Follows env w s)
    (hs : (threads τ env).step w a = some w') : ∃ points s', (∀ i ∈ points, i.thread = a.thread) ∧
      phases.run (w.pc a.thread).phase points = some (w'.pc a.thread).phase ∧
      points.filter Item.seen = Threads.observe Pc.returned a (w'.pc a.thread) ∧
      (hooking env).run s (points.filterMap Item.effect) = some s' ∧
      (CallAgrees w.shared s a → (sequential env).run s (points.filterMap Item.effect) = some s') ∧
      World.Follows env w' s' := by
  obtain ⟨k, w₁, hfire, rfl⟩ := (program env).machine_step hs
  rw [Threads.Pool.move_pc_self]
  have hdone : ∀ {shown points : List (Item τ Op Outcome)} {s' : Stores},
      Accounts env w.shared s a.thread (w.pc a.thread) k w₁ shown points s' →
      shown = a.invokes →
      ∃ points s', (∀ i ∈ points, i.thread = a.thread) ∧ phases.run (w.pc a.thread).phase points = some k.phase ∧
        points.filter Item.seen = Threads.observe Pc.returned a k ∧
        (hooking env).run s (points.filterMap Item.effect) = some s' ∧
        (CallAgrees w.shared s a → (sequential env).run s (points.filterMap Item.effect) = some s') ∧
        World.Follows env (w.move a.thread k w₁) s' := by
    rintro shown points s' ⟨hthread, hphase, hseen, heffects, hg, hk, ht⟩ rfl
    obtain ⟨s'', hhooking, rfl⟩ := (hooking_of_sequential env).run _ s s' s (fun _ _ => trivial) rfl heffects
    rw [List.map_id] at hhooking
    exact ⟨points, s', hthread, hphase, hseen, hhooking, fun _ => heffects, hf.move a.thread hg hk ht⟩
  cases a with
  | start θ op =>
    cases hpc : w.pc θ with
    | idle prior =>
      simp only [Threads.Program.fire, Threads.Act.thread, program, hpc] at hfire
      cases hfire
      cases hcall : op.isCall with
      | false =>
        obtain ⟨points, s', ha⟩ := @start_accounts _ env _ _ hf.tables θ prior op hcall
        rw [Threads.Act.thread, ← hpc] at *
        exact hdone ha rfl
      | true =>
        cases op with
        | call t args =>
          have hg : w.shared.Grows ⟨w.shared.toStores, w.shared.passed⟩ s s := .same s rfl rfl
          refine ⟨[.invoke θ (.call t args), .commit θ (.call t args) (.call (w.shared.enter t args)),
            .respond θ (.call (w.shared.enter t args))], s, fun i hi => ?_, ?_, rfl, rfl, fun hagrees => ?_,
            hf.move θ hg trivial (hf.tables.keep hg rfl rfl)⟩
          · simp only [List.mem_cons, List.not_mem_nil, or_false] at hi
            rcases hi with rfl | rfl | rfl <;> rfl
          · simp [phases, Trans.Machine.run_cons, Phase.next, Pc.phase, Threads.Act.thread, hpc, Pc.start]
          · have hagrees : w.shared.enter t args = s.enter t args := hagrees
            exact sequential_run_one (by rw [hagrees]; rfl)
        | _ => cases hcall
    | _ =>
      simp only [Threads.Program.fire, Threads.Act.thread, program, hpc] at hfire
      cases hfire
  | step θ =>
    obtain ⟨points, s', ha⟩ := step_accounts hf.tables (hf.entered θ) θ hfire
    exact hdone ha rfl

/-! ## Every run -/

theorem hooking_commits : Threads.CommitsAt (program env) Pc.returned Pc.phase (hooking env)
      (fun (_ : World τ) _ => True)
    (World.Follows env) where
  step w s a w' hf _ hs := by
    obtain ⟨points, s', hthread, hphase, hseen, heffects, -, hf'⟩ := hf.step hs
    exact ⟨points, s', hthread, hphase, hseen, heffects, hf'⟩

omit [DecidableEq τ] in
/-- Outside the window the object a target is hooked through is complete. -/
theorem complete_outside_window {w : World τ} (h : building.Inv w) {θ : τ} {t : Member} {args : Args}
    (hout : CallOutsideWindow w (.start θ (.call t args))) {i : Installed} {r : Ref} (ht : w.shared.table t = some i)
    (hi : i.receiver = .hooker r) : w.shared.Complete r i.backup := by
  refine (h.free r (fun θ' hr => ?_) t i ht hi).2
  have hheld : (w.pc θ').Held w.shared := h.held θ'
  have href : (w.pc θ').ref = some r := hr
  cases hpc : w.pc θ' with
  | hook r' o u m a =>
    rw [hpc] at href hheld
    cases href
    exact hheld.2.2.2.2 t i ht hi
  | assign f b =>
    rw [hpc] at href
    cases href
    exact hout i b.hooker ht hi θ' f b hpc rfl
  | _ => rw [hpc] at href; cases href

omit [DecidableEq τ] in
theorem callAgrees_outside_window {w : World τ} {s : Stores} (h : building.Inv w) (hm : w.shared.Matches s)
    {a : Act τ} (hout : CallOutsideWindow w a) : CallAgrees w.shared s a := by
  unfold CallAgrees
  split
  · rename_i θ t args
    have htwin := hm t
    unfold Stores.enter
    generalize htab : w.shared.table t = i at htwin
    generalize s.table t = j at htwin
    cases htwin with
    | nothing => rfl
    | hooker r x b hr hx hh =>
      obtain ⟨ho, hb, hrepl, -⟩ := complete_outside_window h hout htab rfl
      simp only [Hooker.callback, ho, hb, hrepl, hh]
    | object o m b => rfl
  · trivial

theorem sequential_commits : Threads.CommitsAt (program env) Pc.returned Pc.phase (sequential env)
    (fun (w : World τ) a => HasReplacement a ∧ CallOutsideWindow w a)
    (fun w s => building.Inv w ∧ World.Follows env w s) where
  step w s a w' := by
    rintro ⟨hb, hf⟩ ⟨ha, hout⟩ hs
    obtain ⟨points, s', hthread, hphase, hseen, -, heffects, hf'⟩ := hf.step hs
    exact ⟨points, s', hthread, hphase, hseen, heffects (callAgrees_outside_window hb hf.tables hout),
      building_act hb ha hs, hf'⟩

/-- **Concurrent hooking is linearizable**: in a run whose calls are all made outside the window, every operation,
also one of several on one target, takes effect at one point between its invocation and its return, as the
sequential machine has it; and where `Method.invoke` can enter the hooks, the map from members to hooks runs the
same effects. -/
theorem calls_outside_window_linearizable (env : Env) (l : List (Act τ)) (w : World τ)
    (hrun : (threads τ env).run (World.init τ) l = some w) (hl : ∀ a ∈ l, HasReplacement a)
    (hout : (threads τ env).Along CallOutsideWindow (World.init τ) l) :
    ∃ points s, Linearized (sequential env) Stores.init s
        ((program env).history Pc.returned (World.init τ) l) points ∧
      ((∀ θ op, .start θ op ∈ l → op.Enterable) →
        ∃ m, hookMap.run (fun _ => none) (points.filterMap Item.effect) = some m ∧
        ∀ t, m t = lastHook (points.filterMap Item.effect) t) := by
  have hC : (threads τ env).Along (fun w a => HasReplacement a ∧ CallOutsideWindow w a) (World.init τ) l := by
    clear hrun
    generalize World.init τ = w₀ at hout
    induction l generalizing w₀ with
    | nil => trivial
    | cons a l ih =>
      exact ⟨⟨hl a List.mem_cons_self, hout.1⟩, fun w₁ hw =>
        ih (fun b hb => hl b (List.mem_cons_of_mem _ hb)) w₁ (hout.2 w₁ hw)⟩
  obtain ⟨points, s, hlin, -⟩ := sequential_commits.run (fun _ => rfl) ⟨building_init, World.follows_init⟩ hC hrun
  refine ⟨points, s, hlin, fun henterable => ?_⟩
  have heach : ∀ e ∈ points.filterMap Item.effect, e.1.Enterable := fun e he => by
    obtain ⟨θ, hθ⟩ := hlin.invoked he
    exact henterable θ e.1 (Threads.Program.history_invoke hθ)
  obtain ⟨m, hm, -⟩ := (hooking_simulates env).run _ _ _ _ heach represents_init hlin.effects
  rw [List.map_id] at hm
  exact ⟨m, hm, hookMap_run_eq hm⟩

end

/-- Two threads hook one target, the second one to begin first at the native call, and the other calls it after. -/
def racingHooks : List (Act Bool) :=
  [.start true (.hookMethod none (sampleMethod []) (some sampleReplacement) (some sampleBackup)),
    .start false (.hookMethod none (sampleMethod []) (some sampleReplacement) (some sampleBackup)), .step false,
    .step true] ++ List.replicate 5 (.step false)

def callsRaced : List (Act Bool) := [.start true (.call (sampleMethod []) [])]

theorem racing_hooks_linearizable : ∃ points s, Linearized (sequential liveEnv) Stores.init s
    ((program liveEnv).history Pc.returned (World.init Bool) (racingHooks ++ callsRaced)) points ∧
      ∃ m, hookMap.run (fun _ => none) (points.filterMap Item.effect) = some m := by
  have hsome : ((threads Bool liveEnv).run (World.init Bool) (racingHooks ++ callsRaced)).isSome = true := rfl
  have hl : ∀ a ∈ racingHooks ++ callsRaced, HasReplacement a := by simp [racingHooks, callsRaced, HasReplacement]
  have hout : (threads Bool liveEnv).Along CallOutsideWindow (World.init Bool) (racingHooks ++ callsRaced) := by
    refine (threads Bool liveEnv).along_append ?_ fun w hw => ?_
    · refine (threads Bool liveEnv).along_of_forall (fun a ha w => ?_) _
      simp only [racingHooks, List.mem_append, List.mem_cons, List.mem_replicate, List.not_mem_nil, or_false] at ha
      rcases ha with (rfl | rfl | rfl | rfl) | ⟨-, rfl⟩ <;> trivial
    · cases hw
      refine ⟨fun i r _ _ θ f b hpc => ?_, fun _ _ => trivial⟩
      cases θ <;> cases hpc
  obtain ⟨points, s, hlin, hmap⟩ := calls_outside_window_linearizable liveEnv _ _ (Option.some_get hsome).symm hl hout
  refine ⟨points, s, hlin, ?_⟩
  obtain ⟨m, hm, -⟩ := hmap fun θ op hop => by
    simp only [racingHooks, callsRaced, List.mem_append, List.mem_cons, List.mem_replicate,
      List.not_mem_nil, or_false,
      Threads.Act.start.injEq, reduceCtorEq, and_false] at hop
    rcases hop with (⟨-, rfl⟩ | ⟨-, rfl⟩) | ⟨-, rfl⟩
    · exact ⟨_, rfl, sampleReplacement_accepted⟩
    · exact ⟨_, rfl, sampleReplacement_accepted⟩
    · trivial
  exact ⟨m, hm⟩

/-! ## Which members are hooked -/

/-- The member an event hooks or unhooks. -/
def Event.installs : Event → Option (Member × Bool)
  | (.hookMethod _ t _ _, .hookMethod true)                        => some (t, true)
  | (.hookMethodAdvanced _ t _ _, .hookMethodAdvanced (some _))    => some (t, true)
  | (.unhookMethod t _, .unhookMethod true)                        => some (t, false)
  | _                                                              => none

theorem Stores.exec_uninitialized {env : Env} (hi : env.isInitialized = false) (s : Stores) (op : Op) :
    (s.exec env op).2 = s := by
  cases op with
  | call t args => rfl
  | hookMethod o t m a => simp [Stores.exec, LSPlant.hookMethod, hi]
  | hookMethodAdvanced o t m a => simp [Stores.exec, LSPlant.hookMethodAdvanced, hi]
  | unhookMethod t a => simp [Stores.exec, LSPlant.unhookMethod, hi]

theorem hooking_step {env : Env} {s s' : Stores} {e : Event} (h : (hooking env).step s e = some s') :
    s' = s ∧ Event.installs e = none ∨ (sequential env).step s e = some s' := by
  obtain ⟨op, out⟩ := e
  cases op with
  | call t args => cases h; exact Or.inl ⟨rfl, rfl⟩
  | _ => exact Or.inr h

/-- **The table after a run holds the members last hooked and not unhooked.** -/
theorem hooking_run_isSome {env : Env} {l : List Event} {s : Stores} (h : (hooking env).run Stores.init l = some s)
    (t : Member) : (s.table t).isSome = (Writes.last t (l.filterMap Event.installs)).getD false := by
  have hview := Writes.view_run (I := fun _ => True) (hooking env) (fun s t => (s.table t).isSome) Event.installs
    (fun _ _ _ _ _ => trivial) (fun s e s' _ hs => ?_) trivial h
  · have := congrFun hview t
    rwa [Writes.apply_eq] at this
  · have hset : ∀ (u : Member) (i : Option Installed), (fun t => (update s.table u i t).isSome) =
        update (fun t => (s.table t).isSome) u i.isSome := fun u i => by
      funext t
      by_cases htu : t = u
      · subst htu; rw [Function.update_self, Function.update_self]
      · rw [Function.update_of_ne htu, Function.update_of_ne htu]
    rcases hooking_step hs with ⟨rfl, hnone⟩ | hs
    · rw [hnone]; rfl
    · cases sequential_effect hs with
      | hooked o u m b => exact hset u _
      | hookedAdvanced o u c b => exact hset u _
      | unhooked u => exact hset u _
      | _ => rfl

theorem hooking_run_uninitialized {env : Env} (hi : env.isInitialized = false) {l : List Event} {s : Stores}
    (h : (hooking env).run Stores.init l = some s) : s = Stores.init := by
  have hkept : ∀ s e s', s = Stores.init → (hooking env).step s e = some s' → s' = Stores.init := by
    intro s e s' hs hstep
    rcases hooking_step hstep with ⟨rfl, -⟩ | hstep
    · exact hs
    · have hexec := congrArg Prod.snd (sequential_step.1 hstep)
      rw [Stores.exec_uninitialized hi] at hexec
      exact hexec.symm.trans hs
  exact (hooking env).run_inv hkept l _ _ rfl h

/-- **Under any interleaving, calls in the window included, `isHooked` answers whether the last operation that took
effect on the target hooked it.** -/
theorem isHooked_iff_last {τ : Type} [DecidableEq τ] (env : Env) (l : List (Act τ)) (w : World τ)
    (hrun : (threads τ env).run (World.init τ) l = some w) :
    ∃ points s, Linearized (hooking env) Stores.init s ((program env).history Pc.returned (World.init τ) l) points ∧
      ∀ t, LSPlant.isHooked env w.shared.toStores t =
        (Writes.last t ((points.filterMap Item.effect).filterMap Event.installs)).getD false := by
  obtain ⟨points, s, hlin, hf⟩ := hooking_commits.run (fun _ => rfl) World.follows_init
    ((threads τ env).along_of_forall (fun _ _ _ => trivial) _) hrun
  refine ⟨points, s, hlin, fun t => ?_⟩
  rw [← hooking_run_isSome hlin.effects, LSPlant.isHooked, Native.isHooked, (hf.tables t).isSome]
  cases hi : env.isInitialized with
  | true => rfl
  | false => rw [hooking_run_uninitialized hi hlin.effects]; rfl

theorem raced_target_hooked : ∃ w points s, (threads Bool liveEnv).run (World.init Bool) racingHooks = some w ∧
    Linearized (hooking liveEnv) Stores.init s
      ((program liveEnv).history Pc.returned (World.init Bool) racingHooks) points ∧
    LSPlant.isHooked liveEnv w.shared.toStores (sampleMethod []) = true ∧
    (Writes.last (sampleMethod []) ((points.filterMap Item.effect).filterMap Event.installs)).getD false = true := by
  have hsome : ((threads Bool liveEnv).run (World.init Bool) racingHooks).isSome = true := rfl
  obtain ⟨points, s, hlin, hhooked⟩ := isHooked_iff_last liveEnv racingHooks _ (Option.some_get hsome).symm
  exact ⟨_, points, s, (Option.some_get hsome).symm, hlin, rfl, (hhooked _).symm⟩

end JLSPlant
