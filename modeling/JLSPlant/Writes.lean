import Mathlib.Data.List.Induction
import Mathlib.Logic.Function.Basic
import JLSPlant.Trans
/-!
# Writes — a map after a sequence of writes

What one write leaves of a partial map (`update_eq_some`), and what a sequence of them does: a map written key by
key holds at each key the last value written there (`apply_eq`).  So does a map seen in the states of a machine
whose every step writes at most one entry of it (`view_run`).
-/
namespace Writes

universe u v

variable {κ : Type u} {β : Type v} [DecidableEq κ]

/-- **An entry after a write** is the one written, or an older one at another key. -/
theorem update_eq_some {m : κ → Option β} {k x : κ} {v : Option β} {b : β} (h : Function.update m k v x = some b) :
    (x = k ∧ v = some b) ∨ (x ≠ k ∧ m x = some b) := by
  by_cases hx : x = k
  · subst hx
    rw [Function.update_self] at h
    exact Or.inl ⟨rfl, h⟩
  · rw [Function.update_of_ne hx] at h
    exact Or.inr ⟨hx, h⟩

def apply (m : κ → β) (l : List (κ × β)) : κ → β := l.foldl (fun m w => Function.update m w.1 w.2) m

def last (k : κ) (l : List (κ × β)) : Option β := ((l.filter (fun w => decide (w.1 = k))).getLast?).map Prod.snd

theorem apply_concat (m : κ → β) (l : List (κ × β)) (w : κ × β) :
    apply m (l ++ [w]) = Function.update (apply m l) w.1 w.2 := by
  unfold apply; rw [List.foldl_append]; rfl

theorem last_concat (k : κ) (l : List (κ × β)) (w : κ × β) :
    last k (l ++ [w]) = if w.1 = k then some w.2 else last k l := by
  unfold last
  rw [List.filter_append]
  by_cases h : w.1 = k
  · simp [h]
  · simp [h]

theorem last_filterMap_self {ι : Type*} {f : ι → Option (κ × β)} {i : ι} {k : κ} {v : β} (h : f i = some (k, v))
    (l : List ι) : last k ((l ++ [i]).filterMap f) = some v := by
  rw [List.filterMap_append, List.filterMap_cons_some h, List.filterMap_nil, last_concat, if_pos rfl]

theorem last_filterMap_of_ne {ι : Type*} {f : ι → Option (κ × β)} {i : ι} {k : κ} (h : ∀ v, f i ≠ some (k, v))
    (l : List ι) : last k ((l ++ [i]).filterMap f) = last k (l.filterMap f) := by
  rw [List.filterMap_append]
  cases hf : f i with
  | none => rw [List.filterMap_cons_none hf, List.filterMap_nil, List.append_nil]
  | some w =>
    have hw : w.1 ≠ k := fun hw => h w.2 (by rw [hf, ← hw])
    rw [List.filterMap_cons_some hf, List.filterMap_nil, last_concat, if_neg hw]

/-- **A map holds at each key the last value written there.** -/
theorem apply_eq (m : κ → β) (l : List (κ × β)) (k : κ) : apply m l k = (last k l).getD (m k) := by
  induction l using List.reverseRecOn with
  | nil => rfl
  | append_singleton l w ih =>
    rw [apply_concat, last_concat]
    by_cases h : w.1 = k
    · subst h; simp
    · rw [Function.update_of_ne (Ne.symm h), ih, if_neg h]

/-- **What each step of a machine writes, a run of it writes in turn**, where an invariant holds. -/
theorem view_run {σ : Type*} {ι : Type*} (M : Trans.Machine σ ι) {I : σ → Prop} (view : σ → κ → β)
    (write : ι → Option (κ × β)) (hI : ∀ s i s', I s → M.step s i = some s' → I s')
    (hstep : ∀ s i s', I s → M.step s i = some s' → view s' = apply (view s) (write i).toList) :
    ∀ {l : List ι} {s t : σ}, I s → M.run s l = some t → view t = apply (view s) (l.filterMap write)
  | [], _, _, _, h => by cases h; rfl
  | i :: l, s, t, hs, h => by
    obtain ⟨s', h₁, h₂⟩ := M.run_cons_some h
    rw [view_run M view write hI hstep (hI s i s' hs h₁) h₂, hstep s i s' hs h₁]
    cases hw : write i with
    | none => rw [List.filterMap_cons_none hw]; rfl
    | some w => rw [List.filterMap_cons_some hw]; rfl

end Writes
