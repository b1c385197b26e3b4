import Mathlib.Data.List.Basic
/-!
# Lists — joining with a separator

`sepBy` joins texts with a separator.  A separator whose first element none of the texts holds can be found again, so
the joined text determines the texts (`sepBy_inj`).
-/
namespace Lists

universe u

variable {α : Type u}

/-- **Two lists cut at the first `c` have equal parts.** -/
theorem cut_inj {c : α} {x y a b : List α} (hx : c ∉ x) (hy : c ∉ y) (h : x ++ c :: a = y ++ c :: b) :
    x = y ∧ a = b := by
  rcases List.append_eq_append_iff.1 h with ⟨m, rfl, hm⟩ | ⟨m, rfl, hm⟩
  · cases m with
    | nil => simpa using hm
    | cons d m => exact absurd (by rw [(List.cons.inj hm).1]; simp) hy
  · cases m with
    | nil => simpa [eq_comm] using hm
    | cons d m => exact absurd (by rw [(List.cons.inj hm).1]; simp) hx

def sepBy (sep : List α) : List (List α) → List α
  | []          => []
  | [x]         => x
  | x :: y :: l => x ++ sep ++ sepBy sep (y :: l)

theorem sepBy_cons_cons (sep x y : List α) (l : List (List α)) :
    sepBy sep (x :: y :: l) = x ++ sep ++ sepBy sep (y :: l) := rfl

theorem sepBy_ne_nil (sep : List α) : ∀ (x : List α) (l : List (List α)), x ≠ [] → sepBy sep (x :: l) ≠ []
  | _, [], hx => hx
  | x, y :: l, hx => by
    rw [sepBy_cons_cons, List.append_assoc]
    exact fun h => hx (List.append_eq_nil_iff.1 h).1

/-- **The separator's head is in a joined text exactly when two texts were joined.** -/
theorem mem_sepBy_cons_cons (c : α) (r x y : List α) (l : List (List α)) : c ∈ sepBy (c :: r) (x :: y :: l) := by
  rw [sepBy_cons_cons]; simp

/-- **A joined text determines the texts**, when none is empty and none holds the separator's head. -/
theorem sepBy_inj (c : α) (r : List α) : ∀ xs ys : List (List α),
    (∀ x ∈ xs, x ≠ [] ∧ c ∉ x) → (∀ y ∈ ys, y ≠ [] ∧ c ∉ y) → sepBy (c :: r) xs = sepBy (c :: r) ys → xs = ys
  | [], [], _, _, _ => rfl
  | [], y :: ys, _, hy, h => absurd h.symm (sepBy_ne_nil _ y ys (hy y List.mem_cons_self).1)
  | x :: xs, [], hx, _, h => absurd h (sepBy_ne_nil _ x xs (hx x List.mem_cons_self).1)
  | [x], [y], _, _, h => by rw [show x = y from h]
  | [x], y :: y' :: ys, hx, _, h => by
    have hm := mem_sepBy_cons_cons c r y y' ys
    rw [← h] at hm
    exact absurd hm (hx x List.mem_cons_self).2
  | x :: x' :: xs, [y], _, hy, h => by
    have hm := mem_sepBy_cons_cons c r x x' xs
    rw [h] at hm
    exact absurd hm (hy y List.mem_cons_self).2
  | x :: x' :: xs, y :: y' :: ys, hx, hy, h => by
    rw [sepBy_cons_cons, sepBy_cons_cons, List.append_assoc, List.append_assoc, List.cons_append,
      List.cons_append] at h
    obtain ⟨rfl, hl⟩ := cut_inj (hx x List.mem_cons_self).2 (hy y List.mem_cons_self).2 h
    have htail := sepBy_inj c r (x' :: xs) (y' :: ys) (fun z hz => hx z (List.mem_cons_of_mem _ hz))
      (fun z hz => hy z (List.mem_cons_of_mem _ hz)) (List.append_cancel_left hl)
    rw [htail]

end Lists
