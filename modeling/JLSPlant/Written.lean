import JLSPlant.Binary
/-!
# Written — what is read of bytes that were written

`Holds b off part`: the bytes `part` stand in `b` from `off` on.  Bytes written one after the other stand one after
the other (`holds_append`), and a number, a record, a row of records of one size, a string and a table of strings
that stand somewhere are read back there.
-/
namespace Binary

def Holds (b : Bytes) (off : Nat) (part : Bytes) : Prop := part <+: b.drop off

theorem holds_self (b : Bytes) : Holds b 0 b := List.prefix_rfl

/-- **Parts written one after the other.** -/
theorem holds_append {b p q : Bytes} {off : Nat} :
    Holds b off (p ++ q) ↔ Holds b off p ∧ Holds b (off + p.length) q := by
  unfold Holds
  rw [← List.drop_drop]
  constructor
  · rintro ⟨t, ht⟩
    rw [← ht, List.append_assoc, List.drop_left]
    exact ⟨List.prefix_append _ _, List.prefix_append _ _⟩
  · rintro ⟨⟨t, ht⟩, hq⟩
    rw [← ht, List.drop_left] at hq
    rw [← ht]
    exact (List.prefix_append_right_inj p).2 hq

theorem Holds.left {b p q : Bytes} {off : Nat} (h : Holds b off (p ++ q)) : Holds b off p := (holds_append.1 h).1

theorem Holds.right {b p q : Bytes} {off : Nat} (h : Holds b off (p ++ q)) : Holds b (off + p.length) q :=
  (holds_append.1 h).2

theorem Holds.le {b p : Bytes} {off : Nat} (h : Holds b off p) (hp : 0 < p.length) : off + p.length ≤ b.length := by
  have hle := h.length_le
  rw [List.length_drop] at hle
  omega

/-! ## Numbers and records -/

theorem length_bytesOf : ∀ n x : Nat, (bytesOf n x).length = n
  | 0, _     => rfl
  | n + 1, x => congrArg Nat.succ (length_bytesOf n (x / 256))

theorem number_bytesOf (t : Bytes) : ∀ {n x : Nat}, x < 256 ^ n → number n (bytesOf n x ++ t) = some x
  | 0, x, h => by
    obtain rfl : x = 0 := by omega
    rfl
  | n + 1, x, h => by
    have hdiv : x / 256 < 256 ^ n := Nat.div_lt_of_lt_mul (by rw [Nat.pow_succ, Nat.mul_comm] at h; exact h)
    have hbyte : (UInt8.ofNat x).toNat = x % 256 := by simp
    rw [bytesOf, List.cons_append, number, number_bytesOf t hdiv, Option.map_some, hbyte, Nat.mod_add_div]

theorem Holds.word {b : Bytes} {off n x : Nat} (h : Holds b off (bytesOf n x)) (hx : x < 256 ^ n) :
    word b off n = some x := by
  obtain ⟨t, ht⟩ := h
  unfold Binary.word
  rw [← ht]
  exact number_bytesOf t hx

/-- The numbers fit the fields. -/
def Layout.Takes : Layout → List Nat → Prop
  | [], []         => True
  | n :: L, x :: xs => x < 256 ^ n ∧ Takes L xs
  | _, _           => False

theorem Layout.length_encode : ∀ {L : Layout} {xs : List Nat}, L.Takes xs → (L.encode xs).length = L.size
  | [], [], _ => rfl
  | n :: L, x :: xs, h => by
    rw [encode, List.length_append, length_bytesOf, Layout.length_encode h.2]
    simp [size]

/-- **A record that was written is decoded.** -/
theorem Holds.decode {b : Bytes} : ∀ {L : Layout} {off : Nat} {xs : List Nat}, Holds b off (L.encode xs) →
    L.Takes xs →
    Layout.decode b L off = some xs
  | [], _, [], _, _ => rfl
  | n :: L, off, x :: xs, h, ht => by
    have hrest := h.right
    rw [length_bytesOf] at hrest
    rw [Layout.decode, h.left.word ht.1, Option.bind_eq_bind, Option.bind_some, Holds.decode hrest ht.2]
    rfl

/-- **A row of records of one size.** -/
theorem Holds.flatten {b : Bytes} {n : Nat} : ∀ {l : List Bytes} {off : Nat}, Holds b off l.flatten →
    (∀ p ∈ l, p.length = n) → ∀ {i : Nat} {p : Bytes}, l[i]? = some p → Holds b (off + i * n) p
  | [], _, _, _, _, _, hi => by cases hi
  | q :: l, off, h, hn, i, p, hi => by
    rw [List.flatten_cons] at h
    cases i with
    | zero =>
      cases hi
      rw [Nat.zero_mul, Nat.add_zero]
      exact h.left
    | succ i =>
      have hrest := h.right
      rw [hn q List.mem_cons_self] at hrest
      have hp := hrest.flatten (fun r hr => hn r (List.mem_cons_of_mem _ hr)) (i := i) hi
      rwa [Nat.add_assoc, Nat.add_comm n, ← Nat.succ_mul] at hp

theorem length_flatten_of_eq {n : Nat} : ∀ {l : List Bytes}, (∀ p ∈ l, p.length = n) → l.flatten.length = l.length * n
  | [], _ => by simp
  | q :: l, h => by
    rw [List.flatten_cons, List.length_append, h q List.mem_cons_self,
      length_flatten_of_eq fun p hp => h p (List.mem_cons_of_mem _ hp), List.length_cons, Nat.succ_mul, Nat.add_comm]

/-! ## Strings -/

theorem Holds.cstring {b : Bytes} {off : Nat} {s : CString} (h : Holds b off (s.bytes ++ [0])) :
    cstring b off = some s.bytes := by
  obtain ⟨t, ht⟩ := h
  refine untilNul_eq_some_iff.2 ⟨s.noNul, t, ?_⟩
  rw [← ht, List.append_assoc]
  rfl

/-- A table of strings, each with its NUL. -/
def strings (l : List CString) : Bytes := (l.map fun s => s.bytes ++ [0]).flatten

/-- Where the `i`-th string of the table is. -/
def stringAt (l : List CString) (i : Nat) : Nat := (strings (l.take i)).length

theorem stringAt_succ (s : CString) (l : List CString) (i : Nat) :
    stringAt (s :: l) (i + 1) = (s.bytes ++ [0]).length + stringAt l i := by
  rw [stringAt, strings, List.take_succ_cons, List.map_cons, List.flatten_cons, List.length_append]
  rfl

theorem stringAt_le : ∀ (l : List CString) (i : Nat), stringAt l i ≤ (strings l).length
  | [], i         => by simp [stringAt, strings]
  | s :: l, 0     => by simp [stringAt, strings]
  | s :: l, i + 1 => by
    have ih := stringAt_le l i
    have hlen : (strings (s :: l)).length = (s.bytes ++ [0]).length + (strings l).length := by
      rw [strings, List.map_cons, List.flatten_cons, List.length_append]
      rfl
    rw [stringAt_succ, hlen]
    omega

/-- **A string of a table is read at its place.** -/
theorem Holds.strings {b : Bytes} : ∀ {l : List CString} {off i : Nat} {s : CString}, Holds b off (strings l) →
    l[i]? = some s → Binary.cstring b (off + stringAt l i) = some s.bytes
  | [], _, _, _, _, hi => by cases hi
  | r :: l, off, 0, s, h, hi => by
    cases hi
    exact h.left.cstring
  | r :: l, off, i + 1, s, h, hi => by
    have hrest := Holds.strings (l := l) (i := i) h.right hi
    rw [stringAt_succ, ← Nat.add_assoc]
    exact hrest

/-! ## Tables -/

/-- A table whose entries were written is read. -/
theorem table_eq_map {α β : Type} {entry : Nat → Option β} {f : α → β} : ∀ {l : List α} {k : Nat},
    (∀ i x, l[i]? = some x → entry (k + i) = some (f x)) → table entry l.length k = some (l.map f)
  | [], _, _ => rfl
  | x :: l, k, h => by
    have hrest := table_eq_map (l := l) (k := k + 1) fun i y hi => by
      have := h (i + 1) y hi
      rwa [← Nat.add_assoc, Nat.add_right_comm] at this
    have hfirst : entry k = some (f x) := h 0 x rfl
    rw [List.length_cons, table, hfirst, Option.bind_eq_bind, Option.bind_some, hrest]
    rfl

end Binary
