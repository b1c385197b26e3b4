import JLSPlant.Binary
/-!
# Stdio — reading a text in pieces, finding strings in it, and numerals

`fgets` delivers a text in pieces: up to a newline, or as many bytes as the buffer holds.  The pieces of a text that
consists of lines are those of its lines (`pieces_line`).  A numeral that was printed is scanned back
(`scanHex_numeral`).
-/
namespace Stdio

open Binary (Bytes)

def ascii (s : String) : Bytes := s.toList.map (fun c => UInt8.ofNat c.toNat)

def newline : UInt8 := 10

/-! ## Pieces -/

/-- The first `n` bytes, or those up to the first newline if it is among them, and what follows. -/
def takeLine : Nat → Bytes → Bytes × Bytes
  | 0, b          => ([], b)
  | _ + 1, []     => ([], [])
  | n + 1, c :: b => if c = newline then ([c], b) else (c :: (takeLine n b).1, (takeLine n b).2)

/-- **`fgets` with a buffer of `n + 1` bytes**: a piece and the rest of the stream, or nothing at its end. -/
def fgets (n : Nat) : Bytes → Option (Bytes × Bytes)
  | []     => none
  | c :: b => some (takeLine n (c :: b))

/-- The pieces of a text, when the first may have `room` bytes and the others `n`. -/
def piecesFrom (n : Nat) : Nat → Bytes → List Bytes
  | _, []       => []
  | room, c :: b =>
    if c = newline ∨ room ≤ 1 then [c] :: piecesFrom n n b
    else match piecesFrom n (room - 1) b with
      | []     => [[c]]
      | p :: l => (c :: p) :: l

/-- **What `fgets` delivers of a text, piece by piece.** -/
def pieces (n : Nat) (b : Bytes) : List Bytes := piecesFrom n n b

theorem piecesFrom_eq (n : Nat) : ∀ (room : Nat) (c : UInt8) (b : Bytes), 0 < room →
    piecesFrom n room (c :: b) = (takeLine room (c :: b)).1 :: pieces n (takeLine room (c :: b)).2
  | 0, _, _, h => absurd h (Nat.lt_irrefl 0)
  | room + 1, c, b, _ => by
    by_cases hc : c = newline
    · simp [piecesFrom, takeLine, pieces, hc]
    · cases room with
      | zero => simp [piecesFrom, takeLine, pieces, hc]
      | succ room =>
        cases b with
        | nil => simp [piecesFrom, takeLine, pieces, hc]
        | cons d b =>
          have ih := piecesFrom_eq n (room + 1) d b (Nat.succ_pos room)
          have htake : takeLine (room + 2) (c :: d :: b) =
              (c :: (takeLine (room + 1) (d :: b)).1, (takeLine (room + 1) (d :: b)).2) := if_neg hc
          have hroom : ¬ (c = newline ∨ room + 2 ≤ 1) := by simp [hc]
          rw [htake, piecesFrom, if_neg hroom, show room + 2 - 1 = room + 1 from rfl, ih]

/-- **The pieces are those of one call of `fgets` after the other.** -/
theorem pieces_eq (n : Nat) (hn : 0 < n) (b : Bytes) :
    pieces n b = match fgets n b with
      | none        => []
      | some (p, r) => p :: pieces n r := by
  cases b with
  | nil => rfl
  | cons c b => exact piecesFrom_eq n n c b hn

theorem takeLine_length : ∀ {n : Nat} {b : Bytes}, (takeLine n b).1.length + (takeLine n b).2.length = b.length
  | 0, b => by simp [takeLine]
  | n + 1, [] => rfl
  | n + 1, c :: b => by
    have ih := takeLine_length (n := n) (b := b)
    by_cases hc : c = newline
    · simp [takeLine, hc]; omega
    · simp only [takeLine, hc, if_false, List.length_cons]; omega

/-- **A call of `fgets` that delivers a piece leaves less of the stream.** -/
theorem fgets_lt {n : Nat} {b p r : Bytes} (h : fgets (n + 1) b = some (p, r)) : r.length < b.length := by
  cases b with
  | nil => cases h
  | cons c b =>
    have hlen := takeLine_length (n := n + 1) (b := c :: b)
    have htake : takeLine (n + 1) (c :: b) = (p, r) := Option.some.inj h
    have hpos : 0 < p.length := by
      rw [takeLine] at htake
      split at htake <;> cases htake <;> simp
    rw [htake] at hlen
    simp only at hlen
    omega

/-- A line: a newline at its end only. -/
def IsLine (l : Bytes) : Prop := ∃ b, newline ∉ b ∧ l = b ++ [newline]

theorem piecesFrom_ne_nil (n room : Nat) (b c : Bytes) (x : UInt8) : piecesFrom n room (b ++ x :: c) ≠ [] := by
  cases b with
  | nil =>
    rw [List.nil_append, piecesFrom]
    split
    · exact List.cons_ne_nil _ _
    · split <;> exact List.cons_ne_nil _ _
  | cons y b =>
    rw [List.cons_append, piecesFrom]
    split
    · exact List.cons_ne_nil _ _
    · split <;> exact List.cons_ne_nil _ _

theorem piecesFrom_line (n : Nat) (rest : Bytes) : ∀ (b : Bytes) (room : Nat), newline ∉ b →
    piecesFrom n room (b ++ newline :: rest) = piecesFrom n room (b ++ [newline]) ++ pieces n rest
  | [], room, _ => by simp [piecesFrom, pieces]
  | c :: b, room, h => by
    have hc : c ≠ newline := fun e => h (by rw [e]; exact List.mem_cons_self)
    have hb : newline ∉ b := fun hm => h (List.mem_cons_of_mem _ hm)
    by_cases hroom : room ≤ 1
    · have ih := piecesFrom_line n rest b n hb
      simp only [List.cons_append, piecesFrom, hc, hroom, or_true, if_true]
      rw [ih]
    · have ih := piecesFrom_line n rest b (room - 1) hb
      simp only [List.cons_append, piecesFrom, hc, hroom, or_self, if_false]
      rw [ih]
      cases hp : piecesFrom n (room - 1) (b ++ [newline]) with
      | nil => exact absurd hp (piecesFrom_ne_nil n (room - 1) b [] newline)
      | cons p l => rfl

/-- **The pieces of lines are those of each line.** -/
theorem pieces_line (n : Nat) {l : Bytes} (hl : IsLine l) (rest : Bytes) :
    pieces n (l ++ rest) = pieces n l ++ pieces n rest := by
  obtain ⟨b, hb, rfl⟩ := hl
  rw [List.append_assoc]
  exact piecesFrom_line n rest b n hb

theorem pieces_flatten (n : Nat) : ∀ {ls : List Bytes}, (∀ l ∈ ls, IsLine l) →
    pieces n ls.flatten = (ls.map (pieces n)).flatten
  | [], _ => rfl
  | l :: ls, h => by
    rw [List.flatten_cons, pieces_line n (h l List.mem_cons_self), List.map_cons, List.flatten_cons,
      pieces_flatten n fun x hx => h x (List.mem_cons_of_mem _ hx)]

theorem takeLine_fst : ∀ {n : Nat} {b : Bytes}, newline ∉ b →
    (takeLine n (b ++ [newline])).1 = (b ++ [newline]).take n
  | 0, _, _ => rfl
  | n + 1, [], _ => by simp [takeLine]
  | n + 1, c :: b, h => by
    have hc : c ≠ newline := fun e => h (by rw [e]; exact List.mem_cons_self)
    have ih := takeLine_fst (n := n) (b := b) (fun hm => h (List.mem_cons_of_mem _ hm))
    simp [takeLine, hc, ih]

/-- **The first piece of a line is its first `n` bytes.** -/
theorem pieces_head (n : Nat) (hn : 0 < n) {l : Bytes} (hl : IsLine l) : ∃ ps, pieces n l = l.take n :: ps := by
  obtain ⟨b, hb, rfl⟩ := hl
  obtain ⟨c, d, hd⟩ := List.exists_cons_of_ne_nil (show b ++ [newline] ≠ [] by simp)
  rw [← takeLine_fst hb, hd]
  exact ⟨_, piecesFrom_eq n n c d hn⟩

/-! ## Substrings -/

/-- Whether `strstr` finds `s` in the bytes. -/
def strstr : Bytes → Bytes → Bool
  | [], s     => s.isEmpty
  | x :: b, s => s.isPrefixOf (x :: b) || strstr b s

theorem strstr_iff : ∀ {b s : Bytes}, strstr b s = true ↔ s <:+: b
  | [], s => by simp [strstr]
  | x :: b, s => by
    rw [strstr, Bool.or_eq_true, strstr_iff, List.isPrefixOf_iff_prefix, List.infix_cons_iff]

/-! ## Numerals -/

def digits (base : Nat) : Nat → Nat → List Nat
  | 0, _     => []
  | k + 1, x => if x = 0 then [] else x % base :: digits base k (x / base)

def digitChar (d : Nat) : UInt8 := if d < 10 then UInt8.ofNat (48 + d) else UInt8.ofNat (87 + d)

/-- `x` in the base, at least `width` digits long. -/
def numeral (base width x : Nat) : Bytes :=
  let ds := digits base 64 x
  (List.replicate (width - ds.length) 0 ++ ds.reverse).map digitChar

def hexValue (c : UInt8) : Option Nat :=
  if 48 ≤ c ∧ c ≤ 57 then some (c.toNat - 48)
  else if 97 ≤ c ∧ c ≤ 102 then some (c.toNat - 87)
  else if 65 ≤ c ∧ c ≤ 70 then some (c.toNat - 55)
  else none

def hexPrefix : Bytes → List Nat
  | []     => []
  | c :: b =>
    match hexValue c with
    | some d => d :: hexPrefix b
    | none   => []

def isSpace (c : UInt8) : Bool := c = 32 || (9 ≤ c && c ≤ 13)

def skipSign : Bytes → Bool × Bytes
  | 45 :: b => (true, b)
  | 43 :: b => (false, b)
  | b       => (false, b)

def skipBase : Bytes → Bytes
  | 48 :: x :: c :: b => if (x = 120 ∨ x = 88) ∧ (hexValue c).isSome then c :: b else 48 :: x :: c :: b
  | b                 => b

/-- **`sscanf` with `%lx`**, for a `long` of the modulus: the number, or nothing when there is none or it does not
fit. -/
def scanHex (modulus : Nat) (b : Bytes) : Option Nat :=
  let (negative, b) := skipSign (b.dropWhile isSpace)
  let ds := hexPrefix (skipBase b)
  if ds.isEmpty then none else
  let x := ds.foldl (fun a d => a * 16 + d) 0
  if x < modulus then some (if negative then (modulus - x) % modulus else x) else none

theorem digits_lt {base : Nat} (hb : 0 < base) : ∀ (k x : Nat), ∀ d ∈ digits base k x, d < base
  | 0, _, _, h => by cases h
  | k + 1, x, d, h => by
    rw [digits] at h
    split at h
    · cases h
    · rcases List.mem_cons.1 h with rfl | h
      · exact Nat.mod_lt _ hb
      · exact digits_lt hb k _ d h

theorem digits_value {base : Nat} (hb : 0 < base) : ∀ (k x : Nat), x < base ^ k →
    (digits base k x).foldr (fun d a => a * base + d) 0 = x
  | 0, x, h => by simp at h; simp [digits, h]
  | k + 1, x, h => by
    rw [digits]
    by_cases hx : x = 0
    · simp [hx]
    · have hlt : x / base < base ^ k := Nat.div_lt_of_lt_mul (by rwa [Nat.pow_succ, Nat.mul_comm] at h)
      rw [if_neg hx, List.foldr_cons, digits_value hb k _ hlt, Nat.mul_comm]
      exact Nat.div_add_mod x base

theorem hexValue_digitChar : ∀ d < 16, hexValue (digitChar d) = some d := by decide

/-- A digit is no blank, no sign and no `x`. -/
theorem digitChar_plain : ∀ d < 16, isSpace (digitChar d) = false ∧ digitChar d ≠ 45 ∧ digitChar d ≠ 43 ∧
    digitChar d ≠ 120 ∧ digitChar d ≠ 88 := by decide

theorem hexPrefix_digits {c : UInt8} (hc : hexValue c = none) (rest : Bytes) : ∀ {l : List Nat}, (∀ d ∈ l, d < 16) →
    hexPrefix (l.map digitChar ++ c :: rest) = l
  | [], _ => by simp [hexPrefix, hc]
  | d :: l, h => by
    have hd := hexValue_digitChar d (h d List.mem_cons_self)
    have ih := hexPrefix_digits hc rest fun x hx => h x (List.mem_cons_of_mem _ hx)
    simp [hexPrefix, hd, ih]

theorem skipSign_of_ne {x : UInt8} {b : Bytes} (h : x ≠ 45) (h' : x ≠ 43) : skipSign (x :: b) = (false, x :: b) := by
  unfold skipSign
  split
  · rename_i he; exact absurd (List.cons.inj he).1 h
  · rename_i he; exact absurd (List.cons.inj he).1 h'
  · rfl

theorem skipBase_of_ne {x y : UInt8} {b : Bytes} (h : y ≠ 120) (h' : y ≠ 88) :
    skipBase (x :: y :: b) = x :: y :: b := by
  unfold skipBase
  split
  · rename_i z c b' he
    obtain ⟨hx, he⟩ := List.cons.inj he
    obtain ⟨rfl, rfl⟩ := List.cons.inj he
    simp [h, h', hx]
  · rfl

/-- The digits of a numeral, most significant first. -/
theorem numeral_digits (width : Nat) {base x : Nat} (hb : 0 < base) (hx : x < base ^ 64) : ∃ l : List Nat,
    numeral base width x = l.map digitChar ∧ (∀ d ∈ l, d < base) ∧ width ≤ l.length ∧
      l.foldl (fun a d => a * base + d) 0 = x := by
  have hzeros : ∀ n : Nat, (List.replicate n 0).foldl (fun a d => a * base + d) 0 = 0 := by
    intro n
    induction n with
    | zero => rfl
    | succ n ih => simp [List.replicate_succ, ih]
  refine ⟨_, rfl, fun d hd => ?_, by simp; omega, ?_⟩
  · rcases List.mem_append.1 hd with hd | hd
    · rw [List.eq_of_mem_replicate hd]; exact hb
    · exact digits_lt hb 64 x d (List.mem_reverse.1 hd)
  · rw [List.foldl_append, hzeros, List.foldl_reverse]
    exact digits_value hb 64 x hx

/-- A numeral is made of digits of its base. -/
theorem mem_numeral {base width x : Nat} (hb : 0 < base) {c : UInt8} (h : c ∈ numeral base width x) :
    ∃ d < base, c = digitChar d := by
  obtain ⟨d, hd, rfl⟩ := List.mem_map.1 h
  rcases List.mem_append.1 hd with hd | hd
  · exact ⟨d, by rw [List.eq_of_mem_replicate hd]; exact hb, rfl⟩
  · exact ⟨d, digits_lt hb 64 x d (List.mem_reverse.1 hd), rfl⟩

/-- **A printed number is scanned back**, where something other than a digit follows. -/
theorem scanHex_numeral {modulus width x : Nat} (hx : x < modulus) (hm : modulus ≤ 16 ^ 64) (hw : 2 ≤ width)
    {c : UInt8} (hc : hexValue c = none) (rest : Bytes) :
    scanHex modulus (numeral 16 width x ++ c :: rest) = some x := by
  obtain ⟨l, hl, hlt, hlen, hvalue⟩ := numeral_digits width (by decide : 0 < 16) (Nat.lt_of_lt_of_le hx hm)
  rw [hl]
  obtain ⟨d, l', rfl⟩ := List.exists_cons_of_length_pos (show 0 < l.length by omega)
  have hpos : 0 < l'.length := by rw [List.length_cons] at hlen; omega
  obtain ⟨e, l'', rfl⟩ := List.exists_cons_of_length_pos hpos
  obtain ⟨hspace, hminus, hplus, -⟩ := digitChar_plain d (hlt d (by simp))
  obtain ⟨-, -, -, hx', hX⟩ := digitChar_plain e (hlt e (by simp))
  have hblank : (((d :: e :: l'').map digitChar ++ c :: rest).dropWhile isSpace) =
      (d :: e :: l'').map digitChar ++ c :: rest := by simp [hspace]
  have hdigits := hexPrefix_digits hc rest hlt
  unfold scanHex
  rw [hblank]
  simp only [List.map_cons, List.cons_append] at hdigits ⊢
  rw [skipSign_of_ne hminus hplus]
  simp only [skipBase_of_ne hx' hX, hdigits, hvalue, List.isEmpty_cons, hx, if_true, Bool.false_eq_true, if_false]

end Stdio
