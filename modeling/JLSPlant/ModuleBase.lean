import JLSPlant.IoWrapper
import JLSPlant.Stdio
/-!
# ModuleBase — `getModuleBase`: the load address, searched for in `/proc/self/maps`

The search takes the text in the pieces `fgets` delivers, and the first one that holds the name and `r-xp` or `r--p`
anywhere.  This is the first mapping of the file with such permissions exactly when no piece of a line before it holds
them, and its line is not longer than a piece (`module_base_iff`).
-/
namespace JLSPlant

open Binary (Bytes CString)
open Stdio (ascii newline numeral fgets pieces strstr scanHex IsLine)

/-! ## The maps -/

structure Perms where
  read : Bool
  write : Bool
  exec : Bool
  shared : Bool
deriving DecidableEq

namespace Perms

def bytes (p : Perms) : Bytes :=
  (if p.read then ascii "r" else ascii "-") ++ (if p.write then ascii "w" else ascii "-") ++
    (if p.exec then ascii "x" else ascii "-") ++ (if p.shared then ascii "s" else ascii "p")

def rxp : Perms := ⟨true, false, true, false⟩

def rp : Perms := ⟨true, false, false, false⟩

end Perms

/-- **A mapping, as the kernel lists it.** -/
structure Mapping (w : ElfClass) where
  start : Nat
  stop : Nat
  perms : Perms
  offset : Nat
  major : Nat
  minor : Nat
  inode : Nat
  pathname : Bytes
  start_lt : start < w.modulus
  noNewline : newline ∉ pathname
  noNul : 0 ∉ pathname

namespace Mapping

variable {w : ElfClass}

def range (m : Mapping w) : Bytes := numeral 16 8 m.start ++ ascii "-" ++ numeral 16 8 m.stop ++ ascii " "

def attributes (m : Mapping w) : Bytes :=
  ascii " " ++ numeral 16 8 m.offset ++ ascii " " ++ numeral 16 2 m.major ++ ascii ":" ++ numeral 16 2 m.minor ++
    ascii " " ++ numeral 10 1 m.inode ++ ascii " "

def fields (m : Mapping w) : Bytes := m.range ++ m.perms.bytes ++ m.attributes

/-- The fields, and blanks up to the column of the path names. -/
def padded (m : Mapping w) (column : Nat) : Bytes :=
  m.fields ++ List.replicate (column - m.fields.length) 32 ++ ascii " "

def line (m : Mapping w) (column : Nat) : Bytes :=
  (if m.pathname = [] then m.fields else m.padded column ++ m.pathname) ++ [newline]

/-- **The mapping looked for**: of the file `name`, with `r-xp` or `r--p`. -/
def IsOf (m : Mapping w) (name : CString) : Prop := m.pathname = name.bytes ∧ (m.perms = .rxp ∨ m.perms = .rp)

instance (m : Mapping w) (name : CString) : Decidable (m.IsOf name) := inferInstanceAs (Decidable (_ ∧ _))

end Mapping

/-- Where a kernel of the word size puts the path names, for processes of both word sizes. -/
def pathColumn (kernel : ElfClass) : Nat := 25 + kernel.bytes * 6 - 1

def mapsText {w : ElfClass} (column : Nat) (ms : List (Mapping w)) : Bytes := (ms.map (·.line column)).flatten

/-! ## The search -/

/-- What stops `JNI_OnLoad`: a loop that has not ended, a path longer than its buffer, a header that is not mapped,
a read outside the file or past the buffer of a name, a null `FILE*`, a variable that was never set. -/
inductive Fault
  | unfinished | overflow | invalidHeader | outsideFile | nullFile | unsetAddress
deriving DecidableEq, Repr

def orFault {α : Type} (f : Fault) : Option α → Except Fault α
  | some a => .ok a
  | none   => .error f

namespace ElfImg

/-- `strstr(buff, name) && (strstr(buff, "r-xp") || strstr(buff, "r--p"))`. -/
def matchesMapping (name : CString) (buff : Bytes) : Bool :=
  strstr buff name.bytes && (strstr buff (ascii "r-xp") || strstr buff (ascii "r--p"))

/-- One round of the search, after `k` pieces: `buff` holds 255 bytes and a NUL. -/
def mapsRound (name : CString) : Nat × Bytes → Option (Option (Nat × Bytes) ⊕ (Nat × Bytes))
  | (k, maps) =>
    match fgets 255 maps with
    | none              => some (.inl none)
    | some (buff, maps) => if matchesMapping name buff then some (.inl (some (k, buff)))
      else some (.inr (k + 1, maps))

/-- The piece the search stops at, and how many it has read before. -/
def searchMaps (name : CString) (maps : Bytes) : Option (Option (Nat × Bytes)) :=
  Loops.run (mapsRound name) (maps.length + 1) (0, maps)

/-- **`getModuleBase`**: 0 is `nullptr`. -/
def getModuleBase (w : ElfClass) (fopens : Nat → IoWrapper.Answer Bytes) (name : CString) : Except Fault Nat := do
  let (maps, _) ← orFault .unfinished (IoWrapper.wrappedFOpen fopens)
  match maps with
  | none      => .error .nullFile
  | some maps =>
    match ← orFault .unfinished (searchMaps name maps) with
    | none           => .ok 0
    | some (_, buff) => orFault .unsetAddress (scanHex w.modulus buff)

end ElfImg

/-! ## The pieces -/

section
variable {name : CString}

/-- The first piece that matches, where `k` pieces come before. -/
def firstMatch (name : CString) : Nat → List Bytes → Option (Nat × Bytes)
  | _, []     => none
  | k, p :: l => if ElfImg.matchesMapping name p then some (k, p) else firstMatch name (k + 1) l

theorem firstMatch_append {m : List Bytes} : ∀ {l : List Bytes} {k : Nat},
    (∀ p ∈ l, ElfImg.matchesMapping name p = false) → firstMatch name k (l ++ m) = firstMatch name (k + l.length) m
  | [], _, _ => rfl
  | p :: l, k, h => by
    have hp := h p List.mem_cons_self
    have ih := firstMatch_append (m := m) (k := k + 1) fun q hq => h q (List.mem_cons_of_mem _ hq)
    simp only [List.cons_append, firstMatch, hp, List.length_cons, Bool.false_eq_true, if_false]
    rw [ih, Nat.add_right_comm, Nat.add_assoc]

theorem firstMatch_eq_none : ∀ {l : List Bytes} {k : Nat},
    firstMatch name k l = none ↔ ∀ p ∈ l, ElfImg.matchesMapping name p = false
  | [], _ => by simp [firstMatch]
  | p :: l, k => by
    have ih := firstMatch_eq_none (l := l) (k := k + 1)
    cases hp : ElfImg.matchesMapping name p <;> simp [firstMatch, hp, ih]

theorem firstMatch_eq_some : ∀ {l : List Bytes} {k i : Nat} {p : Bytes}, firstMatch name k l = some (i, p) →
    ∃ pre post, l = pre ++ p :: post ∧ i = k + pre.length ∧ ElfImg.matchesMapping name p = true ∧
      ∀ q ∈ pre, ElfImg.matchesMapping name q = false
  | [], _, _, _, h => by cases h
  | q :: l, k, i, p, h => by
    rw [firstMatch] at h
    by_cases hq : ElfImg.matchesMapping name q = true
    · rw [if_pos hq] at h
      cases h
      exact ⟨[], l, rfl, rfl, hq, fun x hx => (by cases hx)⟩
    · rw [if_neg hq] at h
      obtain ⟨pre, post, rfl, rfl, hp, hpre⟩ := firstMatch_eq_some h
      refine ⟨q :: pre, post, rfl, by simp; omega, hp, fun x hx => ?_⟩
      rcases List.mem_cons.1 hx with rfl | hx
      · simpa using hq
      · exact hpre x hx

/-- **The search ends, at the first piece that matches.** -/
theorem searchMaps_eq (name : CString) (maps : Bytes) :
    ElfImg.searchMaps name maps = some (firstMatch name 0 (pieces 255 maps)) := by
  have hrun : ∀ (fuel k : Nat) (b : Bytes), b.length < fuel →
      Loops.run (ElfImg.mapsRound name) fuel (k, b) = some (firstMatch name k (pieces 255 b)) := by
    intro fuel
    induction fuel with
    | zero => intro k b h; exact absurd h (Nat.not_lt_zero _)
    | succ fuel ih =>
      intro k b h
      rw [Stdio.pieces_eq 255 (by decide) b]
      cases hfgets : fgets 255 b with
      | none => exact Loops.run_done (by simp [ElfImg.mapsRound, hfgets, firstMatch]) fuel
      | some r =>
        obtain ⟨p, r⟩ := r
        have hlt := Stdio.fgets_lt hfgets
        by_cases hp : ElfImg.matchesMapping name p = true
        · simp only [firstMatch, hp, if_true]
          exact Loops.run_done (by simp [ElfImg.mapsRound, hfgets, hp]) fuel
        · have hround : ElfImg.mapsRound name (k, b) = some (.inr (k + 1, r)) := by
            simp [ElfImg.mapsRound, hfgets, hp]
          rw [Loops.run_again hround, ih (k + 1) r (by omega)]
          simp [firstMatch, hp]
  exact hrun _ 0 maps (Nat.lt_succ_self _)

end

/-! ## The lines -/

/-- No newline and no slash. -/
def Plain (b : Bytes) : Prop := ∀ c ∈ b, c ≠ newline ∧ c ≠ 47

theorem Plain.of_all {b : Bytes} (h : b.all (fun c => c ≠ newline && c ≠ 47) = true) : Plain b := fun c hc => by
  simpa using List.all_eq_true.1 h c hc

theorem Plain.append {a b : Bytes} (ha : Plain a) (hb : Plain b) : Plain (a ++ b) := fun c hc =>
  (List.mem_append.1 hc).elim (ha c) (hb c)

theorem numeral_plain {base width x : Nat} (hb : 0 < base) (hb' : base ≤ 16) : Plain (numeral base width x) := by
  intro c hc
  have hdigit : ∀ d < 16, Stdio.digitChar d ≠ newline ∧ Stdio.digitChar d ≠ 47 := by decide
  obtain ⟨d, hd, rfl⟩ := Stdio.mem_numeral hb hc
  exact hdigit d (by omega)

namespace Mapping

variable {w : ElfClass}

theorem padded_plain (m : Mapping w) (column : Nat) : Plain (m.padded column) := by
  have hperms : Plain m.perms.bytes := by
    obtain ⟨r, w, x, s⟩ := m.perms
    cases r <;> cases w <;> cases x <;> cases s <;> exact .of_all (by decide)
  have hblank : Plain (ascii " ") := .of_all (by decide)
  have hdash : Plain (ascii "-") := .of_all (by decide)
  have hcolon : Plain (ascii ":") := .of_all (by decide)
  have hblanks : ∀ n, Plain (List.replicate n 32) := fun n c hc => by
    rw [List.eq_of_mem_replicate hc]
    decide
  have hhex : ∀ width x, Plain (numeral 16 width x) := fun _ _ => numeral_plain (by decide) (by decide)
  have hinode : Plain (numeral 10 1 m.inode) := numeral_plain (by decide) (by decide)
  have hrange : Plain m.range := (((hhex _ _).append hdash).append (hhex _ _)).append hblank
  have hattributes : Plain m.attributes :=
    (((((((hblank.append (hhex _ _)).append hblank).append (hhex _ _)).append hcolon).append (hhex _ _)).append
      hblank).append hinode).append hblank
  exact (((hrange.append hperms).append hattributes).append (hblanks _)).append hblank

theorem fields_prefix (m : Mapping w) (column : Nat) : m.fields <+: m.padded column := by
  unfold padded
  rw [List.append_assoc]
  exact List.prefix_append _ _

theorem line_isLine (m : Mapping w) (column : Nat) : IsLine (m.line column) := by
  refine ⟨_, fun h => ?_, rfl⟩
  split at h
  · exact (m.padded_plain column newline ((m.fields_prefix column).subset h)).1 rfl
  · rcases List.mem_append.1 h with h | h
    · exact (m.padded_plain column newline h).1 rfl
    · exact m.noNewline h

/-- The line of a mapping looked for. -/
theorem IsOf.line_eq {m : Mapping w} {name : CString} (h : m.IsOf name) (habs : name.bytes.head? = some 47)
    (column : Nat) : m.line column = m.padded column ++ name.bytes ++ [newline] := by
  have hne : m.pathname ≠ [] := by
    rw [h.1]
    intro hn
    rw [hn] at habs
    cases habs
  unfold line
  rw [if_neg hne, h.1]

/-- **The start is scanned from what begins with the fields.** -/
theorem scanHex_fields (m : Mapping w) (t : Bytes) : scanHex w.modulus (m.fields ++ t) = some m.start := by
  have hm : w.modulus ≤ 16 ^ 64 := by cases w <;> decide
  have hdash : Stdio.hexValue 45 = none := by decide
  have hsplit : ∃ rest, m.fields ++ t = numeral 16 8 m.start ++ 45 :: rest := by
    unfold fields range
    simp only [List.append_assoc]
    exact ⟨_, rfl⟩
  obtain ⟨rest, hrest⟩ := hsplit
  rw [hrest]
  exact Stdio.scanHex_numeral m.start_lt hm (by decide) hdash rest

theorem perms_infix (m : Mapping w) : m.perms.bytes <:+: m.fields := ⟨m.range, m.attributes, rfl⟩

end Mapping

/-- A string that begins with a slash is found in the beginning of a text that ends with it only if this is the
whole text, when no slash comes before. -/
theorem infix_take {pre s : Bytes} {n : Nat} (hpre : 47 ∉ pre) (hs : s.head? = some 47)
    (h : s <:+: (pre ++ s).take n) :
    pre.length + s.length ≤ n := by
  obtain ⟨a, c, hac⟩ := h
  obtain ⟨s', rfl⟩ : ∃ s', s = 47 :: s' := by
    cases s with
    | nil => cases hs
    | cons x s => exact ⟨s, by rw [Option.some.inj hs]⟩
  have hsplit : pre ++ 47 :: s' = a ++ 47 :: s' ++ (c ++ (pre ++ 47 :: s').drop n) := by
    rw [← List.append_assoc, hac, List.take_append_drop]
  have hle : pre.length ≤ a.length := by
    rw [← Nat.not_lt]
    intro hlt
    have hget := congrArg (·[a.length]?) hsplit
    simp only [List.append_assoc, List.cons_append, List.getElem?_append_left hlt,
      List.getElem?_append_right (Nat.le_refl _),
      Nat.sub_self, List.getElem?_cons_zero] at hget
    exact hpre (List.mem_iff_getElem?.2 ⟨a.length, hget⟩)
  have hlen := congrArg List.length hac
  rw [List.length_append, List.length_append, List.length_take] at hlen
  omega

section
variable {w : ElfClass} {m : Mapping w} {name : CString}

/-- **The line looked for matches in its first piece exactly when it fits one.** -/
theorem matches_first_iff (h : m.IsOf name) (habs : name.bytes.head? = some 47) (column : Nat) :
    ElfImg.matchesMapping name ((m.line column).take 255) = true ↔ (m.line column).length ≤ 256 := by
  have hlen : (m.line column).length = (m.padded column).length + name.bytes.length + 1 := by
    rw [h.line_eq habs column, List.length_append, List.length_append]
    rfl
  unfold ElfImg.matchesMapping
  rw [Bool.and_eq_true, Bool.or_eq_true, Stdio.strstr_iff, Stdio.strstr_iff, Stdio.strstr_iff]
  constructor
  · rintro ⟨hname, -⟩
    rw [← Nat.not_lt]
    intro hlong
    have htake : (m.line column).take 255 = (m.padded column ++ name.bytes).take 255 := by
      rw [h.line_eq habs column, List.take_append_of_le_length (by rw [List.length_append]; omega)]
    rw [htake] at hname
    have hle := infix_take (fun hm => (m.padded_plain column 47 hm).2 rfl) habs hname
    omega
  · intro hshort
    have hprefix : m.padded column ++ name.bytes <+: (m.line column).take 255 := by
      rw [h.line_eq habs column, List.take_append, List.take_of_length_le (by rw [List.length_append]; omega)]
      exact List.prefix_append _ _
    have hfields : m.fields <+: (m.line column).take 255 :=
      (m.fields_prefix column).trans ((List.prefix_append _ _).trans hprefix)
    have hperms : m.perms.bytes <:+: (m.line column).take 255 := m.perms_infix.trans hfields.isInfix
    refine ⟨(List.suffix_append _ _).isInfix.trans hprefix.isInfix, ?_⟩
    rcases h.2 with hrxp | hrp
    · exact Or.inl (by rw [hrxp] at hperms; exact hperms)
    · exact Or.inr (by rw [hrp] at hperms; exact hperms)

/-- Where it fits, the start is scanned from the piece. -/
theorem scanHex_first (h : m.IsOf name) (habs : name.bytes.head? = some 47) {column : Nat}
    (hshort : (m.line column).length ≤ 256) :
    scanHex w.modulus ((m.line column).take 255) = some m.start := by
  have hlen : (m.line column).length = (m.padded column).length + name.bytes.length + 1 := by
    rw [h.line_eq habs column, List.length_append, List.length_append]
    rfl
  have hprefix : m.padded column <+: (m.line column).take 255 := by
    rw [h.line_eq habs column, List.append_assoc, List.take_append, List.take_of_length_le (by omega)]
    exact List.prefix_append _ _
  obtain ⟨t, ht⟩ := (m.fields_prefix column).trans hprefix
  rw [← ht]
  exact m.scanHex_fields t

end

/-! ## The module base -/

section
variable {name : CString}

theorem firstMatch_at_iff (name : CString) (k : Nat) (l : List Bytes) (p : Bytes) (r : List Bytes) :
    firstMatch name k (l ++ p :: r) = some (k + l.length, p) ↔
      (∀ q ∈ l, ElfImg.matchesMapping name q = false) ∧ ElfImg.matchesMapping name p = true := by
  constructor
  · intro h
    obtain ⟨pre, post, hl, hk, hp, hpre⟩ := firstMatch_eq_some h
    obtain ⟨rfl, -⟩ := List.append_inj hl (by omega)
    exact ⟨hpre, hp⟩
  · rintro ⟨hl, hp⟩
    rw [firstMatch_append hl, firstMatch, if_pos hp]

variable {w : ElfClass}

theorem pieces_mapsText column (ms : List (Mapping w)) :
    pieces 255 (mapsText column ms) = (ms.map fun m => pieces 255 (m.line column)).flatten := by
  have hlines : ∀ l ∈ ms.map (·.line column), IsLine l := by
    intro l hl
    obtain ⟨m, -, rfl⟩ := List.mem_map.1 hl
    exact m.line_isLine column
  rw [mapsText, Stdio.pieces_flatten 255 hlines, List.map_map]
  rfl

theorem pieces_mapsText_append (column : Nat) (l m : List (Mapping w)) :
    pieces 255 (mapsText column (l ++ m)) = pieces 255 (mapsText column l) ++ pieces 255 (mapsText column m) := by
  simp [pieces_mapsText]

theorem mem_pieces_mapsText {column : Nat} {ms : List (Mapping w)} {p : Bytes} :
    p ∈ pieces 255 (mapsText column ms) ↔ ∃ m ∈ ms, p ∈ pieces 255 (m.line column) := by
  simp [pieces_mapsText]

/-- The pieces where a line of the text begins. -/
theorem pieces_mapsText_cons (column : Nat) (m : Mapping w) (after : List (Mapping w)) :
    ∃ ps, pieces 255 (mapsText column (m :: after)) = (m.line column).take 255 :: ps := by
  obtain ⟨ps, hps⟩ := Stdio.pieces_head 255 (by decide) (m.line_isLine column)
  exact ⟨_, by rw [pieces_mapsText, List.map_cons, List.flatten_cons, hps, List.cons_append]⟩

/-- What `getModuleBase` returns when the search ends without a piece, once the maps are open. -/
theorem getModuleBase_absent {fopens : Nat → IoWrapper.Answer Bytes} {maps : Bytes} {n : Nat}
    (hopen : IoWrapper.wrappedFOpen fopens = some (some maps, n))
    (hsearch : ElfImg.searchMaps name maps = some none) :
    ElfImg.getModuleBase w fopens name = .ok 0 := by
  unfold ElfImg.getModuleBase
  rw [hopen]
  simp only [orFault, bind, Except.bind, hsearch]

theorem getModuleBase_found {fopens : Nat → IoWrapper.Answer Bytes} {maps buff : Bytes} {n k : Nat}
    (hopen : IoWrapper.wrappedFOpen fopens = some (some maps, n))
    (hsearch : ElfImg.searchMaps name maps = some (some (k, buff))) :
    ElfImg.getModuleBase w fopens name = orFault .unsetAddress (scanHex w.modulus buff) := by
  unfold ElfImg.getModuleBase
  rw [hopen]
  simp only [orFault, bind, Except.bind, hsearch]

/-- A list of mappings has none of the file, or a first one. -/
theorem first_mapping (name : CString) : ∀ ms : List (Mapping w), (∀ x ∈ ms, ¬ x.IsOf name) ∨
    ∃ before m after, ms = before ++ m :: after ∧ (∀ x ∈ before, ¬ x.IsOf name) ∧ m.IsOf name
  | [] => Or.inl fun x hx => by cases hx
  | m :: ms => by
    by_cases hm : m.IsOf name
    · exact Or.inr ⟨[], m, ms, rfl, (fun x hx => by cases hx), hm⟩
    · rcases first_mapping name ms with hnone | ⟨before, m', after, rfl, hbefore, hm'⟩
      · exact Or.inl (List.forall_mem_cons.2 ⟨hm, hnone⟩)
      · exact Or.inr ⟨m :: before, m', after, rfl, List.forall_mem_cons.2 ⟨hm, hbefore⟩, hm'⟩

/-- **The module base is the start of the first mapping of the file**: the search stops where the line of this mapping
begins and returns its start, and it returns null when there is no such mapping. -/
structure FindsBase (column : Nat) (ms : List (Mapping w)) (name : CString) : Prop where
  found : ∀ before m after, ms = before ++ m :: after → (∀ x ∈ before, ¬ x.IsOf name) → m.IsOf name →
    ElfImg.searchMaps name (mapsText column ms) =
      some (some ((pieces 255 (mapsText column before)).length, (m.line column).take 255)) ∧
      ElfImg.getModuleBase w (fun _ => .ok (mapsText column ms)) name = .ok m.start
  absent : (∀ x ∈ ms, ¬ x.IsOf name) → ElfImg.searchMaps name (mapsText column ms) = some none ∧
    ElfImg.getModuleBase w (fun _ => .ok (mapsText column ms)) name = .ok 0

/-- **The search stops where the line of a mapping begins** exactly when no piece before matches and the beginning
of the line does. -/
theorem searchMaps_at_iff (column : Nat) (name : CString) (before : List (Mapping w)) (m : Mapping w)
    (after : List (Mapping w)) :
    ElfImg.searchMaps name (mapsText column (before ++ m :: after)) =
        some (some ((pieces 255 (mapsText column before)).length, (m.line column).take 255)) ↔
      (∀ x ∈ before, ∀ p ∈ pieces 255 (x.line column), ElfImg.matchesMapping name p = false) ∧
        ElfImg.matchesMapping name ((m.line column).take 255) = true := by
  obtain ⟨ps, hps⟩ := pieces_mapsText_cons column m after
  have hat := firstMatch_at_iff name 0 (pieces 255 (mapsText column before)) ((m.line column).take 255) ps
  rw [Nat.zero_add] at hat
  rw [searchMaps_eq, pieces_mapsText_append, hps, Option.some.injEq, hat]
  refine and_congr ⟨fun h x hx p hp => ?_, fun h p hp => ?_⟩ Iff.rfl
  · exact h p (mem_pieces_mapsText.2 ⟨x, hx, hp⟩)
  · obtain ⟨x, hx, hp⟩ := mem_pieces_mapsText.1 hp
    exact h x hx p hp

theorem searchMaps_none_iff (column : Nat) (ms : List (Mapping w)) :
    ElfImg.searchMaps name (mapsText column ms) = some none ↔
    ∀ x ∈ ms, ∀ p ∈ pieces 255 (x.line column), ElfImg.matchesMapping name p = false := by
  rw [searchMaps_eq, Option.some.injEq, firstMatch_eq_none]
  constructor
  · intro h x hx p hp
    exact h p (mem_pieces_mapsText.2 ⟨x, hx, hp⟩)
  · intro h p hp
    obtain ⟨x, hx, hp⟩ := mem_pieces_mapsText.1 hp
    exact h x hx p hp

/-- **The base is the right one exactly when no line before the first mapping of the file has a piece that holds the
name and the permissions, and the line of this mapping fits one piece** but for its newline. -/
theorem module_base_iff (column : Nat) (ms : List (Mapping w)) (name : CString) (habs : name.bytes.head? = some 47) :
    FindsBase column ms name ↔ ∀ before m after, ms = before ++ m :: after → (∀ x ∈ before, ¬ x.IsOf name) →
      (m.IsOf name → (m.line column).length ≤ 256) ∧
        (¬ m.IsOf name → ∀ p ∈ pieces 255 (m.line column), ElfImg.matchesMapping name p = false) := by
  constructor
  · rintro hfinds before m after rfl hbefore
    refine ⟨fun hm => ?_, fun hm => ?_⟩
    · obtain ⟨hsearch, -⟩ := hfinds.found before m after rfl hbefore hm
      exact (matches_first_iff hm habs column).1 ((searchMaps_at_iff column name before m after).1 hsearch).2
    · have hquiet : ∀ x ∈ before ++ [m], ¬ x.IsOf name := List.forall_mem_append.2 ⟨hbefore, by simpa using hm⟩
      have hmem : m ∈ before ++ [m] := by simp
      rcases first_mapping name after with hnone | ⟨between, m', rest, rfl, hbetween, hm'⟩
      · have hall : ∀ x ∈ before ++ m :: after, ¬ x.IsOf name := by
          rw [List.append_cons]
          exact List.forall_mem_append.2 ⟨hquiet, hnone⟩
        exact (searchMaps_none_iff column _).1 (hfinds.absent hall).1 m (by simp)
      · have hsplit : before ++ m :: (between ++ m' :: rest) = (before ++ [m] ++ between) ++ m' :: rest := by simp
        rw [hsplit] at hfinds
        obtain ⟨hsearch, -⟩ := hfinds.found _ m' rest rfl (List.forall_mem_append.2 ⟨hquiet, hbetween⟩) hm'
        exact ((searchMaps_at_iff column name _ m' rest).1 hsearch).1 m (List.mem_append_left _ hmem)
  · intro hlines
    have hquiet : ∀ before after, ms = before ++ after → (∀ x ∈ before, ¬ x.IsOf name) →
        ∀ x ∈ before, ∀ p ∈ pieces 255 (x.line column), ElfImg.matchesMapping name p = false := by
      rintro before after rfl hbefore x hx
      obtain ⟨a, b, rfl⟩ := List.append_of_mem hx
      have ha : ∀ y ∈ a, ¬ y.IsOf name := fun y hy => hbefore y (List.mem_append_left _ hy)
      exact (hlines a x (b ++ after) (by simp) ha).2 (hbefore x hx)
    refine ⟨fun before m after hms hbefore hm => ?_, fun hnone => ?_⟩
    · have hshort := (hlines before m after hms hbefore).1 hm
      have hsearch := (searchMaps_at_iff column name before m after).2
        ⟨hquiet before (m :: after) hms hbefore, (matches_first_iff hm habs column).2 hshort⟩
      rw [hms]
      refine ⟨hsearch, ?_⟩
      rw [getModuleBase_found rfl hsearch, scanHex_first hm habs hshort]
      rfl
    · have hsearch := (searchMaps_none_iff column ms).2 (hquiet ms [] (by simp) hnone)
      exact ⟨hsearch, getModuleBase_absent rfl hsearch⟩

/-- The file mapped shared, a copy of it, and the file as the linker mapped it. -/
def sharedMapping : Mapping .elf64 where
  start := 4096
  stop := 8192
  perms := ⟨true, false, false, true⟩
  offset := 0
  major := 8
  minor := 1
  inode := 7
  pathname := ascii "/a.so"
  start_lt := by decide
  noNewline := by decide
  noNul := by decide

def copyMapping : Mapping .elf64 :=
  { sharedMapping with
    perms := .rp, inode := 8, pathname := ascii "/a.so.bak", noNewline := by decide, noNul := by decide }

def linkedMapping : Mapping .elf64 :=
  { sharedMapping with start := 8192, stop := 12288, perms := .rp, start_lt := by decide }

/-- The line of the shared mapping is passed over. -/
theorem module_base_iff_shared : ElfImg.getModuleBase .elf64
    (fun _ => .ok (mapsText (pathColumn .elf64) [sharedMapping, linkedMapping])) ⟨ascii "/a.so", by decide⟩ =
      .ok 8192 := by
  have hfinds := (module_base_iff (pathColumn .elf64) [sharedMapping, linkedMapping] ⟨ascii "/a.so", by decide⟩
    (by decide)).2 ?_
  · exact (hfinds.found [sharedMapping] linkedMapping [] rfl (by decide) (by decide)).2
  · intro before m after h hbefore
    rcases before with _ | ⟨x, _ | ⟨y, before⟩⟩
    · obtain ⟨rfl, -⟩ := List.cons.inj h
      exact ⟨fun hm => absurd hm (by decide), fun _ => by decide +kernel⟩
    · obtain ⟨rfl, rfl, -⟩ := List.cons.inj h |>.imp id List.cons.inj
      exact ⟨fun _ => by decide +kernel, fun hm => absurd (by decide) hm⟩
    · simp at h

/-- **The line of a copy, under a name that the name begins, is taken.** -/
theorem module_base_copy : ElfImg.getModuleBase .elf64
      (fun _ => .ok (mapsText (pathColumn .elf64) [copyMapping, linkedMapping])) ⟨ascii "/a.so", by decide⟩ =
        .ok 4096 ∧
    ¬ FindsBase (pathColumn .elf64) [copyMapping, linkedMapping] ⟨ascii "/a.so", by decide⟩ := by
  have hcopy : ElfImg.getModuleBase .elf64
      (fun _ => .ok (mapsText (pathColumn .elf64) [copyMapping, linkedMapping])) ⟨ascii "/a.so", by decide⟩ =
        .ok 4096 := by decide +kernel
  refine ⟨hcopy, fun hfinds => ?_⟩
  obtain ⟨-, hlinked⟩ := hfinds.found [copyMapping] linkedMapping [] rfl (by decide) (by decide)
  rw [hcopy] at hlinked
  cases hlinked

end

end JLSPlant
