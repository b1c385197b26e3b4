import JLSPlant.Lookup
import JLSPlant.SectionScan
/-!
# Pairing — which string table `Open` gives each symbol table

The format names a symbol table's strings by its `sh_link`, which `Open` does not read: it takes the last string
table before the latch closes for `.dynsym`, and the one named `.strtab` for `.symtab`.  On a well-formed image the
two agree exactly when those are the linked ones, and the loop sees the sections the format counts
(`paired_iff_tablesFit`).
-/
namespace JLSPlant

open Binary (Bytes CString cstring table table_get)

/-! ## The format -/

namespace Shdr

def count (s : Shdr) : Nat := s.shSize / s.shEntsize

def hasName (file : Bytes) (names : Nat) (s : Shdr) (name : CString) : Bool :=
  cstring file (names + s.shName) = some name.bytes

/-- **The `k`-th entry of a symbol table, and its name in the string table the section is linked to.** -/
def entryName (w : ElfClass) (file : Bytes) (l : List Shdr) (s : Shdr) (k : Nat) : Option (Nat × Nat) := do
  let strings ← l[s.shLink]?
  let stName ← Sym.stName w file (s.shOffset + k * s.shEntsize)
  some (s.shOffset + k * s.shEntsize, strings.shOffset + stName)

/-- A symbol table in the file: entries of the class's size, the reserved one at least, each with a name in the
linked string table. -/
def IsTable (w : ElfClass) (file : Bytes) (l : List Shdr) (s : Shdr) : Prop :=
  s.shEntsize = Sym.sizeOf w ∧ s.shEntsize ≤ s.shSize ∧ s.shOffset + s.shSize ≤ file.length ∧
    (l[s.shLink]?).any (fun t => t.shType = .strtab) = true ∧
    ∀ k < s.count, (s.entryName w file l k).any (fun r => (cstring file r.2).isSome) = true

instance (w : ElfClass) (file : Bytes) (l : List Shdr) (s : Shdr) : Decidable (s.IsTable w file l) :=
  inferInstanceAs (Decidable (_ ∧ _))

theorem read_lt {w : ElfClass} {file : Bytes} {off : Nat} {s : Shdr} (h : read w file off = some s) :
    off < file.length := by
  have hword := shOffset_of_read h
  have hle := Binary.word_le hword (by cases w <;> decide)
  have hpos : 0 < (layout w).getD 4 0 := by cases w <;> decide
  omega

theorem shOffset_lt {w : ElfClass} {file : Bytes} {off : Nat} {s : Shdr} (h : read w file off = some s) :
    s.shOffset < w.modulus := Binary.word_lt (shOffset_of_read h)

end Shdr

/-- **A well-formed image**: its section headers `l`, counted and placed as the format does, extended numbering
included, with their names in the table at `names`; one `.dynsym`, at most one section named `.symtab`. -/
structure WellFormed (w : ElfClass) (file : Bytes) (header : Ehdr) (l : List Shdr) (names : Nat) : Prop where
  size : file.length < w.modulus
  ehdr : Ehdr.read w file = some header
  stride : Shdr.sizeOf w ≤ header.eShentsize
  headers : table (fun i => Shdr.read w file (header.eShoff + i * header.eShentsize)) l.length 0 = some l
  count : l.length = if header.eShnum = 0 then l.head?.elim 0 Shdr.shSize else header.eShnum
  strings : (l[if header.eShstrndx = 0xffff then l.head?.elim 0 Shdr.shLink else header.eShstrndx]?).any
    (fun s => s.shType = .strtab && s.shOffset = names) = true
  named : ∀ s ∈ l, (cstring file (names + s.shName)).isSome = true
  dynsym : (l.filter (fun s => s.shType = .dynsym)).length = 1
  symtab : (l.filter (·.hasName file names symtabName)).length ≤ 1
  type : ∀ s ∈ l, s.hasName file names symtabName = true → s.shType = .symtab
  tables : ∀ s ∈ l, s.shType = .dynsym ∨ s.shType = .symtab → s.IsTable w file l

/-! ## The lookup -/

namespace ElfImg

/-- The symbol the `k`-th round of the search of `.dynsym` looks at, and the name it compares. -/
def dynsymReads (w : ElfClass) (file : Bytes) (e : ElfImg) (k : Nat) : Option (Nat × Nat) :=
  match e.dynsymStart, e.strtabStart with
  | some start, some strings => symName w file start strings k
  | _, _                     => none

def symtabReads (w : ElfClass) (file : Bytes) (e : ElfImg) (k : Nat) : Option (Nat × Nat) :=
  match e.symtabStart with
  | some start => if e.symstrOffsetForSymtab ≠ 0 then symName w file start e.symstrOffsetForSymtab k else none
  | none       => none

end ElfImg

/-- **`Open` paired the tables**: it counted each symbol table's entries, and the name the search reads for each
entry is the one in the linked string table. -/
structure Paired (w : ElfClass) (file : Bytes) (l : List Shdr) (names : Nat) (e : ElfImg) : Prop where
  dynsym : ∀ s ∈ l, s.shType = .dynsym → e.dynsymCount = s.count ∧
    ∀ k < s.count, e.dynsymReads w file k = s.entryName w file l k
  symtab : ∀ s ∈ l, s.hasName file names symtabName = true → e.symtabCount = s.count ∧
    ∀ k < s.count, e.symtabReads w file k = s.entryName w file l k

def openPart (w : ElfClass) (ss : List Section) : List Section := (latch w ss).elim ss Prod.fst

/-- **The string tables `Open` takes are the linked ones**: the sections are counted in `e_shnum` and can all be
read; the last string table before the latch closes has the place of `.dynsym`'s; the last `.symtab` and the last
`.strtab`, by the names `Open` reads, have the place of `.symtab` and of its strings. -/
structure TablesFit (w : ElfClass) (file : Bytes) (header : Ehdr) (l : List Shdr) (names : Nat) (ss : List Section) :
    Prop where
  numbered : header.eShnum ≠ 0
  sections : ElfImg.sections w file = some ss
  dynstr : ∀ s ∈ l, s.shType = .dynsym →
    (lastOf Section.isStrtab (openPart w ss)).map (·.header.shOffset) = (l[s.shLink]?).map Shdr.shOffset
  symtab : ∀ s ∈ l, s.hasName file names symtabName = true →
    (lastOf Section.isSymtab ss).map (fun a => (a.header.shOffset, a.count)) = some (s.shOffset, s.count)
  strtab : ∀ s ∈ l, s.hasName file names symtabName = true →
    (lastOf Section.isSymtabStrings ss).map (·.header.shOffset) = (l[s.shLink]?).map Shdr.shOffset ∧
      (l[s.shLink]?).map Shdr.shOffset ≠ some 0

/-! ## One table -/

theorem wrap_add_inj {w : ElfClass} {a b n : Nat} (ha : a < w.modulus) (h : w.wrap (a + n) = b + n) : a = b := by
  have hb : b + n < w.modulus := by rw [← h]; exact Nat.mod_lt _ w.modulus_pos
  unfold ElfClass.wrap at h
  -- A sum that wraps would put `a` a whole modulus above `b`.
  by_cases hlt : a + n < w.modulus
  · rw [Nat.mod_eq_of_lt hlt] at h; omega
  · rw [Nat.mod_eq_sub_mod (Nat.not_lt.1 hlt), Nat.mod_eq_of_lt (by omega)] at h; omega

theorem wrap_of_lt {w : ElfClass} {a : Nat} (h : a < w.modulus) : w.wrap a = a := Nat.mod_eq_of_lt h

theorem Shdr.IsTable.entry {w : ElfClass} {file : Bytes} {l : List Shdr} {s : Shdr} (h : s.IsTable w file l)
    (hsize : file.length < w.modulus) {k : Nat} (hk : k < s.count) : ∃ t stName, l[s.shLink]? = some t ∧
      Sym.stName w file (s.shOffset + k * Sym.sizeOf w) = some stName ∧
      s.entryName w file l k = some (s.shOffset + k * Sym.sizeOf w, t.shOffset + stName) ∧
      s.shOffset + k * Sym.sizeOf w < w.modulus ∧ t.shOffset + stName < w.modulus := by
  obtain ⟨hent, -, hfile, -, hnames⟩ := h
  have hname := hnames k hk
  rw [Option.any_eq_true] at hname
  obtain ⟨r, hr, hstring⟩ := hname
  obtain ⟨str, hstr⟩ := Option.isSome_iff_exists.1 hstring
  have hr' := hr
  obtain ⟨t, ht, hr'⟩ := Option.bind_eq_some_iff.1 hr'
  obtain ⟨stName, hn, hr'⟩ := Option.bind_eq_some_iff.1 hr'
  cases hr'
  have hk' : k * s.shEntsize ≤ s.shSize := by
    have := Nat.div_mul_le_self s.shSize s.shEntsize
    have := Nat.mul_le_mul_right s.shEntsize (Nat.le_of_lt hk)
    unfold Shdr.count at this
    omega
  rw [hent] at hn hr hk'
  refine ⟨t, stName, ht, hn, hr, by omega, ?_⟩
  have := Binary.cstring_lt hstr
  omega

theorem Shdr.IsTable.count_pos {w : ElfClass} {file : Bytes} {l : List Shdr} {s : Shdr} (h : s.IsTable w file l) :
    0 < s.count := by
  obtain ⟨hent, hle, -⟩ := h
  exact Nat.div_pos hle (by rw [hent]; exact Sym.sizeOf_pos w)

/-- **A search reads a table's entries and names exactly when it starts at the table and takes the linked
strings.** -/
theorem symName_iff {w : ElfClass} {file : Bytes} {l : List Shdr} {s : Shdr} {start strings : Nat}
    (hs : s.IsTable w file l) (hsize : file.length < w.modulus) (hstart : start < w.modulus)
    (hstrings : strings < w.modulus) :
    (∀ k < s.count, ElfImg.symName w file start strings k = s.entryName w file l k) ↔
      start = s.shOffset ∧ some strings = (l[s.shLink]?).map Shdr.shOffset := by
  constructor
  · intro h
    obtain ⟨t, stName, ht, hn, hentry, hsym, hname⟩ := hs.entry hsize hs.count_pos
    have h := h 0 hs.count_pos
    rw [hentry] at h
    obtain ⟨stName', hn', hr⟩ := Option.bind_eq_some_iff.1 h
    simp only [Option.some.injEq, Prod.mk.injEq] at hr
    have hstart' : start = s.shOffset := by
      have hsymAt := hr.1
      unfold ElfImg.symAt at hsymAt
      rw [Nat.zero_mul, Nat.add_zero, Nat.add_zero, wrap_of_lt hstart] at hsymAt
      exact hsymAt
    rw [hr.1, hn] at hn'
    cases hn'
    refine ⟨hstart', ?_⟩
    rw [ht, Option.map_some, wrap_add_inj hstrings hr.2]
  · rintro ⟨rfl, hlink⟩ k hk
    obtain ⟨t, stName, ht, hn, hentry, hsym, hname⟩ := hs.entry hsize hk
    rw [ht, Option.map_some, Option.some.injEq] at hlink
    have hsymAt : ElfImg.symAt w s.shOffset k = s.shOffset + k * Sym.sizeOf w := wrap_of_lt hsym
    rw [hentry, ElfImg.symName, hsymAt, hn, Option.bind_eq_bind, Option.bind_some, hlink, wrap_of_lt hname]

theorem Shdr.IsTable.linked {w : ElfClass} {file : Bytes} {l : List Shdr} {s : Shdr} (h : s.IsTable w file l) :
    ∃ t, l[s.shLink]? = some t := by
  obtain ⟨-, -, -, hstrings, -⟩ := h
  rw [Option.any_eq_true] at hstrings
  obtain ⟨t, ht, -⟩ := hstrings
  exact ⟨t, ht⟩

/-- **A search that may lack either reads them exactly when it has both.** -/
theorem reads_iff {w : ElfClass} {file : Bytes} {l : List Shdr} {s : Shdr} {start strings : Ptr}
    (hs : s.IsTable w file l) (hsize : file.length < w.modulus) (hstart : ∀ a, start = some a → a < w.modulus)
    (hstrings : ∀ b, strings = some b → b < w.modulus) :
    (∀ k < s.count, (start.bind fun a => strings.bind fun b => ElfImg.symName w file a b k) =
      s.entryName w file l k) ↔
      start = some s.shOffset ∧ strings = (l[s.shLink]?).map Shdr.shOffset := by
  obtain ⟨t, ht⟩ := hs.linked
  have hentry : s.entryName w file l 0 ≠ none := by
    obtain ⟨_, _, _, _, h, _⟩ := hs.entry hsize hs.count_pos
    rw [h]; exact Option.some_ne_none _
  cases start with
  | none => exact ⟨fun h => absurd (h 0 hs.count_pos).symm hentry, fun h => by cases h.1⟩
  | some a =>
    cases strings with
    | none =>
      refine ⟨fun h => absurd (h 0 hs.count_pos).symm hentry, fun h => ?_⟩
      rw [ht] at h; cases h.2
    | some b =>
      simp only [Option.bind_some, Option.some.injEq]
      exact symName_iff hs hsize (hstart a rfl) (hstrings b rfl)

theorem ElfImg.dynsymReads_eq (w : ElfClass) (file : Bytes) (e : ElfImg) (k : Nat) : e.dynsymReads w file k =
    e.dynsymStart.bind fun a => e.strtabStart.bind fun b => symName w file a b k := by
  unfold dynsymReads
  cases e.dynsymStart <;> cases e.strtabStart <;> rfl

theorem ElfImg.symtabReads_eq (w : ElfClass) (file : Bytes) (e : ElfImg) (k : Nat) : e.symtabReads w file k =
    e.symtabStart.bind fun a => (if e.symstrOffsetForSymtab ≠ 0 then some e.symstrOffsetForSymtab else none).bind
      fun b => symName w file a b k := by
  unfold symtabReads
  cases e.symtabStart with
  | none => rfl
  | some a => by_cases h : e.symstrOffsetForSymtab = 0 <;> simp [h]

/-- An offset where 0 stands for none. -/
theorem nonzero_elim_iff {α : Type} {f : α → Nat} {o : Option α} {x : Option Nat} (hx : x ≠ none) :
    (if o.elim 0 f ≠ 0 then some (o.elim 0 f) else none) = x ↔ o.map f = x ∧ x ≠ some 0 := by
  cases o with
  | none => exact ⟨fun h => absurd h.symm hx, fun h => absurd h.1.symm hx⟩
  | some a =>
    show (if f a ≠ 0 then some (f a) else none) = x ↔ some (f a) = x ∧ x ≠ some 0
    by_cases h : f a = 0
    · rw [if_neg (not_not.2 h), h]
      exact ⟨fun e => absurd e.symm hx, fun e => absurd e.1.symm e.2⟩
    · rw [if_pos h]
      exact ⟨fun e => ⟨e, fun h0 => h (Option.some.inj (e.trans h0))⟩, fun e => e.1⟩

/-! ## The sections -/

theorem Section.read_header {w : ElfClass} {file : Bytes} {str shoff : Nat} {s : Section}
    (h : Section.read w file str shoff = some s) : Shdr.read w file shoff = some s.header := by
  obtain ⟨header, hheader, h⟩ := Option.bind_eq_some_iff.1 h
  have hs : s.header = header := by
    split at h
    all_goals first
      | (obtain ⟨_, _, rfl⟩ := Option.map_eq_some_iff.1 h; rfl)
      | (cases h; rfl)
  rw [hs]; exact hheader

/-- The loop meets the headers that are `e_shentsize` apart. -/
theorem readAll_headers {w : ElfClass} {file : Bytes} {str stride : Nat} (hsize : file.length < w.modulus) :
    ∀ {n shoff : Nat} {ss : List Section} {l : List Shdr}, Section.readAll w file str stride n shoff = some ss →
      l.length = n → (∀ i s, l[i]? = some s → Shdr.read w file (shoff + i * stride) = some s) →
      ss.map Section.header = l
  | 0, _, _, l, h, hn, _ => by
    cases h
    rw [List.length_eq_zero_iff.1 hn]; rfl
  | n + 1, shoff, ss, [], _, hn, _ => by cases hn
  | n + 1, shoff, ss, x :: l, h, hn, hl => by
    obtain ⟨s, hs, h⟩ := Option.bind_eq_some_iff.1 h
    obtain ⟨ss', hss', h⟩ := Option.bind_eq_some_iff.1 h
    cases h
    have hx : some s.header = some x := by
      rw [← Section.read_header hs]
      have := hl 0 x rfl
      rwa [Nat.zero_mul, Nat.add_zero] at this
    have hrest : ss'.map Section.header = l := by
      cases l with
      | nil =>
        have hn : 0 = n := Nat.succ.inj hn
        subst hn
        cases hss'; rfl
      | cons y l =>
        have hwrap : w.wrap (shoff + stride) = shoff + stride := by
          have := Shdr.read_lt (hl 1 y rfl)
          exact wrap_of_lt (by omega)
        rw [hwrap] at hss'
        refine readAll_headers hsize hss' (Nat.succ.inj hn) fun i z hz => ?_
        have := hl (i + 1) z hz
        rwa [Nat.succ_mul, ← Nat.add_assoc, Nat.add_right_comm] at this
    rw [List.map_cons, hrest, Option.some.inj hx]

section
variable {w : ElfClass} {file : Bytes} {header : Ehdr} {l : List Shdr} {names : Nat}

theorem WellFormed.headers_eq (hwf : WellFormed w file header l names) (hnum : header.eShnum ≠ 0) {ss : List Section}
    (hss : ElfImg.sections w file = some ss) : ss.map Section.header = l := by
  obtain ⟨header', hheader, hss⟩ := Option.bind_eq_some_iff.1 hss
  obtain ⟨str, -, hss⟩ := Option.bind_eq_some_iff.1 hss
  rw [hwf.ehdr] at hheader
  cases hheader
  have hlen := hwf.count
  rw [if_neg hnum] at hlen
  refine readAll_headers hwf.size hss hlen fun i s hi => ?_
  have := table_get hwf.headers hi
  rwa [Nat.zero_add] at this

theorem header_mem {ss : List Section} (hss : ss.map Section.header = l) {s : Section} (hs : s ∈ ss) :
    s.header ∈ l := by
  rw [← hss]; exact List.mem_map_of_mem hs

theorem WellFormed.divides (hwf : WellFormed w file header l names) {ss : List Section}
    (hss : ss.map Section.header = l) : ∀ s ∈ ss, s.Divides := by
  intro s hs ht
  rw [(hwf.tables s.header (header_mem hss hs) ht).1]
  exact Nat.ne_of_gt (Sym.sizeOf_pos w)

theorem WellFormed.dynsym_unique (hwf : WellFormed w file header l names) {s t : Shdr} (hs : s ∈ l) (ht : t ∈ l)
    (hsd : s.shType = .dynsym) (htd : t.shType = .dynsym) : s = t := by
  obtain ⟨x, hx⟩ := List.length_eq_one_iff.1 hwf.dynsym
  have hone : ∀ {s}, s ∈ l → s.shType = .dynsym → s = x := fun {s} hs hd => by
    have : s ∈ l.filter (fun s => s.shType = .dynsym) := List.mem_filter.2 ⟨hs, by simpa using hd⟩
    rwa [hx, List.mem_singleton] at this
  rw [hone hs hsd, hone ht htd]

theorem WellFormed.shOffset_lt (hwf : WellFormed w file header l names) {s : Shdr} (hs : s ∈ l) :
    s.shOffset < w.modulus := by
  obtain ⟨i, hi⟩ := List.mem_iff_getElem?.1 hs
  exact Shdr.shOffset_lt (table_get hwf.headers hi)

end

theorem mem_of_lastOf {p : Section → Bool} {l : List Section} {s : Section} (h : lastOf p l = some s) :
    s ∈ l ∧ p s = true := List.mem_filter.1 (List.mem_of_getLast? h)

theorem mem_of_openPart {w : ElfClass} {ss : List Section} {s : Section} (h : s ∈ openPart w ss) : s ∈ ss := by
  unfold openPart at h
  cases hlatch : latch w ss with
  | none => rwa [hlatch] at h
  | some r =>
    obtain ⟨mid, post, hbefore, hl, -⟩ := latchFrom_eq_some hlatch
    rw [hlatch, Option.elim_some, hbefore, List.nil_append] at h
    rw [hl]
    exact List.mem_append_left _ h

/-- The latch closes after a `.dynsym`, so the last one before it is there if any is. -/
theorem lastOf_dynsym_openPart {w : ElfClass} {ss : List Section} (h : ss.any Section.isDynsym = true) :
    ∃ s, lastOf Section.isDynsym (openPart w ss) = some s ∧ s ∈ ss := by
  have hpart : (openPart w ss).any Section.isDynsym = true := by
    unfold openPart
    cases hlatch : latch w ss with
    | none => exact h
    | some r =>
      obtain ⟨mid, post, -, -, hc⟩ := latchFrom_eq_some hlatch
      exact (closes_iff.1 hc).2.1
  cases hlast : lastOf Section.isDynsym (openPart w ss) with
  | none => rw [lastOf_isNone, hpart] at hlast; cases hlast
  | some s => exact ⟨s, rfl, mem_of_openPart (mem_of_lastOf hlast).1⟩

theorem scanned_eq (w : ElfClass) (ss : List Section) :
    ∃ b, ElfImg.scanned w ss = .ofSections ss (openPart w ss) b := by
  unfold ElfImg.scanned openPart
  cases latch w ss with
  | none => exact ⟨_, rfl⟩
  | some r => exact ⟨_, rfl⟩

/-! ## The pairing -/

section
variable {w : ElfClass} {file : Bytes} {header : Ehdr} {l : List Shdr} {names base : Nat} {ss : List Section}
  {e : ElfImg} {s : Shdr} {b : Int}

theorem dynsym_paired_iff (hwf : WellFormed w file header l names) (hss : ss.map Section.header = l)
    (he : e = { ElfImg.ofSections ss (openPart w ss) b with base := base }) (hs : s ∈ l) (hd : s.shType = .dynsym) :
    (e.dynsymCount = s.count ∧ ∀ k < s.count, e.dynsymReads w file k = s.entryName w file l k) ↔
      (lastOf Section.isStrtab (openPart w ss)).map (·.header.shOffset) = (l[s.shLink]?).map Shdr.shOffset := by
  have hany : ss.any Section.isDynsym = true := by
    rw [← hss] at hs
    obtain ⟨x, hx, rfl⟩ := List.mem_map.1 hs
    exact List.any_eq_true.2 ⟨x, hx, by simpa [Section.isDynsym] using hd⟩
  -- The only `.dynsym` is before the latch closes, so it is the one `Open` took.
  obtain ⟨d, hlast, hdss⟩ := lastOf_dynsym_openPart (w := w) hany
  have hds : d.header = s :=
    hwf.dynsym_unique (header_mem hss hdss) hs (by simpa [Section.isDynsym] using (mem_of_lastOf hlast).2) hd
  have hcount : e.dynsymCount = s.count := by
    rw [he, ← hds]
    simp only [ElfImg.ofSections, hlast]
    rfl
  have hstart : e.dynsymStart = some s.shOffset := by
    rw [he, ← hds]
    simp only [ElfImg.ofSections, hlast, Option.map_some]
  have hstrings : e.strtabStart = (lastOf Section.isStrtab (openPart w ss)).map (·.header.shOffset) := by rw [he]; rfl
  have hlt : ∀ c, e.strtabStart = some c → c < w.modulus := fun c hc => by
    rw [hstrings] at hc
    obtain ⟨x, hx, rfl⟩ := Option.map_eq_some_iff.1 hc
    exact hwf.shOffset_lt (header_mem hss (mem_of_openPart (mem_of_lastOf hx).1))
  simp only [ElfImg.dynsymReads_eq]
  rw [reads_iff (hwf.tables s hs (Or.inl hd)) hwf.size (fun a ha => ?_) hlt, hstrings]
  · exact ⟨fun h => h.2.2, fun h => ⟨hcount, hstart, h⟩⟩
  · rw [hstart] at ha
    cases ha
    exact hwf.shOffset_lt hs

theorem symtab_paired_iff (hwf : WellFormed w file header l names) (hss : ss.map Section.header = l)
    (he : e = { ElfImg.ofSections ss (openPart w ss) b with base := base }) (hs : s ∈ l)
    (hn : s.hasName file names symtabName = true) :
    (e.symtabCount = s.count ∧ ∀ k < s.count, e.symtabReads w file k = s.entryName w file l k) ↔
      (lastOf Section.isSymtab ss).map (fun a => (a.header.shOffset, a.count)) = some (s.shOffset, s.count) ∧
      (lastOf Section.isSymtabStrings ss).map (·.header.shOffset) = (l[s.shLink]?).map Shdr.shOffset ∧
        (l[s.shLink]?).map Shdr.shOffset ≠ some 0 := by
  have htable := hwf.tables s hs (Or.inr (hwf.type s hs hn))
  have hcount : e.symtabCount = (lastOf Section.isSymtab ss).elim 0 Section.count := by rw [he]; rfl
  have hstart : e.symtabStart = (lastOf Section.isSymtab ss).map (·.header.shOffset) := by rw [he]; rfl
  have hstrings : e.symstrOffsetForSymtab = (lastOf Section.isSymtabStrings ss).elim 0 (·.header.shOffset) := by
    rw [he]; rfl
  have hlast : ∀ {q : Section → Bool} {x : Section}, lastOf q ss = some x → x.header.shOffset < w.modulus := fun hx =>
    hwf.shOffset_lt (header_mem hss (mem_of_lastOf hx).1)
  have hlinked : (l[s.shLink]?).map Shdr.shOffset ≠ none := by
    obtain ⟨t, ht⟩ := htable.linked
    rw [ht]; exact Option.some_ne_none _
  simp only [ElfImg.symtabReads_eq]
  rw [reads_iff htable hwf.size (fun a ha => ?_) (fun c hc => ?_), hcount, hstart, hstrings, nonzero_elim_iff hlinked,
    ← and_assoc]
  · refine and_congr_left fun _ => ?_
    cases lastOf Section.isSymtab ss with
    | none => exact ⟨fun h => (by cases h.2), fun h => by cases h⟩
    | some a =>
      simp only [Option.elim_some, Option.map_some, Option.some.injEq, Prod.mk.injEq]
      exact and_comm
  · rw [hstart] at ha
    obtain ⟨x, hx, rfl⟩ := Option.map_eq_some_iff.1 ha
    exact hlast hx
  · rw [hstrings] at hc
    cases hx : lastOf Section.isSymtabStrings ss with
    | none => rw [hx] at hc; cases hc
    | some x =>
      rw [hx, Option.elim_some] at hc
      split at hc
      · cases hc; exact hlast hx
      · cases hc

/-- **On a well-formed image `Open` returns and pairs the tables exactly when the tables it takes are the linked
ones.** -/
theorem paired_iff_tablesFit (hwf : WellFormed w file header l names) (base : Nat) :
    (∃ e, ElfImg.openMapped w file base = some e ∧ Paired w file l names e) ↔
      ∃ ss, TablesFit w file header l names ss := by
  constructor
  · rintro ⟨e, hopen, hpaired⟩
    obtain ⟨ss, hsections, he⟩ := openMapped_some hopen
    obtain ⟨b, hb⟩ := scanned_eq w ss
    rw [hb] at he
    have hnum : header.eShnum ≠ 0 := by
      intro hzero
      obtain ⟨header', hheader, hread⟩ := Option.bind_eq_some_iff.1 hsections
      obtain ⟨str, -, hread⟩ := Option.bind_eq_some_iff.1 hread
      rw [hwf.ehdr] at hheader
      cases hheader
      rw [hzero] at hread
      cases hread
      -- The loop saw no section, so no table has an entry; a well-formed one has.
      obtain ⟨d, hd⟩ := List.length_eq_one_iff.1 hwf.dynsym
      obtain ⟨hdl, hdt⟩ := List.mem_filter.1 (by rw [hd]; exact List.mem_singleton_self d)
      have hcount := (hpaired.dynsym d hdl (by simpa using hdt)).1
      rw [he] at hcount
      exact Nat.ne_of_lt (hwf.tables d hdl (Or.inl (by simpa using hdt))).count_pos hcount
    have hss := hwf.headers_eq hnum hsections
    exact ⟨ss, hnum, hsections, fun s hs hd => (dynsym_paired_iff hwf hss he hs hd).1 (hpaired.dynsym s hs hd),
      fun s hs hn => ((symtab_paired_iff hwf hss he hs hn).1 (hpaired.symtab s hs hn)).1,
      fun s hs hn => ((symtab_paired_iff hwf hss he hs hn).1 (hpaired.symtab s hs hn)).2⟩
  · rintro ⟨ss, hfit⟩
    have hss := hwf.headers_eq hfit.numbered hfit.sections
    have hopen := openMapped_of_sections hfit.sections (hwf.divides hss) base
    obtain ⟨b, hb⟩ := scanned_eq w ss
    rw [hb] at hopen
    exact ⟨_, hopen, fun s hs hd => (dynsym_paired_iff hwf hss rfl hs hd).2 (hfit.dynstr s hs hd),
      fun s hs hn => (symtab_paired_iff hwf hss rfl hs hn).2 ⟨hfit.symtab s hs hn, hfit.strtab s hs hn⟩⟩

end

/-! ## Two files -/

def linkedHeaders : List Shdr :=
  [nullHeader, shstrtabHeader, dynsymHeader 3, dynstrHeader, textHeader, symtabHeader 6, strtabHeader]

def linkedFile : Bytes := sampleFile 1 ⟨1, 193, 4, 18⟩ ⟨3, 195, 2, 18⟩ ⟨3, 195, 2, 18⟩ linkedHeaders

theorem linkedFile_wellFormed : WellFormed .elf32 linkedFile ⟨52, 197, 32, 1, 40, 7, 1⟩ linkedHeaders 138 where
  size := by decide +kernel
  ehdr := by decide +kernel
  stride := by decide
  headers := by decide +kernel
  count := by decide
  strings := by decide
  named := by decide +kernel
  dynsym := by decide
  symtab := by decide +kernel
  type := by decide +kernel
  tables := by decide +kernel

theorem linkedFile_paired : ∃ e, ElfImg.openMapped .elf32 linkedFile 65536 = some e ∧
    Paired .elf32 linkedFile linkedHeaders 138 e :=
  (paired_iff_tablesFit linkedFile_wellFormed 65536).2
    ⟨(ElfImg.sections .elf32 linkedFile).get (by decide +kernel),
      { numbered := by decide
        sections := (Option.some_get _).symm
        dynstr := by decide +kernel
        symtab := by decide +kernel
        strtab := by decide +kernel }⟩

def namesBetweenHeaders : List Shdr := [nullHeader, dynsymHeader 2, dynstrHeader, shstrtabHeader, textHeader]

def namesBetween : Bytes := sampleFile 3 ⟨1, 193, 4, 18⟩ ⟨3, 195, 2, 18⟩ ⟨3, 195, 2, 18⟩ namesBetweenHeaders

theorem namesBetween_wellFormed :
    WellFormed .elf32 namesBetween ⟨52, 197, 32, 1, 40, 5, 3⟩ namesBetweenHeaders 138 where
  size := by decide +kernel
  ehdr := by decide +kernel
  stride := by decide
  headers := by decide +kernel
  count := by decide
  strings := by decide
  named := by decide +kernel
  dynsym := by decide
  symtab := by decide +kernel
  type := by decide +kernel
  tables := by decide +kernel

/-- With the section names between the dynamic strings and the code, the first dynamic symbol, `f`, is read as
`.symtab`. -/
theorem namesBetween_mispaired : WellFormed .elf32 namesBetween ⟨52, 197, 32, 1, 40, 5, 3⟩ namesBetweenHeaders 138 ∧
    ∃ e, ElfImg.openMapped .elf32 namesBetween 65536 = some e ∧
      (e.dynsymReads .elf32 namesBetween 1).bind (fun r => cstring namesBetween r.2) = some symtabName.bytes ∧
      ((dynsymHeader 2).entryName .elf32 namesBetween namesBetweenHeaders 1).bind
        (fun r => cstring namesBetween r.2) =
        some symbolF.bytes ∧
      ¬ Paired .elf32 namesBetween namesBetweenHeaders 138 e := by
  have hread : (ElfImg.openMapped .elf32 namesBetween 65536).bind (fun e =>
      (e.dynsymReads .elf32 namesBetween 1).bind (fun r => cstring namesBetween r.2)) = some symtabName.bytes := by
    decide +kernel
  have hlinked : ((dynsymHeader 2).entryName .elf32 namesBetween namesBetweenHeaders 1).bind
      (fun r => cstring namesBetween r.2) = some symbolF.bytes := by decide +kernel
  obtain ⟨e, he, hread⟩ := Option.bind_eq_some_iff.1 hread
  refine ⟨namesBetween_wellFormed, e, he, hread, hlinked, fun h => ?_⟩
  have hpaired := (h.dynsym (dynsymHeader 2) (by decide) rfl).2 1 (by decide)
  rw [hpaired, hlinked] at hread
  exact absurd hread (by decide)

end JLSPlant
