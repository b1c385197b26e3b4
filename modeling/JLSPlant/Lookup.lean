import JLSPlant.ElfImg
/-!
# Lookup — the two-table search as the first match of one list

On tables that can be read, `getSymbolOffset` gives the value of the first match in `.dynsym` followed by the sized
functions of `.symtab`, or 0 (`getSymbolOffset_eq`).  The first match may be an import, whose value is 0: a
definition is then found exactly when no import hides it (`lookup_complete_iff`).  `two_table_search` states the
search against a reference that knows no tables.
-/
namespace JLSPlant

open Binary (Bytes CString cstring table search_eq findSome?_ite strcmp_eq strncmp_eq)

/-- **The string of an entry answers a lookup of `name`**: it is the same, or, in prefix mode, begins with it. -/
def nameAnswers (s : Bytes) (name : CString) (matchPrefix : Bool) : Bool :=
  s = name.bytes || matchPrefix && name.bytes.isPrefixOf s

structure Symbol where
  name : Bytes
  value : Nat
  size : Nat
  type : Nat
deriving DecidableEq

namespace Symbol

def read (w : ElfClass) (file : Bytes) (start strings k : Nat) : Option Symbol := do
  let (sym, s) ← ElfImg.symName w file start strings k
  let name ← cstring file s
  let value ← Sym.stValue w file sym
  let size ← Sym.stSize w file sym
  let info ← Sym.stInfo w file sym
  some ⟨name, value, size, Sym.stType info⟩

def hasName (s : Symbol) (name : CString) (matchPrefix : Bool) : Bool := nameAnswers s.name name matchPrefix

/-- A `.symtab` entry the search looks at. -/
def isSizedFunction (s : Symbol) : Bool := s.type = Sym.sttFunc && s.size ≠ 0

end Symbol

namespace ElfImg

def dynsyms (w : ElfClass) (file : Bytes) (e : ElfImg) : Option (List Symbol) :=
  match e.dynsymStart, e.strtabStart with
  | some start, some strings => table (Symbol.read w file start strings) e.dynsymCount 0
  | _, _                     => some []

def symtabs (w : ElfClass) (file : Bytes) (e : ElfImg) : Option (List Symbol) :=
  match e.symtabStart with
  | some start =>
    if e.symstrOffsetForSymtab ≠ 0 then table (Symbol.read w file start e.symstrOffsetForSymtab) e.symtabCount 0
    else some []
  | none => some []

/-- **What the search looks at**, in its order: all of `.dynsym`, then the sized functions of `.symtab`. -/
def candidates (w : ElfClass) (file : Bytes) (e : ElfImg) : Option (List Symbol) := do
  let ds ← e.dynsyms w file
  let ss ← e.symtabs w file
  some (ds ++ ss.filter Symbol.isSizedFunction)

theorem nameMatches_eq {file n : Bytes} {s : Nat} (h : cstring file s = some n) (name : CString)
    (matchPrefix : Bool) :
    nameMatches file s name matchPrefix = some (nameAnswers n name matchPrefix) := by
  unfold nameMatches nameAnswers
  rw [strcmp_eq h, Option.bind_eq_bind, Option.bind_some]
  by_cases heq : n = name.bytes
  · simp [heq]
  · cases matchPrefix with
    | true => simp [heq, strncmp_eq h]
    | false => simp [heq]

theorem dynsymRound_eq {w : ElfClass} {file : Bytes} {start strings k : Nat} {x : Symbol} {name : CString}
    {matchPrefix : Bool} (h : Symbol.read w file start strings k = some x) :
    dynsymRound w file start strings name matchPrefix k =
      some (if x.hasName name matchPrefix then some x.value else none) := by
  obtain ⟨⟨sym, s⟩, hsym, h⟩ := Option.bind_eq_some_iff.1 h
  obtain ⟨n, hn, h⟩ := Option.bind_eq_some_iff.1 h
  obtain ⟨v, hv, h⟩ := Option.bind_eq_some_iff.1 h
  obtain ⟨size, -, h⟩ := Option.bind_eq_some_iff.1 h
  obtain ⟨info, -, h⟩ := Option.bind_eq_some_iff.1 h
  cases h
  have hname : nameMatches file s name matchPrefix =
      some (Symbol.hasName ⟨n, v, size, Sym.stType info⟩ name matchPrefix) := nameMatches_eq hn name matchPrefix
  unfold dynsymRound
  simp only [hsym, hname, hv, Option.bind_eq_bind, Option.bind_some]
  split <;> rfl

theorem symtabRound_eq {w : ElfClass} {file : Bytes} {start strings k : Nat} {x : Symbol} {name : CString}
    {matchPrefix : Bool} (h : Symbol.read w file start strings k = some x) :
    symtabRound w file start strings name matchPrefix k =
      some (if x.isSizedFunction && x.hasName name matchPrefix then some x.value else none) := by
  obtain ⟨⟨sym, s⟩, hsym, h⟩ := Option.bind_eq_some_iff.1 h
  obtain ⟨n, hn, h⟩ := Option.bind_eq_some_iff.1 h
  obtain ⟨v, hv, h⟩ := Option.bind_eq_some_iff.1 h
  obtain ⟨size, hsize, h⟩ := Option.bind_eq_some_iff.1 h
  obtain ⟨info, hinfo, h⟩ := Option.bind_eq_some_iff.1 h
  cases h
  have hname : nameMatches file s name matchPrefix =
      some (Symbol.hasName ⟨n, v, size, Sym.stType info⟩ name matchPrefix) := nameMatches_eq hn name matchPrefix
  have hat : sym = symAt w start k := by
    obtain ⟨stName, -, h⟩ := Option.bind_eq_some_iff.1 hsym
    cases h; rfl
  rw [hat] at hsym hv hsize hinfo
  unfold symtabRound Symbol.isSizedFunction
  simp only [hinfo, hsym, hname, hsize, hv, Option.bind_eq_bind, Option.bind_some]
  by_cases ht : Sym.stType info = Sym.sttFunc <;> by_cases hz : size = 0 <;> simp [ht, hz]
  split <;> simp_all

theorem searchDynsym_eq {w : ElfClass} {file : Bytes} {e : ElfImg} {l : List Symbol} (h : e.dynsyms w file = some l)
    (name : CString) (matchPrefix : Bool) :
    e.searchDynsym w file name matchPrefix = some ((l.find? (·.hasName name matchPrefix)).map Symbol.value) := by
  unfold dynsyms at h
  unfold searchDynsym
  cases hstart : e.dynsymStart with
  | none =>
    rw [hstart] at h
    cases h
    rfl
  | some start =>
    cases hstrings : e.strtabStart with
    | none =>
      rw [hstart, hstrings] at h
      cases h
      rfl
    | some strings =>
      rw [hstart, hstrings] at h
      simp only at h ⊢
      rw [search_eq (fun k x hk => dynsymRound_eq hk) h, findSome?_ite]

theorem searchSymtab_eq {w : ElfClass} {file : Bytes} {e : ElfImg} {l : List Symbol} (h : e.symtabs w file = some l)
    (name : CString) (matchPrefix : Bool) : e.searchSymtab w file name matchPrefix =
      some (((l.filter Symbol.isSizedFunction).find? (·.hasName name matchPrefix)).map Symbol.value) := by
  unfold symtabs at h
  unfold searchSymtab
  cases hstart : e.symtabStart with
  | none =>
    rw [hstart] at h
    cases h
    rfl
  | some start =>
    rw [hstart] at h
    simp only at h ⊢
    split at h
    · rename_i hoff
      rw [if_pos hoff, search_eq (fun k x hk => symtabRound_eq hk) h, findSome?_ite, List.find?_filter]
      simp only [Bool.decide_and, Bool.decide_eq_true]
    · rename_i hoff
      cases h
      rw [if_neg hoff]; rfl

/-- **`getSymbolOffset` gives the value of the first match.** -/
theorem getSymbolOffset_eq {w : ElfClass} {file : Bytes} {e : ElfImg} {l : List Symbol}
    (h : e.candidates w file = some l) (name : CString) (matchPrefix : Bool) :
    e.getSymbolOffset w file name matchPrefix =
      some ((l.find? (·.hasName name matchPrefix)).elim 0 Symbol.value) := by
  obtain ⟨ds, hds, h⟩ := Option.bind_eq_some_iff.1 h
  obtain ⟨ss, hss, h⟩ := Option.bind_eq_some_iff.1 h
  cases h
  unfold getSymbolOffset
  rw [searchDynsym_eq hds, searchSymtab_eq hss, List.find?_append]
  simp only [Option.bind_eq_bind, Option.bind_some]
  cases ds.find? (·.hasName name matchPrefix) with
  | some d => rfl
  | none => cases (ss.filter Symbol.isSizedFunction).find? (·.hasName name matchPrefix) <;> rfl

end ElfImg

/-! ## Completeness -/

/-- If a match is defined, the search does not answer 0. -/
def FindsDefined (w : ElfClass) (file : Bytes) (e : ElfImg) (l : List Symbol) (name : CString) (matchPrefix : Bool) :
    Prop :=
  (∃ x ∈ l, x.value ≠ 0 ∧ x.hasName name matchPrefix = true) → e.getSymbolOffset w file name matchPrefix ≠ some 0

/-- **A match with value 0 before every other match hides a defined one.** -/
def HidesDefined (l : List Symbol) (name : CString) (matchPrefix : Bool) : Prop :=
  ∃ before u after, l = before ++ u :: after ∧ (∀ x ∈ before, x.hasName name matchPrefix = false) ∧
    u.hasName name matchPrefix = true ∧ u.value = 0 ∧ ∃ x ∈ after, x.value ≠ 0 ∧ x.hasName name matchPrefix = true

theorem findsDefined_iff {w : ElfClass} {file : Bytes} {e : ElfImg} {l : List Symbol}
    (h : e.candidates w file = some l) (name : CString) (matchPrefix : Bool) :
    FindsDefined w file e l name matchPrefix ↔ ¬ HidesDefined l name matchPrefix := by
  unfold FindsDefined
  rw [e.getSymbolOffset_eq h]
  constructor
  · rintro hfinds ⟨before, u, after, rfl, hbefore, hu, hzero, x, hx, hdefined⟩
    have hfirst : (before ++ u :: after).find? (·.hasName name matchPrefix) = some u :=
      List.find?_eq_some_iff_append.2 ⟨hu, before, after, rfl, fun y hy => by simp [hbefore y hy]⟩
    refine hfinds ⟨x, List.mem_append_right _ (List.mem_cons_of_mem _ hx), hdefined⟩ ?_
    rw [hfirst, Option.elim_some, hzero]
  · rintro hhides ⟨x, hx, hvalue, hname⟩ hzero
    cases hfirst : l.find? (·.hasName name matchPrefix) with
    | none => exact absurd hname (by simpa using List.find?_eq_none.1 hfirst x hx)
    | some u =>
      rw [hfirst, Option.elim_some, Option.some.injEq] at hzero
      obtain ⟨hu, before, after, rfl, hbefore⟩ := List.find?_eq_some_iff_append.1 hfirst
      refine hhides ⟨before, u, after, rfl, fun y hy => by simpa using hbefore y hy, hu, hzero, x, ?_, hvalue, hname⟩
      rcases List.mem_append.1 hx with hx | hx
      · exact absurd hname (by simpa using hbefore x hx)
      · rcases List.mem_cons.1 hx with rfl | hx
        · exact absurd hzero hvalue
        · exact hx

theorem defined_prefix_of_exact {w : ElfClass} {file : Bytes} {e : ElfImg} {l : List Symbol}
    (h : e.candidates w file = some l) {name : CString} (hexact : e.getSymbolOffset w file name false ≠ some 0) :
    ∃ x ∈ l, x.value ≠ 0 ∧ x.hasName name true = true := by
  rw [e.getSymbolOffset_eq h] at hexact
  cases hfirst : l.find? (·.hasName name false) with
  | none => rw [hfirst] at hexact; exact absurd rfl hexact
  | some x =>
    rw [hfirst, Option.elim_some] at hexact
    refine ⟨x, List.mem_of_find?_eq_some hfirst, fun hz => hexact (by rw [hz]), ?_⟩
    have hname : x.hasName name false = true := List.find?_some (p := fun y : Symbol => y.hasName name false) hfirst
    simp only [Symbol.hasName, nameAnswers, Bool.false_and, Bool.or_false] at hname
    simp only [Symbol.hasName, nameAnswers, hname, Bool.true_or]

/-- **The lookup of a name is complete in both modes, and its prefix mode answers whenever its exact mode does,
exactly when no import hides a definition of it in either mode.** -/
theorem lookup_complete_iff (w : ElfClass) (file : Bytes) (e : ElfImg) (l : List Symbol)
    (h : e.candidates w file = some l) (name : CString) :
    ((∀ matchPrefix, FindsDefined w file e l name matchPrefix) ∧
      (e.getSymbolOffset w file name false ≠ some 0 → e.getSymbolOffset w file name true ≠ some 0)) ↔
    ∀ matchPrefix, ¬ HidesDefined l name matchPrefix := by
  constructor
  · exact fun hcomplete matchPrefix => (findsDefined_iff h name matchPrefix).1 (hcomplete.1 matchPrefix)
  · intro hhides
    have hfinds := fun matchPrefix => (findsDefined_iff h name matchPrefix).2 (hhides matchPrefix)
    exact ⟨hfinds, fun hexact => hfinds true (defined_prefix_of_exact h hexact)⟩

theorem not_hides_of_defined {l : List Symbol} {name : CString} {matchPrefix : Bool}
    (h : ∀ x ∈ l, x.hasName name matchPrefix = true → x.value ≠ 0) : ¬ HidesDefined l name matchPrefix := by
  rintro ⟨before, u, after, rfl, -, hu, hzero, -⟩
  exact h u (List.mem_append_right _ List.mem_cons_self) hu hzero

structure SampleSym where
  name : Nat
  value : Nat
  size : Nat
  info : Nat

def SampleSym.bytes (s : SampleSym) : Bytes :=
  (Sym.layout .elf32).encode [s.name, s.value, s.size, s.info, 0, if s.value = 0 then 0 else 1]

/-- The 32-bit file of one segment at address 0, three dynamic symbols at 84 with the names `f` and `fg` in the
table at 132, section names at 138, two static symbols at 155 with the names in the table at 187, and four bytes of
code at 193. -/
def sampleFile (shstrndx : Nat) (a b c : SampleSym) (headers : List Shdr) : Bytes :=
  let strings : Bytes := [0, 102, 0, 102, 103, 0]
  let names : Bytes := [0, 46, 115, 121, 109, 116, 97, 98, 0, 46, 115, 116, 114, 116, 97, 98, 0]
  let null : SampleSym := ⟨0, 0, 0, 0⟩
  (Ehdr.layout .elf32).encode [0, 3, 40, 1, 0, 52, 197, 0, 52, 32, 1, 40, headers.length, shstrndx] ++
    (Phdr.layout .elf32).encode [1, 0, 0, 0, 4096, 4096, 5, 4096] ++
    (null.bytes ++ a.bytes ++ b.bytes) ++ strings ++ names ++ (null.bytes ++ c.bytes) ++ strings ++ [0, 0, 0, 0] ++
    (headers.map (Shdr.encode .elf32)).flatten

def nullHeader : Shdr := ⟨0, .other 0, 0, 0, 0, 0, 0⟩

def dynsymHeader (link : Nat) : Shdr := ⟨0, .dynsym, 84, 84, 48, link, 16⟩

def dynstrHeader : Shdr := ⟨0, .strtab, 132, 132, 6, 0, 0⟩

def shstrtabHeader : Shdr := ⟨0, .strtab, 0, 138, 17, 0, 0⟩

def symtabHeader (link : Nat) : Shdr := ⟨1, .symtab, 0, 155, 32, link, 16⟩

def strtabHeader : Shdr := ⟨9, .strtab, 0, 187, 6, 0, 0⟩

def textHeader : Shdr := ⟨0, .progbits, 193, 193, 4, 0, 0⟩

def symbolF : CString := ⟨[102], by decide⟩

def symbolFg : CString := ⟨[102, 103], by decide⟩

def codeLast : Bytes := sampleFile 1 ⟨1, 193, 4, 18⟩ ⟨3, 195, 2, 18⟩ ⟨3, 195, 2, 18⟩
  [nullHeader, shstrtabHeader, dynsymHeader 3, dynstrHeader, textHeader]

theorem codeLast_lookup : ∃ e l, ElfImg.openMapped .elf32 codeLast 65536 = some e ∧
    e.candidates .elf32 codeLast = some l ∧ ∀ matchPrefix, FindsDefined .elf32 codeLast e l symbolF matchPrefix := by
  have hl : ((ElfImg.openMapped .elf32 codeLast 65536).bind (fun e => (e.candidates .elf32 codeLast).map (fun l =>
      l.all (fun x => !x.hasName symbolF true || x.value ≠ 0) &&
        l.all (fun x => !x.hasName symbolF false || x.value ≠ 0))))
        = some true := by decide +kernel
  obtain ⟨e, he, hl⟩ := Option.bind_eq_some_iff.1 hl
  obtain ⟨l, hl, hall⟩ := Option.map_eq_some_iff.1 hl
  refine ⟨e, l, he, hl, ((lookup_complete_iff .elf32 codeLast e l hl symbolF).2 fun matchPrefix => ?_).1⟩
  refine not_hides_of_defined fun x hx hname => ?_
  simp only [Bool.and_eq_true, List.all_eq_true] at hall
  cases matchPrefix with
  | true => simpa [hname] using hall.1 x hx
  | false => simpa [hname] using hall.2 x hx

def importFile : Bytes := sampleFile 1 ⟨3, 0, 0, 18⟩ ⟨1, 193, 4, 18⟩ ⟨3, 195, 2, 18⟩
  [nullHeader, shstrtabHeader, dynsymHeader 3, dynstrHeader, textHeader, symtabHeader 6, strtabHeader]

/-- The import of `fg` hides the definition of `fg`, and in prefix mode that of `f`, which exact mode finds. -/
theorem import_hides : ∃ e l, ElfImg.openMapped .elf32 importFile 65536 = some e ∧
    e.candidates .elf32 importFile = some l ∧
    (∃ x ∈ l, x.value ≠ 0 ∧ x.hasName symbolFg false = true) ∧
    e.getSymbolOffset .elf32 importFile symbolFg false = some 0 ∧
    e.getSymbolOffset .elf32 importFile symbolF false = some 193 ∧
    e.getSymbolOffset .elf32 importFile symbolF true = some 0 := by
  have hl : ((ElfImg.openMapped .elf32 importFile 65536).bind (fun e => (e.candidates .elf32 importFile).map (fun l =>
      (l.any (fun x => x.value ≠ 0 && x.hasName symbolFg false), e.getSymbolOffset .elf32 importFile symbolFg false,
        e.getSymbolOffset .elf32 importFile symbolF false, e.getSymbolOffset .elf32 importFile symbolF true))))
          = some (true, some 0, some 193, some 0) := by decide +kernel
  obtain ⟨e, he, hl⟩ := Option.bind_eq_some_iff.1 hl
  obtain ⟨l, hl, hanswers⟩ := Option.map_eq_some_iff.1 hl
  simp only [Prod.mk.injEq] at hanswers
  obtain ⟨hany, hfg, hf, hprefix⟩ := hanswers
  obtain ⟨x, hx, hdefined⟩ := List.any_eq_true.1 hany
  exact ⟨e, l, he, hl, ⟨x, hx, by simpa using hdefined⟩, hfg, hf, hprefix⟩

/-! ## The reference -/

/-- The name a lookup asks for: the same string, or, in prefix mode, one that begins with it. -/
def Symbol.Answers (s : Symbol) (name : CString) : Bool → Prop
  | false => s.name = name.bytes
  | true  => name.bytes <+: s.name

instance (s : Symbol) (name : CString) : (matchPrefix : Bool) → Decidable (s.Answers name matchPrefix)
  | false => inferInstanceAs (Decidable (_ = _))
  | true  => inferInstanceAs (Decidable (_ <+: _))

/-- **The reference**: the value of the first entry that answers, 0 when none does. -/
def firstValue (l : List Symbol) (name : CString) (matchPrefix : Bool) : Nat :=
  (l.find? (fun s => s.Answers name matchPrefix)).elim 0 Symbol.value

theorem Symbol.hasName_iff (s : Symbol) (name : CString) (matchPrefix : Bool) :
    s.hasName name matchPrefix = true ↔ s.Answers name matchPrefix := by
  cases matchPrefix with
  | false => simp [hasName, nameAnswers, Answers]
  | true =>
    simp only [hasName, nameAnswers, Answers, Bool.true_and, Bool.or_eq_true, decide_eq_true_eq,
      List.isPrefixOf_iff_prefix]
    constructor
    · rintro (heq | hprefix)
      · exact heq ▸ List.prefix_rfl
      · exact hprefix
    · exact Or.inr

theorem Symbol.hasName_eq (s : Symbol) (name : CString) (matchPrefix : Bool) :
    s.hasName name matchPrefix = decide (s.Answers name matchPrefix) := by
  rw [Bool.eq_iff_iff, hasName_iff, decide_eq_true_iff]

theorem getSymbolOffset_eq_firstValue {w : ElfClass} {file : Bytes} {e : ElfImg} {l : List Symbol}
    (h : e.candidates w file = some l) (name : CString) (matchPrefix : Bool) :
    e.getSymbolOffset w file name matchPrefix = some (firstValue l name matchPrefix) := by
  rw [e.getSymbolOffset_eq h]
  simp only [firstValue, Symbol.hasName_eq]

theorem firstValue_append {l m : List Symbol} {name : CString} {matchPrefix : Bool}
    (h : ∃ x ∈ l, x.Answers name matchPrefix) :
    firstValue (l ++ m) name matchPrefix = firstValue l name matchPrefix := by
  obtain ⟨x, hx, hanswers⟩ := h
  have hfind : (l.find? (fun s => s.Answers name matchPrefix)).isSome = true :=
    List.find?_isSome.2 ⟨x, hx, by simpa using hanswers⟩
  obtain ⟨y, hy⟩ := Option.isSome_iff_exists.1 hfind
  rw [firstValue, firstValue, List.find?_append, hy]
  rfl

theorem firstValue_mem {l : List Symbol} {name : CString} {matchPrefix : Bool} {v : Nat} (hv : v ≠ 0)
    (h : firstValue l name matchPrefix = v) : ∃ x ∈ l, x.Answers name matchPrefix ∧ x.value = v := by
  unfold firstValue at h
  cases hfind : l.find? (fun s => s.Answers name matchPrefix) with
  | none => rw [hfind] at h; exact absurd h.symm hv
  | some x =>
    rw [hfind] at h
    have hanswers := List.find?_some hfind
    exact ⟨x, List.mem_of_find?_eq_some hfind, by simpa using hanswers, h⟩

theorem findIdx_prefix_le (l : List Symbol) (name : CString) :
    l.findIdx (fun s => s.Answers name true) ≤ l.findIdx (fun s => s.Answers name false) := by
  refine List.findIdx_le_findIdx fun s _ hexact => ?_
  have hname : name.bytes = s.name := (of_decide_eq_true hexact : s.name = name.bytes).symm
  have hprefix : name.bytes <+: s.name := hname ▸ List.prefix_rfl
  exact decide_eq_true hprefix

/-- **The two-table search is its reference**, on tables that can be read: the first answer of all of `.dynsym`,
then the sized functions of `.symtab`.  A `.symtab` entry is answered only when no `.dynsym` entry answers, an
answer other than 0 belongs to an entry that answers, and prefix mode finds its entry no later than exact mode. -/
theorem two_table_search (w : ElfClass) (file : Bytes) (e : ElfImg) (ds ss : List Symbol)
    (hds : e.dynsyms w file = some ds) (hss : e.symtabs w file = some ss) (name : CString) :
    (∀ matchPrefix, e.getSymbolOffset w file name matchPrefix =
      some (firstValue (ds ++ ss.filter Symbol.isSizedFunction) name matchPrefix)) ∧
    (∀ matchPrefix, (∃ d ∈ ds, d.Answers name matchPrefix) →
      e.getSymbolOffset w file name matchPrefix = some (firstValue ds name matchPrefix)) ∧
    (∀ matchPrefix v, v ≠ 0 → e.getSymbolOffset w file name matchPrefix = some v →
      ∃ x ∈ ds ++ ss.filter Symbol.isSizedFunction, x.Answers name matchPrefix ∧ x.value = v) ∧
    (ds ++ ss.filter Symbol.isSizedFunction).findIdx (fun s => s.Answers name true) ≤
      (ds ++ ss.filter Symbol.isSizedFunction).findIdx (fun s => s.Answers name false) := by
  have hcandidates : e.candidates w file = some (ds ++ ss.filter Symbol.isSizedFunction) := by
    unfold ElfImg.candidates
    rw [hds, hss]
    rfl
  have hfirst := getSymbolOffset_eq_firstValue hcandidates name
  refine ⟨hfirst, fun matchPrefix hd => ?_, fun matchPrefix v hv hanswer => ?_, findIdx_prefix_le _ name⟩
  · rw [hfirst, firstValue_append hd]
  · rw [hfirst, Option.some.injEq] at hanswer
    exact firstValue_mem hv hanswer

theorem two_table_search_importFile : ∃ e ds ss, ElfImg.openMapped .elf32 importFile 65536 = some e ∧
    e.dynsyms .elf32 importFile = some ds ∧ e.symtabs .elf32 importFile = some ss ∧
    e.getSymbolOffset .elf32 importFile symbolF true =
      some (firstValue (ds ++ ss.filter Symbol.isSizedFunction) symbolF true) := by
  have hopen : ((ElfImg.openMapped .elf32 importFile 65536).bind
    (fun e => (e.dynsyms .elf32 importFile).bind (fun _ =>
      (e.symtabs .elf32 importFile).map (fun _ => ())))) = some () := by decide +kernel
  obtain ⟨e, he, hopen⟩ := Option.bind_eq_some_iff.1 hopen
  obtain ⟨ds, hds, hopen⟩ := Option.bind_eq_some_iff.1 hopen
  obtain ⟨ss, hss, -⟩ := Option.map_eq_some_iff.1 hopen
  exact ⟨e, ds, ss, he, hds, hss, (two_table_search .elf32 importFile e ds ss hds hss symbolF).1 true⟩

end JLSPlant
