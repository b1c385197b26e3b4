import JLSPlant.Lists
import JLSPlant.Reflect
/-!
# MemberName — `Utils`: the registry key of a member

`getMemberName` writes a member as text.  Two members have one key exactly when their keys keep the same parameters
and their class names and names read the same across the `$` between them (`getMemberName_eq_iff`).  What a key
loses is stated there: a constructor's parameters, a method's return type, the loaders of the classes, the name of a
class that has no canonical one, and where the class name ends.
-/
namespace JLSPlant

open Lists (sepBy)

namespace Utils

/-- `arrayToString`'s loop on the elements from index `i` on, with `b` built so far: it leaves at the last one. -/
def arrayLoop {α : Type} (toString : α → Text) : List α → Text → Text
  | [], b          => b
  | [x], b         => b ++ toString x
  | x :: y :: l, b => arrayLoop toString (y :: l) (b ++ toString x ++ ", ".toList)

def arrayToString {α : Type} (toString : α → Text) : Option (List α) → Text
  | none          => "null".toList
  | some []       => []
  | some (x :: l) => arrayLoop toString (x :: l) []

def getMemberName (member : Member) : Text :=
  let declaringClassName := match member.getDeclaringClass.canonicalName with
    | some n => n.text
    | none   => "null".toList
  let memberName := member.getName.text
  let memberParameters := match member with
    | .method d      => arrayToString Class.toString (some d.parameterTypes)
    | .constructor _ => []
  declaringClassName ++ "$".toList ++ memberName ++ "(".toList ++ memberParameters ++ ")".toList

theorem arrayLoop_eq {α : Type} (f : α → Text) : ∀ (x : α) (l : List α) (b : Text),
    arrayLoop f (x :: l) b = b ++ sepBy (',' :: [' ']) ((x :: l).map f)
  | _, [], _ => rfl
  | x, y :: l, b => by
    rw [arrayLoop, arrayLoop_eq f y l, List.map_cons, List.map_cons, List.map_cons, Lists.sepBy_cons_cons,
      show ", ".toList = [',', ' '] from by decide, List.append_assoc, List.append_assoc, List.append_assoc]

/-- **`arrayToString` joins the elements' texts with a comma and a blank.** -/
theorem arrayToString_some {α : Type} (f : α → Text) (a : List α) :
    arrayToString f (some a) = sepBy (',' :: [' ']) (a.map f) := by
  cases a with
  | nil => rfl
  | cons x l => exact arrayLoop_eq f x l []

end Utils

theorem Class.toString_ne_nil (c : Class) : c.toString ≠ [] := by
  have hn := c.name.ne_nil
  unfold Class.toString
  cases c.kind <;> simp [hn]

theorem Class.no_comma_toString (c : Class) : ',' ∉ c.toString := by
  have hn := c.name.not_mem (c := ',') (by simp)
  unfold Class.toString
  cases c.kind <;> simp [hn]

namespace Member

def className (m : Member) : Text :=
  match m.getDeclaringClass.canonicalName with
  | some n => n.text
  | none   => "null".toList

/-- **What a key keeps of the parameters**: of a method's, the texts of the types in order; of a constructor's,
nothing. -/
def keyParameters : Member → List Text
  | .method d      => d.parameterTypes.map Class.toString
  | .constructor _ => []

/-- `t`'s class name goes on, after `u`'s, with a `$` and the beginning of `u`'s name. -/
def Extends (t u : Member) : Prop :=
  ∃ s, t.className = u.className ++ '$' :: s ∧ u.getName.text = s ++ '$' :: t.getName.text

/-- **Class name and name read the same in two keys**: they are equal, or a `$` of one member's name stands where the
other's class name goes on. -/
def SameQualified (t u : Member) : Prop :=
  (t.className = u.className ∧ t.getName.text = u.getName.text) ∨ t.Extends u ∨ u.Extends t

/-- **Two members one key cannot tell apart.** -/
structure SameKey (t u : Member) : Prop where
  parameters : t.keyParameters = u.keyParameters
  qualified : t.SameQualified u

theorem no_open_className (m : Member) : '(' ∉ m.className := by
  unfold className
  cases m.getDeclaringClass.canonicalName with
  | none => decide
  | some n => exact n.not_mem (by simp)

theorem keyParameters_plain (m : Member) : ∀ x ∈ m.keyParameters, x ≠ [] ∧ ',' ∉ x := by
  intro x hx
  cases m with
  | constructor d => cases hx
  | method d =>
    obtain ⟨c, -, rfl⟩ := List.mem_map.1 hx
    exact ⟨c.toString_ne_nil, c.no_comma_toString⟩

/-- **The class name and the name of two members, read across the `$`.** -/
theorem qualified_eq_iff (t u : Member) :
    t.className ++ '$' :: t.getName.text = u.className ++ '$' :: u.getName.text ↔ t.SameQualified u := by
  constructor
  · intro h
    rcases List.append_eq_append_iff.1 h with ⟨m, hc, hn⟩ | ⟨m, hc, hn⟩
    · cases m with
      | nil =>
        rw [List.nil_append] at hn
        exact Or.inl ⟨by rw [hc, List.append_nil], (List.cons.inj hn).2⟩
      | cons d m =>
        obtain ⟨hd, hn⟩ := List.cons.inj hn
        exact Or.inr (Or.inr ⟨m, by rw [hc, hd], hn⟩)
    · cases m with
      | nil =>
        rw [List.nil_append] at hn
        exact Or.inl ⟨by rw [hc, List.append_nil], (List.cons.inj hn).2.symm⟩
      | cons d m =>
        obtain ⟨hd, hn⟩ := List.cons.inj hn
        exact Or.inr (Or.inl ⟨m, by rw [hc, hd], hn⟩)
  · rintro (⟨hc, hn⟩ | ⟨s, hc, hn⟩ | ⟨s, hc, hn⟩)
    · rw [hc, hn]
    · rw [hc, hn, List.append_assoc]; rfl
    · rw [hc, hn, List.append_assoc]; rfl

end Member

open Utils (getMemberName)

theorem getMemberName_eq (m : Member) : getMemberName m =
    (m.className ++ '$' :: m.getName.text) ++ '(' :: (sepBy (',' :: [' ']) m.keyParameters ++ [')']) := by
  have hp : (match m with
      | .method d      => Utils.arrayToString Class.toString (some d.parameterTypes)
      | .constructor _ => []) = sepBy (',' :: [' ']) m.keyParameters := by
    cases m with
    | method d => exact Utils.arrayToString_some Class.toString d.parameterTypes
    | constructor d => rfl
  unfold getMemberName
  rw [hp, show "$".toList = ['$'] from by decide, show "(".toList = ['('] from by decide,
    show ")".toList = [')'] from by decide]
  simp only [Member.className, List.append_assoc, List.cons_append, List.nil_append]

/-- **When two members have one key**: the parameter text and the text before it can each be read back, so the keys
agree exactly when these do. -/
theorem getMemberName_eq_iff (t u : Member) : getMemberName t = getMemberName u ↔ t.SameKey u := by
  rw [getMemberName_eq, getMemberName_eq]
  have hopen : ∀ m : Member, '(' ∉ m.className ++ '$' :: m.getName.text := fun m h => by
    rcases List.mem_append.1 h with h | h
    · exact m.no_open_className h
    · rcases List.mem_cons.1 h with h | h
      · exact absurd h (by decide)
      · exact m.getName.not_mem (by simp) h
  constructor
  · intro h
    obtain ⟨hq, hp⟩ := Lists.cut_inj (hopen t) (hopen u) h
    exact ⟨Lists.sepBy_inj _ _ _ _ t.keyParameters_plain u.keyParameters_plain (List.append_cancel_right hp),
      (t.qualified_eq_iff u).1 hq⟩
  · rintro ⟨hp, hq⟩
    rw [hp, (t.qualified_eq_iff u).2 hq]

/-! ## The parameter text -/

namespace Utils

theorem arrayToString_inj {α : Type} (f : α → Text) (xs ys : List α) (hx : ∀ x ∈ xs, f x ≠ [] ∧ ',' ∉ f x)
    (hy : ∀ y ∈ ys, f y ≠ [] ∧ ',' ∉ f y) (h : arrayToString f (some xs) = arrayToString f (some ys)) :
    xs.map f = ys.map f := by
  rw [arrayToString_some, arrayToString_some] at h
  have hplain : ∀ l : List α, (∀ x ∈ l, f x ≠ [] ∧ ',' ∉ f x) → ∀ t ∈ l.map f, t ≠ [] ∧ ',' ∉ t := by
    intro l hl t ht
    obtain ⟨x, hm, rfl⟩ := List.mem_map.1 ht
    exact hl x hm
  exact Lists.sepBy_inj _ _ _ _ (hplain xs hx) (hplain ys hy) h

/-- **The parameter text determines the parameters**: two arrays of elements with plain texts that have one text
have one length and equal texts at every place; so overloads with different parameter texts have different keys. -/
theorem parameter_text_determines :
    (∀ {α : Type} (f : α → Text) (xs ys : List α), (∀ x ∈ xs, f x ≠ [] ∧ ',' ∉ f x) →
      (∀ y ∈ ys, f y ≠ [] ∧ ',' ∉ f y) → arrayToString f (some xs) = arrayToString f (some ys) →
        xs.length = ys.length ∧ ∀ i : Nat, (xs[i]?).map f = (ys[i]?).map f) ∧
    ∀ c d : MethodDecl, c.declaringClass = d.declaringClass → c.name = d.name →
      c.parameterTypes.map Class.toString ≠ d.parameterTypes.map Class.toString →
        arrayToString Class.toString (some c.parameterTypes) ≠ arrayToString Class.toString (some d.parameterTypes) ∧
          getMemberName (.method c) ≠ getMemberName (.method d) := by
  constructor
  · intro α f xs ys hx hy h
    have hmap := arrayToString_inj f xs ys hx hy h
    refine ⟨by simpa using congrArg List.length hmap, fun i => ?_⟩
    rw [← List.getElem?_map, ← List.getElem?_map, hmap]
  · intro c d _ _ hne
    have hplain : ∀ e : MethodDecl, ∀ p ∈ e.parameterTypes, p.toString ≠ [] ∧ ',' ∉ p.toString :=
      fun _ p _ => ⟨p.toString_ne_nil, p.no_comma_toString⟩
    refine ⟨fun h => hne (arrayToString_inj Class.toString _ _ (hplain c) (hplain d) h), fun h => hne ?_⟩
    exact ((getMemberName_eq_iff (.method c) (.method d)).1 h).parameters

def longClass : Class where
  loader := 0
  name := ⟨"long".toList, by decide⟩
  canonicalName := some ⟨"long".toList, by decide⟩
  packageName := []
  kind := .primitive
  isPublic := true
  supertypes := []

def setTime (parameterTypes : List Class) : MethodDecl :=
  ⟨longClass, ⟨"setTime".toList, by decide⟩, parameterTypes, longClass, true, .pub⟩

theorem parameter_text_determines_setTime :
    ([(1, "long".toList)].length = [(2, "long".toList)].length ∧
      ∀ i : Nat, ([(1, "long".toList)][i]?).map Prod.snd = ([(2, "long".toList)][i]?).map Prod.snd) ∧
    arrayToString Class.toString (some (setTime []).parameterTypes) ≠
      arrayToString Class.toString (some (setTime [longClass]).parameterTypes) ∧
    getMemberName (.method (setTime [])) ≠ getMemberName (.method (setTime [longClass])) :=
  ⟨parameter_text_determines.1 Prod.snd [(1, "long".toList)] [(2, "long".toList)] (by decide) (by decide) rfl,
    parameter_text_determines.2 (setTime []) (setTime [longClass]) rfl rfl (by decide)⟩

end Utils
end JLSPlant
