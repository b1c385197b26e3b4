import Mathlib.Data.List.Basic
/-!
# Reflect — the reflected classes, members and method objects, and `Method.invoke`'s checks

What jLSPlant reads of `java.lang.reflect`: a class's names, its package and its supertypes; a member's declaring
class, name and parameter types; a `Method` object's accessible flag.  `Method.invoke` is its documented checks
(`Method.checkInvoke`) followed by the body, whose throwable it wraps (`Method.complete`).
-/
namespace JLSPlant

abbrev Text := List Char

/-- Not empty, and free of the brackets and the comma that no dex file puts in a name. -/
def Text.isPlain (t : Text) : Bool := !t.isEmpty && t.all (fun c => c != '(' && c != ')' && c != ',')

/-- **A name a class or a member can have.** -/
structure Name where
  text : Text
  plain : text.isPlain = true
deriving DecidableEq

namespace Name

theorem ne_nil (n : Name) : n.text ≠ [] := by
  have h := n.plain
  simp only [Text.isPlain, Bool.and_eq_true] at h
  simpa using h.1

theorem not_mem (n : Name) {c : Char} (hc : c = '(' ∨ c = ')' ∨ c = ',') : c ∉ n.text := by
  intro hm
  have h := n.plain
  simp only [Text.isPlain, Bool.and_eq_true, List.all_eq_true] at h
  have := h.2 c hm
  rcases hc with rfl | rfl | rfl <;> simp at this

end Name

inductive ClassKind
  | primitive | interface | ordinary
deriving DecidableEq, Repr

/-- A class: the loader that defines it, its names, its package and its proper supertypes, each by loader and name. -/
structure Class where
  loader : Nat
  name : Name
  canonicalName : Option Name
  packageName : Text
  kind : ClassKind
  isPublic : Bool
  supertypes : List (Nat × Name)
deriving DecidableEq

namespace Class

def identity (c : Class) : Nat × Name := (c.loader, c.name)

/-- `Class.isAssignableFrom`: the class itself or a subtype of it. -/
def isAssignableFrom (c d : Class) : Bool := d.identity = c.identity || d.supertypes.contains c.identity

def samePackage (c d : Class) : Bool := c.loader = d.loader && c.packageName = d.packageName

def toString (c : Class) : Text :=
  match c.kind with
  | .interface => "interface ".toList ++ c.name.text
  | .primitive => c.name.text
  | .ordinary  => "class ".toList ++ c.name.text

end Class

inductive Visibility
  | pub | prot | pkg | priv
deriving DecidableEq, Repr

structure MethodDecl where
  declaringClass : Class
  name : Name
  parameterTypes : List Class
  returnType : Class
  isStatic : Bool
  visibility : Visibility
deriving DecidableEq

structure ConstructorDecl where
  declaringClass : Class
  parameterTypes : List Class
  visibility : Visibility
deriving DecidableEq

/-- **A member that can be hooked**, up to `equals`: two reflected objects of one method are one member. -/
inductive Member
  | method (d : MethodDecl)
  | constructor (d : ConstructorDecl)
deriving DecidableEq

namespace Member

def getDeclaringClass : Member → Class
  | .method d      => d.declaringClass
  | .constructor d => d.declaringClass

/-- `Member.getName`: a constructor's is its class's. -/
def getName : Member → Name
  | .method d      => d.name
  | .constructor d => d.declaringClass.name

end Member

/-- A `java.lang.reflect.Method` object: the method it reflects and its accessible flag. -/
structure Method where
  decl : MethodDecl
  accessible : Bool := false
deriving DecidableEq

structure Object where
  id : Nat
  cls : Class
deriving DecidableEq

/-- What a call can throw.  `other` is any throwable the runtime's own checks do not raise. -/
inductive Throwable
  | nullPointer | illegalArgument | illegalAccess
  | invocationTarget (cause : Throwable)
  | other (id : Nat)
deriving DecidableEq, Repr

theorem Throwable.invocationTarget_ne : ∀ e : Throwable, Throwable.invocationTarget e ≠ e
  | .invocationTarget e, h => invocationTarget_ne e (Throwable.invocationTarget.inj h)

abbrev Completion (V : Type) := Except Throwable V

namespace Method

def checkReceiver (m : Method) (obj : Option Object) : Except Throwable Unit :=
  if m.decl.isStatic then .ok () else
  match obj with
  | none   => .error .nullPointer
  | some o => if m.decl.declaringClass.isAssignableFrom o.cls then .ok () else .error .illegalArgument

/-- The language's access rules, for a call made by code of `caller` on `obj`. -/
def accessibleFrom (caller : Class) (m : Method) (obj : Option Object) : Bool :=
  let declaring := m.decl.declaringClass
  declaring.identity = caller.identity ||
    ((declaring.isPublic || declaring.samePackage caller) &&
      match m.decl.visibility with
      | .pub  => true
      | .prot => declaring.samePackage caller ||
          (declaring.isAssignableFrom caller &&
            (m.decl.isStatic || match obj with | none => false | some o => caller.isAssignableFrom o.cls))
      | .pkg  => declaring.samePackage caller
      | .priv => false)

def checkAccess (caller : Class) (m : Method) (obj : Option Object) : Except Throwable Unit :=
  if m.accessible || m.accessibleFrom caller obj then .ok () else .error .illegalAccess

def checkArguments (m : Method) (args : List Class) : Except Throwable Unit :=
  if m.decl.parameterTypes.length = args.length ∧
      (m.decl.parameterTypes.zip args).all (fun p => p.1.isAssignableFrom p.2) then .ok ()
  else .error .illegalArgument

/-- **`Method.invoke` before the body**: everything that can fail before its first statement, for arguments of the
classes `args`. -/
def checkInvoke (m : Method) (caller : Class) (obj : Option Object) (args : List Class) : Except Throwable Unit := do
  m.checkReceiver obj
  m.checkAccess caller obj
  m.checkArguments args

/-- **What `Method.invoke` asks before the body**: a receiver for an instance method, access, and one argument each
parameter takes. -/
theorem checkInvoke_ok_iff (m : Method) (caller : Class) (obj : Option Object) (args : List Class) :
    m.checkInvoke caller obj args = .ok () ↔
      (m.decl.isStatic = true ∨ obj.any (fun o => m.decl.declaringClass.isAssignableFrom o.cls) = true) ∧
      (m.accessible = true ∨ m.accessibleFrom caller obj = true) ∧
      m.decl.parameterTypes.length = args.length ∧
      (m.decl.parameterTypes.zip args).all (fun p => p.1.isAssignableFrom p.2) = true := by
  have hbind : ∀ (x y : Except Throwable Unit), (do x; y) = .ok () ↔ x = .ok () ∧ y = .ok () := by
    intro x y
    cases x with
    | error e => exact ⟨fun h => (by cases h), fun h => (by cases h.1)⟩
    | ok u => exact ⟨fun h => ⟨rfl, h⟩, fun h => h.2⟩
  have hreceiver : m.checkReceiver obj = .ok () ↔
      (m.decl.isStatic = true ∨ obj.any (fun o => m.decl.declaringClass.isAssignableFrom o.cls) = true) := by
    unfold checkReceiver
    cases m.decl.isStatic with
    | true => simp
    | false => cases obj <;> simp
  have haccess : m.checkAccess caller obj = .ok () ↔ (m.accessible = true ∨ m.accessibleFrom caller obj = true) := by
    unfold checkAccess
    rw [← Bool.or_eq_true]
    split <;> simp_all
  have harguments : m.checkArguments args = .ok () ↔ m.decl.parameterTypes.length = args.length ∧
      (m.decl.parameterTypes.zip args).all (fun p => p.1.isAssignableFrom p.2) = true := by
    unfold checkArguments
    split <;> simp_all
  unfold checkInvoke
  rw [hbind, hbind, hreceiver, haccess, harguments]

/-- **`Method.invoke` after the body**: the value as it is, a throwable wrapped. -/
def complete {V : Type} : Completion V → Completion V
  | .ok v    => .ok v
  | .error e => .error (.invocationTarget e)

@[simp] theorem complete_ok {V : Type} (v : V) : complete (.ok v : Completion V) = .ok v := rfl

@[simp] theorem complete_error {V : Type} (e : Throwable) :
    complete (.error e : Completion V) = .error (.invocationTarget e) := rfl

/-- **A reflective call passes on what its body does exactly when the body returns.** -/
theorem complete_eq_iff {V : Type} (c : Completion V) : complete c = c ↔ ∃ v, c = .ok v := by
  cases c with
  | ok v => simp
  | error e =>
    rw [complete_error]
    constructor
    · intro h; exact absurd (Except.error.inj h) (Throwable.invocationTarget_ne e)
    · rintro ⟨v, h⟩; cases h

end Method
end JLSPlant
