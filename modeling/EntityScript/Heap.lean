/-
# The heap of a machine

The objects that values refer to: strings, compiled functions and natives.  Objects are never freed
one by one.  Equal strings share one object, and so do mentions of one compiled function; two tables
find these objects again.
-/
import EntityScript.Host.Basic

namespace EntityScript

/-- What a value can refer to. -/
inductive Object where
  | string (text : String)
  | function (f : Function)
  | native (n : Native)

namespace Object

/-- The text of a string. -/
def string? : Object → Option String
  | .string text => some text
  | _ => none

/-- The function of a compiled function. -/
def function? : Object → Option Function
  | .function f => some f
  | _ => none

/-- Whether two objects are the same thing: strings by text, functions by identity. -/
def same : Object → Object → Bool
  | .string s, .string t => s == t
  | .function f, .function g => f.id == g.id
  | .native m, .native n => m.name == n.name && m.edition == n.edition
  | _, _ => false

/-- An object as it is printed. -/
def text : Object → String
  | .string s => s
  | .function f => f.text
  | .native n => n.text

end Object

/-- The objects of a machine; the position of an object is its reference. -/
structure Heap where
  objects : Array Object
  strings : Std.TreeMap String Ref
  functions : Std.TreeMap FunctionId Ref

namespace Heap

/-- No objects. -/
def empty : Heap := ⟨#[], {}, {}⟩

instance : Inhabited Heap := ⟨empty⟩

/-- The number of objects. -/
def size (h : Heap) : Nat :=
  h.objects.size

/-- The object behind a reference. -/
def get? (h : Heap) (ref : Ref) : Option Object :=
  h.objects[ref.index]?

/-- The reference that the next new object gets. -/
def nextRef (h : Heap) : Ref :=
  ⟨h.objects.size⟩

/-- The string with a text, which is made if there is none yet. -/
def intern (h : Heap) (text : String) : Ref × Heap :=
  match h.strings[text]? with
  | some ref => (ref, h)
  | none =>
    (h.nextRef, { h with
      objects := h.objects.push (.string text)
      strings := h.strings.insert text h.nextRef })

/-- The object of a compiled function, which is made if there is none yet. -/
def function (h : Heap) (f : Function) : Ref × Heap :=
  match h.functions[f.id]? with
  | some ref => (ref, h)
  | none =>
    (h.nextRef, { h with
      objects := h.objects.push (.function f)
      functions := h.functions.insert f.id h.nextRef })

/-- A new object for a native. -/
def native (h : Heap) (n : Native) : Ref × Heap :=
  (h.nextRef, { h with objects := h.objects.push (.native n) })

/-- Puts an object into the heap. -/
def alloc (h : Heap) : Object → Ref × Heap
  | .string text => h.intern text
  | .function f => h.function f
  | .native n => h.native n

/-- Equality of values that compares objects by what they are.  A reference to nothing equals
nothing. -/
def equal (h : Heap) : Value → Value → Bool
  | .object a, .object b =>
    match h.get? a, h.get? b with
    | some x, some y => x.same y
    | _, _ => false
  | a, b => a.same b

/-- A value as `print` shows it. -/
def display (h : Heap) : Value → String
  | .object ref =>
    match h.get? ref with
    | some object => object.text
    | none => "<dangling object " ++ toString ref.index ++ ">"
  | v => v.text

end Heap

end EntityScript
