/-
# Machines that are aligned with the code

The invariant of a machine that runs compiled code.  Every active call runs a function of the
library, its part of the stack has the depth that the code says for its cursor, and its slot zero
holds the function itself (`Machine.Aligned`).  Of the values it is said separately that they refer
to objects of the heap (`Machine.Valid`), because this depends on what the natives of the host give
back.

`proceeds` says that an instruction keeps both, or stops with a fault that the script itself is to
blame for.
-/
import EntityScript.Proofs.Code.Balance
import EntityScript.Proofs.Compile.Library
import EntityScript.Proofs.Machine.Instructions
import EntityScript.Proofs.Value.Plain

namespace EntityScript

/-- The faults that only code can cause that no compiler has made. -/
def Fault.isInternal : Fault → Bool
  | .badLiteral _ | .ranOffEnd _ | .badJump _ | .noFrame | .danglingObject | .stackUnderflow => true
  | _ => false

/-- A native that gives back plain values or one of its arguments. -/
def Native.Tame (n : Native) : Prop :=
  ∀ arguments v, n.call arguments = .ok v → v.isObject = false ∨ v ∈ arguments

/-- All natives of a host are tame. -/
def Host.Tame (host : Host) : Prop :=
  ∀ (name : String) (n : Native), host.natives[name]? = some n → n.Tame

/-- If a value is an object, it is in the heap. -/
def Value.Lives (h : Heap) (v : Value) : Prop :=
  ∀ ref, v = .object ref → ref.index < h.size

/-- A value that is no object refers to nothing. -/
theorem Value.lives_of_plain {h : Heap} {v : Value} (hv : v.isObject = false) : v.Lives h := by
  rintro ref rfl
  simp [Value.isObject] at hv

/-- What a value refers to is still there when the heap has grown. -/
theorem Value.Lives.extends {h h' : Heap} {v : Value} (hv : v.Lives h) (hx : h.Extends h') :
    v.Lives h' :=
  fun ref href => hx.lt_size (hv ref href)

/-! ## Heaps -/

/-- A heap with functions of the library and natives of the host. -/
structure Heap.Known (lib : Library) (host : Host) (h : Heap) : Prop where
  canonical : h.Canonical
  functions : ∀ ref f, h.get? ref = some (.function f) → lib.Holds f
  natives : ∀ ref n, h.get? ref = some (.native n) → ∃ name : String, host.natives[name]? = some n

namespace Heap

variable {lib : Library} {host : Host} {h : Heap}

theorem known_empty (lib : Library) (host : Host) : Known lib host empty :=
  ⟨canonical_empty, by simp [empty, get?], by simp [empty, get?]⟩

/-- Making a text adds no function and no native. -/
theorem Known.intern (hk : h.Known lib host) (text : String) :
    (h.intern text).2.Known lib host := by
  refine ⟨(intern_spec hk.canonical text).2.1, ?_, ?_⟩
  · intro ref f hget
    rcases get?_intern hget with hold | hnew
    · exact hk.functions ref f hold
    · cases hnew
  · intro ref n hget
    rcases get?_intern hget with hold | hnew
    · exact hk.natives ref n hold
    · cases hnew

/-- Making a function of the library keeps to the library, and gives the function itself. -/
theorem Known.function (hk : h.Known lib host) {f : Function} (hf : lib.Holds f) :
    (h.function f).2.Known lib host ∧ (h.function f).2.get? (h.function f).1 =
      some (.function f) := by
  obtain ⟨⟨g, hid, hget, hg⟩, hc, -⟩ := function_spec hk.canonical f
  refine ⟨⟨hc, ?_, ?_⟩, ?_⟩
  · intro ref f' hget'
    rcases get?_function hget' with hold | hnew
    · exact hk.functions ref f' hold
    · cases hnew
      exact hf
  · intro ref n hget'
    rcases get?_function hget' with hold | hnew
    · exact hk.natives ref n hold
    · cases hnew
  · -- a function with the same number is the same function
    rcases hg with rfl | hold
    · exact hget
    · rw [hget, (hk.functions _ g hold).eq_of_id hf hid]

theorem Known.native (hk : h.Known lib host) {name : String} {n : Native}
    (hn : host.natives[name]? = some n) : (h.native n).2.Known lib host := by
  refine ⟨(native_spec hk.canonical n).2.1, ?_, ?_⟩
  · intro ref f hget
    rcases get?_native hget with hold | hnew
    · exact hk.functions ref f hold
    · cases hnew
  · intro ref n' hget
    rcases get?_native hget with hold | hnew
    · exact hk.natives ref n' hold
    · cases hnew
      exact ⟨name, hn⟩

/-- The value of a literal of a known function is in the heap. -/
theorem Known.literal (hk : h.Known lib host) {l : Literal}
    (hl : ∀ f, l = .function f → lib.Holds f) :
    (h.literal l).2.Known lib host ∧ h.Extends (h.literal l).2 ∧
      (h.literal l).1.Lives (h.literal l).2 := by
  cases l with
  | int n | float bits => exact ⟨hk, .refl h, Value.lives_of_plain rfl⟩
  | string text =>
    obtain ⟨hget, -, hx⟩ := intern_spec hk.canonical text
    refine ⟨hk.intern text, hx, ?_⟩
    intro ref href
    cases href
    exact lt_size_iff.mpr ⟨_, hget⟩
  | function f =>
    obtain ⟨hknown, hget⟩ := hk.function (hl f rfl)
    refine ⟨hknown, (function_spec hk.canonical f).2.2, ?_⟩
    intro ref href
    cases href
    exact lt_size_iff.mpr ⟨_, hget⟩

/-- The sum of two values is in the heap. -/
theorem Known.sum (hk : h.Known lib host) {a b v : Value} {h' : Heap}
    (hs : h.sum a b = .ok (v, h')) :
    h'.Known lib host ∧ h.Extends h' ∧ v.Lives h' := by
  have hplain (x y : Value) (hxy : (x.add y).map (·, h) = .ok (v, h')) :
      h'.Known lib host ∧ h.Extends h' ∧ v.Lives h' := by
    cases hadd : x.add y with
    | error e =>
      rw [hadd] at hxy
      cases hxy
    | ok w =>
      rw [hadd] at hxy
      obtain ⟨rfl, rfl⟩ := Prod.mk.inj (Except.ok.inj hxy)
      exact ⟨hk, .refl h, Value.lives_of_plain (Value.plainResult_add x y w hadd)⟩
  unfold Heap.sum at hs
  split at hs
  · split at hs
    · next s t hs' ht' =>
      obtain ⟨rfl, rfl⟩ := Prod.mk.inj (Except.ok.inj hs)
      obtain ⟨hget, -, hx⟩ := intern_spec hk.canonical (s ++ t)
      refine ⟨hk.intern _, hx, ?_⟩
      intro ref href
      cases href
      exact lt_size_iff.mpr ⟨_, hget⟩
    · cases hs
  · exact hplain _ _ hs

end Heap

/-! ## Machines -/

/-- The calls of a machine with `n` values on its stack, the innermost first.  A call that waits for
another will find the result of that one in place of the function and its arguments. -/
def Windows (lib : Library) : List Frame → Nat → Prop
  | [], n => n = 1
  | fr :: rest, n =>
    lib.Holds fr.function ∧ fr.cursor < fr.function.chunk.code.size ∧
      n = fr.base + fr.function.depth fr.cursor ∧ (∀ g ∈ rest, g.base < fr.base) ∧
      Windows lib rest (fr.base + 1)

namespace Machine

/-- The calls of a machine are aligned with the code of their functions. -/
structure Aligned (lib : Library) (m : Machine) : Prop where
  heap : m.heap.Known lib m.host
  /-- Either nothing is running, or every call has its part of the stack. -/
  windows : m.frames = [] ∧ m.stack.size = 0 ∨ m.frames ≠ [] ∧ Windows lib m.frames m.stack.size
  /-- Slot zero of a call holds its function. -/
  own : ∀ fr ∈ m.frames, ∃ ref, m.stack[fr.base]? = some (.object ref) ∧
    m.heap.get? ref = some (.function fr.function)

/-- Every object that the stack and the globals refer to is in the heap. -/
structure Valid (m : Machine) : Prop where
  stack : ∀ v ∈ m.stack.toList, v.Lives m.heap
  globals : ∀ (x : String) (v : Value), m.globals[x]? = some v → v.Lives m.heap

/-- What an instruction may come to on an aligned machine. -/
def Proceeds (lib : Library) (m : Machine) : Except Fault (Signal × Machine) → Prop
  | .ok (sig, m') => m'.Aligned lib ∧ (m.host.Tame → m.Valid → m'.Valid) ∧ m'.host = m.host ∧
      (sig = .exit .finished ∨ m'.frames ≠ [])
  | .error e => e.isInternal = false ∨ e = .danglingObject ∧ ¬ m.Valid

section

variable {lib : Library} {m : Machine} {f : Function} {i base : Nat} {rest : List Frame}
  {s : List Value} {instruction : Instruction}

/-- While a call is running every call has its part of the stack. -/
theorem Aligned.running (A : (m.on (⟨f, i, base⟩ :: rest) s).Aligned lib) :
    Windows lib (⟨f, i, base⟩ :: rest) s.length := by
  rcases A.windows with ⟨hnil, -⟩ | ⟨-, hw⟩
  · cases hnil
  · simpa using hw

/-- An instruction that stays in its call and leads to place `j`. -/
theorem Aligned.go (A : (m.on (⟨f, i, base⟩ :: rest) s).Aligned lib)
    (hi : f.chunk.instruction? i = some instruction) {j : Nat} (hj : j ∈ instruction.targets i)
    {t : List Value} {heap : Heap} (globals : Std.TreeMap String Value)
    (hlen : t.length = base + instruction.flow (f.depth i))
    (hlow : ∀ k ≤ base, t[k]? = s[k]?) (hknown : heap.Known lib m.host) (hx : m.heap.Extends heap) :
    ({ m with heap := heap, globals := globals }.on (⟨f, j, base⟩ :: rest) t).Aligned lib := by
  obtain ⟨hf, hcursor, hsize, hbases, hrest⟩ := A.running
  obtain ⟨bodies, hmade⟩ := hf.madeOf
  obtain ⟨body, -, hbalanced⟩ := hmade.balanced
  obtain ⟨hin, hdepth⟩ := hbalanced.edges i instruction hi j hj
  refine ⟨hknown, .inr ⟨by simp, ?_⟩, ?_⟩
  · simp only [on_frames, on_stack, List.size_toArray]
    exact ⟨hf, hin, by rw [hlen, hdepth], hbases, hrest⟩
  · -- the slots zero of all calls lie below what has changed
    have hown : ∀ fr : Frame, fr.base ≤ base → (∃ ref, s[fr.base]? = some (.object ref) ∧
        m.heap.get? ref = some (.function fr.function)) →
        ∃ ref, t[fr.base]? = some (.object ref) ∧ heap.get? ref = some (.function fr.function) := by
      rintro fr hle ⟨ref, hget, hobject⟩
      exact ⟨ref, by rw [hlow _ hle, hget], hx ref _ hobject⟩
    intro fr hfr
    simp only [on_frames, on_stack, on_heap, List.getElem?_toArray] at hfr ⊢
    rcases List.mem_cons.mp hfr with rfl | hfr
    · have h0 := A.own ⟨f, i, base⟩ (by simp)
      simp only [on_stack, on_heap, List.getElem?_toArray] at h0
      exact hown ⟨f, j, base⟩ (Nat.le_refl _) h0
    · have h0 := A.own fr (by simp [hfr])
      simp only [on_stack, on_heap, List.getElem?_toArray] at h0
      exact hown fr (Nat.le_of_lt (hbases fr hfr)) h0

/-- An instruction that stays in its call proceeds. -/
theorem proceeds_go (A : (m.on (⟨f, i, base⟩ :: rest) s).Aligned lib)
    (hi : f.chunk.instruction? i = some instruction) {j : Nat} (hj : j ∈ instruction.targets i)
    {sig : Signal} {t : List Value} {heap : Heap} (globals : Std.TreeMap String Value)
    (hlen : t.length = base + instruction.flow (f.depth i))
    (hlow : ∀ k ≤ base, t[k]? = s[k]?) (hknown : heap.Known lib m.host) (hx : m.heap.Extends heap)
    (hvalid : m.host.Tame → (m.on (⟨f, i, base⟩ :: rest) s).Valid →
      (∀ v ∈ t, v.Lives heap) ∧ ∀ (x : String) v, globals[x]? = some v → v.Lives heap) :
    Proceeds lib (m.on (⟨f, i, base⟩ :: rest) s)
      (.ok (sig, { m with heap := heap, globals := globals }.on (⟨f, j, base⟩ :: rest) t)) := by
  refine ⟨A.go hi hj globals hlen hlow hknown hx, ?_, rfl, .inr (by simp)⟩
  intro htame hv
  obtain ⟨hstack, hglobals⟩ := hvalid htame hv
  exact ⟨hstack, hglobals⟩

/-- An instruction that takes the values `u` and leaves one. -/
theorem proceeds_push (A : (m.on (⟨f, i, base⟩ :: rest) s).Aligned lib)
    (hi : f.chunk.instruction? i = some instruction) (hj : i + 1 ∈ instruction.targets i)
    {t u : List Value} (hs : s = t ++ u) (hbase : base < t.length)
    (hflow : t.length + 1 = base + instruction.flow (f.depth i))
    {sig : Signal} {v : Value} {heap : Heap} (globals : Std.TreeMap String Value)
    (hknown : heap.Known lib m.host) (hx : m.heap.Extends heap)
    (hvalid : m.host.Tame → (m.on (⟨f, i, base⟩ :: rest) s).Valid →
      v.Lives heap ∧ ∀ (x : String) w, globals[x]? = some w → w.Lives heap) :
    Proceeds lib (m.on (⟨f, i, base⟩ :: rest) s)
      (.ok (sig, { m with heap := heap, globals := globals }.on (⟨f, i + 1, base⟩ :: rest)
        (t ++ [v]))) := by
  subst hs
  refine proceeds_go A hi hj globals ?_ ?_ hknown hx ?_
  · rw [List.length_append]
    exact hflow
  · intro k hk
    rw [List.getElem?_append_left (by omega), List.getElem?_append_left (by omega)]
  · intro htame hv
    obtain ⟨hlives, hglobals⟩ := hvalid htame hv
    refine ⟨?_, hglobals⟩
    intro w hw
    rcases List.mem_append.mp hw with hw | hw
    · exact (hv.stack w (by simp [hw])).extends hx
    · obtain rfl := List.mem_singleton.mp hw
      exact hlives

/-- An instruction that takes the values `u` and leaves one, and nothing else. -/
theorem proceeds_value (A : (m.on (⟨f, i, base⟩ :: rest) s).Aligned lib)
    (hi : f.chunk.instruction? i = some instruction) (hj : i + 1 ∈ instruction.targets i)
    {t u : List Value} (hs : s = t ++ u) (hbase : base < t.length)
    (hflow : t.length + 1 = base + instruction.flow (f.depth i)) {sig : Signal} {v : Value}
    (hv : m.host.Tame → (m.on (⟨f, i, base⟩ :: rest) s).Valid → v.Lives m.heap) :
    Proceeds lib (m.on (⟨f, i, base⟩ :: rest) s)
      (.ok (sig, m.on (⟨f, i + 1, base⟩ :: rest) (t ++ [v]))) :=
  proceeds_push A hi hj hs hbase hflow m.globals A.heap (.refl _)
    (fun htame hvalid => ⟨hv htame hvalid, hvalid.globals⟩)

/-- An instruction that takes the values `u`. -/
theorem proceeds_drop (A : (m.on (⟨f, i, base⟩ :: rest) s).Aligned lib)
    (hi : f.chunk.instruction? i = some instruction) {j : Nat} (hj : j ∈ instruction.targets i)
    {t u : List Value} (hs : s = t ++ u) (hbase : base < t.length)
    (hflow : t.length = base + instruction.flow (f.depth i)) {sig : Signal}
    (globals : Std.TreeMap String Value)
    (hglobals : (m.on (⟨f, i, base⟩ :: rest) s).Valid →
      ∀ (x : String) w, globals[x]? = some w → w.Lives m.heap) :
    Proceeds lib (m.on (⟨f, i, base⟩ :: rest) s)
      (.ok (sig, { m with globals := globals }.on (⟨f, j, base⟩ :: rest) t)) := by
  subst hs
  refine proceeds_go A hi hj globals hflow ?_ A.heap (.refl _) ?_
  · intro k hk
    rw [List.getElem?_append_left (by omega)]
  · intro _ hvalid
    exact ⟨fun w hw => hvalid.stack w (by simp [hw]), hglobals hvalid⟩

end

end Machine

end EntityScript
