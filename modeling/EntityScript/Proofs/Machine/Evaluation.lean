/-
# Evaluating expressions

The code of an expression computes the value of the expression and leaves it on top of the stack
(`Term.follows`).  The part of the stack that belongs to the active call holds the locals of the
world in the order of their declaration, and above them the values that wait for an operator or a
call.
-/
import EntityScript.Proofs.Machine.Following

namespace EntityScript

open Exec Machine

/-! ## Locals -/

namespace World

/-- The names of the locals, the nearest first. -/
def names (w : World) : List String :=
  w.locals.map Prod.fst

/-- The values of the locals in the order of their declaration. -/
def values (w : World) : List Value :=
  (w.locals.map Prod.snd).reverse

end World

/-- The local that a name stands for. -/
theorem exists_local {locals : List (String × Value)} {x : String} {inner outer : List String}
    (h : locals.map Prod.fst = inner ++ x :: outer) :
    ∃ as v bs, locals = as ++ (x, v) :: bs ∧ as.map Prod.fst = inner ∧ bs.map Prod.fst = outer := by
  obtain ⟨as, rest, rfl, has, hrest⟩ := List.map_eq_append_iff.mp h
  obtain ⟨⟨y, v⟩, bs, rfl, hy, hbs⟩ := List.map_eq_cons_iff.mp hrest
  obtain rfl : y = x := hy
  exact ⟨as, v, bs, rfl, has, hbs⟩

/-- Of several locals with one name the nearest is found. -/
theorem lookup_nearest {as bs : List (String × Value)} {x : String} {v : Value}
    (h : x ∉ as.map Prod.fst) : (as ++ (x, v) :: bs).lookup x = some v := by
  induction as with
  | nil => simp
  | cons a as ih =>
    obtain ⟨y, u⟩ := a
    simp only [List.map_cons, List.mem_cons, not_or] at h
    have hne : (x == y) = false := by simp [h.1]
    rw [List.cons_append, List.lookup_cons, hne]
    exact ih h.2

/-- A name that no local has is not found. -/
theorem lookup_of_not_mem {locals : List (String × Value)} {x : String}
    (h : x ∉ locals.map Prod.fst) : locals.lookup x = none := by
  induction locals with
  | nil => rfl
  | cons a as ih =>
    obtain ⟨y, u⟩ := a
    simp only [List.map_cons, List.mem_cons, not_or] at h
    have hne : (x == y) = false := by simp [h.1]
    rw [List.lookup_cons, hne]
    exact ih h.2

/-- Setting a local changes the nearest one with the name. -/
theorem setNearest_eq {as bs : List (String × Value)} {x : String} {u v : Value}
    (h : x ∉ as.map Prod.fst) : setNearest x v (as ++ (x, u) :: bs) = as ++ (x, v) :: bs := by
  induction as with
  | nil => simp [setNearest]
  | cons a as ih =>
    obtain ⟨y, t⟩ := a
    simp only [List.map_cons, List.mem_cons, not_or] at h
    rw [List.cons_append, setNearest, if_neg (Ne.symm h.1), ih h.2]
    rfl

/-- A name that stands for a slot is that of a local, the nearest one of this name, and the slot
counts the locals before it. -/
theorem exists_slot {w : World} {literals : List Literal} {x y : String} {n : Nat}
    (hv : (⟨y, .slot n⟩ : Variable).Stands literals w.names x) :
    ∃ as u bs, w.locals = as ++ (x, u) :: bs ∧ n = bs.length + 1 ∧ w.locals.lookup x = some u ∧
      ∀ v, setNearest x v w.locals = as ++ (x, v) :: bs := by
  obtain ⟨inner, outer, hnames, hnot, hn⟩ := hv
  obtain ⟨as, u, bs, hlocals, has, hbs⟩ := exists_local hnames
  have hnot' : x ∉ as.map Prod.fst := by rw [has]; exact hnot
  refine ⟨as, u, bs, hlocals, by rw [hn, ← hbs, List.length_map], ?_, fun v => ?_⟩
  · rw [hlocals]
    exact lookup_nearest hnot'
  · rw [hlocals]
    exact setNearest_eq hnot'

/-! ## Active calls -/

/-- An active call: its function, the calls that wait for it, and the values up to its slot zero. -/
structure Activation where
  function : Function
  rest : List Frame
  low : List Value
  base : Nat
  low_length : low.length = base + 1

namespace Activation

/-- The call of the function at place `i`. -/
def frame (a : Activation) (i : Nat) : Frame :=
  ⟨a.function, i, a.base⟩

/-- A machine in the midst of a call: the cursor is at place `i`, the locals are those of the world,
and the values `temps` lie on top of them. -/
def Shows (a : Activation) (i : Nat) (w : World) (temps : List Value) (m : Machine) : Prop :=
  ∃ k : Machine, m = k.on (a.frame i :: a.rest) (a.low ++ w.values ++ temps) ∧ k.Mirrors w

/-- The literals of the function of a call. -/
def literals (a : Activation) : List Literal :=
  a.function.chunk.literals

/-- The function of a call has a piece of code at a place. -/
def Has (a : Activation) (i : Nat) (piece : List Placed) : Prop :=
  Occurs a.function.chunk.code.toList i piece

variable {a : Activation} {i : Nat} {w : World} {temps : List Value} {m : Machine}

/-- The first instruction of the code at a place. -/
theorem Has.instruction {p : Placed} {ps : List Placed} (h : a.Has i (p :: ps)) :
    a.function.chunk.instruction? i = some p.instruction := by
  have hget := Occurs.getElem? h (k := 0) (by simp)
  rw [Nat.add_zero] at hget
  exact Chunk.instruction?_of_getElem? hget

/-- The last instruction of a piece of code. -/
theorem Has.last {p : Placed} {ps : List Placed} (h : a.Has i (ps ++ [p])) :
    a.function.chunk.instruction? (i + ps.length) = some p.instruction := by
  have hright : a.Has (i + ps.length) [p] := Occurs.right h
  exact hright.instruction

/-- The values `us` are on top of the stack, and slot zero is not among them. -/
theorem Shows.under {us : List Value} (hm : a.Shows i w (temps ++ us) m)
    (hlimit : m.stack.size ≤ stackLimit) :
    ∃ k : Machine, m = k.on (a.frame i :: a.rest) (a.low ++ w.values ++ temps ++ us) ∧ k.Mirrors w ∧
      (a.low ++ w.values ++ temps ++ us).length ≤ stackLimit ∧
      a.base < (a.low ++ w.values ++ temps).length := by
  obtain ⟨k, rfl, hk⟩ := hm
  simp only [on_stack, List.size_toArray] at hlimit
  rw [← List.append_assoc] at hlimit
  refine ⟨k, by rw [← List.append_assoc], hk, hlimit, ?_⟩
  rw [List.append_assoc, List.length_append, a.low_length]
  omega

/-- The slot of the local that a name stands for. -/
theorem getElem?_slot (a : Activation) {as bs : List (String × Value)} {x : String} {v : Value}
    (hw : w.locals = as ++ (x, v) :: bs) (temps : List Value) :
    (a.low ++ w.values ++ temps)[a.base + (bs.length + 1)]? = some v := by
  have hvalues : w.values = (bs.map Prod.snd).reverse ++ v :: (as.map Prod.snd).reverse := by
    rw [World.values, hw]
    simp
  have hindex : a.base + (bs.length + 1) = a.low.length + bs.length := by
    rw [a.low_length]
    omega
  rw [hvalues, hindex, List.append_assoc, List.getElem?_append_right (Nat.le_add_right _ _),
    Nat.add_sub_cancel_left, List.append_assoc, List.getElem?_append_right (by simp)]
  simp

/-- Storing into the slot of a local. -/
theorem set_slot (a : Activation) {as bs : List (String × Value)} {x : String} {u v : Value}
    (hw : w.locals = as ++ (x, u) :: bs) (temps : List Value) :
    (a.low ++ w.values ++ temps).set (a.base + (bs.length + 1)) v =
      a.low ++ ({ w with locals := as ++ (x, v) :: bs } : World).values ++ temps := by
  have hindex : a.base + (bs.length + 1) = a.low.length + bs.length := by
    rw [a.low_length]
    omega
  rw [World.values, World.values, hw, hindex, List.append_assoc, List.append_assoc,
    List.set_append_right _ _ (Nat.le_add_right _ _), Nat.add_sub_cancel_left]
  congr 1
  simp

/-- What the code of an expression comes to: the value is on top, and the locals have the same
names. -/
def Evaluated (a : Activation) (w : World) (j : Nat) (temps : List Value) (v : Value) (w' : World)
    (m : Machine) : Prop :=
  w'.names = w.names ∧ a.Shows j w' (temps ++ [v]) m

/-- An evaluation in a world with the same names is one in the world before. -/
theorem Evaluated.trans {w' w'' : World} {j : Nat} {v : Value} (h : a.Evaluated w' j temps v w'' m)
    (hnames : w'.names = w.names) : a.Evaluated w j temps v w'' m :=
  ⟨h.1.trans hnames, h.2⟩

theorem shows_push {k : Machine} (v : Value) (hk : k.Mirrors w) :
    a.Shows i w (temps ++ [v]) (k.on (a.frame i :: a.rest) (a.low ++ w.values ++ temps ++ [v])) :=
  ⟨k, by rw [← List.append_assoc], hk⟩

/-- A value has been stored in a local, and the value `v` is on top. -/
theorem evaluated_local {k : Machine} {as bs : List (String × Value)} {x : String} {old : Value}
    (hlocals : w.locals = as ++ (x, old) :: bs) (new v : Value) (hk : k.Mirrors w) :
    a.Evaluated w i temps v { w with locals := as ++ (x, new) :: bs } (k.on (a.frame i :: a.rest)
      ((a.low ++ w.values ++ temps).set (a.base + (bs.length + 1)) new ++ [v])) := by
  refine ⟨by simp [World.names, hlocals], k, ?_, hk.heap, hk.globals, hk.sink⟩
  rw [a.set_slot hlocals, List.append_assoc]

/-- A value has been stored in a global, and the value `v` is on top. -/
theorem evaluated_global {k : Machine} (x : String) (new v : Value) (hk : k.Mirrors w) :
    a.Evaluated w i temps v { w with globals := w.globals.insert x new }
      ({ k with globals := w.globals.insert x new }.on (a.frame i :: a.rest)
        (a.low ++ w.values ++ temps ++ [v])) := by
  refine ⟨rfl, { k with globals := w.globals.insert x new }, ?_, hk.heap, rfl, hk.sink⟩
  rw [← List.append_assoc]
  rfl

end Activation

/-! ## Variables -/

namespace Act

variable {x : String} {v : Value} {w : World}

theorem read_local (h : w.locals.lookup x = some v) : read x w = ([], .ok (v, w)) := by
  rw [read, bind_eq_ok (show world w = _ from rfl)]
  simp only [h]
  rfl

theorem read_global (hl : w.locals.lookup x = none) (h : w.globals[x]? = some v) :
    read x w = ([], .ok (v, w)) := by
  rw [read, bind_eq_ok (show world w = _ from rfl)]
  simp only [hl, h]
  rfl

theorem read_none (hl : w.locals.lookup x = none) (h : w.globals[x]? = none) :
    read x w = ([], .error (.fault (.undefinedVariable x))) := by
  rw [read, bind_eq_ok (show world w = _ from rfl)]
  simp only [hl, h]
  rfl

/-- A local is set where it is; the globals stay. -/
theorem write_local {u : Value} (h : w.locals.lookup x = some u) :
    write x v w = ([], .ok ((), { w with locals := setNearest x v w.locals })) := by
  rw [write, bind_eq_ok (show world w = _ from rfl)]
  simp only [h]
  rfl

/-- If no local has the name, the global is set. -/
theorem write_global {u : Value} (hl : w.locals.lookup x = none) (h : w.globals[x]? = some u) :
    write x v w = ([], .ok ((), { w with globals := w.globals.insert x v })) := by
  rw [write, bind_eq_ok (show world w = _ from rfl)]
  simp only [hl, h]
  rfl

/-- If no global has it either, it is undefined. -/
theorem write_none (hl : w.locals.lookup x = none) (h : w.globals[x]? = none) :
    write x v w = ([], .error (.fault (.undefinedVariable x))) := by
  rw [write, bind_eq_ok (show world w = _ from rfl)]
  simp only [hl, h]
  rfl

end Act

section

variable {fuel : Nat} {a : Activation} {i : Nat} {w : World} {temps : List Value} {m : Machine}
  {x : String} {v : Variable}

/-- Reading a variable. -/
theorem follows_read (hv : v.Stands a.literals w.names x)
    (hi : a.function.chunk.instruction? i = some v.place.getter) (hm : a.Shows i w temps m)
    (hlimit : m.stack.size ≤ stackLimit) :
    Follows fuel m (a.Evaluated w (i + 1) temps) (Act.read x w) := by
  obtain ⟨k, rfl, hk⟩ := hm
  simp only [on_stack, List.size_toArray] at hlimit
  obtain ⟨y, place⟩ := v
  cases place with
  | slot n =>
    obtain ⟨as, u, bs, hlocals, rfl, hlookup, -⟩ := exists_slot hv
    rw [Act.read_local hlookup]
    exact .result hi (meets_getLocal (a.getElem?_slot hlocals temps)) hlimit
      ⟨rfl, Activation.shows_push u hk⟩
  | global index =>
    obtain ⟨hnot, hl⟩ := hv
    have hlookup := lookup_of_not_mem hnot
    have hmeets : Meets (Exec.execute (.getGlobal index)) (k.on (a.frame (i + 1) :: a.rest)
        (a.low ++ w.values ++ temps)) _ := meets_getGlobal hl
    rw [hk.globals] at hmeets
    cases hg : w.globals[x]? with
    | none =>
      rw [hg] at hmeets
      rw [Act.read_none hlookup hg]
      exact .fails hi hmeets
    | some u =>
      rw [hg] at hmeets
      rw [Act.read_global hlookup hg]
      exact .result hi hmeets hlimit ⟨rfl, Activation.shows_push u hk⟩

/-- Storing the top value in a variable. -/
theorem follows_write (hv : v.Stands a.literals w.names x) (u : Value)
    (hi : a.function.chunk.instruction? i = some v.place.setter) (hm : a.Shows i w (temps ++ [u]) m)
    (hlimit : m.stack.size ≤ stackLimit) :
    Follows fuel m (a.Evaluated w (i + 1) temps) ((do Act.write x u; return u : Act Value) w) := by
  obtain ⟨k, rfl, hk, hlimit, -⟩ := hm.under hlimit
  obtain ⟨y, place⟩ := v
  cases place with
  | slot n =>
    obtain ⟨as, old, bs, hlocals, rfl, hlookup, hset⟩ := exists_slot hv
    have hlt : a.base + (bs.length + 1) < (a.low ++ w.values ++ temps).length :=
      (List.getElem?_eq_some_iff.mp (a.getElem?_slot hlocals temps)).1
    have hmeets : Meets (Exec.execute (.setLocal (bs.length + 1))) (k.on (a.frame (i + 1) :: a.rest)
        (a.low ++ w.values ++ temps ++ [u])) _ := meets_setLocal hlt
    rw [Act.bind_eq_ok (Act.write_local hlookup), hset]
    exact .result hi hmeets hlimit (Activation.evaluated_local hlocals u u hk)
  | global index =>
    obtain ⟨hnot, hl⟩ := hv
    have hlookup := lookup_of_not_mem hnot
    have hmeets : Meets (Exec.execute (.setGlobal index)) (k.on (a.frame (i + 1) :: a.rest)
        (a.low ++ w.values ++ temps ++ [u])) _ := meets_setGlobal hl
    rw [hk.globals] at hmeets
    cases hg : w.globals[x]? with
    | none =>
      rw [hg] at hmeets
      rw [Act.bind_eq_error (Act.write_none hlookup hg)]
      exact .fails hi hmeets
    | some old =>
      rw [hg] at hmeets
      rw [Act.bind_eq_ok (Act.write_global hlookup hg)]
      exact .result hi hmeets hlimit (Activation.evaluated_global x u u hk)

/-- Storing the top value in a member of a variable. -/
theorem follows_writeMember (hv : v.Stands a.literals w.names x) (mem : Member) (u : Value)
    (hi : a.function.chunk.instruction? i = some (v.place.memberSetter mem))
    (hm : a.Shows i w (temps ++ [u]) m) (hlimit : m.stack.size ≤ stackLimit) :
    Follows fuel m (a.Evaluated w (i + 1) temps) ((do
      let (new, stored) ← Act.operand ((← Act.read x).setMember mem u)
      Act.write x new
      return .float stored : Act Value) w) := by
  obtain ⟨k, rfl, hk, hlimit, hbase⟩ := hm.under hlimit
  obtain ⟨y, place⟩ := v
  cases place with
  | slot n =>
    -- the slot is that of the nearest local with the name
    obtain ⟨as, old, bs, hlocals, rfl, hlookup, hset⟩ := exists_slot hv
    have hmeets : Meets (Exec.execute (.setLocalMember (bs.length + 1) mem))
      (k.on (a.frame (i + 1) :: a.rest)
        (a.low ++ w.values ++ temps ++ [u])) _ :=
      meets_setLocalMember (a.getElem?_slot hlocals temps) hbase
    rw [Act.bind_eq_ok (Act.read_local hlookup)]
    cases hs : old.setMember mem u with
    | error e =>
      rw [hs] at hmeets
      exact .fails hi hmeets
    | ok p =>
      obtain ⟨new, stored⟩ := p
      rw [hs] at hmeets
      rw [Act.bind_eq_ok (show Act.operand (.ok (new, stored)) w = _ from rfl)]
      dsimp only
      rw [Act.bind_eq_ok (Act.write_local hlookup), hset]
      exact .result hi hmeets hlimit (Activation.evaluated_local hlocals new (.float stored) hk)
  | global index =>
    obtain ⟨hnot, hl⟩ := hv
    have hlookup := lookup_of_not_mem hnot
    -- the value to be set is on the stack, so there is room for one more without it
    have hroom : (a.low ++ w.values ++ temps).length < stackLimit := by
      rw [List.length_append, List.length_singleton] at hlimit
      exact hlimit
    have hmeets : Meets (Exec.execute (.setGlobalMember index mem))
      (k.on (a.frame (i + 1) :: a.rest)
        (a.low ++ w.values ++ temps ++ [u])) _ := meets_setGlobalMember hl hbase hroom
    rw [hk.globals] at hmeets
    cases hg : w.globals[x]? with
    | none =>
      rw [hg] at hmeets
      rw [Act.bind_eq_error (Act.read_none hlookup hg)]
      exact .fails hi hmeets
    | some old =>
      rw [hg] at hmeets
      rw [Act.bind_eq_ok (Act.read_global hlookup hg)]
      cases hs : old.setMember mem u with
      | error e =>
        simp only [hs] at hmeets
        exact .fails hi hmeets
      | ok p =>
        obtain ⟨new, stored⟩ := p
        simp only [hs] at hmeets
        rw [Act.bind_eq_ok (show Act.operand (.ok (new, stored)) w = _ from rfl)]
        dsimp only
        rw [Act.bind_eq_ok (Act.write_global hlookup hg)]
        exact .result hi hmeets hlimit (Activation.evaluated_global x new (.float stored) hk)

/-! ## Literals and operators -/

/-- Pushing a plain value. -/
theorem follows_push {instruction : Instruction} {u : Value}
    (hi : a.function.chunk.instruction? i = some instruction) (hm : a.Shows i w temps m)
    (hlimit : m.stack.size ≤ stackLimit)
    (hmeets : ∀ k : Machine, Meets (Exec.execute instruction) (k.on (a.frame (i + 1) :: a.rest)
      (a.low ++ w.values ++ temps)) (.ok (.next, k.on (a.frame (i + 1) :: a.rest)
        (a.low ++ w.values ++ temps ++ [u])))) :
    Follows fuel m (a.Evaluated w (i + 1) temps) ((return u : Act Value) w) := by
  obtain ⟨k, rfl, hk⟩ := hm
  simp only [on_stack, List.size_toArray] at hlimit
  exact .result hi (hmeets k) hlimit ⟨rfl, Activation.shows_push u hk⟩

/-- Pushing a number. -/
theorem follows_number {l : Literal} {index : Nat} {u : Value}
    (hi : a.function.chunk.instruction? i = some (.literal index))
    (hl : a.literals[index]? = some l) (hu : ∀ h : Heap, h.literal l = (u, h))
    (hm : a.Shows i w temps m) (hlimit : m.stack.size ≤ stackLimit) :
    Follows fuel m (a.Evaluated w (i + 1) temps) ((return u : Act Value) w) := by
  refine follows_push hi hm hlimit ?_
  intro k
  have hmeets : Meets (Exec.execute (.literal index)) (k.on (a.frame (i + 1) :: a.rest)
      (a.low ++ w.values ++ temps)) _ := meets_literal hl (by rw [hu]; exact .refl _)
  rw [hu] at hmeets
  exact hmeets

/-- Pushing a string or a function. -/
theorem follows_refer {find : Store → Ref × Store} {l : Literal} {index : Nat}
    (hi : a.function.chunk.instruction? i = some (.literal index))
    (hl : a.literals[index]? = some l)
    (hfind : ∀ (h : Heap) (s : Store), h.Mirrors s → (h.literal l).1 = .object (find s).1 ∧
      (h.literal l).2.Mirrors (find s).2 ∧ h.Extends (h.literal l).2)
    (hm : a.Shows i w temps m) (hlimit : m.stack.size ≤ stackLimit) :
    Follows fuel m (a.Evaluated w (i + 1) temps) (Act.refer find w) := by
  obtain ⟨k, rfl, hk⟩ := hm
  simp only [on_stack, List.size_toArray] at hlimit
  obtain ⟨hvalue, hheap, hextends⟩ := hfind k.heap w.store hk.heap
  have hmeets : Meets (Exec.execute (.literal index)) (k.on (a.frame (i + 1) :: a.rest)
      (a.low ++ w.values ++ temps)) _ := meets_literal hl hextends
  rw [hvalue] at hmeets
  refine .result hi hmeets hlimit ⟨rfl, { k with heap := (k.heap.literal l).2 }, ?_, ?_⟩
  · rw [← List.append_assoc]
    rfl
  · exact ⟨hheap, hk.globals, hk.sink⟩

/-- An operator with one operand. -/
theorem follows_unary {instruction : Instruction}
    {op : Value → Except OperandError Value} {u : Value}
    (hexec : Exec.execute instruction = (do unary op; return Signal.next))
    (hi : a.function.chunk.instruction? i = some instruction) (hm : a.Shows i w (temps ++ [u]) m)
    (hlimit : m.stack.size ≤ stackLimit) :
    Follows fuel m (a.Evaluated w (i + 1) temps) (Act.operand (op u) w) := by
  obtain ⟨k, rfl, hk, hlimit, hbase⟩ := hm.under hlimit
  have hmeets : Meets (do unary op; return Signal.next) (k.on (a.frame (i + 1) :: a.rest)
      (a.low ++ w.values ++ temps ++ [u])) _ := meets_unary hbase
  rw [← hexec] at hmeets
  cases hop : op u with
  | error e =>
    rw [hop] at hmeets
    exact .fails hi hmeets
  | ok v =>
    rw [hop] at hmeets
    exact .result hi hmeets hlimit ⟨rfl, Activation.shows_push v hk⟩

/-- An operator with two operands. -/
theorem follows_binary {instruction : Instruction} {op : Value → Value → Except OperandError Value}
    {u v : Value} (hexec : Exec.execute instruction = (do binary op; return Signal.next))
    (hi : a.function.chunk.instruction? i = some instruction) (hm : a.Shows i w (temps ++ [u, v]) m)
    (hlimit : m.stack.size ≤ stackLimit) :
    Follows fuel m (a.Evaluated w (i + 1) temps) (Act.operand (op u v) w) := by
  obtain ⟨k, rfl, hk, hlimit, hbase⟩ := hm.under hlimit
  have hmeets : Meets (do binary op; return Signal.next) (k.on (a.frame (i + 1) :: a.rest)
      (a.low ++ w.values ++ temps ++ [u, v])) _ := meets_binary hbase
  rw [← hexec] at hmeets
  cases hop : op u v with
  | error e =>
    rw [hop] at hmeets
    exact .fails hi hmeets
  | ok r =>
    rw [hop] at hmeets
    exact .result hi hmeets hlimit ⟨rfl, Activation.shows_push r hk⟩

/-- A comparison follows that of the meaning, where values are told apart in the same way. -/
theorem follows_equal {u v : Value} (hi : a.function.chunk.instruction? i = some .equal)
    (hm : a.Shows i w (temps ++ [u, v]) m) (hlimit : m.stack.size ≤ stackLimit) :
    Follows fuel m (a.Evaluated w (i + 1) temps) (Act.equal u v w) := by
  obtain ⟨k, rfl, hk, hlimit, hbase⟩ := hm.under hlimit
  have hmeets : Meets (Exec.execute .equal) (k.on (a.frame (i + 1) :: a.rest)
      (a.low ++ w.values ++ temps ++ [u, v])) _ := meets_equal hbase
  rw [hk.heap.equal_eq] at hmeets
  exact .result hi hmeets hlimit ⟨rfl, Activation.shows_push _ hk⟩

/-- An addition follows that of the meaning; a text that it makes is a value, whatever object the
machine has for it. -/
theorem follows_sum {u v : Value} (hi : a.function.chunk.instruction? i = some .add)
    (hm : a.Shows i w (temps ++ [u, v]) m) (hlimit : m.stack.size ≤ stackLimit) :
    Follows fuel m (a.Evaluated w (i + 1) temps) (Act.sum u v w) := by
  obtain ⟨k, rfl, hk, hlimit, hbase⟩ := hm.under hlimit
  rw [Act.sum, Act.bind_eq_ok (show Act.world w = _ from rfl)]
  rcases hk.heap.sum u v with ⟨e, hh, hs⟩ | ⟨r, h', s', hh, hs, hm', hx⟩
  · have hmeets : Meets (Exec.execute .add) (k.on (a.frame (i + 1) :: a.rest)
        (a.low ++ w.values ++ temps ++ [u, v])) _ :=
      meets_add hbase (fun v h hv => by rw [hh] at hv; cases hv)
    rw [hh] at hmeets
    rw [hs]
    exact .fails hi hmeets
  · have hextends : ∀ t h, k.heap.sum u v = .ok (t, h) → k.heap.Extends h := by
      intro t h hv
      rw [hh] at hv
      obtain ⟨-, rfl⟩ := Prod.mk.inj (Except.ok.inj hv)
      exact hx
    have hmeets : Meets (Exec.execute .add) (k.on (a.frame (i + 1) :: a.rest)
        (a.low ++ w.values ++ temps ++ [u, v])) _ := meets_add hbase hextends
    rw [hh] at hmeets
    rw [hs]
    refine .result hi hmeets hlimit ⟨rfl, { k with heap := h' }, ?_, hm', hk.globals, hk.sink⟩
    rw [← List.append_assoc]
    rfl

theorem follows_unaryOp (op : UnaryOp) {u : Value}
    (hi : a.function.chunk.instruction? i = some op.instruction) (hm : a.Shows i w (temps ++ [u]) m)
    (hlimit : m.stack.size ≤ stackLimit) :
    Follows fuel m (a.Evaluated w (i + 1) temps) (op.apply u w) := by
  cases op with
  | negate => exact follows_unary rfl hi hm hlimit
  | not => exact follows_unary rfl hi hm hlimit

/-- The opposite of a comparison. -/
theorem follows_opposite {x : Act Value} (hx : Follows fuel m (a.Evaluated w (i + 1) temps) (x w))
    (hi : a.function.chunk.instruction? (i + 1) = some .not) :
    Follows fuel m (a.Evaluated w (i + 2) temps) ((do Act.operand (← x).not : Act Value) w) := by
  refine hx.bind ?_
  rintro v w' m' hlimit ⟨hnames, hm'⟩
  exact (follows_unary rfl hi hm' hlimit).imp (fun _ _ _ h => h.trans hnames)

/-- An operator follows that of the meaning, also where it takes two instructions. -/
theorem follows_binaryOp (op : BinaryOp) {u v : Value} {line : Nat}
    (hcode : a.Has i (placeOn line op.instructions)) (hm : a.Shows i w (temps ++ [u, v]) m)
    (hlimit : m.stack.size ≤ stackLimit) :
    Follows fuel m (a.Evaluated w (i + op.instructions.length) temps) (op.apply u v w) := by
  cases op with
  | add => exact follows_sum hcode.instruction hm hlimit
  | subtract | multiply | divide | less | greater =>
    exact follows_binary rfl hcode.instruction hm hlimit
  | equal => exact follows_equal hcode.instruction hm hlimit
  | notEqual =>
    have hnot : a.Has (i + 1) (placeOn line [.not]) := Occurs.tail hcode
    exact follows_opposite (follows_equal hcode.instruction hm hlimit) hnot.instruction
  | lessEqual | greaterEqual =>
    have hnot : a.Has (i + 1) (placeOn line [.not]) := Occurs.tail hcode
    exact follows_opposite (follows_binary rfl hcode.instruction hm hlimit) hnot.instruction

end

/-! ## Calls -/

/-- Calling a native, told by its result. -/
theorem Act.native_eq (n : Native) (arguments : List Value) (w : World) :
    Act.native n arguments w =
      match n.result arguments with
      | .ok v => ([], .ok (v, w))
      | .error e => ([], .error (.fault e)) := by
  rw [Act.native, Native.result]
  cases n.arity with
  | none =>
    simp only [Option.any_none, Bool.false_eq_true, if_false]
    cases n.call arguments <;> rfl
  | some expected =>
    by_cases h : expected ≠ arguments.length
    · simp only [Option.any_some, h, decide_true, if_true, not_false_eq_true,
        Option.getD_some, ne_eq]
      rfl
    · simp only [Option.any_some, h, decide_false, Bool.false_eq_true, if_false]
      cases n.call arguments <;> rfl

/-- Calls of compiled functions from the code of an active call do what the environment says. -/
def Activation.Calls (a : Activation) (env : Env) : Prop :=
  ∀ {k : Machine} {w : World} {i : Nat} {s arguments : List Value} {ref : Ref} {r : Routine}
    {f : Function},
    a.function.chunk.instruction? i = some (.call arguments.length) →
    k.heap.get? ref = some (.function f) → r.Compiled f → r.parameters.length = arguments.length →
    k.Mirrors w → (s ++ .object ref :: arguments).length ≤ stackLimit →
    Follows env.fuel (k.on (a.frame i :: a.rest) (s ++ .object ref :: arguments))
      (fun v w' m => w'.locals = w.locals ∧
        ∃ k' : Machine, m = k'.on (a.frame (i + 1) :: a.rest) (s ++ [v]) ∧ k'.Mirrors w')
      (env.call r arguments w)

section

variable {env : Env} {a : Activation} {i : Nat} {w : World} {temps : List Value} {m : Machine}

theorem follows_apply (hcalls : a.Calls env) (callee : Value) (arguments : List Value)
    (hi : a.function.chunk.instruction? i = some (.call arguments.length))
    (hm : a.Shows i w (temps ++ callee :: arguments) m) (hlimit : m.stack.size ≤ stackLimit) :
    Follows env.fuel m (a.Evaluated w (i + 1) temps) (env.apply callee arguments w) := by
  obtain ⟨k, rfl, hk, hlimit, hbase⟩ := hm.under hlimit
  -- whatever is neither a function nor a native is refused, and the text of the fault says what it
  -- is
  have hother {e : Fault}
      (he : (∃ ref text, callee = .object ref ∧ k.heap.get? ref = some (.string text) ∧
          e = .notCallable "string") ∨
        (∃ ref, callee = .object ref ∧ k.heap.get? ref = none ∧ e = .danglingObject) ∨
        (callee.isObject = false ∧ e = .notCallable callee.tag.name)) :
      Follows env.fuel (k.on (a.frame i :: a.rest)
        (a.low ++ w.values ++ temps ++ callee :: arguments))
        (a.Evaluated w (i + 1) temps) ([], .error (.fault e)) := by
    have hmeets : Meets (Exec.execute (.call arguments.length)) (k.on (a.frame (i + 1) :: a.rest)
        (a.low ++ w.values ++ temps ++ callee :: arguments)) _ := meets_call_other he
    exact .fails hi hmeets
  cases callee with
  | object ref =>
    rw [Env.apply, Act.bind_eq_ok (show Act.world w = _ from rfl)]
    rcases hk.heap.get? ref with ⟨ho, ht⟩ | ⟨o, t, ho, ht, hot⟩
    · simp only [ht]
      exact hother (.inr (.inl ⟨ref, rfl, ho, rfl⟩))
    · simp only [ht]
      cases hot with
      | string => exact hother (.inl ⟨ref, _, rfl, ho, rfl⟩)
      | @native n =>
        have hmeets : Meets (Exec.execute (.call arguments.length))
          (k.on (a.frame (i + 1) :: a.rest)
            (a.low ++ w.values ++ temps ++ .object ref :: arguments)) _ := meets_call_native ho
        simp only [Act.native_eq]
        cases hr : n.result arguments with
        | ok v =>
          rw [hr] at hmeets
          exact .result hi hmeets hlimit ⟨rfl, Activation.shows_push v hk⟩
        | error e =>
          rw [hr] at hmeets
          exact .fails hi hmeets
      | @function f r hr =>
        have harity : f.arity = r.parameters.length := hr.arity_eq
        by_cases hne : r.parameters.length ≠ arguments.length
        · have hmeets : Meets (Exec.execute (.call arguments.length))
            (k.on (a.frame (i + 1) :: a.rest)
              (a.low ++ w.values ++ temps ++ .object ref :: arguments)) _ := meets_call_function ho
          rw [harity, if_pos hne] at hmeets
          simp only [if_pos hne]
          exact .fails hi hmeets
        · simp only [if_neg hne]
          refine (hcalls hi ho hr (not_not.mp hne) hk hlimit).imp ?_
          rintro v w' m ⟨hlocals, k', rfl, hk'⟩
          -- the call has left the caller's locals alone
          have hvalues : w'.values = w.values := by rw [World.values, World.values, hlocals]
          refine ⟨by rw [World.names, World.names, hlocals], ?_⟩
          rw [← hvalues]
          exact Activation.shows_push v hk'
  | nil | bool | int | float | vector | point => exact hother (.inr (.inr ⟨rfl, rfl⟩))

/-! ## Expressions -/

/-- An operation on a value that has been computed. -/
theorem follows_operand {value : Act Value} {f : Value → Act Value} {j : Nat}
    (hvalue : Follows fuel m (a.Evaluated w j temps) (value w))
    (hf : ∀ u w' m', w'.names = w.names → a.Shows j w' (temps ++ [u]) m' →
      m'.stack.size ≤ stackLimit → Follows fuel m' (a.Evaluated w' (j + 1) temps) (f u w')) :
    Follows fuel m (a.Evaluated w (j + 1) temps) ((value >>= f) w) := by
  refine hvalue.bind ?_
  rintro u w' m' hlimit' ⟨hnames, hm'⟩
  exact (hf u w' m' hnames hm' hlimit').imp fun _ _ _ h => h.trans hnames

theorem ofNumber?_int {text : String} {n : Int64} (h : numberLiteral? text = some (.int n)) :
    Value.ofNumber? text = some (.int n) := by
  rw [Value.ofNumber?, h]

theorem ofNumber?_float {text : String} {bits : UInt64}
    (h : numberLiteral? text = some (.float bits)) :
    Value.ofNumber? text = some (.float (Float.ofBits bits)) := by
  rw [Value.ofNumber?, h]

end

mutual

/-- The code of an expression does what the expression means. -/
theorem Term.follows {env : Env} {a : Activation} (hcalls : a.Calls env) (e : Term)
    {t : Expr} {i : Nat} {w : World} {temps : List Value} {m : Machine}
    (h : e.Stands a.literals w.names t) (hcode : a.Has i t.postorder) (hm : a.Shows i w temps m)
    (hlimit : m.stack.size ≤ stackLimit) :
    Follows env.fuel m (a.Evaluated w (i + t.postorder.length) temps) (e.eval env w) := by
  cases e with
  | nil line =>
    cases h
    exact follows_push hcode.instruction hm hlimit (fun _ => meets_nil)
  | bool b line =>
    cases h
    cases b with
    | true => exact follows_push hcode.instruction hm hlimit (fun _ => meets_yes)
    | false => exact follows_push hcode.instruction hm hlimit (fun _ => meets_no)
  | number text line =>
    rw [Term.eval]
    cases h with
    | int hn hl =>
      simp only [ofNumber?_int hn]
      exact follows_number hcode.instruction hl (fun _ => rfl) hm hlimit
    | float hn hl =>
      simp only [ofNumber?_float hn]
      exact follows_number hcode.instruction hl (fun _ => rfl) hm hlimit
  | string text line =>
    cases h with
    | string hl =>
      refine follows_refer hcode.instruction hl ?_ hm hlimit
      intro heap s hs
      obtain ⟨href, hheap⟩ := hs.intern (unquote text)
      exact ⟨congrArg Value.object href, hheap, (Heap.intern_spec hs.canonical _).2.2⟩
  | name x line =>
    cases h with
    | name hv => exact follows_read hv hcode.instruction hm hlimit
  | assign x value =>
    cases h with
    | @assign _ v _ t _ hv h =>
      rw [Term.eval, Expr.postorder, List.length_append, ← Nat.add_assoc]
      refine follows_operand (value.follows hcalls h (Occurs.left hcode) hm hlimit) ?_
      intro u w' m' hnames hm' hlimit'
      rw [← hnames] at hv
      exact follows_write hv u hcode.last hm' hlimit'
  | assignMember x name value =>
    cases h with
    | @assignMember _ _ mem v _ t _ hv hmem h =>
      rw [Term.eval, Expr.postorder, List.length_append, ← Nat.add_assoc]
      simp only [hmem]
      refine follows_operand (value.follows hcalls h (Occurs.left hcode) hm hlimit) ?_
      intro u w' m' hnames hm' hlimit'
      rw [← hnames] at hv
      exact follows_writeMember hv mem u hcode.last hm' hlimit'
  | group e line =>
    cases h with
    | group h => exact e.follows hcalls h hcode hm hlimit
  | member e name line =>
    cases h with
    | @member _ t _ mem _ _ h hmem =>
      rw [Term.eval, Expr.postorder, List.length_append, ← Nat.add_assoc]
      simp only [hmem]
      exact follows_operand (e.follows hcalls h (Occurs.left hcode) hm hlimit)
        fun _ _ _ _ hm' hlimit' => follows_unary rfl hcode.last hm' hlimit'
  | unary op e =>
    cases h with
    | @unary _ _ t _ h =>
      rw [Term.eval, Expr.postorder, List.length_append, ← Nat.add_assoc]
      exact follows_operand (e.follows hcalls h (Occurs.left hcode) hm hlimit)
        fun _ _ _ _ hm' hlimit' => follows_unaryOp op hcode.last hm' hlimit'
  | binary op lhs rhs =>
    cases h with
    | @binary _ _ _ t u _ h h' =>
      rw [Term.eval, Expr.postorder, List.length_append, List.length_append, length_placeOn,
        ← Nat.add_assoc, ← Nat.add_assoc]
      have hop := Occurs.right hcode
      rw [List.length_append, ← Nat.add_assoc] at hop
      refine (lhs.follows hcalls h (Occurs.left (Occurs.left hcode)) hm hlimit).bind ?_
      rintro x w' m' hlimit' ⟨hnames, hm'⟩
      rw [← hnames] at h'
      refine (rhs.follows hcalls h' (Occurs.right (Occurs.left hcode)) hm' hlimit').bind ?_
      rintro y w'' m'' hlimit'' ⟨hnames', hm''⟩
      rw [List.append_assoc] at hm''
      exact (follows_binaryOp op hop hm'' hlimit'').imp
        (fun _ _ _ h => h.trans (hnames'.trans hnames))
  | call callee arguments line =>
    cases h with
    | @call _ t _ ts _ _ h hall hmax =>
      rw [Term.eval, Expr.postorder, List.length_append, List.length_append, ← Nat.add_assoc,
        ← Nat.add_assoc]
      have hcall := hcode.last
      rw [List.length_append, ← Nat.add_assoc, Nat.min_eq_left hmax] at hcall
      refine (callee.follows hcalls h (Occurs.left (Occurs.left hcode)) hm hlimit).bind ?_
      rintro f w' m' hlimit' ⟨hnames, hm'⟩
      rw [← hnames] at hall
      refine (Term.followsAll hcalls arguments hall (Occurs.right (Occurs.left hcode)) hm'
        hlimit').bind ?_
      rintro vs w'' m'' hlimit'' ⟨hlength, hnames', hm''⟩
      rw [List.append_assoc] at hm''
      rw [← hlength] at hcall
      exact (follows_apply hcalls f vs hcall hm'' hlimit'').imp
        (fun _ _ _ h => h.trans (hnames'.trans hnames))

/-- The code of expressions puts their values on the stack, from left to right. -/
theorem Term.followsAll {env : Env} {a : Activation} (hcalls : a.Calls env) (es : List Term)
    {ts : List Expr} {i : Nat} {w : World} {temps : List Value} {m : Machine}
    (h : Term.StandsAll a.literals w.names es ts) (hcode : a.Has i (Expr.postorderAll ts))
    (hm : a.Shows i w temps m) (hlimit : m.stack.size ≤ stackLimit) :
    Follows env.fuel m (fun vs w' m' => vs.length = ts.length ∧ w'.names = w.names ∧
      a.Shows (i + (Expr.postorderAll ts).length) w' (temps ++ vs) m') (Term.evalAll env es w) := by
  cases es with
  | nil =>
    cases h
    refine .pure hlimit ⟨rfl, rfl, ?_⟩
    rw [List.append_nil]
    exact hm
  | cons e es =>
    cases h with
    | @cons _ t _ ts h hall =>
      rw [Term.evalAll, Expr.postorderAll, List.length_append, ← Nat.add_assoc]
      refine (e.follows hcalls h (Occurs.left hcode) hm hlimit).bind ?_
      rintro v w' m' hlimit' ⟨hnames, hm'⟩
      rw [← hnames] at hall
      refine (Term.followsAll hcalls es hall (Occurs.right hcode) hm' hlimit').bind ?_
      rintro vs w'' m'' hlimit'' ⟨hlength, hnames', hm''⟩
      refine .pure hlimit'' ⟨by simp [hlength], hnames'.trans hnames, ?_⟩
      rw [List.append_assoc] at hm''
      exact hm''

end

/-- The code of a value that may be left out. -/
theorem follows_value {env : Env} {a : Activation} (hcalls : a.Calls env)
    {value : Option Term} {t : Expr} {i : Nat} {w : World} {m : Machine}
    (h : Term.StandsOpt a.literals w.names value t)
    (hcode : a.Has i t.postorder) (hm : a.Shows i w [] m) (hlimit : m.stack.size ≤ stackLimit) :
    Follows env.fuel m (a.Evaluated w (i + t.postorder.length) []) (env.value value w) := by
  cases h with
  | none => exact follows_push hcode.instruction hm hlimit (fun _ => meets_nil)
  | some h => exact Term.follows hcalls _ h hcode hm hlimit

end EntityScript
