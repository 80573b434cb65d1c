/-
# Comparisons in a machine

Only the strict comparisons are instructions.  One that allows equality is compiled to the strict
comparison in the other direction, followed by a negation, in every function of every program.  This
gives what its name says for numbers that have an order.  But a strict comparison also fails because
there is no order: so a number is at most, and at least, what is not a number, although it is
neither below, above nor equal to it (`non_strict_comparisons`).
-/
import EntityScript.Proofs.Compile.Acceptance
import EntityScript.Proofs.Machine.Operators
import EntityScript.Proofs.Machine.Parts
import EntityScript.Proofs.Value.Comparison

namespace EntityScript

namespace NonStrict

/-- The operator, as it is written. -/
def operator : NonStrict → BinaryOp
  | .lessEqual => .lessEqual
  | .greaterEqual => .greaterEqual

/-- The instruction for the strict comparison in the other direction. -/
def instruction : NonStrict → Instruction
  | .lessEqual => .greater
  | .greaterEqual => .less

/-- A comparison that allows equality is two instructions: the opposite strict one, and a negation.
-/
theorem instructions_eq (c : NonStrict) : c.operator.instructions = [c.instruction, .not] := by
  cases c <;> rfl

end NonStrict

/-! ## Execution -/

namespace Exec

variable {m : Machine} {fr : Frame} {rest : List Frame} {s : List Value} {a b : Value}

/-- What the opposite strict comparison comes to: a boolean on the stack, or an error of its
operands. -/
theorem run_opposite (c : NonStrict) (h : fr.base < s.length) (hlimit : s.length < stackLimit) :
    (execute c.instruction).run (m.on (fr :: rest) (s ++ [a, b])) =
      match c.opposite a b with
      | .ok v => .ok .next (m.on (fr :: rest) (s ++ [v]))
      | .error e => .error (.operand e) (m.on (fr :: rest) s) := by
  cases c <;> exact run_binary h hlimit

/-- A negation of a boolean. -/
theorem run_not {p : Bool} (h : fr.base < s.length) (hlimit : s.length < stackLimit) :
    (execute .not).run (m.on (fr :: rest) (s ++ [.bool p])) =
      .ok .next (m.on (fr :: rest) (s ++ [.bool !p])) := by
  show (do unary Value.not; return Signal.next).run _ = _
  rw [EStateM.run_bind, unary, EStateM.run_bind, run_pop h]
  dsimp only
  rw [EStateM.run_bind, Value.not, run_operand_ok]
  dsimp only
  rw [run_push hlimit]
  rfl

end Exec

namespace Machine

variable {m m' : Machine} {f : Function} {i base : Nat} {rest : List Frame} {s : List Value}
  {p : Placed} {ps : List Placed}

/-- An instruction that shows nothing. -/
theorem advance_next (hcode : Occurs f.chunk.code.toList i (p :: ps))
    (hrun : (Exec.execute p.instruction).run (m.on (⟨f, i + 1, base⟩ :: rest) s) = .ok .next m') :
    (m.on (⟨f, i, base⟩ :: rest) s).advance = ([], some m') := by
  have hi : f.chunk.instruction? i = some p.instruction :=
    Chunk.instruction?_of_getElem? (Occurs.getElem? hcode (k := 0) (by simp))
  have hstep : Exec.step.run (m.on (⟨f, i, base⟩ :: rest) s) =
      (Exec.execute p.instruction).run (m.on (⟨f, i + 1, base⟩ :: rest) s) :=
    Exec.run_step (m := m.on (⟨f, i, base⟩ :: rest) s) rfl hi
  rw [advance, hstep, hrun]

end Machine

/-- At a place of a function, two steps replace the values on top of the stack by a truth value and
show nothing. -/
def Function.Leaves (f : Function) (i : Nat) (a b : Value) (r : Bool) : Prop :=
  ∀ (m : Machine) (rest : List Frame) (base : Nat) (s : List Value), base < s.length →
    s.length < stackLimit →
    (m.on (⟨f, i, base⟩ :: rest) (s ++ [a, b])).watch 2 =
      ([], some (m.on (⟨f, i + 2, base⟩ :: rest) (s ++ [.bool r])))

theorem leaves_of_opposite {f : Function} {i line : Nat} {a b : Value} {r : Bool} (c : NonStrict)
    (hcode : Occurs f.chunk.code.toList i (placeOn line [c.instruction, .not]))
    (h : c.opposite a b = .ok (.bool !r)) : f.Leaves i a b r := by
  intro m rest base s hbase hlimit
  -- the comparison leaves one value in the place of two, and the negation replaces it
  have hgo : Occurs f.chunk.code.toList i (⟨c.instruction, line⟩ :: placeOn line [.not]) := hcode
  have hcompare : (Exec.execute c.instruction).run (m.on (⟨f, i + 1, base⟩ :: rest) (s ++ [a, b])) =
    _ :=
    Exec.run_opposite c hbase hlimit
  rw [h] at hcompare
  have hnot : (Exec.execute .not).run (m.on (⟨f, i + 2, base⟩ :: rest) (s ++ [.bool !r])) = _ :=
    Exec.run_not hbase hlimit
  rw [Bool.not_not] at hnot
  rw [Machine.watch_succ_some (Machine.advance_next hgo hcompare),
    Machine.watch_succ_some (Machine.advance_next hgo.tail hnot), Machine.watch]
  rfl

/-! ## Compiled programs -/

/-- A comparison that allows equality has the code of its operands, then the two instructions. -/
theorem Routine.Compiled.comparison {r : Routine} {f : Function} (h : r.Compiled f) (c : NonStrict)
    {lhs rhs : Term} (hd : r.Part (.binary c.operator lhs rhs)) :
    ∃ names t u line i, lhs.Stands f.chunk.literals names t ∧ rhs.Stands f.chunk.literals names u ∧
      Occurs f.chunk.code.toList i
      (t.postorder ++ u.postorder ++ placeOn line [c.instruction, .not]) := by
  obtain ⟨names, t, ht, before, after, hcode⟩ := h.found hd
  -- what stands for an operator between two operands has their code in front of its own
  cases ht with
  | @binary _ _ _ t u line hl hr =>
    refine ⟨names, t, u, line, before.length, hl, hr, after, ?_⟩
    rw [Expr.postorder, c.instructions_eq] at hcode
    rw [← hcode, List.append_assoc before, List.drop_left]

/-- A function compares the values of two expressions: their code is followed by two instructions
that leave, of two numbers, whether the strict comparison holds, or they are equal, or one of them
is not a number. -/
def Function.Compares (f : Function) (c : NonStrict) (lhs rhs : Term) : Prop :=
  ∃ names t u line i, lhs.Stands f.chunk.literals names t ∧ rhs.Stands f.chunk.literals names u ∧
    Occurs f.chunk.code.toList i (t.postorder ++ u.postorder ++ placeOn line
      [c.instruction, .not]) ∧
    ∀ a b : Value, a.isNumber = true → b.isNumber = true →
      ∃ r : Bool, f.Leaves (i + (t.postorder ++ u.postorder).length) a b r ∧
        (r = true ↔ c.strict a b = .ok (.bool true) ∨ a.numericallyEqual b = true ∨ a.isNaN = true ∨
          b.isNaN = true)

/-- **Comparisons that allow equality.**  Wherever a script has one, the compiled function compares
two numbers by the strict comparison or equality, but for numbers that have no order: all strict
comparisons and equality fail for them, and this one holds. -/
theorem non_strict_comparisons {unit : Nat} {globals : List String} {source : String} {p : Program}
    (hp : compile unit globals source = .ok p) (c : NonStrict) :
    (∃ s : Script, s.Spelled (tokens source) ∧ s.program? unit globals = some p) ∧
      (∀ s : Script, s.Spelled (tokens source) → s.program? unit globals = some p →
        List.Forall₂
        (fun r f => ∀ lhs rhs, r.Part (.binary c.operator lhs rhs) → f.Compares c lhs rhs)
          (s.main unit :: Clause.routinesAll unit s.body) p.main.family) ∧
      ∀ a b : Value, a.isNumber = true → b.isNumber = true → a.isNaN = true ∨ b.isNaN = true →
        a.less b = .ok (.bool false) ∧ a.greater b = .ok (.bool false) ∧
        a.numericallyEqual b = false := by
  refine ⟨((compile_eq_ok_iff unit globals source p).mp hp).2, fun s hspelled hprogram => ?_,
    fun a b => Value.unordered⟩
  refine (compiled_of_program? hspelled hprogram).1.imp ?_
  intro r f h lhs rhs hd
  obtain ⟨names, t, u, line, i, hl, hr, hcode⟩ := h.comparison c hd
  refine ⟨names, t, u, line, i, hl, hr, hcode, fun a b ha hb => ?_⟩
  obtain ⟨result, hopposite, hiff⟩ := c.exists_opposite ha hb
  exact ⟨result, leaves_of_opposite c (Occurs.right hcode) hopposite, hiff⟩

/-- The script `print 1 <= 1.0;`. -/
def comparingScript : Script :=
  ⟨[.print (.binary .lessEqual (.number "1" 1) (.number "1.0" 1)) 1], 1⟩

/-- The tokens of the script are those of its tree. -/
theorem spelled_comparingScript : comparingScript.Spelled (tokens "print 1 <= 1.0;") := by
  have htokens : tokens "print 1 <= 1.0;" =
    [⟨.kwPrint, "print", 1⟩, ⟨.number, "1", 1⟩, ⟨.lessEqual, "<=", 1⟩,
      ⟨.number, "1.0", 1⟩, ⟨.semicolon, ";", 1⟩] ++ [⟨.eof, "", 1⟩] := by decide +kernel
  have hone : Derives [⟨.number, "1", 1⟩] (.expr .comparison (.number "1" 1)) :=
    .stronger (.stronger (.stronger (.stronger (.stronger (.number rfl)))))
  have hother : Derives [⟨.number, "1.0", 1⟩] (.expr .term (.number "1.0" 1)) :=
    .stronger (.stronger (.stronger (.stronger (.number rfl))))
  have hcompare : Derives ([⟨.number, "1", 1⟩] ++ ⟨.lessEqual, "<=", 1⟩ :: [⟨.number, "1.0", 1⟩])
      (.expr .comparison (.binary .lessEqual (.number "1" 1) (.number "1.0" 1))) :=
      .binary hone .lessEqual hother
  have hprint : Spells (⟨.kwPrint, "print", 1⟩ :: ([⟨.number, "1", 1⟩] ++ ⟨.lessEqual, "<=", 1⟩ ::
      [⟨.number, "1.0", 1⟩]) ++ [⟨.semicolon, ";", 1⟩])
      (.statement (.print (.binary .lessEqual (.number "1" 1) (.number "1.0" 1)) 1)) :=
    .print rfl (.stronger (.stronger (.stronger (.stronger hcompare)))) rfl
  exact ⟨_, ⟨.eof, "", 1⟩, htokens, rfl, rfl, .more (.ofStatement hprint) .none⟩

/-- An integer and a double that are equal, compared at the top level. -/
theorem non_strict_comparisons_one : ∃ p, compile 0 [] "print 1 <= 1.0;" = .ok p ∧
    p.main.Compares .lessEqual (.number "1" 1) (.number "1.0" 1) := by
  have hsome : (comparingScript.program? 0 []).isSome = true := by decide +kernel
  obtain ⟨p, hprogram⟩ := Option.isSome_iff_exists.mp hsome
  have hp : compile 0 [] "print 1 <= 1.0;" = .ok p := by
    have hclean : ∀ t ∈ tokens "print 1 <= 1.0;", t.kind ≠ .error := by decide +kernel
    exact (compile_eq_ok_iff _ _ _ p).mpr
      ⟨hclean, comparingScript, spelled_comparingScript, hprogram⟩
  obtain ⟨-, hall, -⟩ := non_strict_comparisons hp .lessEqual
  have hfamily := hall comparingScript spelled_comparingScript hprogram
  rw [Function.family_eq] at hfamily
  have hmain := (List.forall₂_cons.mp hfamily).1
  exact ⟨p, hp, hmain _ _ ⟨_, List.mem_cons_self, .print .self⟩⟩

/-- What is not a number is neither below one nor equal to it, and yet at most one. -/
theorem nan_at_most_one :
    Value.isNaN (.float (0.0 / 0.0)) = true ∧
    Value.less (.float (0.0 / 0.0)) (.int 1) = .ok (.bool false) ∧
      Value.numericallyEqual (.float (0.0 / 0.0)) (.int 1) = false ∧
      ∃ p, compile 0 Host.builtins.names "print 0.0 / 0.0 <= 1;" = .ok p ∧
        ((Machine.new .builtins).load p).seen
        [100] = Observation.ofText "true\n" ++ [.exited .finished] := by
  refine ⟨by rfl, by rfl, by rfl, ?_⟩
  have hseen : ((compile 0 Host.builtins.names "print 0.0 / 0.0 <= 1;").toOption.map fun p =>
      ((Machine.new .builtins).load p).seen [100]) =
      some (Observation.ofText "true\n" ++ [.exited .finished]) := by
    decide +kernel
  obtain ⟨p, hp, hp'⟩ := Option.map_eq_some_iff.mp hseen
  exact ⟨p, toOption_eq_some_iff.mp hp, hp'⟩

end EntityScript
