/-
# Code without its pauses

When the `yield` instructions are taken out of some code, the instructions after them move up, and
jumps over them become shorter.  `packed code i` is the place to which place `i` moves.

A piece of code is paired with the same piece without its pauses (`Unpaused`) if, wherever the two
stand in whole pieces of code, each instruction of the first is found in the second at its new
place, and each jump leads to the new place of where it led.  In this way pieces can be put together
without a look at how far their jumps go.
-/
import EntityScript.Proofs.Code.Jumps
import EntityScript.Proofs.Tree.Family

namespace EntityScript

/-- The number of pauses in some code. -/
def pauses (code : List Placed) : Nat :=
  code.countP fun p => p.instruction = .yield

/-- The place of an instruction when the pauses before it are taken out. -/
def packed (code : List Placed) (i : Nat) : Nat :=
  i - pauses (code.take i)

section

variable {code code' a a' b b' : List Placed} {i n k : Nat} {p : Placed}

theorem pauses_le (code : List Placed) : pauses code ≤ code.length :=
  List.countP_le_length

/-- At most as many pauses stand before a place as there are places. -/
theorem pauses_take_le (code : List Placed) (i : Nat) : pauses (code.take i) ≤ i :=
  Nat.le_trans (pauses_le _) (List.length_take_le i code)

@[simp] theorem pauses_append (a b : List Placed) : pauses (a ++ b) = pauses a + pauses b :=
  List.countP_append

/-- Code that only goes on has no pauses. -/
theorem pauses_of_plain (h : Plain code) : pauses code = 0 := by
  refine List.countP_eq_zero.mpr fun p hp => ?_
  have hplain := h p hp
  intro hyield
  rw [of_decide_eq_true hyield] at hplain
  cases hplain

@[simp] theorem packed_zero (code : List Placed) : packed code 0 = 0 :=
  Nat.zero_sub _

/-- A pause takes up no place. -/
theorem packed_yield (hp : code[i]? = some p) (hyield : p.instruction = .yield) :
    packed code (i + 1) = packed code i := by
  have hle := pauses_take_le code i
  have hone : pauses [p] = 1 := by simp [pauses, hyield]
  rw [packed, packed, List.take_add_one, hp, Option.toList_some, pauses_append, hone]
  omega

/-- Every other instruction takes up one. -/
theorem packed_succ (hp : code[i]? = some p) (hyield : p.instruction ≠ .yield) :
    packed code (i + 1) = packed code i + 1 := by
  have hle := pauses_take_le code i
  have hone : pauses [p] = 0 := by simp [pauses, hyield]
  rw [packed, packed, List.take_add_one, hp, Option.toList_some, pauses_append, hone]
  omega

/-- Beyond the code nothing is taken out. -/
theorem packed_of_length_le (h : code.length ≤ i) : packed code i = i - pauses code := by
  rw [packed, List.take_of_length_le h]

/-- The place after a piece of code follows from the place before it. -/
theorem Occurs.packed (h : Occurs code i a) :
    packed code (i + a.length) = EntityScript.packed code i + (a.length - pauses a) := by
  obtain ⟨rest, hrest⟩ := h
  have hle := pauses_take_le code i
  have hle' := pauses_le a
  rw [EntityScript.packed, EntityScript.packed, List.take_add, ← hrest, List.take_left,
    pauses_append]
  omega

/-! ## Instructions that have moved -/

/-- The same instruction at the place to which `π` takes the place `i`, leading to where `π` takes
the place that it led to. -/
inductive Instruction.Moved (π : Nat → Nat) (i : Nat) : Instruction → Instruction → Prop where
  | same {instruction : Instruction} : instruction.isJump = false →
    Moved π i instruction instruction
  | jump {offset offset' : Nat} : π i + 1 + offset' = π (i + 1 + offset) →
    Moved π i (.jump offset) (.jump offset')
  | jumpIfFalse {offset offset' : Nat} : π i + 1 + offset' = π (i + 1 + offset) →
    Moved π i (.jumpIfFalse offset) (.jumpIfFalse offset')
  | loop {offset offset' : Nat} : (i + 1 < offset ↔ π i + 1 < offset') →
    (offset ≤ i + 1 → π i + 1 - offset' = π (i + 1 - offset)) →
    Moved π i (.loop offset) (.loop offset')

/-- Every instruction but a pause, from place `i` on for `n` places, is found at its new place in
the second code. -/
def Matches (code code' : List Placed) (i n : Nat) : Prop :=
  ∀ j p, i ≤ j → j < i + n → code[j]? = some p → p.instruction ≠ .yield →
    ∃ instruction, code'[packed code j]? = some ⟨instruction, p.line⟩ ∧
      p.instruction.Moved (packed code) j instruction

/-- Stretches that match one after the other match as one. -/
theorem Matches.append (h : Matches code code' i n) (h' : Matches code code' (i + n) k) :
    Matches code code' i (n + k) := by
  intro j p hi hj
  by_cases hn : j < i + n
  · exact h j p hi hn
  · exact h' j p (Nat.le_of_not_lt hn) (by omega)

theorem matches_zero (code code' : List Placed) (i : Nat) : Matches code code' i 0 :=
  fun _ _ hi hj => absurd hj (Nat.not_lt.mpr hi)

/-- A single instruction. -/
theorem matches_one {instruction : Instruction} (h : Occurs code i [p])
    (h' : Occurs code' (packed code i) [⟨instruction, p.line⟩])
    (hmoved : p.instruction.Moved (packed code) i instruction) : Matches code code' i 1 := by
  intro j q hi hj hq _
  obtain rfl : j = i := by omega
  have hp : code[j]? = some p := by simpa using h.getElem? (k := 0) Nat.one_pos
  rw [hp] at hq
  obtain rfl := Option.some.inj hq
  exact ⟨instruction, by simpa using h'.getElem? (k := 0) Nat.one_pos, hmoved⟩

/-! ## Pieces that have been cleared of pauses -/

/-- The second piece is the first one without its pauses. -/
structure Unpaused (a a' : List Placed) : Prop where
  length : a'.length = a.length - pauses a
  same : ∀ code code' i, Occurs code i a → Occurs code' (packed code i) a' →
    Matches code code' i a.length

namespace Unpaused

theorem nil : Unpaused [] [] :=
  ⟨rfl, fun code code' i _ _ => matches_zero code code' i⟩

/-- Code does not become longer when its pauses are taken out. -/
theorem length_le (h : Unpaused a a') : a'.length ≤ a.length := by
  rw [h.length]
  exact Nat.sub_le _ _

/-- A pause. -/
theorem yield (line : Nat) : Unpaused [⟨.yield, line⟩] [] := by
  refine ⟨rfl, fun code code' i h _ j p hi hj hp hyield => ?_⟩
  rw [List.length_singleton] at hj
  obtain rfl : j = i := by omega
  have hget : code[j]? = some ⟨.yield, line⟩ := by simpa using h.getElem? (k := 0) Nat.one_pos
  rw [hget] at hp
  obtain rfl := Option.some.inj hp
  exact absurd rfl hyield

/-- The place after a piece, in both codes. -/
theorem packed (hab : Unpaused a a') (h : Occurs code i a) :
    EntityScript.packed code (i + a.length) = EntityScript.packed code i + a'.length := by
  rw [h.packed, hab.length]

/-- Two pieces, each without its pauses. -/
theorem append (ha : Unpaused a a') (hb : Unpaused b b') : Unpaused (a ++ b) (a' ++ b') := by
  have hle := pauses_le a
  have hle' := pauses_le b
  refine ⟨?_, fun code code' i h h' => ?_⟩
  · rw [List.length_append, List.length_append, ha.length, hb.length, pauses_append]
    omega
  · rw [List.length_append]
    exact (ha.same code code' i h.left h'.left).append
      (hb.same code code' _ h.right (h'.right.cast (ha.packed h.left).symm))

/-- Code in which one instruction follows the other has no pauses. -/
theorem refl (h : Plain a) : Unpaused a a := by
  refine ⟨by rw [pauses_of_plain h, Nat.sub_zero], fun code code' i hocc hocc' => ?_⟩
  induction a generalizing i with
  | nil => exact matches_zero code code' i
  | cons p a ih =>
    have hp := h p List.mem_cons_self
    have hyield : p.instruction ≠ .yield := fun heq => by rw [heq] at hp; cases hp
    have hone : Occurs code i [p] := hocc.left (b := a)
    have hget : code[i]? = some p := by simpa using hone.getElem? (k := 0) Nat.one_pos
    have hnext := packed_succ hget hyield
    rw [List.length_cons, Nat.add_comm]
    refine (matches_one hone (hocc'.left (b := a))
      (.same (Instruction.isJump_of_not_isControl hp))).append ?_
    refine ih (fun q hq => h q (List.mem_cons_of_mem p hq)) (i + 1) hocc.tail ?_
    exact hocc'.tail.cast hnext.symm

/-- An instruction that is no pause and no jump. -/
theorem one {instruction : Instruction} {line : Nat} (hyield : instruction ≠ .yield)
    (hjump : instruction.isJump = false) :
    Unpaused [⟨instruction, line⟩] [⟨instruction, line⟩] := by
  refine ⟨by simp [pauses, hyield], fun code code' i h h' => ?_⟩
  exact matches_one h h' (.same hjump)

/-- A jump and the instruction after it that drops a condition. -/
theorem matches_jump {jump jump' : Instruction} {line : Nat}
    (h : Occurs code i [⟨jump, line⟩, ⟨.pop, line⟩])
    (h' : Occurs code' (EntityScript.packed code i) [⟨jump', line⟩, ⟨.pop, line⟩])
    (hyield : jump ≠ .yield) (hmoved : jump.Moved (EntityScript.packed code) i jump') :
    Matches code code' i 2 := by
  have hone : Occurs code i [⟨jump, line⟩] := h.left (b := [_])
  have hget : code[i]? = some ⟨jump, line⟩ := by simpa using hone.getElem? (k := 0) Nat.one_pos
  refine (matches_one hone (h'.left (b := [_])) hmoved).append (k := 1) ?_
  exact matches_one h.tail (h'.tail.cast (packed_succ hget hyield).symm) (.same rfl)

/-- A jump with the instruction that drops its condition has no pause. -/
theorem pauses_jump {jump : Instruction} {line : Nat} (hyield : jump ≠ .yield) :
    pauses [⟨jump, line⟩, ⟨.pop, line⟩] = 0 := by
  simp [pauses, hyield]

/-- A jump and the instruction after it keep their two places. -/
theorem packed_jump {jump : Instruction} {line : Nat}
    (h : Occurs code i [⟨jump, line⟩, ⟨.pop, line⟩])
    (hyield : jump ≠ .yield) : EntityScript.packed code
    (i + 2) = EntityScript.packed code i + 2 := by
  have hpacked := h.packed
  rwa [pauses_jump hyield] at hpacked

/-- A condition, a body and what follows, with a jump over the body and another one at its end. -/
theorem branch {cond body body' rest rest' : List Placed} {out out' : Instruction}
    {line lastLine : Nat} (hcond : Plain cond) (hbody : Unpaused body body')
    (hrest : Unpaused rest rest') (hyield : out ≠ .yield)
    (hout : ∀ (π : Nat → Nat) (i : Nat),
      π (i + cond.length + 2 + body.length) = π i + cond.length + 2 + body'.length →
      π (i + cond.length + 2 + body.length + 2 + rest.length) =
        π i + cond.length + 2 + body'.length + 2 + rest'.length →
      out.Moved π (i + cond.length + 2 + body.length) out') :
    Unpaused
      (cond ++ [⟨.jumpIfFalse (body.length + 2), line⟩, ⟨.pop, line⟩] ++ body ++
        ([⟨out, lastLine⟩, ⟨.pop, lastLine⟩] ++ rest))
      (cond ++ [⟨.jumpIfFalse (body'.length + 2), line⟩, ⟨.pop, line⟩] ++ body' ++
        ([⟨out', lastLine⟩, ⟨.pop, lastLine⟩] ++ rest')) := by
  have hcond' := Unpaused.refl hcond
  have hskip : (Instruction.jumpIfFalse (body.length + 2)) ≠ .yield := fun h => by cases h
  refine ⟨?_, fun code code' i h h' => ?_⟩
  · have hle := pauses_le body
    have hle' := pauses_le rest
    simp only [List.length_append, pauses_append, hbody.length, hrest.length, pauses_jump hskip,
      pauses_jump hyield, pauses_of_plain hcond, List.length_cons, List.length_nil]
    omega
  obtain ⟨htest, hbodyOcc, hend⟩ := h.branch
  obtain ⟨htest', hbodyOcc', hend'⟩ := h'.branch
  -- the new places of the parts
  have hcondAt := hcond'.packed htest.left
  have htestAt := packed_jump htest.right hskip
  rw [hcondAt] at htestAt
  have hbodyAt := hbody.packed hbodyOcc
  rw [htestAt] at hbodyAt
  have hendAt := packed_jump hend.left hyield
  rw [hbodyAt] at hendAt
  have hrestAt := hrest.packed hend.right
  simp only [List.length_cons, List.length_nil] at hrestAt
  rw [hendAt] at hrestAt
  have hmoved := hout (EntityScript.packed code) i hbodyAt hrestAt
  have hjump : (Instruction.jumpIfFalse (body.length + 2)).Moved (EntityScript.packed code)
      (i + cond.length) (.jumpIfFalse (body'.length + 2)) := by
    refine .jumpIfFalse ?_
    have hout : code[i + cond.length + 2 + body.length]? = some ⟨out, lastLine⟩ := by
      simpa using hend.left.getElem? (k := 0) Nat.two_pos
    have hafter := packed_succ hout hyield
    rw [hbodyAt] at hafter
    rw [show i + cond.length + 1 + (body.length + 2) =
      i + cond.length + 2 + body.length + 1 by omega, hafter, hcondAt]
    omega
  -- the parts one after the other
  have hfirst := (hcond'.same code code' i htest.left htest'.left).append
    (matches_jump htest.right (htest'.right.cast hcondAt.symm) hskip hjump)
  have hsecond := hbody.same code code' _ hbodyOcc (hbodyOcc'.cast htestAt.symm)
  have hthird := (matches_jump hend.left (hend'.left.cast hbodyAt.symm) hyield hmoved).append
    (hrest.same code code' _ hend.right (hend'.right.cast hendAt.symm))
  rw [Nat.add_assoc i cond.length 2] at hsecond
  rw [Nat.add_assoc i cond.length 2, Nat.add_assoc i] at hthird
  simpa only [List.length_append, List.length_cons, List.length_nil]
    using (hfirst.append hsecond).append hthird

/-- A conditional. -/
theorem ifThen {cond body body' : List Placed} (line lastLine : Nat) (hcond : Plain cond)
    (hbody : Unpaused body body') :
    Unpaused
      (cond ++ [⟨.jumpIfFalse (body.length + 2), line⟩, ⟨.pop, line⟩] ++ body ++
        [⟨.jump 1, lastLine⟩, ⟨.pop, lastLine⟩])
      (cond ++ [⟨.jumpIfFalse (body'.length + 2), line⟩, ⟨.pop, line⟩] ++ body' ++
        [⟨.jump 1, lastLine⟩, ⟨.pop, lastLine⟩]) :=
  branch hcond hbody nil (fun h => by cases h) fun π i hbodyAt hend =>
    .jump (by rw [hbodyAt]; exact hend.symm)

/-- A conditional with an alternative. -/
theorem ifElse {cond body body' other other' : List Placed} (line lastLine : Nat)
    (hcond : Plain cond) (hbody : Unpaused body body') (hother : Unpaused other other') :
    Unpaused
      (cond ++ [⟨.jumpIfFalse (body.length + 2), line⟩, ⟨.pop, line⟩] ++ body ++
        [⟨.jump (other.length + 1), lastLine⟩, ⟨.pop, lastLine⟩] ++ other)
      (cond ++ [⟨.jumpIfFalse (body'.length + 2), line⟩, ⟨.pop, line⟩] ++ body' ++
        [⟨.jump (other'.length + 1), lastLine⟩, ⟨.pop, lastLine⟩] ++ other') := by
  rw [List.append_assoc _ _ other, List.append_assoc _ _ other']
  refine branch hcond hbody hother (fun h => by cases h) fun π i hbodyAt hend => .jump ?_
  rw [hbodyAt, show i + cond.length + 2 + body.length + 1 + (other.length + 1) =
    i + cond.length + 2 + body.length + 2 + other.length by omega, hend]
  omega

/-- A loop. -/
theorem loop {cond body body' : List Placed} (line lastLine : Nat) (hcond : Plain cond)
    (hbody : Unpaused body body') :
    Unpaused
      (cond ++ [⟨.jumpIfFalse (body.length + 2), line⟩, ⟨.pop, line⟩] ++ body ++
        [⟨.loop (cond.length + body.length + 3), lastLine⟩, ⟨.pop, lastLine⟩])
      (cond ++ [⟨.jumpIfFalse (body'.length + 2), line⟩, ⟨.pop, line⟩] ++ body' ++
        [⟨.loop (cond.length + body'.length + 3), lastLine⟩, ⟨.pop, lastLine⟩]) := by
  refine branch hcond hbody nil (fun h => by cases h) fun π i hbodyAt _ => .loop ?_ ?_
  · rw [hbodyAt]
    omega
  · intro _
    rw [hbodyAt, show i + cond.length + 2 + body.length + 1 - (cond.length + body.length + 3) =
      i by omega]
    omega

end Unpaused

end

/-! ## Functions without their pauses -/

/-- The second code is the whole first one without its pauses, none of which is at the end. -/
structure Cleared (code code' : List Placed) : Prop where
  length : code'.length = code.length - pauses code
  found : Matches code code' 0 code.length
  last : ∀ p, code[code.length - 1]? = some p → p.instruction ≠ .yield

namespace Cleared

variable {code code' : List Placed} {i : Nat} {p : Placed}

/-- The code of a function ends with a return. -/
theorem of_unpaused {body body' : List Placed} (h : Unpaused body body') (line : Nat) :
    Cleared (body ++ placeOn line [.nil, .ret]) (body' ++ placeOn line [.nil, .ret]) := by
  have hlast : Unpaused (placeOn line [.nil, .ret]) (placeOn line [.nil, .ret]) :=
    Unpaused.append (a := [_]) (b := [_]) (.one (fun h => by cases h) rfl)
      (.one (fun h => by cases h) rfl)
  have hall := h.append hlast
  refine ⟨hall.length, ?_, fun p hp => ?_⟩
  · exact hall.same _ _ 0 List.prefix_rfl List.prefix_rfl
  · have hget : (body ++ placeOn line [.nil, .ret])[body.length + 1]? = some ⟨.ret, line⟩ := by
      rw [List.getElem?_append_right (Nat.le_add_right _ _), Nat.add_sub_cancel_left]
      rfl
    have hlength : (body ++ placeOn line [.nil, .ret]).length - 1 = body.length + 1 := by
      rw [List.length_append, length_placeOn]
      rfl
    rw [hlength, hget] at hp
    obtain rfl := Option.some.inj hp
    exact fun h => by cases h

/-- Code without pauses stays as it is. -/
theorem refl (h : ∀ p ∈ code, p.instruction ≠ .yield) : Cleared code code := by
  have hnone : pauses code = 0 := List.countP_eq_zero.mpr fun p hp hyield =>
    h p hp (of_decide_eq_true hyield)
  have hid : ∀ i, packed code i = i := by
    intro i
    have hle : pauses (code.take i) ≤ pauses code := (List.take_sublist i code).countP_le
    rw [packed]
    omega
  refine ⟨by rw [hnone, Nat.sub_zero],
    fun i p _ _ hp _ => ⟨p.instruction, by rw [hid]; exact hp, ?_⟩,
    fun p hp => h p (List.mem_of_getElem? hp)⟩
  cases hi : p.instruction with
  | jump offset => exact .jump (by rw [hid, hid])
  | jumpIfFalse offset => exact .jumpIfFalse (by rw [hid, hid])
  | loop offset => exact .loop (by rw [hid]) fun _ => by rw [hid, hid]
  | ret | stop | literal | nil | yes | no | pop | defineGlobal | getGlobal | setGlobal | getLocal
  | setLocal | getMember | setGlobalMember | setLocalMember | equal | greater | less | add
  | subtract | multiply | divide | not | negate | print | call | yield => exact .same rfl

/-- An instruction other than a pause is found at its new place, with its jump moved along. -/
theorem getElem? (h : Cleared code code') (hp : code[i]? = some p)
    (hyield : p.instruction ≠ .yield) :
    ∃ instruction, code'[packed code i]? = some ⟨instruction, p.line⟩ ∧
      p.instruction.Moved (packed code) i instruction :=
  h.found i p (Nat.zero_le i) (by rw [Nat.zero_add]; exact (List.getElem?_eq_some_iff.mp hp).1) hp
    hyield

/-- Where the first code has ended the second has ended, too. -/
theorem getElem?_none (h : Cleared code code') (hp : code[i]? = none) :
    code'[packed code i]? = none := by
  have hle := List.getElem?_eq_none_iff.mp hp
  rw [List.getElem?_eq_none_iff, h.length, packed_of_length_le hle]
  omega

/-- The lines of the instructions before the ends of the codes are the same. -/
theorem line_end (h : Cleared code code') (hp : code[i]? = none) :
    code'[packed code i - 1]?.map Placed.line = code[i - 1]?.map Placed.line := by
  have hle := List.getElem?_eq_none_iff.mp hp
  rcases Nat.eq_or_lt_of_le hle with heq | hlt
  · -- right behind the last instruction, which is not a pause
    cases hq : code[i - 1]? with
    | none =>
      have hnil : code = [] := by
        rw [List.getElem?_eq_none_iff] at hq
        exact List.length_eq_zero_iff.mp (by omega)
      subst hnil
      have hlength := h.length
      rw [List.length_nil, Nat.zero_sub] at hlength
      rw [List.length_eq_zero_iff.mp hlength]
      rfl
    | some q =>
      have hyield := h.last q (heq ▸ hq)
      obtain ⟨instruction, hinstruction, -⟩ := h.getElem? hq hyield
      have hpos : i - 1 + 1 = i := by
        have hlt := (List.getElem?_eq_some_iff.mp hq).1
        omega
      have hnext := packed_succ hq hyield
      rw [hpos] at hnext
      rw [hnext, Nat.add_sub_cancel, hinstruction]
      rfl
  · have hnone : code[i - 1]? = none := List.getElem?_eq_none_iff.mpr (by omega)
    have hnone' : code'[packed code i - 1]? = none := by
      have hpauses := pauses_le code
      rw [List.getElem?_eq_none_iff, h.length, packed_of_length_le hle]
      omega
    rw [hnone, hnone']

end Cleared

mutual

/-- The second function is the first one, and all functions inside it, without pauses.  It may come
from another compilation, so its number is another one. -/
inductive Function.Twin (renamed : FunctionId → FunctionId) : Function → Function → Prop where
  | mk {id : FunctionId} {name : Option String} {arity : Nat} {code code' : Array Placed}
      {ls ls' : List Literal} :
    Cleared code.toList code'.toList → Literal.Twins renamed ls ls' →
    Function.Twin renamed ⟨id, name, arity, ⟨code, ls⟩⟩ ⟨renamed id, name, arity, ⟨code', ls'⟩⟩

inductive Literal.Twin (renamed : FunctionId → FunctionId) : Literal → Literal → Prop where
  | int (n : Int64) : Literal.Twin renamed (.int n) (.int n)
  | float (bits : UInt64) : Literal.Twin renamed (.float bits) (.float bits)
  | string (text : String) : Literal.Twin renamed (.string text) (.string text)
  | function {f f' : Function} : Function.Twin renamed f f' →
    Literal.Twin renamed (.function f) (.function f')

inductive Literal.Twins (renamed : FunctionId → FunctionId) :
    List Literal → List Literal → Prop where
  | nil : Literal.Twins renamed [] []
  | cons {l l' : Literal} {ls ls' : List Literal} : Literal.Twin renamed l l' →
    Literal.Twins renamed ls ls' →
    Literal.Twins renamed (l :: ls) (l' :: ls')

end

section

variable {renamed : FunctionId → FunctionId}

namespace Function.Twin

variable {f f' : Function}

/-- A function without its pauses has the renamed number. -/
theorem id_eq (h : Function.Twin renamed f f') : f'.id = renamed f.id := by
  cases h
  rfl

theorem name_eq (h : Function.Twin renamed f f') : f'.name = f.name := by
  cases h
  rfl

theorem arity_eq (h : Function.Twin renamed f f') : f'.arity = f.arity := by
  cases h
  rfl

/-- The code of the second function is that of the first without its pauses. -/
theorem cleared (h : Function.Twin renamed f f') :
    Cleared f.chunk.code.toList f'.chunk.code.toList := by
  cases h with
  | mk hcode _ => exact hcode

/-- The literals of the two functions are the same, up to the functions among them. -/
theorem literals (h : Function.Twin renamed f f') :
    Literal.Twins renamed f.chunk.literals f'.chunk.literals := by
  cases h with
  | mk _ hliterals => exact hliterals

theorem displayName_eq (h : Function.Twin renamed f f') : f'.displayName = f.displayName := by
  rw [Function.displayName, Function.displayName, h.name_eq]

end Function.Twin

/-- A text is a text on both sides. -/
theorem Literal.Twin.isString_eq {l l' : Literal} (h : Literal.Twin renamed l l') (text : String) :
    l'.isString text = l.isString text := by
  cases h <;> rfl

namespace Literal.Twins

variable {ls ls' : List Literal}

/-- Lists of such literals, one after the other. -/
theorem append {ms ms' : List Literal} (h : Literal.Twins renamed ls ls')
    (k : Literal.Twins renamed ms ms') :
    Literal.Twins renamed (ls ++ ms) (ls' ++ ms') := by
  induction ls generalizing ls' with
  | nil =>
    cases h
    exact k
  | cons l ls ih =>
    cases h with
    | cons hl hls => exact .cons hl (ih hls)

theorem length_eq (h : Literal.Twins renamed ls ls') : ls'.length = ls.length := by
  induction ls generalizing ls' with
  | nil =>
    cases h
    rfl
  | cons l ls ih =>
    cases h with
    | cons hl hls => rw [List.length_cons, List.length_cons, ih hls]

/-- An index leads to a literal and to its twin, or to nothing. -/
theorem getElem? (h : Literal.Twins renamed ls ls') (index : Nat) :
    ls[index]? = none ∧ ls'[index]? = none ∨
      ∃ l l', ls[index]? = some l ∧ ls'[index]? = some l' ∧ Literal.Twin renamed l l' := by
  induction ls generalizing ls' index with
  | nil =>
    cases h
    exact .inl ⟨rfl, rfl⟩
  | cons l ls ih =>
    cases h with
    | cons hl hls =>
      cases index with
      | zero => exact .inr ⟨_, _, rfl, rfl, hl⟩
      | succ index => exact ih hls index

/-- A text is found at the same index among the literals of both. -/
theorem indexOfString?_eq (h : Literal.Twins renamed ls ls') (text : String) :
    Literal.indexOfString? ls' text = Literal.indexOfString? ls text := by
  rw [Literal.indexOfString?, Literal.indexOfString?]
  induction ls generalizing ls' with
  | nil =>
    cases h
    rfl
  | cons l ls ih =>
    cases h with
    | cons hl hls => rw [List.findIdx?_cons, List.findIdx?_cons, ih hls, hl.isString_eq]

end Literal.Twins

mutual

/-- A function that has no pauses, and none in the functions inside it, is its own twin. -/
theorem Function.twin_self (f : Function)
    (h : ∀ g ∈ f.family, renamed g.id = g.id ∧ ∀ p ∈ g.chunk.code.toList, p.instruction ≠ .yield) :
    Function.Twin renamed f f := by
  match f with
  | ⟨id, name, arity, ⟨code, ls⟩⟩ =>
    obtain ⟨hid, hcode⟩ := h _ (Function.self_mem_family _)
    have hls := Literal.twins_self ls fun g hg =>
      h g (by rw [Function.family_eq]; exact List.mem_cons_of_mem _ hg)
    have htwin : Function.Twin renamed ⟨id, name, arity, ⟨code, ls⟩⟩
      ⟨renamed id, name, arity, ⟨code, ls⟩⟩ :=
      .mk (.refl hcode) hls
    rwa [hid] at htwin

/-- A literal is its own twin if no function in it is renamed and none has pauses. -/
theorem Literal.twin_self (l : Literal)
    (h : ∀ g ∈ l.family, renamed g.id = g.id ∧ ∀ p ∈ g.chunk.code.toList, p.instruction ≠ .yield) :
    Literal.Twin renamed l l := by
  match l with
  | .int n => exact .int n
  | .float bits => exact .float bits
  | .string text => exact .string text
  | .function f => exact .function (f.twin_self h)

theorem Literal.twins_self (ls : List Literal)
    (h : ∀ g ∈ Literal.familyAll ls, renamed g.id = g.id ∧ ∀ p ∈ g.chunk.code.toList,
      p.instruction ≠ .yield) :
    Literal.Twins renamed ls ls := by
  match ls with
  | [] => exact .nil
  | l :: ls =>
    refine .cons (l.twin_self fun g hg => h g ?_) (Literal.twins_self ls fun g hg => h g ?_)
    · exact List.mem_append_left _ hg
    · exact List.mem_append_right _ hg

end

end

end EntityScript
