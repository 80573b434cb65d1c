/-
# Balanced code

In the code of a function that is made of a fitting body the depths of `depthAt` agree along every
edge: wherever execution can go after an instruction, it finds as many values as the instruction
left.  Jumps stay in the function, no instruction takes away slot zero, and locals are named below
the intermediate results of the statement that names them.

The induction follows the tree.  Every part of it is a piece of the code of the whole function, so
the depths at its places need no translation.
-/
import EntityScript.Proofs.Code.Depth
import EntityScript.Proofs.Tree.Family

namespace EntityScript

mutual

/-- The statements inside a statement whose code starts at place `i`, to any depth, each with the
place where its own code starts. -/
def Stmt.inside (i : Nat) : Stmt → List (Nat × Stmt)
  | .ifThen cond body _ _ =>
    (i + cond.postorder.length + 2, body) :: body.inside (i + cond.postorder.length + 2)
  | .ifElse cond body other _ _ =>
    (i + cond.postorder.length + 2, body) :: body.inside (i + cond.postorder.length + 2) ++
    (i + cond.postorder.length + 2 + body.postorder.length + 2, other) ::
      other.inside (i + cond.postorder.length + 2 + body.postorder.length + 2)
  | .loop cond body _ _ =>
    (i + cond.postorder.length + 2, body) :: body.inside (i + cond.postorder.length + 2)
  | .block body _ _ => body.placed i
  | .expr _ _ | .print _ _ | .declare _ _ _ | .function _ _ _ _ _ _ | .ret _ _ | .yield _
  | .stop _ => []

/-- The statements of a block whose code starts at place `i`, to any depth, each with the place
where its own code starts. -/
def Block.placed (i : Nat) : Block → List (Nat × Stmt)
  | .empty => []
  | .append before last =>
    before.placed i ++
      (i + before.postorder.length, last) :: last.inside (i + before.postorder.length)

end

/-- The instruction at place `i` of some code that starts at depth `d` goes with the depths there,
with the statements in the code and with the literals. -/
structure Agrees (d : Nat) (code : List Placed) (placed : List (Nat × Stmt))
    (ls : List Literal) (i : Nat) (instruction : Instruction) : Prop where
  room : instruction.needs ≤ depthAt d code i
  edges : ∀ j ∈ instruction.targets i,
    j < code.length ∧ depthAt d code j = instruction.flow (depthAt d code i)
  back : ∀ offset, instruction = .loop offset → offset ≤ i + 1
  slots : ∀ slot, instruction.slot? = some slot → ∃ q ∈ placed,
    q.1 ≤ i ∧ i < q.1 + q.2.postorder.length ∧ 1 ≤ slot ∧ slot < depthAt d code q.1
  below : ∀ slot, instruction.slot? = some slot → slot + instruction.needs ≤ depthAt d code i
  names : instruction.Names ls

/-- All instructions of a piece of code agree with the code it is in. -/
def Covers (d : Nat) (code : List Placed) (placed : List (Nat × Stmt)) (ls : List Literal) (i : Nat)
    (piece : List Placed) : Prop :=
  ∀ k p, piece[k]? = some p → Agrees d code placed ls (i + k) p.instruction

/-- A statement around the places from `i` on, at the start of which the depth is `n`. -/
def Encloses (d : Nat) (code : List Placed) (placed : List (Nat × Stmt)) (n i size : Nat) : Prop :=
  1 ≤ n ∧ ∃ q ∈ placed, q.1 ≤ i ∧ i + size ≤ q.1 + q.2.postorder.length ∧ depthAt d code q.1 = n

section

variable {d : Nat} {code : List Placed} {placed : List (Nat × Stmt)} {i n : Nat} {ls : List Literal}

theorem covers_nil : Covers d code placed ls i [] := by
  intro k p h
  simp at h

/-- Two pieces that stand one after the other. -/
theorem Covers.append {ps qs : List Placed} (hp : Covers d code placed ls i ps)
    (hq : Covers d code placed ls (i + ps.length) qs) : Covers d code placed ls i (ps ++ qs) := by
  intro k p h
  by_cases hk : k < ps.length
  · rw [List.getElem?_append_left hk] at h
    exact hp k p h
  · rw [List.getElem?_append_right (Nat.le_of_not_lt hk)] at h
    have hagrees := hq (k - ps.length) p h
    rw [Nat.add_assoc, Nat.add_sub_cancel' (Nat.le_of_not_lt hk)] at hagrees
    exact hagrees

/-- A piece that starts with one instruction. -/
theorem Covers.cons {p : Placed} {ps : List Placed} (hp : Agrees d code placed ls i p.instruction)
    (hps : Covers d code placed ls (i + 1) ps) : Covers d code placed ls i (p :: ps) := by
  intro k q h
  cases k with
  | zero =>
    obtain rfl : p = q := by simpa using h
    exact hp
  | succ k =>
    have hagrees := hps k q h
    rw [Nat.add_right_comm] at hagrees
    exact hagrees

theorem covers_one {p : Placed} (h : Agrees d code placed ls i p.instruction) :
    Covers d code placed ls i [p] :=
  .cons h covers_nil

/-- The pieces of a conditional: the condition with its two instructions, the body, and the rest. -/
theorem Covers.branch {p q : Placed} {ps bs rest : List Placed}
    (hp : Covers d code placed ls i (ps ++ [p, q]))
    (hb : Covers d code placed ls (i + ps.length + 2) bs)
    (hrest : Covers d code placed ls (i + ps.length + 2 + bs.length) rest) :
    Covers d code placed ls i (ps ++ [p, q] ++ bs ++ rest) := by
  refine (hp.append ?_).append ?_
  · rw [List.length_append, ← Nat.add_assoc]
    exact hb
  · rw [List.length_append, List.length_append, ← Nat.add_assoc, ← Nat.add_assoc]
    exact hrest

/-- A statement around some places is around any part of them. -/
theorem Encloses.mono {size j size' : Nat} (h : Encloses d code placed n i size) (hj : i ≤ j)
    (hsize : j + size' ≤ i + size) : Encloses d code placed n j size' := by
  obtain ⟨hone, q, hq, hle, hend, hn⟩ := h
  exact ⟨hone, q, hq, by omega, by omega, hn⟩

/-- An instruction that only leads to the next place. -/
theorem Agrees.next {p : Placed} {ps : List Placed} (h : Occurs code i (p :: ps))
    (hlt : i + 1 < code.length) (hroom : p.instruction.needs ≤ depthAt d code i)
    (htargets : p.instruction.targets i = [i + 1])
    (hafter : ∀ e, p.instruction.after e = p.instruction.flow e)
    (hslots : ∀ slot, p.instruction.slot? = some slot → ∃ q ∈ placed,
      q.1 ≤ i ∧ i < q.1 + q.2.postorder.length ∧ 1 ≤ slot ∧ slot < depthAt d code q.1)
    (hbelow : ∀ slot, p.instruction.slot? = some slot →
      slot + p.instruction.needs ≤ depthAt d code i)
    (hnames : p.instruction.Names ls) : Agrees d code placed ls i p.instruction := by
  refine ⟨hroom, ?_, ?_, hslots, hbelow, hnames⟩
  · intro j hj
    obtain rfl : j = i + 1 := by simpa [htargets] using hj
    have hdepth := Occurs.depthAt (d := d) (Occurs.left (a := [p]) h)
    exact ⟨hlt, hdepth.trans (hafter _)⟩
  · intro offset hloop
    have hnext := hafter 0
    rw [hloop] at hnext
    exact absurd hnext (by simp [Instruction.after, Instruction.flow])

/-- An instruction that only leads to the next place, and names no slot. -/
theorem Agrees.straight {p : Placed} {ps : List Placed} (h : Occurs code i (p :: ps))
    (hlt : i + 1 < code.length) (hroom : p.instruction.needs ≤ depthAt d code i)
    (hnames : p.instruction.Names ls) (htargets : p.instruction.targets i = [i + 1] := by rfl)
    (hafter : ∀ e, p.instruction.after e = p.instruction.flow e := by intro e; rfl)
    (hslot : p.instruction.slot? = none := by rfl) : Agrees d code placed ls i p.instruction := by
  refine .next h hlt hroom htargets hafter ?_ ?_ hnames
  · intro slot hs
    rw [hslot] at hs
    cases hs
  · intro slot hs
    rw [hslot] at hs
    cases hs

/-- An instruction that execution does not go on after. -/
theorem Agrees.last {instruction : Instruction} (hroom : instruction.needs ≤ depthAt d code i)
    (hnames : instruction.Names ls) (htargets : instruction.targets i = [] := by rfl)
    (hslot : instruction.slot? = none := by rfl) : Agrees d code placed ls i instruction := by
  refine ⟨hroom, ?_, ?_, ?_, ?_, hnames⟩
  · intro j hj
    rw [htargets] at hj
    cases hj
  · intro offset hloop
    rw [hloop] at htargets
    cases htargets
  · intro slot hs
    rw [hslot] at hs
    cases hs
  · intro slot hs
    rw [hslot] at hs
    cases hs

/-- An instruction that reads or changes a variable that fits the statement around it. -/
theorem Agrees.access {v : Variable} {instruction : Instruction} {line : Nat} {ps : List Placed}
    (hp : v.place.Access instruction) (h : Occurs code i (⟨instruction, line⟩ :: ps))
    (hlt : i + 1 < code.length) (hroom : n + instruction.needs ≤ depthAt d code i + 1)
    (hv : v.Fits n ls) (hin : Encloses d code placed n i 1) :
    Agrees d code placed ls i instruction := by
  have hplain : instruction.targets i = [i + 1] ∧
    ∀ e, instruction.after e = instruction.flow e := by
    cases hp <;> cases v.place <;> exact ⟨rfl, fun _ => rfl⟩
  have hslot : ∀ slot, instruction.slot? = some slot → v.place = .slot slot := by
    cases hp <;> cases v.place <;> simp [Place.getter, Place.setter, Place.memberSetter,
      Instruction.slot?]
  have hnames : instruction.Names ls := by
    obtain ⟨x, place⟩ := v
    cases place with
    | slot => cases hp <;> trivial
    | global => cases hp <;> exact ⟨x, hv⟩
  obtain ⟨hone, q, hq, hle, hend, rfl⟩ := hin
  refine .next h hlt ?_ hplain.1 hplain.2 ?_ ?_ hnames
  · show instruction.needs ≤ _
    omega
  · intro slot hs
    rw [Variable.Fits, hslot slot hs] at hv
    exact ⟨q, hq, hle, by omega, hv.1, hv.2⟩
  · intro slot hs
    rw [Variable.Fits, hslot slot hs] at hv
    show slot + instruction.needs ≤ _
    omega

theorem needs_getter (place : Place) : place.getter.needs = 1 := by
  cases place <;> rfl

theorem needs_setter (place : Place) : place.setter.needs = 2 := by
  cases place <;> rfl

theorem needs_memberSetter (place : Place) (m : Member) : (place.memberSetter m).needs = 2 := by
  cases place <;> rfl

/-- Instructions of an operator with two operands. -/
theorem covers_binary {line : Nat} {op : BinaryOp}
    (h : Occurs code i (placeOn line op.instructions))
    (hlt : i + op.instructions.length < code.length) (hdepth : 3 ≤ depthAt d code i) :
    Covers d code placed ls i (placeOn line op.instructions) := by
  have hnext := Occurs.depthAt (d := d) (Occurs.left (a := (placeOn line op.instructions).take 1)
    (b := (placeOn line op.instructions).drop 1) (by rw [List.take_append_drop]; exact h))
  cases op with
  | add | subtract | multiply | divide | equal | less | greater =>
    exact covers_one (.straight h hlt hdepth trivial)
  | notEqual | lessEqual | greaterEqual =>
    have hroom : depthAt d code (i + 1) = depthAt d code i - 1 := hnext
    have hlt' : i + 2 < code.length := hlt
    refine .cons (.straight h (by omega) hdepth trivial)
      (covers_one (.straight h.tail hlt' ?_ trivial))
    show 2 ≤ depthAt d code (i + 1)
    omega

mutual

/-- The code of an expression agrees with the depths, wherever it stands in a statement that fits.
-/
theorem Expr.covers_postorder (e : Expr) (i : Nat) (h : Occurs code i e.postorder)
    (hlt : i + e.postorder.length < code.length) (hfits : e.Fits n ls)
    (hin : Encloses d code placed n i e.postorder.length) (hdepth : n ≤ depthAt d code i) :
    Covers d code placed ls i e.postorder := by
  have hone : 1 ≤ depthAt d code i := Nat.le_trans hin.1 hdepth
  cases e with
  | nil line => exact covers_one (.straight h hlt hone trivial)
  | int | float | string => exact covers_one (.straight h hlt hone ⟨_, hfits⟩)
  | bool b line => cases b <;> exact covers_one (.straight h hlt hone trivial)
  | get v line =>
    refine covers_one (.access .get h hlt ?_ hfits hin)
    rw [needs_getter]
    omega
  | set v value line =>
    rw [Expr.postorder] at h hlt hin ⊢
    rw [List.length_append, List.length_singleton] at hlt hin
    have hvalue := value.covers_postorder i h.left (by omega) hfits.2
      (hin.mono (Nat.le_refl i) (by omega)) hdepth
    have hroom := Expr.depthAt_postorder d h.left hfits.2
    refine hvalue.append (covers_one (.access .set h.right (by omega) ?_ hfits.1
      (hin.mono (Nat.le_add_right i _) (by omega))))
    rw [needs_setter]
    omega
  | member e m line =>
    rw [Expr.postorder] at h hlt hin ⊢
    rw [List.length_append, List.length_singleton] at hlt hin
    have he := e.covers_postorder i h.left (by omega) hfits
      (hin.mono (Nat.le_refl i) (by omega)) hdepth
    have hroom := Expr.depthAt_postorder d h.left hfits
    refine he.append (covers_one (.straight h.right (by omega) ?_ trivial))
    show 2 ≤ _
    omega
  | setMember v m value line =>
    rw [Expr.postorder] at h hlt hin ⊢
    rw [List.length_append, List.length_singleton] at hlt hin
    have hvalue := value.covers_postorder i h.left (by omega) hfits.2
      (hin.mono (Nat.le_refl i) (by omega)) hdepth
    have hroom := Expr.depthAt_postorder d h.left hfits.2
    refine hvalue.append (covers_one (.access (.setMember m) h.right (by omega) ?_ hfits.1
      (hin.mono (Nat.le_add_right i _) (by omega))))
    rw [needs_memberSetter]
    omega
  | unary op e line =>
    rw [Expr.postorder] at h hlt hin ⊢
    rw [List.length_append, List.length_singleton] at hlt hin
    have he := e.covers_postorder i h.left (by omega) hfits
      (hin.mono (Nat.le_refl i) (by omega)) hdepth
    have hroom := Expr.depthAt_postorder d h.left hfits
    refine he.append ?_
    have hlt' : i + e.postorder.length + 1 < code.length := by omega
    have hroom' : 2 ≤ depthAt d code (i + e.postorder.length) := by omega
    cases op <;> exact covers_one (.straight h.right hlt' hroom' trivial)
  | binary op lhs rhs line =>
    rw [Expr.postorder] at h hlt hin ⊢
    rw [List.length_append, List.length_append] at hlt hin
    have hlhs := lhs.covers_postorder i h.left.left (by omega) hfits.1
      (hin.mono (Nat.le_refl i) (by omega)) hdepth
    have hroom := Expr.depthAt_postorder d h.left.left hfits.1
    -- the left operand waits on the stack while the right one is computed
    have hrhs := rhs.covers_postorder _ h.left.right (by omega) hfits.2
      (hin.mono (Nat.le_add_right i _) (by omega)) (by omega)
    have hroom' := Expr.depthAt_postorder d h.left.right hfits.2
    have hop := h.right
    rw [List.length_append, ← Nat.add_assoc] at hop
    refine (hlhs.append hrhs).append ?_
    rw [List.length_append, ← Nat.add_assoc]
    exact covers_binary hop (by simpa [Nat.add_assoc] using hlt) (by omega)
  | call callee arguments line =>
    obtain ⟨hfc, hfas, hmax⟩ := hfits
    rw [Expr.postorder, Nat.min_eq_left hmax] at h hlt hin ⊢
    rw [List.length_append, List.length_append] at hlt hin
    have hcallee := callee.covers_postorder i h.left.left (by omega) hfc
      (hin.mono (Nat.le_refl i) (by omega)) hdepth
    have hroom := Expr.depthAt_postorder d h.left.left hfc
    -- the callee waits below its arguments
    have hargs := Expr.covers_postorderAll arguments _ h.left.right (by omega) hfas
      (hin.mono (Nat.le_add_right i _) (by omega)) (by omega)
    have hroom' := Expr.depthAt_postorderAll d h.left.right hfas
    have hcall := h.right
    rw [List.length_append, ← Nat.add_assoc] at hcall
    refine (hcallee.append hargs).append ?_
    rw [List.length_append, ← Nat.add_assoc]
    refine covers_one (.straight hcall (by simpa [Nat.add_assoc] using hlt) ?_ trivial)
    show arguments.length + 2 ≤ _
    omega
  | invalid size => exact absurd hfits id

theorem Expr.covers_postorderAll (es : List Expr) (i : Nat)
    (h : Occurs code i (Expr.postorderAll es))
    (hlt : i + (Expr.postorderAll es).length < code.length) (hfits : Expr.FitsAll n ls es)
    (hin : Encloses d code placed n i (Expr.postorderAll es).length)
    (hdepth : n ≤ depthAt d code i) :
    Covers d code placed ls i (Expr.postorderAll es) := by
  cases es with
  | nil => exact covers_nil
  | cons e es =>
    rw [Expr.postorderAll] at h hlt hin ⊢
    rw [List.length_append] at hlt hin
    have he := e.covers_postorder i h.left (by omega) hfits.1
      (hin.mono (Nat.le_refl i) (by omega)) hdepth
    have hroom := Expr.depthAt_postorder d h.left hfits.1
    exact he.append (Expr.covers_postorderAll es _ h.right (by omega) hfits.2
      (hin.mono (Nat.le_add_right i _) (by omega)) (by omega))

end

/-! ## Statements -/

/-- A condition with the jump that skips what depends on it. -/
theorem covers_condition {cond : Expr} {offset line : Nat}
    (h : Occurs code i (cond.postorder ++ [⟨.jumpIfFalse offset, line⟩, ⟨.pop, line⟩]))
    (hlt : i + cond.postorder.length + 2 < code.length) (hfits : cond.Fits n ls)
    (hin : Encloses d code placed n i cond.postorder.length) (hdepth : n ≤ depthAt d code i)
    (htarget : i + cond.postorder.length + 1 + offset < code.length)
    (hjump : depthAt d code (i + cond.postorder.length + 1 + offset) = depthAt d code i + 1) :
    Covers d code placed ls i (cond.postorder ++ [⟨.jumpIfFalse offset, line⟩, ⟨.pop, line⟩]) := by
  have hone : 1 ≤ depthAt d code i := Nat.le_trans hin.1 hdepth
  have hcond := cond.covers_postorder i h.left (by omega) hfits hin hdepth
  have hroom := Expr.depthAt_postorder d h.left hfits
  have hroom' : depthAt d code (i + cond.postorder.length + 1) =
    depthAt d code (i + cond.postorder.length) :=
    Occurs.depthAt (Occurs.left (a := [⟨.jumpIfFalse offset, line⟩]) h.right)
  refine hcond.append (.cons ⟨?_, ?_, ?_, ?_, ?_, trivial⟩
    (covers_one (.straight h.right.tail hlt ?_ trivial)))
  · show 2 ≤ _
    omega
  · intro j hj
    rcases List.mem_cons.mp hj with rfl | hj
    · exact ⟨by omega, hroom'⟩
    · obtain rfl := List.mem_singleton.mp hj
      exact ⟨htarget, hjump.trans hroom.symm⟩
  · intro offset' hloop
    cases hloop
  · intro slot hslot
    cases hslot
  · intro slot hslot
    cases hslot
  · show 2 ≤ _
    omega

/-- After a condition and its jump the depth is what it was. -/
theorem depthAt_condition {cond : Expr} {offset line : Nat}
    (h : Occurs code i (cond.postorder ++ [⟨.jumpIfFalse offset, line⟩, ⟨.pop, line⟩]))
    (hfits : cond.Fits n ls) :
    depthAt d code (i + cond.postorder.length + 2) = depthAt d code i := by
  have hroom := h.depthAt (d := d)
  rw [depthAfter_append, cond.depthAfter_postorder _ hfits, List.length_append,
    ← Nat.add_assoc] at hroom
  exact hroom

/-- The jump at the end of a branch, forward or back. -/
inductive Instruction.Closes (j target : Nat) : Instruction → Prop
  | jump {offset} (h : j + 1 + offset = target) : Closes j target (.jump offset)
  | loop {offset} (hback : offset ≤ j + 1) (h : j + 1 - offset = target) :
    Closes j target (.loop offset)

/-- After the jump at the end of a branch there is the condition to drop. -/
theorem Instruction.Closes.depthAt_succ {jump : Instruction} {j target line : Nat}
    {ps : List Placed} (hjump : jump.Closes j target) (h : Occurs code j (⟨jump, line⟩ :: ps)) :
    depthAt d code (j + 1) = depthAt d code j + 1 := by
  have hnext : depthAt d code (j + 1) = jump.after (depthAt d code j) :=
    Occurs.depthAt (Occurs.left (a := [⟨jump, line⟩]) h)
  cases hjump <;> exact hnext

/-- The jump at the end of a branch, with the place after it that drops the condition. -/
theorem covers_jump {jump : Instruction} {j target line : Nat} (hjump : jump.Closes j target)
    (h : Occurs code j [⟨jump, line⟩, ⟨.pop, line⟩]) (hlt : j + 2 < code.length)
    (hdepth : 1 ≤ depthAt d code j) (htarget : target < code.length)
    (hagree : depthAt d code target = depthAt d code j) :
    Covers d code placed ls j [⟨jump, line⟩, ⟨.pop, line⟩] := by
  have hroom := hjump.depthAt_succ (d := d) h
  have hpop : Agrees d code placed ls (j + 1) .pop := by
    refine .straight h.tail hlt ?_ trivial
    show 2 ≤ _
    omega
  refine .cons ?_ (covers_one hpop)
  cases hjump with
  | jump hoffset =>
    subst hoffset
    refine ⟨hdepth, fun k hk => ?_, nofun, nofun, nofun, trivial⟩
    obtain rfl := List.mem_singleton.mp hk
    exact ⟨htarget, hagree⟩
  | loop hback hoffset =>
    subst hoffset
    refine ⟨hdepth, fun k hk => ?_, fun _ hloop => Instruction.loop.inj hloop ▸ hback, nofun,
      nofun, trivial⟩
    obtain rfl := List.mem_singleton.mp hk
    exact ⟨htarget, hagree⟩

section

variable {cond : Expr} {body : Stmt} {jump : Instruction} {offset line lastLine target : Nat}

/-- After a branch the depth is what it was. -/
theorem depthAt_branch
    (h : Occurs code i (cond.postorder ++ [⟨.jumpIfFalse offset, line⟩, ⟨.pop, line⟩] ++
      body.postorder ++ [⟨jump, lastLine⟩, ⟨.pop, lastLine⟩]))
    (hcond : cond.Fits n ls) (hbody : body.Fits n ls) (hlocals : body.locals = 0)
    (hjump : jump.Closes (i + cond.postorder.length + 2 + body.postorder.length) target) :
    depthAt d code (i + cond.postorder.length + 2 + body.postorder.length) = depthAt d code i ∧
      depthAt d code (i + cond.postorder.length + 2 + body.postorder.length + 2) =
      depthAt d code i := by
  obtain ⟨hskip, hinside, hend⟩ := h.branch
  have hafter := Stmt.depthAt_postorder d hinside hbody
  rw [depthAt_condition hskip hcond, hlocals] at hafter
  have hdrop : depthAt d code (i + cond.postorder.length + 2 + body.postorder.length + 2) =
      depthAt d code (i + cond.postorder.length + 2 + body.postorder.length + 1) - 1 :=
    hend.tail.depthAt
  rw [hjump.depthAt_succ hend] at hdrop
  exact ⟨hafter, hdrop.trans hafter⟩

/-- The code of a branch: a condition, the jump that skips the body, the body, and a jump that
closes it. -/
theorem covers_branch (h : Occurs code i (cond.postorder ++
      [⟨.jumpIfFalse (body.postorder.length + 2), line⟩, ⟨.pop, line⟩] ++ body.postorder ++
        [⟨jump, lastLine⟩, ⟨.pop, lastLine⟩]))
    (hlt : i + cond.postorder.length + 2 + body.postorder.length + 2 < code.length)
    (hcond : cond.Fits (depthAt d code i) ls) (hbody : body.Fits (depthAt d code i) ls)
    (hlocals : body.locals = 0)
    (hin : Encloses d code placed (depthAt d code i) i cond.postorder.length)
    (hinside : Occurs code (i + cond.postorder.length + 2) body.postorder →
      depthAt d code (i + cond.postorder.length + 2) = depthAt d code i →
      Covers d code placed ls (i + cond.postorder.length + 2) body.postorder)
    (hjump : jump.Closes (i + cond.postorder.length + 2 + body.postorder.length) target)
    (htarget : target < code.length) (hagree : depthAt d code target = depthAt d code i) :
    Covers d code placed ls i (cond.postorder ++
      [⟨.jumpIfFalse (body.postorder.length + 2), line⟩, ⟨.pop, line⟩] ++ body.postorder ++
        [⟨jump, lastLine⟩, ⟨.pop, lastLine⟩]) := by
  obtain ⟨hskip, hoccurs, hend⟩ := h.branch
  obtain ⟨hafter, -⟩ := depthAt_branch (d := d) h hcond hbody hlocals hjump
  have hdrop := hjump.depthAt_succ (d := d) hend
  have hone := hin.1
  refine .branch (covers_condition hskip (by omega) hcond hin (Nat.le_refl _) (by omega) ?_) ?_ ?_
  · rw [show i + cond.postorder.length + 1 + (body.postorder.length + 2) =
      i + cond.postorder.length + 2 + body.postorder.length + 1 by omega]
    omega
  · exact hinside hoccurs (depthAt_condition hskip hcond)
  · exact covers_jump hjump hend (by omega) (by omega) htarget (hagree.trans hafter.symm)

end

/-- The end of a declaration: a global is defined from the value on top, and a local is that value.
-/
theorem covers_definer {line : Nat} {v : Variable}
    (h : Occurs code i (placeOn line v.place.definer))
    (hlt : i + v.place.definer.length < code.length) (hdepth : 2 ≤ depthAt d code i)
    (hv : v.FitsNew n ls) : Covers d code placed ls i (placeOn line v.place.definer) := by
  obtain ⟨x, place⟩ := v
  cases place with
  | slot n => exact covers_nil
  | global index => exact covers_one (.straight h hlt hdepth ⟨x, hv⟩)

/-- The end of a block: each local is dropped, and slot zero stays. -/
theorem covers_pops {line k : Nat} (h : Occurs code i (List.replicate k ⟨.pop, line⟩))
    (hlt : i + k < code.length) (hdepth : k + 1 ≤ depthAt d code i) :
    Covers d code placed ls i (List.replicate k ⟨.pop, line⟩) := by
  induction k generalizing i with
  | zero => exact covers_nil
  | succ k ih =>
    rw [List.replicate_succ] at h ⊢
    have hroom : depthAt d code (i + 1) = depthAt d code i - 1 :=
      Occurs.depthAt (Occurs.left (a := [⟨.pop, line⟩]) h)
    refine .cons (.straight h (by omega) ?_ trivial) (ih h.tail (by omega) (by omega))
    show 2 ≤ depthAt d code i
    omega

mutual

/-- The code of a statement that fits agrees with the code it is in. -/
theorem Stmt.covers_postorder (s : Stmt) (i : Nat) (h : Occurs code i s.postorder)
    (hlt : i + s.postorder.length < code.length) (hfits : s.Fits (depthAt d code i) ls)
    (hself : (i, s) ∈ placed) (hinside : s.inside i ⊆ placed) (hdepth : 1 ≤ depthAt d code i) :
    Covers d code placed ls i s.postorder := by
  -- the statement itself is around all its places
  have hin : Encloses d code placed (depthAt d code i) i s.postorder.length :=
    ⟨hdepth, (i, s), hself, Nat.le_refl i, Nat.le_refl _, rfl⟩
  cases s with
  | expr e line | print e line =>
    rw [Stmt.postorder] at h hlt hin ⊢
    rw [List.length_append, List.length_singleton] at hlt hin
    have he := e.covers_postorder i h.left (by omega) hfits
      (hin.mono (Nat.le_refl i) (by omega)) (Nat.le_refl _)
    have hroom := Expr.depthAt_postorder d h.left hfits
    refine he.append (covers_one (.straight h.right (by omega) ?_ trivial))
    rw [hroom]
    exact Nat.succ_le_succ hdepth
  | ret e line =>
    rw [Stmt.postorder] at h hlt hin ⊢
    rw [List.length_append, List.length_singleton] at hlt hin
    have he := e.covers_postorder i h.left (by omega) hfits
      (hin.mono (Nat.le_refl i) (by omega)) (Nat.le_refl _)
    have hroom := Expr.depthAt_postorder d h.left hfits
    refine he.append (covers_one (.last ?_ trivial))
    show 2 ≤ _
    omega
  | declare v init line =>
    rw [Stmt.postorder] at h hlt hin ⊢
    rw [List.length_append, length_placeOn] at hlt
    rw [List.length_append] at hin
    have hinit := init.covers_postorder i h.left (by omega) hfits.1
      (hin.mono (Nat.le_refl i) (by omega)) (Nat.le_refl _)
    have hroom := Expr.depthAt_postorder d h.left hfits.1
    exact hinit.append (covers_definer h.right (by omega) (by omega) hfits.2)
  | function v parameters body lastLine index line =>
    obtain ⟨hv, id, inner, hf, -⟩ := hfits
    rw [Stmt.postorder] at h hlt ⊢
    rw [List.length_append, length_placeOn, List.length_singleton] at hlt
    have hroom : depthAt d code (i + 1) = depthAt d code i + 1 := h.left.depthAt (d := d)
    have hliteral : Agrees d code placed ls i (.literal index) :=
      .straight h.left (by omega) hdepth ⟨_, hf⟩
    exact (covers_one hliteral).append (covers_definer h.right (by simpa [Nat.add_assoc] using hlt)
      (by rw [List.length_singleton]; omega) hv)
  | ifThen cond body line lastLine =>
    obtain ⟨hfc, hfb, hz⟩ := hfits
    rw [Stmt.inside, List.cons_subset] at hinside
    rw [Stmt.postorder] at h hlt hin ⊢
    simp only [List.length_append, List.length_cons, List.length_nil] at hlt hin
    have hjump : (Instruction.jump 1).Closes (i + cond.postorder.length + 2 + body.postorder.length)
      _ := .jump rfl
    obtain ⟨-, hdone⟩ := depthAt_branch (d := d) h hfc hfb hz hjump
    refine covers_branch h (by omega) hfc hfb hz (hin.mono (Nat.le_refl i) (by omega))
      (fun hbody hroom => ?_) hjump (by omega) hdone
    exact body.covers_postorder _ hbody (by omega) (by rw [hroom]; exact hfb) hinside.1
      hinside.2 (by omega)
  | ifElse cond body other line lastLine =>
    obtain ⟨hfc, ⟨hfb, hz⟩, hfo, hz'⟩ := hfits
    rw [Stmt.inside, List.append_subset, List.cons_subset, List.cons_subset] at hinside
    rw [Stmt.postorder] at h hlt hin ⊢
    simp only [List.length_append, List.length_cons, List.length_nil] at hlt hin
    have hjump : (Instruction.jump (other.postorder.length + 1)).Closes
        (i + cond.postorder.length + 2 + body.postorder.length)
        (i + cond.postorder.length + 2 + body.postorder.length + 2 + other.postorder.length) :=
        .jump (by omega)
    obtain ⟨-, hskip⟩ := depthAt_branch (d := d) h.left hfc hfb hz hjump
    have hother := h.right.cast (j := i + cond.postorder.length + 2 + body.postorder.length + 2)
      (by simp only [List.length_append, List.length_cons, List.length_nil]; omega)
    have hdone := Stmt.depthAt_postorder d hother hfo
    refine .append (covers_branch h.left (by omega) hfc hfb hz (hin.mono (Nat.le_refl i) (by omega))
      (fun hbody hroom => ?_) hjump (by omega) (by omega)) ?_
    · exact body.covers_postorder _ hbody (by omega) (by rw [hroom]; exact hfb) hinside.1.1
        hinside.1.2 (by omega)
    · have hcovers := other.covers_postorder _ hother (by omega) (by rw [hskip]; exact hfo)
        hinside.2.1 hinside.2.2 (by omega)
      simp only [List.length_append, List.length_cons, List.length_nil]
      rw [show i + (cond.postorder.length + (0 + 1 + 1) + body.postorder.length + (0 + 1 + 1)) =
        i + cond.postorder.length + 2 + body.postorder.length + 2 by omega]
      exact hcovers
  | loop cond body line lastLine =>
    obtain ⟨hfc, hfb, hz⟩ := hfits
    rw [Stmt.inside, List.cons_subset] at hinside
    rw [Stmt.postorder] at h hlt hin ⊢
    simp only [List.length_append, List.length_cons, List.length_nil] at hlt hin
    have hjump : (Instruction.loop (cond.postorder.length + body.postorder.length + 3)).Closes
        (i + cond.postorder.length + 2 + body.postorder.length) i := .loop (by omega) (by omega)
    refine covers_branch h (by omega) hfc hfb hz (hin.mono (Nat.le_refl i) (by omega))
      (fun hbody hroom => ?_) hjump (by omega) rfl
    exact body.covers_postorder _ hbody (by omega) (by rw [hroom]; exact hfb) hinside.1
      hinside.2 (by omega)
  | yield line => exact covers_one (.straight h hlt hdepth trivial)
  | stop line => exact covers_one (.last hdepth trivial)
  | block body dropped line =>
    obtain ⟨hfb, rfl⟩ := hfits
    rw [Stmt.inside] at hinside
    rw [Stmt.postorder] at h hlt ⊢
    rw [List.length_append, List.length_replicate] at hlt
    have hafter := Block.depthAt_postorder d h.left hfb
    exact (body.covers_postorder i h.left (by omega) hfb hinside hdepth).append
      (covers_pops h.right (by omega) (by omega))

/-- The code of a block agrees with the depths if its statements are among the placed ones. -/
theorem Block.covers_postorder (b : Block) (i : Nat) (h : Occurs code i b.postorder)
    (hlt : i + b.postorder.length < code.length) (hfits : b.Fits (depthAt d code i) ls)
    (hinside : b.placed i ⊆ placed) (hdepth : 1 ≤ depthAt d code i) :
    Covers d code placed ls i b.postorder := by
  cases b with
  | empty => exact covers_nil
  | append before last =>
    obtain ⟨hfb, hfl⟩ := hfits
    rw [Block.placed, List.append_subset, List.cons_subset] at hinside
    rw [Block.postorder] at h hlt ⊢
    rw [List.length_append] at hlt
    have hafter := Block.depthAt_postorder d h.left hfb
    exact (before.covers_postorder i h.left (by omega) hfb hinside.1 hdepth).append
      (last.covers_postorder _ h.right (by omega) (by rw [hafter]; exact hfl)
        hinside.2.1 hinside.2.2 (by omega))

end

mutual

/-- The statements inside a statement have their code where they are placed, and fit the depth
there. -/
theorem Stmt.inside_spec (s : Stmt) (i : Nat) (h : Occurs code i s.postorder)
    (hfits : s.Fits (depthAt d code i) ls) {q : Nat × Stmt} (hq : q ∈ s.inside i) :
    Occurs code q.1 q.2.postorder ∧ q.2.Fits (depthAt d code q.1) ls := by
  cases s with
  | expr | print | declare | function | ret | yield | stop => cases hq
  | ifThen cond body line lastLine | loop cond body line lastLine =>
    obtain ⟨hfc, hfb, -⟩ := hfits
    rw [Stmt.postorder] at h
    obtain ⟨hcond, hbody, -⟩ := h.branch
    rw [← depthAt_condition (d := d) hcond hfc] at hfb
    rcases List.mem_cons.mp hq with rfl | hq
    · exact ⟨hbody, hfb⟩
    · exact body.inside_spec _ hbody hfb hq
  | ifElse cond body other line lastLine =>
    obtain ⟨hfc, ⟨hfb, hz⟩, hfo, -⟩ := hfits
    rw [Stmt.postorder] at h
    obtain ⟨hcond, hbody, -⟩ := h.left.branch
    have hother := h.right.cast (j := i + cond.postorder.length + 2 + body.postorder.length + 2)
      (by simp only [List.length_append, List.length_cons, List.length_nil]; omega)
    obtain ⟨-, hskip⟩ := depthAt_branch (d := d) h.left hfc hfb hz (.jump rfl)
    rw [← depthAt_condition (d := d) hcond hfc] at hfb
    rw [← hskip] at hfo
    rcases List.mem_append.mp hq with hq | hq
    · rcases List.mem_cons.mp hq with rfl | hq
      · exact ⟨hbody, hfb⟩
      · exact body.inside_spec _ hbody hfb hq
    · rcases List.mem_cons.mp hq with rfl | hq
      · exact ⟨hother, hfo⟩
      · exact other.inside_spec _ hother hfo hq
  | block body dropped line =>
    rw [Stmt.postorder] at h
    exact body.placed_spec i h.left hfits.1 hq

/-- The statements of a block have their code where they are placed, and fit the depth there. -/
theorem Block.placed_spec (b : Block) (i : Nat) (h : Occurs code i b.postorder)
    (hfits : b.Fits (depthAt d code i) ls) {q : Nat × Stmt} (hq : q ∈ b.placed i) :
    Occurs code q.1 q.2.postorder ∧ q.2.Fits (depthAt d code q.1) ls := by
  cases b with
  | empty => cases hq
  | append before last =>
    obtain ⟨hfb, hfl⟩ := hfits
    rw [Block.postorder] at h
    have hafter := Block.depthAt_postorder d h.left hfb
    rw [← hafter] at hfl
    rcases List.mem_append.mp hq with hq | hq
    · exact before.placed_spec i h.left hfb hq
    · rcases List.mem_cons.mp hq with rfl | hq
      · exact ⟨h.right, hfl⟩
      · exact last.inside_spec _ h.right hfl hq

end

end

/-! ## Functions -/

/-- The depths of a function made of a body agree everywhere. -/
structure Function.Balanced (f : Function) (body : Block) : Prop where
  /-- The code is that of the body, then a return without a value. -/
  code : ∃ lastLine, f.chunk.code.toList = body.postorder ++ placeOn lastLine [.nil, .ret]
  /-- A call starts with the function and its arguments. -/
  start : f.depth 0 = 1 + f.arity
  /-- Wherever execution can go there is an instruction of the function, and the depth agrees. -/
  edges : ∀ i instruction, f.chunk.instruction? i = some instruction →
    ∀ j ∈ instruction.targets i, j < f.chunk.code.size ∧ f.depth j = instruction.flow (f.depth i)
  /-- No jump goes back behind the start. -/
  back : ∀ i offset, f.chunk.instruction? i = some (.loop offset) → offset ≤ i + 1
  /-- An instruction finds what it needs, without slot zero. -/
  room : ∀ i instruction, f.chunk.instruction? i = some instruction → instruction.needs ≤ f.depth i
  /-- The last instruction leaves the function. -/
  last : f.chunk.instruction? (f.chunk.code.size - 1) = some .ret
  /-- A local that is named lies above slot zero and below everything that the statement around it
  puts on the stack. -/
  slots : ∀ i instruction slot, f.chunk.instruction? i = some instruction →
    instruction.slot? = some slot → ∃ q ∈ body.placed 0,
      q.1 ≤ i ∧ i < q.1 + q.2.postorder.length ∧ 1 ≤ slot ∧ slot < f.depth q.1
  /-- What is stored in a local is not taken from it. -/
  below : ∀ i instruction slot, f.chunk.instruction? i = some instruction →
    instruction.slot? = some slot → slot + instruction.needs ≤ f.depth i
  /-- The literals that are named are there. -/
  names : ∀ i instruction, f.chunk.instruction? i = some instruction →
    instruction.Names f.chunk.literals
  /-- A statement leaves the locals that it declares, and nothing else. -/
  statements : ∀ q ∈ body.placed 0, Occurs f.chunk.code.toList q.1 q.2.postorder ∧
    f.depth (q.1 + q.2.postorder.length) = f.depth q.1 + q.2.locals
  /-- A block ends with one pop for each local that it declares. -/
  blocks : ∀ i b dropped line, (i, .block b dropped line) ∈ body.placed 0 →
    (Stmt.block b dropped line).postorder = b.postorder ++ List.replicate b.locals ⟨.pop, line⟩

/-- The code after the body only has to be looked at. -/
theorem covers_epilogue {d : Nat} {code : List Placed} {placed : List (Nat × Stmt)}
    {ls : List Literal} {i line : Nat} (h : Occurs code i (placeOn line [.nil, .ret]))
    (hi : i ≤ code.length) (hdepth : 1 ≤ depthAt d code i) :
    Covers d code placed ls i (placeOn line [.nil, .ret]) := by
  have hlen : i + 2 ≤ code.length := h.le hi
  have hroom : depthAt d code (i + 1) = depthAt d code i + 1 :=
    Occurs.depthAt (Occurs.left (a := [⟨.nil, line⟩]) h)
  refine .cons (.straight h (by omega) hdepth trivial) (covers_one (.last ?_ trivial))
  show 2 ≤ _
  omega

/-- A function that is made of a fitting body is balanced. -/
theorem Function.MadeOf.balanced {f : Function} {bodies : List Block} (h : f.MadeOf bodies) :
    ∃ body ∈ bodies, f.Balanced body := by
  obtain ⟨body, hmem, hfits, lastLine, hf⟩ := h
  have hcode : f.chunk.code.toList = body.postorder ++ placeOn lastLine [.nil, .ret] := by
    rw [hf]
    rfl
  have hlen : f.chunk.code.toList.length = body.postorder.length + 2 := by
    rw [hcode, List.length_append, length_placeOn]
    rfl
  have hstart : f.depth 0 = 1 + f.arity := rfl
  have hwhole : Occurs f.chunk.code.toList 0 (body.postorder ++ placeOn lastLine [.nil, .ret]) := by
    rw [hcode]
    exact List.prefix_refl _
  -- the body agrees with the depths, by the lemma on blocks at place zero
  have hbody : Covers (1 + f.arity) f.chunk.code.toList (body.placed 0) f.chunk.literals 0
      body.postorder := by
    refine body.covers_postorder 0 hwhole.left ?_ hfits (List.Subset.refl _) (Nat.le_add_right 1 _)
    rw [hlen]
    omega
  have hdone := Block.depthAt_postorder (1 + f.arity) hwhole.left hfits
  have hall : Covers (1 + f.arity) f.chunk.code.toList (body.placed 0) f.chunk.literals 0
      f.chunk.code.toList := by
    -- and so does the return that is added behind it
    have hend : Covers (1 + f.arity) f.chunk.code.toList (body.placed 0) f.chunk.literals
        (0 + body.postorder.length) (placeOn lastLine [.nil, .ret]) := by
      refine covers_epilogue hwhole.right (by omega) ?_
      rw [hdone]
      show 1 ≤ 1 + f.arity + body.locals
      omega
    nth_rewrite 2 [hcode]
    exact hbody.append hend
  have hagrees : ∀ i instruction, f.chunk.instruction? i = some instruction →
      Agrees (1 + f.arity) f.chunk.code.toList (body.placed 0) f.chunk.literals i instruction := by
    intro i instruction hi
    obtain ⟨p, hp, rfl⟩ := Chunk.instruction?_eq_some hi
    have hp' := hall i p hp
    rw [Nat.zero_add] at hp'
    exact hp'
  -- the properties are read off instruction by instruction, or statement by statement
  refine ⟨body, hmem, ⟨lastLine, hcode⟩, hstart, ?_, ?_, ?_, ?_, ?_, ?_, ?_, ?_, ?_⟩
  · intro i instruction hi
    rw [← Array.length_toList]
    exact (hagrees i instruction hi).edges
  · intro i offset hi
    exact (hagrees i _ hi).back offset rfl
  · intro i instruction hi
    exact (hagrees i instruction hi).room
  · rw [Chunk.instruction?_eq, ← Array.length_toList, hlen, hcode,
      List.getElem?_append_right (by omega)]
    simp [placeOn]
  · intro i instruction slot hi hslot
    exact (hagrees i instruction hi).slots slot hslot
  · intro i instruction slot hi hslot
    exact (hagrees i instruction hi).below slot hslot
  · intro i instruction hi
    exact (hagrees i instruction hi).names
  · intro q hq
    obtain ⟨hoccurs, hq'⟩ := body.placed_spec 0 hwhole.left hfits hq
    refine ⟨hoccurs, ?_⟩
    exact Stmt.depthAt_postorder _ hoccurs hq'
  · intro i b dropped line hq
    obtain ⟨-, hb, rfl⟩ := body.placed_spec 0 hwhole.left hfits hq
    rw [Stmt.postorder]

end EntityScript
