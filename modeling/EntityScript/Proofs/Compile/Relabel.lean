/-
# Code under other labels

Lines and the numbers of compilations are labels: they say where code comes from, not what it does.
A relabelling changes them, and may put errors that were found before in front of others
(`Relabel`).  Everything else stays: names, numbers of parameters, instructions, and literals with
the functions among them.  The code of a relabelled tree is the relabelled code of the tree
(`Expr.emit_relabel`, `Block.emit_relabel`).
-/
import EntityScript.Compile.Diagnostic
import EntityScript.Tree.Assembly

namespace EntityScript

/-- Other lines, another number of the compilation, and errors found before. -/
structure Relabel where
  line : Nat → Nat
  unit : Nat → Nat
  earlier : List Diagnostic
  /-- Line zero, which no token has, is that of code that never runs. -/
  line_zero : line 0 = 0

/-- All lines and all compilations alike. -/
def Relabel.bare : Relabel :=
  ⟨fun _ => 0, fun _ => 0, [], rfl⟩

/-- Errors found before, and all labels as they are. -/
def Relabel.after (earlier : List Diagnostic) : Relabel :=
  ⟨id, id, earlier, rfl⟩

def Token.relabel (r : Relabel) (t : Token) : Token :=
  { t with line := r.line t.line }

def Diagnostic.relabel (r : Relabel) (d : Diagnostic) : Diagnostic :=
  { d with line := r.line d.line }

def Placed.relabel (r : Relabel) (p : Placed) : Placed :=
  { p with line := r.line p.line }

/-! ## Code -/

mutual

def Function.relabel (r : Relabel) : Function → Function
  | ⟨id, name, arity, chunk⟩ => ⟨⟨r.unit id.unit, id.serial⟩, name, arity, chunk.relabel r⟩

def Chunk.relabel (r : Relabel) : Chunk → Chunk
  | ⟨code, literals⟩ => ⟨code.map (Placed.relabel r), Literal.relabelAll r literals⟩

def Literal.relabel (r : Relabel) : Literal → Literal
  | .int n => .int n
  | .float bits => .float bits
  | .string text => .string text
  | .function f => .function (f.relabel r)

def Literal.relabelAll (r : Relabel) : List Literal → List Literal
  | [] => []
  | l :: ls => l.relabel r :: Literal.relabelAll r ls

end

def Program.relabel (r : Relabel) (p : Program) : Program :=
  { p with main := p.main.relabel r }

/-! ## Trees -/

mutual

def Expr.relabel (r : Relabel) : Expr → Expr
  | .nil line => .nil (r.line line)
  | .bool b line => .bool b (r.line line)
  | .int n index line => .int n index (r.line line)
  | .float bits index line => .float bits index (r.line line)
  | .string text index line => .string text index (r.line line)
  | .get v line => .get v (r.line line)
  | .set v value line => .set v (value.relabel r) (r.line line)
  | .member e m line => .member (e.relabel r) m (r.line line)
  | .setMember v m value line => .setMember v m (value.relabel r) (r.line line)
  | .unary op e line => .unary op (e.relabel r) (r.line line)
  | .binary op lhs rhs line => .binary op (lhs.relabel r) (rhs.relabel r) (r.line line)
  | .call callee arguments line =>
    .call (callee.relabel r) (Expr.relabelAll r arguments) (r.line line)
  | .invalid size => .invalid size

def Expr.relabelAll (r : Relabel) : List Expr → List Expr
  | [] => []
  | e :: es => e.relabel r :: Expr.relabelAll r es

end

mutual

def Stmt.relabel (r : Relabel) : Stmt → Stmt
  | .expr e line => .expr (e.relabel r) (r.line line)
  | .print e line => .print (e.relabel r) (r.line line)
  | .declare v init line => .declare v (init.relabel r) (r.line line)
  | .function v parameters body lastLine index line =>
    .function v parameters (body.relabel r) (r.line lastLine) index (r.line line)
  | .ifThen cond body line lastLine =>
    .ifThen (cond.relabel r) (body.relabel r) (r.line line) (r.line lastLine)
  | .ifElse cond body other line lastLine =>
    .ifElse (cond.relabel r) (body.relabel r) (other.relabel r) (r.line line) (r.line lastLine)
  | .loop cond body line lastLine =>
    .loop (cond.relabel r) (body.relabel r) (r.line line) (r.line lastLine)
  | .ret e line => .ret (e.relabel r) (r.line line)
  | .yield line => .yield (r.line line)
  | .stop line => .stop (r.line line)
  | .block body locals line => .block (body.relabel r) locals (r.line line)

def Block.relabel (r : Relabel) : Block → Block
  | .empty => .empty
  | .append before last => .append (before.relabel r) (last.relabel r)

end

section

variable {r : Relabel}

/-- Each literal of several is relabelled. -/
theorem Literal.relabelAll_eq (ls : List Literal) :
    Literal.relabelAll r ls = ls.map (Literal.relabel r) := by
  induction ls with
  | nil => rfl
  | cons l ls ih => rw [Literal.relabelAll, ih, List.map_cons]

@[simp] theorem Literal.length_relabelAll (ls : List Literal) :
    (Literal.relabelAll r ls).length = ls.length := by
  rw [Literal.relabelAll_eq, List.length_map]

@[simp] theorem Literal.relabelAll_append (ls more : List Literal) :
    Literal.relabelAll r (ls ++ more) = Literal.relabelAll r ls ++ Literal.relabelAll r more := by
  simp only [Literal.relabelAll_eq, List.map_append]

/-- A text is found at the same index, whatever the labels of the functions are. -/
@[simp] theorem Literal.indexOfString?_relabelAll (ls : List Literal) (x : String) :
    Literal.indexOfString? (Literal.relabelAll r ls) x = Literal.indexOfString? ls x := by
  have hcomp : Literal.isString x ∘ Literal.relabel r = Literal.isString x :=
    funext fun l => by cases l <;> rfl
  rw [Literal.indexOfString?, Literal.indexOfString?, Literal.relabelAll_eq,
    List.findIdx?_map, hcomp]

theorem Expr.relabelAll_eq (es : List Expr) : Expr.relabelAll r es = es.map (Expr.relabel r) := by
  induction es with
  | nil => rfl
  | cons e es ih => rw [Expr.relabelAll, ih, List.map_cons]

/-- Instructions written on a relabelled line, onto relabelled code. -/
theorem emitOn_relabel (line : Nat) (is : List Instruction) (k : List Placed) :
    emitOn (r.line line) is (k.map (Placed.relabel r)) =
      (emitOn line is k).map (Placed.relabel r) := by
  simp [emitOn, Placed.relabel]

/-! ## The code of a tree -/

mutual

/-- The code of a relabelled expression is its relabelled code, whatever it is written onto. -/
theorem Expr.emit_relabel (e : Expr) (k : List Placed) :
    (e.relabel r).emit (k.map (Placed.relabel r)) = (e.emit k).map (Placed.relabel r) := by
  match e with
  | .nil _ | .bool _ _ | .int _ _ _ | .float _ _ _ | .string _ _ _ | .get _ _ => rfl
  | .set v value line => exact value.emit_relabel (⟨v.place.setter, line⟩ :: k)
  | .member e m line => exact e.emit_relabel (⟨.getMember m, line⟩ :: k)
  | .setMember v m value line => exact value.emit_relabel (⟨v.place.memberSetter m, line⟩ :: k)
  | .unary op e line => exact e.emit_relabel (⟨op.instruction, line⟩ :: k)
  | .binary op lhs rhs line =>
    rw [Expr.relabel, Expr.emit, Expr.emit, emitOn_relabel, rhs.emit_relabel, lhs.emit_relabel]
  | .call callee arguments line =>
    have hlength : (Expr.relabelAll r arguments).length = arguments.length := by
      rw [Expr.relabelAll_eq, List.length_map]
    have harguments := Expr.emitAll_relabel arguments
      (⟨.call (min arguments.length maxArguments), line⟩ :: k)
    rw [Expr.relabel, Expr.emit, Expr.emit, hlength, ← callee.emit_relabel, ← harguments]
    rfl
  | .invalid size => simp [Expr.relabel, Expr.emit, Placed.relabel, r.line_zero]

/-- The code of relabelled arguments is their relabelled code. -/
theorem Expr.emitAll_relabel (es : List Expr) (k : List Placed) :
    Expr.emitAll (Expr.relabelAll r es) (k.map (Placed.relabel r)) =
      (Expr.emitAll es k).map (Placed.relabel r) := by
  match es with
  | [] => rfl
  | e :: es =>
    rw [Expr.relabelAll, Expr.emitAll, Expr.emitAll, Expr.emitAll_relabel es, e.emit_relabel]

end

/-- Labels take up no instructions. -/
@[simp] theorem Expr.size_relabel (e : Expr) : (e.relabel r).size = e.size := by
  have hlength := congrArg List.length (e.emit_relabel (r := r) [])
  rwa [List.length_map, Expr.length_emit, Expr.length_emit] at hlength

/-- Relabelled code is as long as the code, so jumps over it are. -/
theorem Stmt.size_of_emit {s s' : Stmt} (h : s'.emit [] = (s.emit []).map (Placed.relabel r)) :
    s'.size = s.size := by
  have hlength := congrArg List.length h
  rwa [List.length_map, Stmt.length_emit, Stmt.length_emit] at hlength

mutual

/-- The code of a relabelled statement is its relabelled code: jumps depend on lengths alone. -/
theorem Stmt.emit_relabel (s : Stmt) (k : List Placed) :
    (s.relabel r).emit (k.map (Placed.relabel r)) = (s.emit k).map (Placed.relabel r) := by
  match s with
  | .expr e line => exact e.emit_relabel (⟨.pop, line⟩ :: k)
  | .print e line => exact e.emit_relabel (⟨.print, line⟩ :: k)
  | .declare v init line =>
    rw [Stmt.relabel, Stmt.emit, Stmt.emit, emitOn_relabel, init.emit_relabel]
  | .function v _ _ _ index line =>
    rw [Stmt.relabel, Stmt.emit, Stmt.emit, emitOn_relabel]
    rfl
  | .ifThen cond body line lastLine =>
    have hsize := Stmt.size_of_emit (body.emit_relabel [])
    have hbody := body.emit_relabel (⟨.jump 1, lastLine⟩ :: ⟨.pop, lastLine⟩ :: k)
    rw [Stmt.relabel, Stmt.emit, Stmt.emit, skipBody, hsize, ← cond.emit_relabel, List.map_cons,
      List.map_cons, ← hbody]
    rfl
  | .ifElse cond body other line lastLine =>
    have hsize := Stmt.size_of_emit (body.emit_relabel [])
    have hsize' := Stmt.size_of_emit (other.emit_relabel [])
    have hbody := body.emit_relabel
      (⟨.jump (skipOther other), lastLine⟩ :: ⟨.pop, lastLine⟩ :: other.emit k)
    rw [Stmt.relabel, Stmt.emit, Stmt.emit, skipBody, skipOther, hsize, hsize', other.emit_relabel,
      ← cond.emit_relabel, List.map_cons, List.map_cons, ← hbody]
    rfl
  | .loop cond body line lastLine =>
    have hsize := Stmt.size_of_emit (body.emit_relabel [])
    have hbody := body.emit_relabel
      (⟨.loop (loopBack cond body), lastLine⟩ :: ⟨.pop, lastLine⟩ :: k)
    rw [Stmt.relabel, Stmt.emit, Stmt.emit, skipBody, loopBack, hsize, cond.size_relabel,
      ← cond.emit_relabel, List.map_cons, List.map_cons, ← hbody]
    rfl
  | .ret e line => exact e.emit_relabel (⟨.ret, line⟩ :: k)
  | .yield _ | .stop _ => rfl
  | .block body locals line =>
    rw [Stmt.relabel, Stmt.emit, Stmt.emit, emitOn_relabel, body.emit_relabel]

/-- The code of a relabelled block is its relabelled code. -/
theorem Block.emit_relabel (b : Block) (k : List Placed) :
    (b.relabel r).emit (k.map (Placed.relabel r)) = (b.emit k).map (Placed.relabel r) := by
  cases b with
  | empty => rfl
  | append before last =>
    rw [Block.relabel, Block.emit, Block.emit, last.emit_relabel, before.emit_relabel]

end

@[simp] theorem Stmt.size_relabel (s : Stmt) : (s.relabel r).size = s.size :=
  Stmt.size_of_emit (s.emit_relabel [])

@[simp] theorem skipBody_relabel (body : Stmt) : skipBody (body.relabel r) = skipBody body := by
  rw [skipBody, skipBody, body.size_relabel]

@[simp] theorem skipOther_relabel (other : Stmt) :
    skipOther (other.relabel r) = skipOther other := by
  rw [skipOther, skipOther, other.size_relabel]

/-- The jump back to a loop's condition is as long as before. -/
@[simp] theorem loopBack_relabel (cond : Expr) (body : Stmt) :
    loopBack (cond.relabel r) (body.relabel r) = loopBack cond body := by
  rw [loopBack, loopBack, cond.size_relabel, body.size_relabel]

/-- The function of a relabelled body is the relabelled function of the body. -/
theorem Function.assemble_relabel (unit serial : Nat) (name : Option String) (arity : Nat)
    (literals : List Literal) (body : Block) (lastLine : Nat) :
    Function.assemble ⟨r.unit unit, serial⟩ name arity (Literal.relabelAll r literals)
      (body.relabel r)
        (r.line lastLine) =
      (Function.assemble ⟨unit, serial⟩ name arity literals body lastLine).relabel r := by
  have hcode : (body.relabel r).code (r.line lastLine) =
    (body.code lastLine).map (Placed.relabel r) :=
    body.emit_relabel [⟨.nil, lastLine⟩, ⟨.ret, lastLine⟩]
  rw [Function.assemble, Function.assemble, Function.relabel, Chunk.relabel, hcode,
    List.map_toArray]

end

/-! ## Labels that stay -/

mutual

/-- Errors found before are no label of a function. -/
theorem Function.relabel_after (earlier : List Diagnostic) (f : Function) :
    f.relabel (.after earlier) = f := by
  match f with
  | ⟨_, _, _, chunk⟩ => rw [Function.relabel, chunk.relabel_after earlier]; rfl

/-- Nor are they one of its code. -/
theorem Chunk.relabel_after (earlier : List Diagnostic) (c : Chunk) :
    c.relabel (.after earlier) = c := by
  match c with
  | ⟨code, literals⟩ =>
    have hcode : code.map (Placed.relabel (.after earlier)) = code := Array.map_id code
    rw [Chunk.relabel, hcode, Literal.relabelAll_after earlier literals]

/-- Nor are they one of its literals. -/
theorem Literal.relabel_after (earlier : List Diagnostic) (l : Literal) :
    l.relabel (.after earlier) = l := by
  match l with
  | .int _ | .float _ | .string _ => rfl
  | .function f => rw [Literal.relabel, f.relabel_after earlier]

theorem Literal.relabelAll_after (earlier : List Diagnostic) (ls : List Literal) :
    Literal.relabelAll (.after earlier) ls = ls := by
  match ls with
  | [] => rfl
  | l :: ls => rw [Literal.relabelAll, l.relabel_after earlier, Literal.relabelAll_after earlier ls]

end

end EntityScript
