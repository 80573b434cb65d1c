/-
# Executing statements

The code of a statement does what the statement means (`Clause.follows`): it goes on behind its own
end with the locals that the statement leaves, or it comes to a return of the function.  From this
follow the bodies of functions (`follows_body`) and calls to any depth (`Activation.calls_invoke`).
-/
import EntityScript.Proofs.Machine.Evaluation

namespace EntityScript

open Exec Machine

namespace Activation

/-- The cursor is at a return of the active call, and the value that is returned is on top of the
stack. -/
def Returning (a : Activation) (v : Value) (w : World) (m : Machine) : Prop :=
  ∃ (k : Machine) (j : Nat) (s : List Value), m = k.on (a.frame j :: a.rest) (a.low ++ s ++ [v]) ∧
    a.function.chunk.instruction? j = some .ret ∧ k.Mirrors w

/-- What the code of a statement comes to: the place behind it, with the locals that it leaves, or a
return. -/
def Executed (a : Activation) (names : List String) (j : Nat) (flow : Flow) (w : World)
    (m : Machine) : Prop :=
  match flow with
  | .next => w.names = names ∧ a.Shows j w [] m
  | .returned v => a.Returning v w m

/-- Code from the place `i` to the place `j` pushes a value that means `x`, wherever these locals
are there. -/
def Gives (a : Activation) (fuel : Nat) (names : List String) (i j : Nat) (x : Act Value) : Prop :=
  ∀ w m, w.names = names → a.Shows i w [] m → m.stack.size ≤ stackLimit →
    Follows fuel m (a.Evaluated w j []) (x w)

/-- Code from the place `i` to the place `j` does what `x` means, wherever these locals are there,
and leaves no others. -/
def Runs (a : Activation) (fuel : Nat) (names : List String) (i j : Nat) (x : Act Flow) : Prop :=
  ∀ w m, w.names = names → a.Shows i w [] m → m.stack.size ≤ stackLimit →
    Follows fuel m (a.Executed names j) (x w)

end Activation

section

variable {fuel : Nat} {a : Activation} {i : Nat} {w : World} {m : Machine}

/-! ## Declarations and output -/

/-- Dropping the top value. -/
theorem follows_pop {α : Type} {post : α → World → Machine → Prop} {u : Value}
    {x : List Observation × Except Halt (α × World)}
    (hi : a.function.chunk.instruction? i = some .pop)
    (hm : a.Shows i w [u] m) (hlimit : m.stack.size ≤ stackLimit)
    (hx : ∀ m', m'.stack.size ≤ stackLimit → a.Shows (i + 1) w [] m' → Follows fuel m' post x) :
    Follows fuel m post x := by
  have hm' : a.Shows i w ([] ++ [u]) m := hm
  obtain ⟨k, rfl, hk, hlimit, hbase⟩ := hm'.under hlimit
  have hmeets : Meets (Exec.execute .pop)
    (k.on (a.frame (i + 1) :: a.rest) (a.low ++ w.values ++ [] ++ [u])) _ :=
    meets_pop hbase
  have hnext := Follows.next hi hmeets hlimit (fun hlimit' => hx _ hlimit' ⟨k, rfl, hk⟩)
  exact hnext.mono (Nat.le_succ fuel)

/-- A computation whose result is not needed. -/
theorem follows_discard {α : Type} {post : α → World → Machine → Prop} {x : Act α}
    (hx : Follows fuel m post (x w)) :
    Follows fuel m (fun _ w' m' => ∃ u, post u w' m') ((discard x : Act Unit) w) := by
  show Follows fuel m _ ((x >>= fun _ => pure ()) w)
  refine hx.bind ?_
  intro u w' m' hlimit hpost
  exact .pure hlimit ⟨u, hpost⟩

/-- The top value becomes a variable. -/
theorem follows_define {top : Bool} {x : String} {v : Variable} {line : Nat}
    (hv : v.Declares a.literals top x) (u : Value) (hcode : a.Has i (placeOn line v.place.definer))
    (hm : a.Shows i w [u] m) (hlimit : m.stack.size ≤ stackLimit) :
    Follows fuel m (fun _ w' m' => w'.names = (if top then w.names else x :: w.names) ∧
      a.Shows (i + v.place.definer.length) w' [] m') (Act.define top x u w) := by
  rw [Act.define, Act.bind_eq_ok (show Act.world w = _ from rfl)]
  obtain ⟨y, place⟩ := v
  cases place with
  | slot n =>
    obtain rfl : top = false := hv
    obtain ⟨k, rfl, hk⟩ := hm
    refine .pure hlimit ⟨rfl, k, ?_, hk.heap, hk.globals, hk.sink⟩
    simp [World.values, Place.definer]
  | global index =>
    obtain ⟨rfl, hl⟩ := hv
    have hm' : a.Shows i w ([] ++ [u]) m := hm
    obtain ⟨k, rfl, hk, hlimit, hbase⟩ := hm'.under hlimit
    have hmeets : Meets (Exec.execute (.defineGlobal index)) (k.on (a.frame (i + 1) :: a.rest)
        (a.low ++ w.values ++ [] ++ [u])) _ := meets_defineGlobal hl hbase
    rw [hk.globals] at hmeets
    exact .result hcode.instruction hmeets hlimit
      ⟨rfl, { k with globals := w.globals.insert x u }, rfl, hk.heap, rfl, hk.sink⟩

/-- Printing the top value. -/
theorem follows_print (u : Value) (hi : a.function.chunk.instruction? i = some .print)
    (hm : a.Shows i w [u] m) (hlimit : m.stack.size ≤ stackLimit) :
    Follows fuel m (fun _ w' m' => w' = w ∧ a.Shows (i + 1) w' [] m') (Act.print u w) := by
  have hm' : a.Shows i w ([] ++ [u]) m := hm
  obtain ⟨k, rfl, hk, hlimit, hbase⟩ := hm'.under hlimit
  have hmeets : Meets (Exec.execute .print)
    (k.on (a.frame (i + 1) :: a.rest) (a.low ++ w.values ++ [] ++ [u])) _ :=
    meets_print hbase
  rw [Machine.display, hk.heap.display_eq, hk.sink] at hmeets
  rw [Act.print, Act.bind_eq_ok (show Act.world w = _ from rfl)]
  cases hsink : w.sink with
  | accepting =>
    simp only [hsink] at hmeets ⊢
    exact .shown _ hi hmeets hlimit (fun k hk => by rw [Machine.advance, hk]) rfl ⟨rfl, k, rfl, hk⟩
  | broken reason =>
    simp only [hsink] at hmeets ⊢
    exact .fails hi hmeets

/-! ## Pauses and ends -/

/-- A pause lets the caller see that the script has yielded, and nothing has changed when it goes
on. -/
theorem follows_yield (hi : a.function.chunk.instruction? i = some .yield) (hm : a.Shows i w [] m)
    (hlimit : m.stack.size ≤ stackLimit) :
    Follows fuel m (fun _ w' m' => w' = w ∧ a.Shows (i + 1) w' [] m')
      (Act.observe [.exited .yielded] w) := by
  obtain ⟨k, rfl, hk⟩ := hm
  simp only [on_stack, List.size_toArray] at hlimit
  have hmeets : Meets (Exec.execute .yield)
    (k.on (a.frame (i + 1) :: a.rest) (a.low ++ w.values ++ [])) _ :=
    meets_yield
  have hadvance : ∀ m : Machine,
      Exec.step.run m = .ok (.exit .yielded)
      (k.on (a.frame (i + 1) :: a.rest) (a.low ++ w.values ++ [])) →
      m.advance = ([.exited .yielded], some
        ({ k with status := .running }.on (a.frame (i + 1) :: a.rest)
        (a.low ++ w.values ++ []))) := by
    intro m hm
    rw [Machine.advance, hm]
    rfl
  exact .shown _ hi hmeets hlimit hadvance rfl ⟨rfl, _, rfl, hk.heap, hk.globals, hk.sink⟩

/-- A stop ends everything that is active. -/
theorem follows_stop {α : Type} {post : α → World → Machine → Prop}
    (hi : a.function.chunk.instruction? i = some .stop) (hm : a.Shows i w [] m)
    (hlimit : m.stack.size ≤ stackLimit) : Follows fuel m post (Act.halt .stopped w) := by
  obtain ⟨k, rfl, hk⟩ := hm
  simp only [on_stack, List.size_toArray] at hlimit
  rcases advance_of_meets hi meets_stop hlimit with hfull | ⟨hstep, -⟩
  · exact .full (hfull _)
  · exact .stopped (k := 1) (watch_finished hstep)

/-! ## Branches -/

/-- Jumping ahead. -/
theorem follows_jump {α : Type} {post : α → World → Machine → Prop} {offset : Nat}
    {x : List Observation × Except Halt (α × World)}
    (hi : a.function.chunk.instruction? i = some (.jump offset)) (hm : a.Shows i w [] m)
    (hlimit : m.stack.size ≤ stackLimit)
    (hx : ∀ m', m'.stack.size ≤ stackLimit → a.Shows (i + 1 + offset) w [] m' →
      Follows fuel m' post x) :
    Follows fuel m post x := by
  obtain ⟨k, rfl, hk⟩ := hm
  simp only [on_stack, List.size_toArray] at hlimit
  have hmeets : Meets (Exec.execute (.jump offset))
    (k.on (a.frame (i + 1) :: a.rest) (a.low ++ w.values ++ [])) _ :=
    meets_jump offset
  have hnext := Follows.next hi hmeets hlimit (fun hlimit' => hx _ hlimit' ⟨k, rfl, hk⟩)
  exact hnext.mono (Nat.le_succ fuel)

/-- Going back to the start of a loop, which counts as one of the rounds. -/
theorem follows_back {α : Type} {post : α → World → Machine → Prop} {offset j : Nat}
    {x : List Observation × Except Halt (α × World)}
    (hi : a.function.chunk.instruction? i = some (.loop offset)) (hj : j + offset = i + 1)
    (hm : a.Shows i w [] m) (hlimit : m.stack.size ≤ stackLimit)
    (hx : ∀ m', m'.stack.size ≤ stackLimit → a.Shows j w [] m' → Follows fuel m' post x) :
    Follows (fuel + 1) m post x := by
  obtain ⟨k, rfl, hk⟩ := hm
  simp only [on_stack, List.size_toArray] at hlimit
  have hle : offset ≤ (a.frame (i + 1)).cursor := by
    show offset ≤ i + 1
    omega
  have hmeets : Meets (Exec.execute (.loop offset))
    (k.on (a.frame (i + 1) :: a.rest) (a.low ++ w.values ++ [])) _ :=
    meets_loop hle
  refine Follows.next hi hmeets hlimit (fun hlimit' => hx _ hlimit' ⟨k, ?_, hk⟩)
  obtain rfl : j = i + 1 - offset := by omega
  rfl

/-- A branch on the top value, which is dropped on both ways. -/
theorem follows_branch {α : Type} {post : α → World → Machine → Prop} {offset : Nat} {u : Value}
    {x y : Act α} (hjump : a.function.chunk.instruction? i = some (.jumpIfFalse offset))
    (hpop : a.function.chunk.instruction? (i + 1) = some .pop)
    (hpop' : a.function.chunk.instruction? (i + 1 + offset) = some .pop)
    (hm : a.Shows i w [u] m) (hlimit : m.stack.size ≤ stackLimit)
    (hx : ∀ m', m'.stack.size ≤ stackLimit → a.Shows (i + 1 + offset + 1) w [] m' →
      Follows fuel m' post (x w))
    (hy : ∀ m', m'.stack.size ≤ stackLimit → a.Shows (i + 2) w [] m' → Follows fuel m' post (y w)) :
    Follows fuel m post ((if u = .bool false then x else y) w) := by
  obtain ⟨k, rfl, hk⟩ := hm
  simp only [on_stack, List.size_toArray] at hlimit
  have hmeets : Meets (Exec.execute (.jumpIfFalse offset)) (k.on (a.frame (i + 1) :: a.rest)
      (a.low ++ w.values ++ [u])) _ := meets_jumpIfFalse offset
  by_cases hu : u = .bool false
  · rw [if_pos hu] at hmeets ⊢
    have hnext := Follows.next hjump hmeets hlimit
      (fun hlimit' => follows_pop hpop' ⟨k, rfl, hk⟩ hlimit' hx)
    exact hnext.mono (Nat.le_succ fuel)
  · rw [if_neg hu] at hmeets ⊢
    have hnext := Follows.next hjump hmeets hlimit
      (fun hlimit' => follows_pop hpop ⟨k, rfl, hk⟩ hlimit' hy)
    exact hnext.mono (Nat.le_succ fuel)

end

/-! ## Scopes -/

namespace Clause

/-- Statements only put further locals before those that are there. -/
theorem suffix_scope (top : Bool) (names : List String) (s : Clause) :
    names <:+ s.scope top names := by
  cases s with
  | declare x _ _ _ | function _ x _ _ _ =>
    cases top with
    | true => exact List.suffix_rfl
    | false => exact List.suffix_cons x names
  | expr | print | ifThen | ifElse | loop | ret | yield | stop | block => exact List.suffix_rfl

/-- The locals before some statements are still there after them, as the outermost ones. -/
theorem suffix_scopes (top : Bool) (names : List String) (ss : List Clause) :
    names <:+ ss.foldl (fun ns s => s.scope top ns) names := by
  induction ss generalizing names with
  | nil => exact List.suffix_rfl
  | cons s ss ih => exact (s.suffix_scope top names).trans (ih _)

end Clause

/-- The code of a block is the code of its statements, one after the other. -/
theorem Block.postorder_eq (b : Block) : b.postorder = b.toList.flatMap Stmt.postorder := by
  match b with
  | .empty => rfl
  | .append before last => simp [Block.postorder, Block.toList, before.postorder_eq]

section

variable {fuel : Nat} {a : Activation} {i : Nat} {w : World} {m : Machine}

/-- A machine that returns does so in every world with the same globals and things. -/
theorem Activation.Returning.congr {v : Value} {w' : World} (h : a.Returning v w m)
    (hstore : w'.store = w.store) (hglobals : w'.globals = w.globals) (hsink : w'.sink = w.sink) :
    a.Returning v w' m := by
  obtain ⟨k, j, s, hm, hi, hk⟩ := h
  refine ⟨k, j, s, hm, hi, ?_, ?_, ?_⟩
  · rw [hstore]
    exact hk.heap
  · rw [hglobals]
    exact hk.globals
  · rw [hsink]
    exact hk.sink

/-- Dropping the nearest locals. -/
theorem follows_pops {α : Type} {post : α → World → Machine → Prop} {line : Nat}
    {x : List Observation × Except Halt (α × World)} (n : Nat)
    (hcode : a.Has i (List.replicate n ⟨.pop, line⟩)) (hn : n ≤ w.locals.length)
    (hm : a.Shows i w [] m) (hlimit : m.stack.size ≤ stackLimit)
    (hx : ∀ m', m'.stack.size ≤ stackLimit →
      a.Shows (i + n) { w with locals := w.locals.drop n } [] m' → Follows fuel m' post x) :
    Follows fuel m post x := by
  induction n generalizing i w m with
  | zero => exact hx m hlimit hm
  | succ n ih =>
    obtain ⟨⟨y, u⟩, locals, hlocals⟩ : ∃ l ls, w.locals = l :: ls :=
      List.exists_cons_of_length_pos (by omega)
    -- the nearest local is the value on top
    have htop : a.Shows i { w with locals := locals } [u] m := by
      obtain ⟨k, rfl, hk⟩ := hm
      exact ⟨k, by simp [World.values, hlocals], hk.heap, hk.globals, hk.sink⟩
    refine follows_pop hcode.instruction htop hlimit ?_
    intro m' hlimit' hm'
    refine ih (Occurs.tail hcode) ?_ hm' hlimit' ?_
    · rw [hlocals, List.length_cons] at hn
      exact Nat.le_of_succ_le_succ hn
    · intro m'' hlimit'' hm''
      refine hx m'' hlimit'' ?_
      rw [hlocals, List.drop_succ_cons, Nat.add_comm n 1, ← Nat.add_assoc]
      exact hm''

/-- The end of a block. -/
theorem follows_forget {inner names : List String} {line n : Nat} {flow : Flow}
    (hcode : a.Has i (List.replicate n ⟨.pop, line⟩)) (hm : a.Executed names i flow w m)
    (hsuffix : inner <:+ names) (hlength : names.length = inner.length + n)
    (hlimit : m.stack.size ≤ stackLimit) :
    Follows fuel m (a.Executed inner (i + n))
      ((do Act.forget inner.length; return flow : Act Flow) w) := by
  have hforget : Act.forget inner.length w =
      ([], .ok ((), { w with locals := w.locals.drop (w.locals.length - inner.length) })) := rfl
  rw [Act.bind_eq_ok hforget]
  cases flow with
  | returned v => exact .pure hlimit (hm.congr rfl rfl rfl)
  | next =>
    obtain ⟨hnames, hm⟩ := hm
    have hcount : w.locals.length = inner.length + n := by
      rw [← hlength, ← hnames, World.names, List.length_map]
    rw [hcount, Nat.add_sub_cancel_left]
    refine follows_pops n hcode (by omega) hm hlimit ?_
    intro m' hlimit' hm'
    refine .pure hlimit' ⟨?_, hm'⟩
    obtain ⟨new, rfl⟩ := hsuffix
    have hnew : new.length = n := by
      rw [List.length_append] at hlength
      omega
    rw [World.names, List.map_drop, ← World.names, hnames, ← hnew, List.drop_left]

end

/-! ## Statements -/

/-- The place after a branch with a condition, a body and two more instructions. -/
theorem length_branch (i : Nat) (test body : List Placed) (p q p' q' : Placed) :
    i + (test ++ [p, q] ++ body ++ [p', q']).length = i + test.length + 2 + body.length + 2 := by
  simp only [List.length_append, List.length_cons, List.length_nil]
  omega

section

variable {fuel : Nat} {a : Activation} {i : Nat} {w : World} {m : Machine}

/-- A condition with its jump: its value is dropped on both ways. -/
theorem follows_test {α : Type} {post : α → World → Machine → Prop} {test more : List Placed}
    {b line line' : Nat} {u : Value} {x y : Act α}
    (htest : a.Has i (test ++ [⟨.jumpIfFalse (b + 2), line⟩, ⟨.pop, line⟩]))
    (hdrop : a.Has (i + test.length + 2 + b + 1) (⟨.pop, line'⟩ :: more))
    (hm : a.Shows (i + test.length) w [u] m) (hlimit : m.stack.size ≤ stackLimit)
    (hx : ∀ m', m'.stack.size ≤ stackLimit → a.Shows (i + test.length + 2 + b + 2) w [] m' →
      Follows fuel m' post (x w))
    (hy : ∀ m', m'.stack.size ≤ stackLimit → a.Shows (i + test.length + 2) w [] m' →
      Follows fuel m' post (y w)) :
    Follows fuel m post ((if u = .bool false then x else y) w) := by
  have hjump : a.Has (i + test.length) [⟨.jumpIfFalse (b + 2), line⟩, ⟨.pop, line⟩] :=
    Occurs.right htest
  have hpop : a.Has (i + test.length + 1) [⟨.pop, line⟩] := Occurs.tail hjump
  have hdrop' : a.Has (i + test.length + 1 + (b + 2)) (⟨.pop, line'⟩ :: more) :=
    Occurs.cast hdrop (by omega)
  refine follows_branch hjump.instruction hpop.instruction hdrop'.instruction hm hlimit ?_ hy
  intro m' hlimit' hm'
  have hplace : i + test.length + 1 + (b + 2) + 1 = i + test.length + 2 + b + 2 := by omega
  rw [hplace] at hm'
  exact hx m' hlimit' hm'

/-- A loop whose condition and body can be followed. -/
theorem follows_loop {cond : Act Value} {body : Act Flow} {names : List String} {test : List Placed}
    {b line line' : Nat} (htest : a.Has i (test ++ [⟨.jumpIfFalse (b + 2), line⟩, ⟨.pop, line⟩]))
    (hback : a.Has (i + test.length + 2 + b)
      [⟨.loop (test.length + b + 3), line'⟩, ⟨.pop, line'⟩])
    (hcond : a.Gives fuel names i (i + test.length) cond)
    (hbody : a.Runs fuel names (i + test.length + 2) (i + test.length + 2 + b) body)
    (n : Nat) (hn : n ≤ fuel) (hw : w.names = names) (hm : a.Shows i w [] m)
    (hlimit : m.stack.size ≤ stackLimit) :
    Follows n m (a.Executed names (i + test.length + 2 + b + 2)) (Act.loop n cond body w) := by
  -- the rounds that are left bound the instructions from below, because each round has a jump back
  induction n generalizing w m with
  | zero => exact .timeout (k := 0) (Nat.zero_le 0) rfl
  | succ n ih =>
    rw [Act.loop]
    refine ((hcond w m hw hm hlimit).mono hn).bind ?_
    rintro u w' m' hlimit' ⟨hnames, hm'⟩
    have hw' : w'.names = names := hnames.trans hw
    refine follows_test htest (Occurs.tail hback) hm' hlimit' ?_ ?_
    · intro m'' hlimit'' hm''
      exact .pure hlimit'' ⟨hw', hm''⟩
    · intro m'' hlimit'' hm''
      refine ((hbody w' m'' hw' hm'' hlimit'').mono hn).bind ?_
      intro flow w'' m₃ hlimit₃ hflow
      cases flow with
      | returned v => exact .pure hlimit₃ hflow
      | next =>
        obtain ⟨hw'', hm₃⟩ := hflow
        refine follows_back hback.instruction (show i + (test.length + b + 3) = _ by omega) hm₃
          hlimit₃ ?_
        intro m₄ hlimit₄ hm₄
        exact ih (Nat.le_of_succ_le hn) hw'' hm₄ hlimit₄

/-- Jumping ahead after a branch, unless it returns. -/
theorem Activation.Executed.ahead {names : List String} {flow : Flow} {offset j : Nat}
    (h : a.Executed names i flow w m) (hi : a.function.chunk.instruction? i = some (.jump offset))
    (hj : i + 1 + offset = j) (hlimit : m.stack.size ≤ stackLimit) :
    Follows fuel m (a.Executed names j) ([], .ok (flow, w)) := by
  cases flow with
  | returned v => exact .pure hlimit h
  | next =>
    obtain ⟨hnames, hm⟩ := h
    refine follows_jump hi hm hlimit ?_
    intro m' hlimit' hm'
    rw [hj] at hm'
    exact .pure hlimit' ⟨hnames, hm'⟩

/-- A conditional with two branches that can be followed. -/
theorem follows_ifElse {cond : Act Value} {x y : Act Flow} {names : List String}
    {test body other : List Placed} {line line' : Nat}
    (hcode : a.Has i (test ++ [⟨.jumpIfFalse (body.length + 2), line⟩, ⟨.pop, line⟩] ++ body ++
      ([⟨.jump (other.length + 1), line'⟩, ⟨.pop, line'⟩] ++ other)))
    (hcond : a.Gives fuel names i (i + test.length) cond)
    (hbody : a.Runs fuel names (i + test.length + 2) (i + test.length + 2 + body.length) x)
    (hother : a.Runs fuel names (i + test.length + 2 + body.length + 2)
      (i + test.length + 2 + body.length + 2 + other.length) y) :
    a.Runs fuel names i (i + test.length + 2 + body.length + 2 + other.length)
      (do if (← cond) = .bool false then y else x) := by
  intro w m hw hm hlimit
  obtain ⟨htest, -, hend⟩ := Occurs.branch hcode
  refine (hcond w m hw hm hlimit).bind ?_
  rintro u w' m' hlimit' ⟨hnames, hm'⟩
  have hw' : w'.names = names := hnames.trans hw
  refine follows_test htest (Occurs.tail hend) hm' hlimit' ?_ ?_
  · intro m'' hlimit'' hm''
    exact hother w' m'' hw' hm'' hlimit''
  · intro m'' hlimit'' hm''
    exact (hbody w' m'' hw' hm'' hlimit'').onward fun _ _ _ hlimit₃ h =>
      h.ahead (Activation.Has.instruction hend) (by omega) hlimit₃

/-- A conditional without another branch, whose condition and body can be followed.  What stands for
the other branch is empty. -/
theorem follows_ifThen {cond : Act Value} {x : Act Flow} {names : List String}
    {test body : List Placed} {line line' : Nat}
    (hcode : a.Has i (test ++ [⟨.jumpIfFalse (body.length + 2), line⟩, ⟨.pop, line⟩] ++ body ++
      [⟨.jump 1, line'⟩, ⟨.pop, line'⟩]))
    (hcond : a.Gives fuel names i (i + test.length) cond)
    (hbody : a.Runs fuel names (i + test.length + 2) (i + test.length + 2 + body.length) x) :
    a.Runs fuel names i (i + test.length + 2 + body.length + 2)
      (do if (← cond) = .bool false then return .next else x) := by
  have hparts : a.Has i (test ++ [⟨.jumpIfFalse (body.length + 2), line⟩, ⟨.pop, line⟩] ++ body ++
      ([⟨.jump (([] : List Placed).length + 1), line'⟩, ⟨.pop, line'⟩] ++ [])) := hcode
  have hother : a.Runs fuel names (i + test.length + 2 + body.length + 2)
      (i + test.length + 2 + body.length + 2 + ([] : List Placed).length) (return .next) :=
    fun _ _ hw hm hlimit => .pure hlimit ⟨hw, hm⟩
  exact follows_ifElse hparts hcond hbody hother

/-- A declaration whose value can be followed. -/
theorem follows_declaration {value : Act Value} {top : Bool} {x : String} {v : Variable}
    {line : Nat} (hv : v.Declares a.literals top x)
    (hvalue : Follows fuel m (a.Evaluated w i []) (value w))
    (hcode : a.Has i (placeOn line v.place.definer)) :
    Follows fuel m (a.Executed (if top then w.names else x :: w.names) (i + v.place.definer.length))
      ((do Act.define top x (← value); return .next : Act Flow) w) := by
  refine hvalue.bind ?_
  rintro u w' m' hlimit' ⟨hnames, hm'⟩
  refine (follows_define hv u hcode hm' hlimit').bind ?_
  rintro - w'' m'' hlimit'' ⟨hnames', hm''⟩
  rw [hnames] at hnames'
  exact .pure hlimit'' ⟨hnames', hm''⟩

/-- A block whose statements can be followed, and whose locals are dropped at its end. -/
theorem follows_block {x : Act Flow} {names : List String} {j n line : Nat}
    (hx : Follows fuel m (a.Executed names j) (x w))
    (hcode : a.Has j (List.replicate n ⟨.pop, line⟩)) (hsuffix : w.names <:+ names)
    (hlength : names.length = w.names.length + n) :
    Follows fuel m (a.Executed w.names (j + n))
      ((do
        let outer := (← Act.world).locals.length
        let flow ← x
        Act.forget outer
        return flow : Act Flow) w) := by
  rw [Act.bind_eq_ok (show Act.world w = _ from rfl)]
  refine hx.bind ?_
  intro flow w' m' hlimit' hflow
  have hcount : w.locals.length = w.names.length := (List.length_map _).symm
  rw [hcount]
  exact follows_forget hcode hflow hsuffix hlength hlimit'

/-- The code of an expression pushes its value wherever the locals are there. -/
theorem Term.gives {env : Env} (hcalls : a.Calls env) (e : Term) {names : List String} {t : Expr}
    (h : e.Stands a.literals names t) (hcode : a.Has i t.postorder) :
    a.Gives env.fuel names i (i + t.postorder.length) (e.eval env) := by
  intro w m hw hm hlimit
  rw [← hw] at h
  exact Term.follows hcalls e h hcode hm hlimit

/-- A statement that can be followed, and leaves no locals. -/
theorem Clause.runs_of_follows {env : Env} {s : Clause} {top : Bool} {names : List String} {j : Nat}
    (hs : ∀ w m, w.names = names → a.Shows i w [] m → m.stack.size ≤ stackLimit →
      Follows env.fuel m (a.Executed (s.scope top w.names) j) (s.exec env top w))
    (hscope : s.scope top names = names) : a.Runs env.fuel names i j (s.exec env top) := by
  intro w m hw hm hlimit
  have hfollows := hs w m hw hm hlimit
  rw [hw, hscope] at hfollows
  exact hfollows

end

mutual

/-- The code of a statement does what the statement means. -/
theorem Clause.follows {env : Env} {a : Activation} (hcalls : a.Calls env) (s : Clause) {top : Bool}
    {t : Stmt} {i : Nat} {w : World} {m : Machine} (h : s.Stands env.unit a.literals top w.names t)
    (hcode : a.Has i t.postorder) (hm : a.Shows i w [] m) (hlimit : m.stack.size ≤ stackLimit) :
    Follows env.fuel m (a.Executed (s.scope top w.names) (i + t.postorder.length))
      (s.exec env top w) := by
  cases s with
  | expr e line =>
    cases h with
    | @expr _ _ _ _ t _ _ h =>
      rw [Clause.exec, Stmt.postorder, List.length_append, ← Nat.add_assoc]
      refine Follows.bind (follows_discard (Term.follows hcalls e h (Occurs.left hcode) hm hlimit))
        ?_
      rintro - w' m' hlimit' ⟨u, hnames, hm'⟩
      exact follows_pop hcode.last hm' hlimit'
        (fun m'' hlimit'' hm'' => .pure hlimit'' ⟨hnames, hm''⟩)
  | print e line =>
    cases h with
    | @print _ _ _ _ t _ _ h =>
      rw [Clause.exec, Stmt.postorder, List.length_append, ← Nat.add_assoc]
      refine (Term.follows hcalls e h (Occurs.left hcode) hm hlimit).bind ?_
      rintro u w' m' hlimit' ⟨hnames, hm'⟩
      refine (follows_print u hcode.last hm' hlimit').bind ?_
      rintro - _ m'' hlimit'' ⟨rfl, hm''⟩
      exact .pure hlimit'' ⟨hnames, hm''⟩
  | declare x nameLine init line =>
    cases h with
    | @declare _ _ _ _ v _ t _ _ _ h hv =>
      rw [Clause.exec, Stmt.postorder, List.length_append, length_placeOn, ← Nat.add_assoc]
      exact follows_declaration hv (follows_value hcalls h (Occurs.left hcode) hm hlimit)
        (Occurs.right hcode)
  | function site x parameters body line =>
    cases h with
    | @function _ inner _ _ _ v _ _ b _ index last _ _ hindex hbody hv =>
      rw [Clause.exec, Stmt.postorder, List.length_append, length_placeOn, ← Nat.add_assoc]
      have hliteral : a.Has i [⟨.literal index, _⟩] := Occurs.left hcode
      refine follows_declaration hv (follows_refer hliteral.instruction hindex ?_ hm hlimit)
        (Occurs.right hcode)
      intro heap s hs
      have hcompiled : Routine.Compiled ⟨⟨env.unit, site⟩, some x, parameters, body⟩
          (.ofBody ⟨env.unit, site⟩ (some x) parameters.length inner b last) :=
          ⟨b, last, rfl, hbody⟩
      obtain ⟨href, hheap⟩ := hs.routine hcompiled
      exact ⟨congrArg Value.object href, hheap, (Heap.function_spec hs.canonical _).2.2⟩
  | ifThen cond line body =>
    cases h with
    | @ifThen _ _ _ _ t _ b _ l l' hcond hbody hscope =>
      obtain ⟨htest, hthen, -⟩ := Occurs.branch hcode
      rw [Clause.exec, Stmt.postorder, length_branch]
      refine follows_ifThen hcode (Term.gives hcalls cond hcond (Occurs.left htest))
        (Clause.runs_of_follows ?_ hscope) w m rfl hm hlimit
      intro w' m' hw' hm' hlimit'
      rw [← hw'] at hbody
      exact Clause.follows hcalls body hbody hthen hm' hlimit'
  | ifElse cond line body other =>
    cases h with
    | @ifElse _ _ _ _ t _ _ b d _ l l' hcond hbody hscope hother hscope' =>
      have hparts : a.Has i (t.postorder ++
        [⟨.jumpIfFalse (b.postorder.length + 2), l⟩, ⟨.pop, l⟩] ++
          b.postorder ++ ([⟨.jump (d.postorder.length + 1), l'⟩, ⟨.pop, l'⟩] ++ d.postorder)) := by
        rw [← List.append_assoc]
        exact hcode
      obtain ⟨htest, hthen, hend⟩ := Occurs.branch hparts
      rw [Clause.exec, Stmt.postorder, List.length_append, ← Nat.add_assoc, length_branch]
      refine follows_ifElse hparts (Term.gives hcalls cond hcond (Occurs.left htest))
        (Clause.runs_of_follows ?_ hscope) (Clause.runs_of_follows ?_ hscope') w m rfl hm hlimit
      · intro w' m' hw' hm' hlimit'
        rw [← hw'] at hbody
        exact Clause.follows hcalls body hbody hthen hm' hlimit'
      · intro w' m' hw' hm' hlimit'
        rw [← hw'] at hother
        exact Clause.follows hcalls other hother (Occurs.right hend) hm' hlimit'
  | loop cond line body =>
    cases h with
    | @loop _ _ _ _ t _ b _ l l' hcond hbody hscope =>
      obtain ⟨htest, hrepeat, hback⟩ := Occurs.branch hcode
      rw [Clause.exec, Stmt.postorder, length_branch]
      refine follows_loop htest hback (Term.gives hcalls cond hcond (Occurs.left htest))
        (Clause.runs_of_follows ?_ hscope) env.fuel (Nat.le_refl _) rfl hm hlimit
      intro w' m' hw' hm' hlimit'
      rw [← hw'] at hbody
      exact Clause.follows hcalls body hbody hrepeat hm' hlimit'
  | ret value line =>
    cases h with
    | @ret _ _ _ _ t _ _ h =>
      rw [Clause.exec]
      refine (follows_value hcalls h (Occurs.left hcode) hm hlimit).bind ?_
      rintro u w' m' hlimit' ⟨-, k, rfl, hk⟩
      refine .pure hlimit' ⟨k, _, w'.values, rfl, hcode.last, hk⟩
  | yield line =>
    cases h
    rw [Clause.exec]
    refine (follows_yield hcode.instruction hm hlimit).bind ?_
    rintro - _ m' hlimit' ⟨rfl, hm'⟩
    exact .pure hlimit' ⟨rfl, hm'⟩
  | stop line =>
    cases h
    exact follows_stop hcode.instruction hm hlimit
  | block body line =>
    cases h with
    | @block _ _ _ _ b dropped _ _ hall hlength =>
      rw [Clause.exec, Stmt.postorder, List.length_append, List.length_replicate, ← Nat.add_assoc]
      rw [Stmt.postorder] at hcode
      have hblock : a.Has i (b.toList.flatMap Stmt.postorder) := by
        rw [← b.postorder_eq]
        exact Occurs.left hcode
      have hbody := Clause.followsAll hcalls body hall hblock hm hlimit
      rw [← b.postorder_eq] at hbody
      exact follows_block hbody (Occurs.right hcode) (Clause.suffix_scopes _ _ _) hlength

/-- The code of statements does what they mean, one after the other. -/
theorem Clause.followsAll {env : Env} {a : Activation} (hcalls : a.Calls env) (ss : List Clause)
    {top : Bool} {ts : List Stmt} {i : Nat} {w : World} {m : Machine}
    (h : Clause.StandsAll env.unit a.literals top w.names ss ts)
    (hcode : a.Has i (ts.flatMap Stmt.postorder)) (hm : a.Shows i w [] m)
    (hlimit : m.stack.size ≤ stackLimit) :
    Follows env.fuel m (a.Executed (ss.foldl (fun ns s => s.scope top ns) w.names)
      (i + (ts.flatMap Stmt.postorder).length)) (Clause.execAll env top ss w) := by
  cases ss with
  | nil =>
    cases h
    exact .pure hlimit ⟨rfl, hm⟩
  | cons s ss =>
    cases h with
    | @cons _ _ _ _ _ t ts h hall =>
      rw [List.flatMap_cons] at hcode ⊢
      rw [Clause.execAll, List.length_append, ← Nat.add_assoc, List.foldl_cons]
      refine (Clause.follows hcalls s h (Occurs.left hcode) hm hlimit).bind ?_
      intro flow w' m' hlimit' hflow
      cases flow with
      | returned v => exact .pure hlimit' hflow
      | next =>
        obtain ⟨hnames, hm'⟩ := hflow
        rw [← hnames] at hall ⊢
        exact Clause.followsAll hcalls ss hall (Occurs.right hcode) hm' hlimit'

end

/-! ## Functions -/

section

variable {env : Env} {a : Activation} {w : World} {m : Machine}

/-- The body of a function comes to a return, with nil if it ends. -/
theorem follows_body (hcalls : a.Calls env) {r : Routine} (hr : r.Compiled a.function)
    (hunit : env.unit = r.id.unit) (hw : w.names = r.parameters.reverse) (hm : a.Shows 0 w [] m)
    (hlimit : m.stack.size ≤ stackLimit) :
    Follows env.fuel m (fun flow w' m' => a.Returning flow.result w' m')
      (Clause.execAll env r.name.isNone r.body w) := by
  obtain ⟨body, last, hf, hstands⟩ := hr
  have hcode : a.Has 0 (body.toList.flatMap Stmt.postorder ++ placeOn last [.nil, .ret]) := by
    have hself : a.function.chunk.code.toList = body.toList.flatMap Stmt.postorder ++
        placeOn last [.nil, .ret] := by
      rw [hf, ← body.postorder_eq]
      simp [Function.ofBody]
    rw [Activation.Has, hself]
    exact List.prefix_rfl
  rw [← hunit, ← hw] at hstands
  refine (Clause.followsAll hcalls r.body hstands (Occurs.left hcode) hm hlimit).onward ?_
  intro flow w' m' hlimit' hflow
  cases flow with
  | returned v => exact .pure hlimit' hflow
  | next =>
    obtain ⟨-, k, rfl, hk⟩ := hflow
    simp only [on_stack, List.size_toArray] at hlimit'
    have hend : a.Has _ (placeOn last [.nil, .ret]) := Occurs.right hcode
    have hret : a.Has _ (placeOn last [.ret]) := Occurs.tail hend
    exact .result hend.instruction meets_nil hlimit'
      ⟨k, _, w'.values, by rw [List.append_nil]; rfl, hret.instruction, hk⟩

end

/-- The locals of a call are its arguments. -/
theorem locals_of_arguments (w : World) {parameters : List String} {arguments : List Value}
    (h : parameters.length = arguments.length) :
    ({ w with locals := (parameters.zip arguments).reverse } : World).names = parameters.reverse ∧
      ({ w with locals := (parameters.zip arguments).reverse } : World).values = arguments := by
  constructor
  · rw [World.names, List.map_reverse, List.map_fst_zip (Nat.le_of_eq h)]
  · rw [World.values, List.map_reverse, List.reverse_reverse,
      List.map_snd_zip (Nat.le_of_eq h.symm)]

/-- Leaving a call that is not the last one. -/
theorem follows_leave {α : Type} {fuel : Nat} {a : Activation} {v : Value} {w : World} {m : Machine}
    {post : α → World → Machine → Prop} {result : α} {w' : World} {next : Frame} {rest : List Frame}
    (hrest : a.rest = next :: rest) (hm : a.Returning v w m) (hlimit : m.stack.size ≤ stackLimit)
    (hpost : ∀ k : Machine, k.Mirrors w →
      post result w' (k.on (next :: rest) (a.low.take a.base ++ [v]))) :
    Follows fuel m post ([], .ok (result, w')) := by
  obtain ⟨k, j, s, rfl, hret, hk⟩ := hm
  simp only [on_stack, List.size_toArray, List.length_append, a.low_length] at hlimit
  have hbase : (a.frame (j + 1)).base < (a.low ++ s).length := by
    show a.base < _
    rw [List.length_append, a.low_length]
    omega
  have hmeets : Meets (Exec.execute .ret)
    (k.on (a.frame (j + 1) :: a.rest) (a.low ++ s ++ [v])) _ :=
    meets_ret hbase (show a.base < stackLimit by omega)
  rw [hrest] at hmeets ⊢
  have htake : (a.low ++ s).take a.base = a.low.take a.base :=
    List.take_append_of_le_length (by rw [a.low_length]; omega)
  simp only [List.isEmpty_cons, Bool.false_eq_true, if_false] at hmeets
  refine .result hret hmeets ?_ ?_
  · rw [List.length_append, List.length_append, a.low_length]
    exact hlimit
  · show post result w' (k.on (next :: rest) ((a.low ++ s).take a.base ++ [v]))
    rw [htake]
    exact hpost k hk

/-- Calls of compiled functions do what calls of the functions that are written do, as long as there
may be more active calls and also when there may not. -/
theorem Activation.calls_invoke (fuel n : Nat) (a : Activation)
    (hn : a.rest.length + 1 + n = frameLimit) (unit : Nat) :
    a.Calls ⟨unit, fuel, Routine.invoke fuel n⟩ := by
  induction n generalizing a unit with
  | zero =>
    intro k w i s arguments ref r f hi hf hr harity hk hlimit
    have hmeets : Meets (Exec.execute (.call arguments.length)) (k.on (a.frame (i + 1) :: a.rest)
        (s ++ .object ref :: arguments)) _ := meets_call_function hf
    have hfull : frameLimit ≤ (a.frame (i + 1) :: a.rest).length := by
      rw [List.length_cons]
      omega
    rw [hr.arity_eq, if_neg (not_not.mpr harity), if_pos hfull] at hmeets
    exact .fails hi hmeets
  | succ n ih =>
    intro k w i s arguments ref r f hi hf hr harity hk hlimit
    have hmeets : Meets (Exec.execute (.call arguments.length)) (k.on (a.frame (i + 1) :: a.rest)
        (s ++ .object ref :: arguments)) _ := meets_call_function hf
    have hroom : ¬ frameLimit ≤ (a.frame (i + 1) :: a.rest).length := by
      rw [List.length_cons]
      omega
    rw [hr.arity_eq, if_neg (not_not.mpr harity), if_neg hroom] at hmeets
    -- the new call finds the function and the arguments on the stack
    let b : Activation := ⟨f, a.frame (i + 1) :: a.rest, s ++ [.object ref], s.length, by simp⟩
    obtain ⟨hnames, hvalues⟩ := locals_of_arguments w harity
    have hb : b.Shows 0 { w with locals := (r.parameters.zip arguments).reverse } []
        (k.on (⟨f, 0, s.length⟩ :: a.frame (i + 1) :: a.rest) (s ++ .object ref :: arguments)) := by
      refine ⟨k, ?_, hk.heap, hk.globals, hk.sink⟩
      rw [hvalues]
      simp [b, Activation.frame]
    have hdepth : b.rest.length + 1 + n = frameLimit := by
      show a.rest.length + 1 + 1 + n = frameLimit
      omega
    have hcalls : b.Calls ⟨r.id.unit, fuel, Routine.invoke fuel n⟩ := ih b hdepth r.id.unit
    refine (Follows.next hi hmeets hlimit ?_).mono (Nat.le_succ fuel)
    intro hlimit'
    show Follows fuel _ _ (Routine.invoke fuel (n + 1) r arguments w)
    rw [Routine.invoke, Act.bind_eq_ok (show Act.world w = _ from rfl),
      Act.bind_eq_ok (show Act.become _ w = _ from rfl)]
    refine (follows_body hcalls hr rfl hnames hb hlimit').bind ?_
    intro flow w' m' hlimit'' hm'
    refine follows_leave (a := b) rfl hm' hlimit'' ?_
    intro k' hk'
    refine ⟨rfl, k', ?_, hk'.heap, hk'.globals, hk'.sink⟩
    show k'.on (a.frame (i + 1) :: a.rest)
      ((s ++ [Value.object ref]).take s.length ++ [flow.result]) = _
    rw [List.take_left]

end EntityScript
