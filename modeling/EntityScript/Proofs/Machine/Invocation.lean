/-
# Calls are isolated

All calls share one stack.  What a call finds below its own part is left alone for as long as it
lasts, whatever functions and natives it calls and however often it pauses and is resumed, and so
are the calls that wait for it; when it comes to its end, its result lies where it lay itself
(`calls_isolated`).

A call lasts as long as more calls are active than those below it (`Machine.Inside`); what goes on
meanwhile is a step of the program, or something that the host does to a machine that runs
(`Machine.Onward`).
-/
import EntityScript.Proofs.Machine.Calls
import EntityScript.Proofs.Machine.Safety

namespace EntityScript

namespace Machine

/-! ## What goes on -/

/-- What can happen next to a machine that runs a program. -/
inductive Onward : Machine → Machine → Prop where
  | next {m k : Machine} : Exec.step.run m = .ok .next k → Onward m k
  | printed {m k : Machine} {line : String} : Exec.step.run m = .ok (.printed line) k → Onward m k
  | yielded {m k : Machine} : Exec.step.run m = .ok (.exit .yielded) k →
    Onward m (k.exited .yielded)
  /-- The host lets a machine go on that has paused. -/
  | resumed {m : Machine} : m.status = .suspended → Onward m { m with status := .running }
  /-- The host has the output go somewhere else. -/
  | redirected {m : Machine} (sink : Sink) : Onward m { m with sink := sink }

/-- The machines that a machine gets to while more than `depth` calls are active. -/
inductive Inside (depth : Nat) (m : Machine) : Machine → Prop where
  | start : depth < m.frames.length → Inside depth m m
  | onward {k k' : Machine} : Inside depth m k → Onward k k' → depth < k'.frames.length →
    Inside depth m k'

variable {lib : Library} {m m' k : Machine} {depth : Nat}

theorem Inside.deep (h : Inside depth m k) : depth < k.frames.length := by
  cases h with
  | start h => exact h
  | onward _ _ h => exact h

/-- What goes on is a step that does not end the program, or concerns only the status and the
output. -/
theorem Onward.cases (h : Onward m k) :
    (∃ signal m' status, Exec.step.run m = .ok signal m' ∧ signal ≠ .exit .finished ∧
      k = { m' with status := status }) ∨
      ∃ status sink, k = { m with status := status, sink := sink } := by
  cases h with
  | next hstep => exact .inl ⟨.next, k, k.status, hstep, nofun, rfl⟩
  | printed hstep => exact .inl ⟨_, k, k.status, hstep, nofun, rfl⟩
  | yielded hstep => exact .inl ⟨_, _, .suspended, hstep, nofun, rfl⟩
  | resumed => exact .inr ⟨.running, m.sink, rfl⟩
  | redirected sink => exact .inr ⟨m.status, sink, rfl⟩

/-- What a run gets to without an end stays inside, as long as enough calls are active. -/
theorem Inside.interpret (hk : Inside depth m k) {n : Nat} {text : String}
    (h : ∀ j ≤ n, (k.interpret j text).outcome = .unfinished ∧
      depth < (k.interpret j text).machine.frames.length) :
    Inside depth m (k.interpret n text).machine := by
  induction n generalizing k text with
  | zero => exact hk
  | succ n ih =>
    have hone := h 1 (Nat.le_add_left 1 n)
    have hrest (j : Nat) (hj : j ≤ n) := h (j + 1) (Nat.succ_le_succ hj)
    simp only [Machine.interpret] at hone hrest ⊢
    cases hstep : Exec.step.run k with
    | error e k' =>
      rw [hstep] at hone
      cases hone.1
    | ok signal k' =>
      rw [hstep] at hone
      simp only [hstep] at hrest
      cases signal with
      | next => exact ih (hk.onward (.next hstep) hone.2) hrest
      | printed line => exact ih (hk.onward (.printed hstep) hone.2) hrest
      | exit e => cases hone.1

/-! ## One step -/

section

variable {h : Heap} {fr : Frame} {rest frames : List Frame} {s s' : List Value}
  {instruction : Instruction} {signal : Signal}

/-- What lies below the innermost call stays. -/
theorem Turn.low (hturn : Turn h fr rest s instruction signal frames s')
    (hsignal : signal ≠ .exit .finished) :
    s'.take fr.base = s.take fr.base := by
  cases hturn with
  | stays cursor hcall hsignal hbase hlow =>
    have hmin : min fr.base (fr.base + 1) = fr.base := Nat.min_eq_left (Nat.le_succ _)
    rw [← hmin, ← List.take_take, hlow, List.take_take, hmin]
  | answers hs hbase hget hcall =>
    rw [hs, List.take_append_of_le_length (Nat.le_of_lt hbase),
      List.take_append_of_le_length (Nat.le_of_lt hbase)]
  | enters => rfl
  | returns hrest hs hbase =>
    refine List.take_left' ?_
    rw [hs, List.length_take, List.length_append]
    omega
  | ends | stops => exact absurd rfl hsignal

/-- The innermost call goes on, perhaps with another one inside it, or it gives the top value to the
call below. -/
theorem Turn.calls (hturn : Turn h fr rest s instruction signal frames s')
    (hsignal : signal ≠ .exit .finished) :
    (∃ entered cursor, frames = entered ++ { fr with cursor := cursor } :: rest) ∨
      frames = rest ∧ ∃ v, s.getLast? = some v ∧ s' = s.take fr.base ++ [v] := by
  cases hturn with
  | stays cursor => exact .inl ⟨[], cursor, rfl⟩
  | answers => exact .inl ⟨[], _, rfl⟩
  | enters => exact .inl ⟨[_], _, rfl⟩
  | returns hrest hs hbase => exact .inr ⟨rfl, _, by rw [hs, List.getLast?_concat], rfl⟩
  | ends | stops => exact absurd rfl hsignal

/-- A program that ends does so with its script, or because it says so. -/
theorem Turn.finished (hturn : Turn h fr rest s instruction (.exit .finished) frames s') :
    rest = [] ∨ instruction = .stop := by
  cases hturn with
  | stays cursor hcall hsignal => exact absurd rfl hsignal
  | ends hrest => exact .inl hrest
  | stops => exact .inr rfl

/-! ## The time of a call -/

/-- A call of `g` is active above the calls `callers` and the values `below`. -/
structure Invoked (g : Function) (below : List Value) (callers : List Frame) (m : Machine) :
    Prop where
  frames : ∃ inner cursor, m.frames = inner ++ ⟨g, cursor, below.length⟩ :: callers
  stack : m.stack.toList.take below.length = below

variable {g : Function} {below : List Value} {callers : List Frame}

/-- A function that has been called is active above its callers. -/
theorem Invoked.deep (I : Invoked g below callers m) : callers.length < m.frames.length := by
  obtain ⟨inner, cursor, hframes⟩ := I.frames
  rw [hframes, List.length_append, List.length_cons]
  omega

/-- Calls inside a call lie above it. -/
theorem Invoked.base_le (I : Invoked g below callers m) (A : m.Aligned lib)
    (hframes : m.frames = fr :: rest) :
    below.length ≤ fr.base := by
  obtain ⟨inner, cursor, hinner⟩ := I.frames
  rw [hframes] at hinner
  cases inner with
  | nil =>
    obtain ⟨rfl, -⟩ := List.cons.inj hinner
    exact Nat.le_refl _
  | cons fr₁ inner =>
    obtain ⟨rfl, rfl⟩ := List.cons.inj hinner
    rcases A.windows with ⟨hnil, -⟩ | ⟨-, hw⟩
    · rw [hframes] at hnil
      cases hnil
    · rw [hframes] at hw
      obtain ⟨-, -, -, hbases, -⟩ := hw
      exact Nat.le_of_lt (hbases ⟨g, cursor, below.length⟩ (by simp))

/-- A step within a call, or out of it. -/
theorem Invoked.turn (I : Invoked g below callers m) (A : m.Aligned lib)
    (hframes : m.frames = fr :: rest)
    (hturn : Turn h fr rest m.stack.toList instruction signal m'.frames m'.stack.toList)
    (hsignal : signal ≠ .exit .finished) :
    Invoked g below callers m' ∨
      m'.frames = callers ∧ ∃ v, m.stack.toList.getLast? = some v ∧
      m'.stack.toList = below ++ [v] := by
  have hmin : min below.length fr.base = below.length := Nat.min_eq_left (I.base_le A hframes)
  have hstack : m'.stack.toList.take below.length = below := by
    rw [← hmin, ← List.take_take, hturn.low hsignal, List.take_take, hmin]
    exact I.stack
  obtain ⟨inner, cursor, hinner⟩ := I.frames
  rw [hframes] at hinner
  -- either the innermost call is the one of `g`, or it is one inside that
  rcases hturn.calls hsignal with ⟨entered, cursor', hframes'⟩ | ⟨hframes', v, hlast, hs'⟩
  · left
    cases inner with
    | nil =>
      obtain ⟨rfl, rfl⟩ := List.cons.inj hinner
      exact ⟨⟨entered, cursor', hframes'⟩, hstack⟩
    | cons fr₁ inner =>
      obtain ⟨rfl, rfl⟩ := List.cons.inj hinner
      exact ⟨⟨entered ++ { fr with cursor := cursor' } :: inner, cursor, by simp [hframes']⟩,
        hstack⟩
  · cases inner with
    | nil =>
      obtain ⟨rfl, rfl⟩ := List.cons.inj hinner
      right
      rw [I.stack] at hs'
      exact ⟨hframes', v, hlast, hs'⟩
    | cons fr₁ inner =>
      obtain ⟨rfl, rfl⟩ := List.cons.inj hinner
      exact .inl ⟨⟨inner, cursor, hframes'⟩, hstack⟩

end

/-! ## All steps -/

section

variable {g : Function} {below : List Value} {callers : List Frame}

/-- A machine in the midst of a call. -/
structure Busy (lib : Library) (g : Function) (below : List Value) (callers : List Frame)
    (m : Machine) : Prop extends Invoked g below callers m where
  aligned : m.Aligned lib
  limit : m.stack.size ≤ stackLimit

/-- What a host does to a machine that runs does not matter to its calls. -/
theorem Busy.restyle (B : m.Busy lib g below callers) (status : Status) (sink : Sink) :
    ({ m with status := status, sink := sink } : Machine).Busy lib g below callers :=
  ⟨⟨B.frames, B.stack⟩, ⟨B.aligned.heap, B.aligned.windows, B.aligned.own⟩, B.limit⟩

/-- What goes on stays within a call, or leaves it with its result. -/
theorem Busy.onward (B : m.Busy lib g below callers) (h : Onward m k) :
    k.Busy lib g below callers ∨
      k.frames = callers ∧ ∃ v, m.stack.toList.getLast? = some v ∧
      k.stack.toList = below ++ [v] := by
  rcases h.cases with ⟨signal, m', status, hstep, hsignal, rfl⟩ | ⟨status, sink, rfl⟩
  · have hne : m.frames ≠ [] := List.ne_nil_of_length_pos (Nat.zero_lt_of_lt B.deep)
    obtain ⟨fr, rest, hframes⟩ := List.exists_cons_of_ne_nil hne
    obtain ⟨instruction, -, hturn⟩ := B.aligned.turn B.limit hframes hstep
    obtain ⟨A', hlimit', -⟩ := B.aligned.succeeds hne B.limit hstep
    refine (B.turn B.aligned hframes hturn hsignal).imp (fun I' => ?_) id
    exact Busy.restyle ⟨I', A', hlimit'⟩ status m'.sink
  · exact .inl (B.restyle status sink)

/-- A call is busy for as long as it lasts. -/
theorem Busy.inside (B : m.Busy lib g below callers) (h : Inside callers.length m k) :
    k.Busy lib g below callers := by
  induction h with
  | start => exact B
  | onward _ hgoes hdeep ih =>
    refine (ih.onward hgoes).resolve_right fun hleft => ?_
    rw [hleft.1] at hdeep
    exact Nat.lt_irrefl _ hdeep

/-- In the midst of a call a program ends only because it says so. -/
theorem Busy.finished (B : m.Busy lib g below callers) (hcallers : callers ≠ [])
    (hstep : Exec.step.run m = .ok (.exit .finished) k) :
    ∃ fr rest, m.frames = fr :: rest ∧ fr.function.chunk.instruction? fr.cursor = some .stop := by
  obtain ⟨inner, cursor, hinner⟩ := B.frames
  obtain ⟨fr, rest, hframes⟩ := List.exists_cons_of_ne_nil
    (List.ne_nil_of_length_pos (Nat.zero_lt_of_lt B.deep))
  obtain ⟨instruction, hi, hturn⟩ := B.aligned.turn B.limit hframes hstep
  refine ⟨fr, rest, hframes, ?_⟩
  rcases hturn.finished with rfl | rfl
  · -- the innermost call is not the only one
    have hlength := congrArg List.length hframes
    rw [hinner, List.length_append, List.length_cons, List.length_singleton] at hlength
    have hpos := List.length_pos_of_ne_nil hcallers
    omega
  · exact hi

end

end Machine

/-- When a machine that can be reached calls something, a native gives its result in place of itself
and its arguments, while all calls stay; a function begins where it lies on the stack.  As long as
that call lasts, the calls that wait below it and the stack below it stay as they are; it ends with
its top value in its own place.  Otherwise the program goes on within the call, fails, or ends
because it says so. -/
theorem calls_isolated (lib : Library) (host : Host) (hfrom : host.From lib) (m : Machine)
    (hm : Machine.Reachable lib host m) (fr : Frame) (rest : List Frame)
    (hframes : m.frames = fr :: rest) (n : Nat)
    (hcall : fr.function.chunk.instruction? fr.cursor = some (.call n)) (signal : Signal)
    (m₁ : Machine) (hstep : Exec.step.run m = .ok signal m₁) :
    signal = .next ∧ ∃ below arguments ref, m.stack.toList = below ++ .object ref :: arguments ∧
      arguments.length = n ∧
      ((∃ nat v, m.heap.get? ref = some (.native nat) ∧ nat.call arguments = .ok v ∧
          m₁.frames = { fr with cursor := fr.cursor + 1 } :: rest ∧
          m₁.stack.toList = below ++ [v]) ∨
        ∃ g, m.heap.get? ref = some (.function g) ∧ g.arity = n ∧
          m₁.frames = ⟨g, 0, below.length⟩ :: { fr with cursor := fr.cursor + 1 } :: rest ∧
          m₁.stack = m.stack ∧
          ∀ k, Machine.Inside (rest.length + 1) m₁ k →
            (∃ inner cursor, k.frames =
              inner ++ ⟨g, cursor, below.length⟩ :: { fr with cursor := fr.cursor + 1 } :: rest) ∧
            k.stack.toList.take below.length = below ∧
            (∀ k', Machine.Onward k k' → rest.length + 1 < k'.frames.length ∨
              k'.frames = { fr with cursor := fr.cursor + 1 } :: rest ∧
                ∃ v, k.stack.toList.getLast? = some v ∧ k'.stack.toList = below ++ [v]) ∧
            ∀ k', Exec.step.run k = .ok (.exit .finished) k' →
              ∃ inner outer, k.frames = inner :: outer ∧
                inner.function.chunk.instruction? inner.cursor = some .stop) := by
  have S := (hm.sound hfrom).1
  have hne : m.frames ≠ [] := hframes ▸ List.cons_ne_nil _ _
  have A := S.aligned hne
  obtain ⟨instruction, hi, hturn⟩ := A.turn S.limit hframes hstep
  -- of the turns that the step can take two are calls
  obtain rfl := Option.some.inj (hcall.symm.trans hi)
  generalize hframes₁ : m₁.frames = frames at hturn
  generalize hstack₁ : m₁.stack.toList = s at hturn
  cases hturn with
  -- a call does not just go on
  | stays cursor hother => exact absurd rfl (hother n)
  | answers hs hbase hget hv => exact ⟨rfl, _, _, _, hs, rfl, .inl ⟨_, _, hget, hv, rfl, rfl⟩⟩
  | @enters below arguments ref g hs hbase hget harity hdepth =>
    have hstack := Array.toList_inj.mp hstack₁
    refine ⟨rfl, below, arguments, ref, hs, rfl,
      .inr ⟨g, hget, harity, rfl, hstack, fun k hk => ?_⟩⟩
    have hlow : m₁.stack.toList.take below.length = below := by rw [hstack, hs, List.take_left]
    obtain ⟨A₁, hlimit₁, -⟩ := A.succeeds hne S.limit hstep
    -- the function that is entered keeps what lies below it for as long as it is active
    have B₁ : m₁.Busy lib g below ({ fr with cursor := fr.cursor + 1 } :: rest) :=
      ⟨⟨⟨[], 0, hframes₁⟩, hlow⟩, A₁, hlimit₁⟩
    have B := B₁.inside hk
    exact ⟨B.frames, B.stack, fun k' hgoes => (B.onward hgoes).imp (fun B' => B'.deep) id,
      fun k' hends => B.finished (List.cons_ne_nil _ _) hends⟩

/-- In the midst of its loop the script calls the function of its host, and after four more
instructions this call still lasts. -/
theorem doubling_calls :
    (Machine.doubling 9).frames.map (fun fr => fr.function.chunk.instruction? fr.cursor) =
    [some (.call 1)] ∧
    (Machine.doubling 9).stack.size = 3 ∧
    ∀ j < 5, ((Machine.doubling 9).interpret (j + 1) "").outcome = .unfinished ∧
      1 < ((Machine.doubling 9).interpret (j + 1) "").machine.frames.length := by
  decide +kernel

/-- All the while the script waits, and slot zero of the stack is left alone. -/
theorem calls_isolated_doubling :
    ∃ fr m₁, (Machine.doubling 9).frames = [fr] ∧
    Exec.step.run (Machine.doubling 9) = .ok .next m₁ ∧
      Machine.Inside 1 m₁ (m₁.interpret 4 "").machine ∧
      ∀ k, Machine.Inside 1 m₁ k → k.frames.getLast? = some { fr with cursor := fr.cursor + 1 } ∧
        k.stack.toList.take 1 = (Machine.doubling 9).stack.toList.take 1 := by
  obtain ⟨host, hfrom, -, hm⟩ := reachable_doubling 9
  obtain ⟨hcursor, hsize, hdeep⟩ := doubling_calls
  obtain ⟨fr, hframes, hcall⟩ := List.map_eq_singleton_iff.mp hcursor
  simp only [Machine.interpret] at hdeep
  cases hstep : Exec.step.run (Machine.doubling 9) with
  | error e k =>
    rw [hstep] at hdeep
    cases (hdeep 0 (Nat.succ_pos 4)).1
  | ok signal m₁ =>
    obtain ⟨rfl, below, arguments, ref, hstack, harguments, hcases⟩ :=
      calls_isolated _ host hfrom _ hm fr [] hframes 1 hcall signal m₁ hstep
    simp only [hstep] at hdeep
    have hstart : Machine.Inside 1 m₁ m₁ := .start (hdeep 0 (Nat.succ_pos 4)).2
    refine ⟨fr, m₁, hframes, rfl, hstart.interpret fun j hj => hdeep j (Nat.lt_succ_of_le hj),
      fun k hk => ?_⟩
    rcases hcases with ⟨nat, v, -, -, hframes₁, -⟩ | ⟨g, -, -, -, -, hinside⟩
    · have hone := hstart.deep
      rw [hframes₁] at hone
      exact absurd hone (Nat.lt_irrefl 1)
    · obtain ⟨⟨inner, cursor, hinner⟩, hlow, -⟩ := hinside k hk
      have hbelow : below.length = 1 := by
        have hlength := congrArg List.length hstack
        rw [Array.length_toList, hsize, List.length_append, List.length_cons, harguments] at hlength
        omega
      rw [hinner, hstack, ← hbelow, hlow, List.take_left]
      exact ⟨by simp, rfl⟩

end EntityScript
